import Mathlib.Order.Basic
import Mathlib.Data.Nat.Init

/-!
# Searching for a run

The search for the first run of `len` numbers that are all free. A start is tried by looking at
its numbers one after the other; when one of them is in use, every start up to it fails with it,
and the search goes on after it.
-/

namespace RunSearch
set_option autoImplicit false

variable (free : Nat → Bool)

/-- The `len` numbers from `i` on are free. -/
def IsRun (len i : Nat) : Prop := ∀ j, i ≤ j → j < i + len → free j = true

instance (len i : Nat) : Decidable (IsRun free len i) :=
  inferInstanceAs (Decidable (∀ j, i ≤ j → j < i + len → free j = true))

/-- No run starts before `i`. -/
def FirstRun (len i : Nat) : Prop := IsRun free len i ∧ ∀ j < i, ¬ IsRun free len j

/-- The first of the `k` numbers from `j` on that is in use. -/
def firstUsed : Nat → Nat → Option Nat
  | 0, _ => none
  | k + 1, j => if free j then firstUsed k (j + 1) else some j

/-- The numbers that `firstUsed` looks at. -/
def looked : Nat → Nat → List Nat
  | 0, _ => []
  | k + 1, j => j :: if free j then looked k (j + 1) else []

/-- The search for a run that starts below `bound`, from `i` on. -/
def search (len bound : Nat) : Nat → Nat → Option (Option Nat)
  | 0, _ => none
  | k + 1, i =>
    if i < bound then
      match firstUsed free len i with
      | some j => search len bound k (j + 1)
      | none => some (some i)
    else some none

/-- The numbers that `search` looks at. -/
def searchLooked (len bound : Nat) : Nat → Nat → List Nat
  | 0, _ => []
  | k + 1, i =>
    if i < bound then
      looked free len i ++
        match firstUsed free len i with
        | some j => searchLooked len bound k (j + 1)
        | none => []
    else []

section
variable {free} {len bound i j k u : Nat}

theorem firstUsed_eq_none : firstUsed free k j = none ↔ IsRun free k j := by
  induction k generalizing j with
  | zero =>
    simp only [firstUsed, true_iff]
    intro t hjt ht
    omega
  | succ k ih =>
    unfold firstUsed
    cases hj : free j with
    | false =>
      rw [if_neg Bool.false_ne_true]
      constructor
      · intro h
        exact absurd h (by simp)
      · intro h
        have htrue := h j (Nat.le_refl j) (by omega)
        exact absurd hj (by rw [htrue]; simp)
    | true =>
      rw [if_pos rfl, ih]
      constructor
      · intro h t hjt ht
        by_cases heq : t = j
        · rw [heq, hj]
        · exact h t (by omega) (by omega)
      · intro h t hjt ht
        exact h t (by omega) (by omega)

theorem firstUsed_eq_some (h : firstUsed free k j = some u) :
    j ≤ u ∧ u < j + k ∧ free u = false ∧ ∀ t, j ≤ t → t < u → free t = true := by
  induction k generalizing j with
  | zero => simp [firstUsed] at h
  | succ k ih =>
    unfold firstUsed at h
    cases hj : free j with
    | false =>
      rw [hj, if_neg Bool.false_ne_true] at h
      obtain rfl : j = u := by simpa using h
      exact ⟨Nat.le_refl j, by omega, hj, fun t hjt ht => by omega⟩
    | true =>
      rw [hj, if_pos rfl] at h
      obtain ⟨hle, hlt, hused, hbefore⟩ := ih h
      refine ⟨by omega, by omega, hused, fun t hjt ht => ?_⟩
      by_cases heq : t = j
      · rw [heq, hj]
      · exact hbefore t (by omega) ht

theorem IsRun.not_of_used (hused : free u = false) (hu : u < i + len) {s : Nat} (his : i ≤ s)
    (hsu : s ≤ u) : ¬ IsRun free len s := by
  intro h
  have htrue := h u hsu (by omega)
  exact absurd hused (by rw [htrue]; simp)

/-- The starts below `i` fail, so the search finds the first run that starts below `bound`. -/
theorem search_eq (hbefore : ∀ s < i, ¬ IsRun free len s) (hk : bound - i < k) :
    (∃ s < bound, FirstRun free len s ∧ search free len bound k i = some (some s)) ∨
      (∀ s < bound, ¬ IsRun free len s) ∧ search free len bound k i = some none := by
  induction k generalizing i with
  | zero => omega
  | succ k ih =>
    unfold search
    by_cases hlt : i < bound
    · rw [if_pos hlt]
      cases hfirst : firstUsed free len i with
      | none => exact Or.inl ⟨i, hlt, ⟨firstUsed_eq_none.mp hfirst, hbefore⟩, rfl⟩
      | some u =>
        obtain ⟨hle, hu, hused, -⟩ := firstUsed_eq_some hfirst
        refine ih (fun s hs => ?_) (by omega)
        by_cases his : i ≤ s
        · exact IsRun.not_of_used hused hu his (by omega)
        · exact hbefore s (by omega)
    · rw [if_neg hlt]
      exact Or.inr ⟨fun s hs => hbefore s (by omega), rfl⟩

theorem looked_lt (h : u ∈ looked free k j) : j ≤ u ∧ u < j + k := by
  induction k generalizing j with
  | zero => simp [looked] at h
  | succ k ih =>
    unfold looked at h
    rcases List.mem_cons.mp h with rfl | hu
    · omega
    · split at hu
      · have hrest := ih hu
        omega
      · simp at hu

theorem searchLooked_lt (h : u ∈ searchLooked free len bound k i) : u + 1 < bound + len := by
  induction k generalizing i with
  | zero => simp [searchLooked] at h
  | succ k ih =>
    unfold searchLooked at h
    split at h
    · rcases List.mem_append.mp h with hu | hu
      · have hlooked := looked_lt hu
        omega
      · split at hu
        · exact ih hu
        · simp at hu
    · simp at h

/-- The numbers are looked at up to the first that is in use. -/
theorem mem_looked (hju : j ≤ u) (hu : u < j + k) (hfree : ∀ t, j ≤ t → t < u → free t = true) :
    u ∈ looked free k j := by
  induction k generalizing j with
  | zero => omega
  | succ k ih =>
    unfold looked
    by_cases heq : u = j
    · exact List.mem_cons.mpr (Or.inl heq)
    · rw [hfree j (Nat.le_refl j) (by omega), if_pos rfl]
      exact List.mem_cons_of_mem j (ih (by omega) (by omega)
        fun t hjt htu => hfree t (by omega) htu)

end
end RunSearch
