import Mathlib.Data.List.Basic

/-!
# Copying a table into an array

A table is walked from its first entry: `more` decides, from the number of entries already
passed and the place reached, whether there is another entry, and `next` is the place after
it. A copy stops at the end of the table or when the array is full.
-/

namespace TableCopy
set_option autoImplicit false

universe u v

structure Layout (ι : Type u) where
  more : Nat → ι → Bool
  next : ι → ι

variable {ι : Type u} {α : Type v} (L : Layout ι)

/-- The places of the entries from place `a` on, after `i` entries. -/
inductive Walk : Nat → ι → List ι → Prop where
  | stop {i : Nat} {a : ι} : L.more i a = false → Walk i a []
  | entry {i : Nat} {a : ι} {as : List ι} :
      L.more i a = true → Walk (i + 1) (L.next a) as → Walk i a (a :: as)

/-- Room is left for `k` entries from index `i` on; the result has the number of entries. -/
def copy (read : ι → α) : Nat → Nat → ι → (Nat → α) → (Nat → α) × Nat
  | 0, i, _, t => (t, i)
  | k + 1, i, a, t =>
    if L.more i a then
      copy read k (i + 1) (L.next a) (fun j => if j = i then read a else t j)
    else (t, i)

/-- The first `n` entries of an array. -/
def entries (t : Nat → α) (n : Nat) : List α := (List.range n).map t

variable {L}

theorem getElem?_entries (t : Nat → α) (n j : Nat) :
    (entries t n)[j]? = if j < n then some (t j) else none := by
  unfold entries
  rw [List.getElem?_map]
  by_cases hj : j < n
  · rw [List.getElem?_range hj, if_pos hj, Option.map_some]
  · rw [List.getElem?_eq_none (by simpa using hj), if_neg hj, Option.map_none]

theorem entries_modify (t : Nat → α) (n i : Nat) (f : α → α) :
    entries (fun j => if j = i then f (t i) else t j) n = (entries t n).modify i f := by
  apply List.ext_getElem?
  intro j
  rw [getElem?_entries, List.getElem?_modify, getElem?_entries]
  by_cases hj : j < n
  · rw [if_pos hj, if_pos hj]
    by_cases hij : j = i
    · subst i
      simp
    · simp [hij, Ne.symm hij]
  · rw [if_neg hj, if_neg hj]
    rfl

theorem copy_below (read : ι → α) (k : Nat) {i : Nat} (a : ι) (t : Nat → α) {j : Nat}
    (hj : j < i) : (copy L read k i a t).1 j = t j := by
  induction k generalizing i a t with
  | zero => rfl
  | succ k ih =>
    unfold copy
    split
    · rw [ih (L.next a) _ (Nat.lt_succ_of_lt hj), if_neg (Nat.ne_of_lt hj)]
    · rfl

/-- The copy has the entries of the table in order, as many as there is room for. -/
theorem copy_walk (read : ι → α) (k : Nat) {i : Nat} {a : ι} (t : Nat → α) {as : List ι}
    (h : Walk L i a as) :
    (copy L read k i a t).2 = i + min k as.length ∧
      ∀ j b, j < k → as[j]? = some b → (copy L read k i a t).1 (i + j) = read b := by
  induction k generalizing i a t as with
  | zero => exact ⟨by simp [copy], fun j b hj => absurd hj (Nat.not_lt_zero j)⟩
  | succ k ih =>
    unfold copy
    cases h with
    | stop hmore =>
      rw [hmore, if_neg Bool.false_ne_true]
      exact ⟨by simp, fun j b _ hb => absurd hb (by simp)⟩
    | @entry _ _ as hmore hwalk =>
      rw [hmore, if_pos rfl]
      obtain ⟨hcount, hentry⟩ := ih (fun j => if j = i then read a else t j) hwalk
      refine ⟨by rw [hcount, List.length_cons]; omega, fun j b hj hb => ?_⟩
      cases j with
      | zero =>
        obtain rfl : a = b := by simpa using hb
        exact (copy_below read k _ _ (Nat.lt_succ_self i)).trans (if_pos rfl)
      | succ j =>
        rw [← hentry j b (Nat.lt_of_succ_lt_succ hj) (by simpa using hb)]
        rw [Nat.add_assoc, Nat.add_comm 1 j]

theorem count_le (read : ι → α) (k i : Nat) (a : ι) (t : Nat → α) :
    i ≤ (copy L read k i a t).2 ∧ (copy L read k i a t).2 ≤ i + k := by
  induction k generalizing i a t with
  | zero => exact ⟨Nat.le_refl i, Nat.le_refl i⟩
  | succ k ih =>
    unfold copy
    split
    · have hrest := ih (i + 1) (L.next a) fun j => if j = i then read a else t j
      omega
    · exact ⟨Nat.le_refl i, Nat.le_add_right i (k + 1)⟩

/-- A copy with room left has come to the end of the table. -/
theorem walk_of_count_lt (read : ι → α) {k i : Nat} {a : ι} {t : Nat → α}
    (h : (copy L read k i a t).2 < i + k) : ∃ as, Walk L i a as ∧ as.length < k := by
  induction k generalizing i a t with
  | zero => exact absurd h (Nat.lt_irrefl i)
  | succ k ih =>
    unfold copy at h
    cases hmore : L.more i a with
    | false => exact ⟨[], Walk.stop hmore, Nat.succ_pos k⟩
    | true =>
      rw [if_pos hmore] at h
      obtain ⟨as, hwalk, hlen⟩ := ih (Nat.lt_of_lt_of_eq h (by omega))
      exact ⟨a :: as, Walk.entry hmore hwalk, Nat.succ_lt_succ hlen⟩

theorem count_lt_iff (read : ι → α) (k : Nat) {i : Nat} {a : ι} {t : Nat → α} :
    (copy L read k i a t).2 < i + k ↔ ∃ as, Walk L i a as ∧ as.length < k := by
  constructor
  · exact walk_of_count_lt read
  · rintro ⟨as, hwalk, hlen⟩
    rw [(copy_walk read k t hwalk).1, Nat.min_eq_right (Nat.le_of_lt hlen)]
    exact Nat.add_lt_add_left hlen i

theorem entries_copy (read : ι → α) (k : Nat) {a : ι} (t : Nat → α) {as : List ι}
    (h : Walk L 0 a as) :
    entries (copy L read k 0 a t).1 (copy L read k 0 a t).2 = (as.map read).take k := by
  obtain ⟨hcount, hentry⟩ := copy_walk read k t h
  apply List.ext_getElem?
  intro j
  rw [hcount, Nat.zero_add, getElem?_entries, List.getElem?_take, List.getElem?_map]
  by_cases hj : j < min k as.length
  · have hjk : j < k := Nat.lt_of_lt_of_le hj (Nat.min_le_left _ _)
    have hja : j < as.length := Nat.lt_of_lt_of_le hj (Nat.min_le_right _ _)
    have hone := hentry j as[j] hjk (List.getElem?_eq_getElem hja)
    rw [Nat.zero_add] at hone
    rw [if_pos hj, if_pos hjk, List.getElem?_eq_getElem hja, Option.map_some, hone]
  · rw [if_neg hj]
    split
    · rw [List.getElem?_eq_none (by omega), Option.map_none]
    · rfl

/-- A table with a number of entries. -/
def counted (num : Nat) (next : ι → ι) : Layout ι := ⟨fun i _ => i < num, next⟩

/-- The places of the entries of a counted table. -/
def places (next : ι → ι) : Nat → ι → List ι
  | 0, _ => []
  | n + 1, a => a :: places next n (next a)

theorem walk_counted {next : ι → ι} {n i num : Nat} (hn : i + n = num) (a : ι) :
    Walk (counted num next) i a (places next n a) := by
  induction n generalizing i a with
  | zero => exact Walk.stop (decide_eq_false (by omega))
  | succ n ih => exact Walk.entry (decide_eq_true (by omega)) (ih (by omega) (next a))

@[simp] theorem length_places (next : ι → ι) (n : Nat) (a : ι) :
    (places next n a).length = n := by
  induction n generalizing a with
  | zero => rfl
  | succ n ih => rw [places, List.length_cons, ih]

end TableCopy
