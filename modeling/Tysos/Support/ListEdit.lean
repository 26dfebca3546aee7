import Mathlib.Data.List.Basic
import Mathlib.Logic.Function.Basic

/-!
# Edits of a list at one place

A place of a list splits it. When deleting or writing at one place has the same result as at
another, and when writing through a map of the entries has the result of writing to the list.
-/

namespace ListEdit
set_option autoImplicit false

universe u v
variable {α : Type u} {β : Type v}

theorem exists_split {vs : List α} {i : Nat} (hi : i < vs.length) :
    ∃ us v ws, vs = us ++ v :: ws ∧ us.length = i := by
  refine ⟨vs.take i, vs[i], vs.drop (i + 1), ?_, List.length_take_of_le (Nat.le_of_lt hi)⟩
  rw [List.getElem_cons_drop, List.take_append_drop]

theorem insertIdx_append (us ws : List α) (v : α) :
    (us ++ ws).insertIdx us.length v = us ++ v :: ws := by
  induction us with
  | nil => rfl
  | cons u us ih => exact congrArg (List.cons u) ih

theorem eraseIdx_append (us ws : List α) (v : α) :
    (us ++ v :: ws).eraseIdx us.length = us ++ ws := by
  rw [List.eraseIdx_append_of_length_le (Nat.le_refl _), Nat.sub_self]
  rfl

theorem eraseIdx_eq_iff {vs : List α} {i j : Nat} (hij : j ≤ i) :
    vs.eraseIdx j = vs.eraseIdx i ↔ ∀ n, j ≤ n → n < i → vs[n]? = vs[n + 1]? := by
  constructor
  · intro h n hjn hni
    have hn := congrArg (fun ws : List α => ws[n]?) h
    simp only [List.getElem?_eraseIdx_of_ge hjn, List.getElem?_eraseIdx_of_lt hni] at hn
    exact hn.symm
  · intro h
    apply List.ext_getElem?
    intro n
    rw [List.getElem?_eraseIdx, List.getElem?_eraseIdx]
    by_cases hj : n < j
    · rw [if_pos hj, if_pos (by omega)]
    · by_cases hni : n < i
      · rw [if_neg hj, if_pos hni]
        exact (h n (Nat.not_lt.mp hj) hni).symm
      · rw [if_neg hj, if_neg hni]

theorem set_self_of_getElem? {ws : List α} {n : Nat} {v : α} (h : ws[n]? = some v) :
    ws.set n v = ws := by
  obtain ⟨hn, rfl⟩ := List.getElem?_eq_some_iff.mp h
  exact List.set_getElem_self hn

theorem set_eq_set_iff {ws : List α} {i j : Nat} (hi : i < ws.length) (hj : j < ws.length)
    (hij : j ≠ i) {v : α} : ws.set j v = ws.set i v ↔ ws[i]? = some v ∧ ws[j]? = some v := by
  constructor
  · intro h
    have hat : ∀ n : Nat, (ws.set j v)[n]? = (ws.set i v)[n]? := fun n => by rw [h]
    have h₁ := hat i
    have h₂ := hat j
    rw [List.getElem?_set_ne hij, List.getElem?_set_self hi] at h₁
    rw [List.getElem?_set_ne hij.symm, List.getElem?_set_self hj] at h₂
    exact ⟨h₁, h₂.symm⟩
  · rintro ⟨h₁, h₂⟩
    rw [set_self_of_getElem? h₁, set_self_of_getElem? h₂]

theorem eq_set_iff {ws : List α} {i : Nat} (hi : i < ws.length) {v : α} :
    ws = ws.set i v ↔ ws[i]? = some v := by
  constructor
  · intro h
    rw [h, List.getElem?_set_self hi]
  · exact fun h => (set_self_of_getElem? h).symm

section
variable [DecidableEq α]

theorem getElem?_map_update (vs : List α) (s : α → β) (r : α) (v : β) (n : Nat) :
    (vs.map (Function.update s r v))[n]? = if vs[n]? = some r then some v else vs[n]?.map s := by
  rw [List.getElem?_map]
  cases vs[n]? with
  | none => rfl
  | some t =>
    rw [Option.map_some, Option.map_some, Function.update_apply]
    by_cases ht : t = r
    · rw [if_pos ht, if_pos (congrArg some ht)]
    · rw [if_neg ht, if_neg (mt Option.some.inj ht)]

/-- Where the value of an entry is changed it shows at all places of the entry. -/
theorem map_update_eq_set_iff {vs : List α} {s : α → β} {i : Nat} (hi : i < vs.length) {r : α}
    {v : β} : vs.map (Function.update s r v) = (vs.map s).set i v ↔
      (∀ n ≠ i, vs[n]? = some r → s r = v) ∧ (vs[i]? = some r ∨ vs[i]?.map s = some v) := by
  have hi' : i < (vs.map s).length := by simpa using hi
  constructor
  · intro h
    have hat : ∀ n : Nat, (vs.map (Function.update s r v))[n]? = ((vs.map s).set i v)[n]? :=
      fun n => by rw [h]
    refine ⟨fun n hn hr => ?_, ?_⟩
    · have hshown := hat n
      rw [getElem?_map_update, if_pos hr, List.getElem?_set_ne hn.symm, List.getElem?_map, hr]
        at hshown
      exact (Option.some.inj hshown).symm
    · have hshown := hat i
      rw [getElem?_map_update, List.getElem?_set_self hi'] at hshown
      by_cases hr : vs[i]? = some r
      · exact Or.inl hr
      · rw [if_neg hr] at hshown
        exact Or.inr hshown
  · rintro ⟨hother, hself⟩
    apply List.ext_getElem?
    intro n
    rw [getElem?_map_update]
    by_cases hn : n = i
    · rw [hn, List.getElem?_set_self hi']
      by_cases hr : vs[i]? = some r
      · rw [if_pos hr]
      · rw [if_neg hr]
        exact hself.resolve_left hr
    · rw [List.getElem?_set_ne (Ne.symm hn), List.getElem?_map]
      by_cases hr : vs[n]? = some r
      · rw [if_pos hr, hr, Option.map_some, hother n hn hr]
      · rw [if_neg hr]

end

end ListEdit
