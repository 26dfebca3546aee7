import Mathlib.Data.List.GetD

/-!
# Transcripts

Rows of a fixed width written from left to right: a full row, or an explicit new line, starts
the next one. Of all rows a window shows the last few.
-/

set_option autoImplicit false

universe u

/-- The rows above, the first one first, and the row being written, which has room left. -/
structure Transcript (α : Type u) (w : Nat) where
  above : List (List α)
  row : List α
  room : row.length < w

namespace Transcript
variable {α : Type u} {w : Nat}

def empty (hw : 0 < w) : Transcript α w := ⟨[], [], hw⟩

def newLine (t : Transcript α w) : Transcript α w :=
  ⟨t.above ++ [t.row], [], Nat.lt_of_le_of_lt (Nat.zero_le _) t.room⟩

def put (t : Transcript α w) (c : α) : Transcript α w :=
  if h : (t.row ++ [c]).length < w then ⟨t.above, t.row ++ [c], h⟩
  else ⟨t.above ++ [t.row ++ [c]], [], Nat.lt_of_le_of_lt (Nat.zero_le _) t.room⟩

/-- The last `h` rows. -/
def lastRows (h : Nat) (rows : List (List α)) : List (List α) := rows.drop (rows.length - h)

/-- The cell in column `x` of row `j`, where there is none a blank. -/
def cellOf (rows : List (List α)) (blank : α) (x j : Nat) : α := (rows.getD j []).getD x blank

theorem lastRows_length (h : Nat) (rows : List (List α)) :
    (lastRows h rows).length = min rows.length h := by
  unfold lastRows
  rw [List.length_drop]
  omega

theorem cellOf_lastRows (h : Nat) (rows : List (List α)) (blank : α) (x y : Nat) :
    cellOf (lastRows h rows) blank x y = cellOf rows blank x (rows.length - h + y) := by
  unfold cellOf lastRows
  simp only [List.getD_eq_getElem?_getD, List.getElem?_drop]

theorem cellOf_of_length_le {rows : List (List α)} {j : Nat} (h : rows.length ≤ j) (blank : α)
    (x : Nat) : cellOf rows blank x j = blank := by
  unfold cellOf
  rw [List.getD_eq_default _ _ h]
  exact List.getD_nil

theorem getD_concat (l : List α) (a d : α) (j : Nat) :
    (l ++ [a]).getD j d = if j = l.length then a else l.getD j d := by
  rcases Nat.lt_trichotomy j l.length with hlt | heq | hgt
  · rw [List.getD_append _ _ _ _ hlt, if_neg (Nat.ne_of_lt hlt)]
  · rw [List.getD_append_right _ _ _ _ (Nat.le_of_eq heq.symm), heq, Nat.sub_self, if_pos rfl,
      List.getD_cons_zero]
  · have hlen : (l ++ [a]).length ≤ j := by
      rw [List.length_append, List.length_singleton]
      exact hgt
    rw [List.getD_eq_default _ _ hlen, List.getD_eq_default _ _ (Nat.le_of_lt hgt),
      if_neg (Nat.ne_of_gt hgt)]

theorem cellOf_concat_nil (rows : List (List α)) (blank : α) (x j : Nat) :
    cellOf (rows ++ [[]]) blank x j = cellOf rows blank x j := by
  unfold cellOf
  rw [getD_concat]
  split
  · rename_i heq
    rw [List.getD_eq_default rows [] (Nat.le_of_eq heq.symm)]
  · rfl

theorem cellOf_concat (above : List (List α)) (row : List α) (c blank : α) (x j : Nat) :
    cellOf (above ++ [row ++ [c]]) blank x j =
      if j = above.length ∧ x = row.length then c else cellOf (above ++ [row]) blank x j := by
  unfold cellOf
  rw [getD_concat, getD_concat]
  by_cases hj : j = above.length
  · rw [if_pos hj, if_pos hj, getD_concat]
    simp only [hj, true_and]
  · rw [if_neg hj, if_neg hj, if_neg fun h => hj h.1]

end Transcript
