import Mathlib.Data.List.Basic
import Mathlib.Order.Lattice.Nat

/-!
# Strings that end in a zero

A text is what is seen from a place on: the character there, the one after it and so on. It
spells a list of characters if these come first, none of them zero, and then a zero.
-/

namespace CString
set_option autoImplicit false

universe u

/-- The characters from a place on. -/
abbrev Text (α : Type u) := Nat → α

variable {α : Type u}

/-- The same text from `n` characters further on. -/
def Text.drop (t : Text α) (n : Nat) : Text α := fun k => t (n + k)

@[simp] theorem Text.drop_apply (t : Text α) (n k : Nat) : t.drop n k = t (n + k) := rfl

@[simp] theorem Text.drop_zero (t : Text α) : t.drop 0 = t := by
  funext k
  rw [Text.drop_apply, Nat.zero_add]

@[simp] theorem Text.drop_drop (t : Text α) (n k : Nat) :
    (t.drop n).drop k = t.drop (n + k) := by
  funext j
  simp only [Text.drop_apply, Nat.add_assoc]

variable [Zero α]

/-- The text begins with `cs`, terminated. -/
def Spells : Text α → List α → Prop
  | t, [] => t 0 = 0
  | t, c :: cs => t 0 = c ∧ c ≠ 0 ∧ Spells (t.drop 1) cs

instance decidableSpells [DecidableEq α] :
    (t : Text α) → (cs : List α) → Decidable (Spells t cs)
  | t, [] => inferInstanceAs (Decidable (t 0 = 0))
  | t, c :: cs =>
    have := decidableSpells (t.drop 1) cs
    inferInstanceAs (Decidable (t 0 = c ∧ c ≠ 0 ∧ Spells (t.drop 1) cs))

theorem spells_cons {t : Text α} {c : α} {cs : List α} :
    Spells t (c :: cs) ↔ t 0 = c ∧ c ≠ 0 ∧ Spells (t.drop 1) cs := Iff.rfl

theorem spells_append {t : Text α} {cs ds : List α} :
    Spells t (cs ++ ds) ↔
      (∀ i (hi : i < cs.length), t i = cs[i] ∧ cs[i] ≠ 0) ∧ Spells (t.drop cs.length) ds := by
  induction cs generalizing t with
  | nil => simp
  | cons c cs ih =>
    have hdrop : t.drop (1 + cs.length) = t.drop (c :: cs).length := by
      rw [List.length_cons, Nat.add_comm]
    rw [List.cons_append, spells_cons, ih, Text.drop_drop, hdrop]
    constructor
    · rintro ⟨h₀, hne, hcs, hds⟩
      refine ⟨fun i hi => ?_, hds⟩
      cases i with
      | zero => exact ⟨h₀, hne⟩
      | succ i =>
        have hi := hcs i (Nat.lt_of_succ_lt_succ hi)
        rw [Text.drop_apply, Nat.add_comm] at hi
        exact hi
    · intro h
      obtain ⟨hcs, hds⟩ := h
      have h₀ := hcs 0 (Nat.succ_pos _)
      refine ⟨h₀.1, h₀.2, fun i hi => ?_, hds⟩
      rw [Text.drop_apply, Nat.add_comm]
      exact hcs (i + 1) (Nat.succ_lt_succ hi)

theorem spells_iff {t : Text α} {cs : List α} :
    Spells t cs ↔ (∀ i (hi : i < cs.length), t i = cs[i] ∧ cs[i] ≠ 0) ∧ t cs.length = 0 := by
  have h : Spells t (cs ++ []) ↔ _ := spells_append
  rw [List.append_nil] at h
  exact h

namespace Spells
variable {t t' : Text α} {cs ds : List α}

theorem char (h : Spells t cs) {i : Nat} (hi : i < cs.length) : t i = cs[i] :=
  ((spells_iff.mp h).1 i hi).1

theorem ne_zero (h : Spells t cs) {i : Nat} (hi : i < cs.length) : t i ≠ 0 := by
  rw [h.char hi]
  exact ((spells_iff.mp h).1 i hi).2

theorem nul (h : Spells t cs) : t cs.length = 0 := (spells_iff.mp h).2

theorem congr (h : Spells t cs) (hsame : ∀ i ≤ cs.length, t' i = t i) : Spells t' cs := by
  refine spells_iff.mpr ⟨fun i hi => ?_, ?_⟩
  · rw [hsame i (Nat.le_of_lt hi)]
    exact (spells_iff.mp h).1 i hi
  · rw [hsame cs.length (Nat.le_refl _)]
    exact h.nul

theorem unique (h : Spells t cs) (h' : Spells t ds) : cs = ds := by
  induction cs generalizing t ds with
  | nil =>
    cases ds with
    | nil => rfl
    | cons d ds => exact absurd (h'.1.symm.trans h) h'.2.1
  | cons c cs ih =>
    cases ds with
    | nil => exact absurd (h.1.symm.trans h') h.2.1
    | cons d ds =>
      obtain ⟨rfl, -, hcs⟩ := h
      obtain ⟨rfl, -, hds⟩ := h'
      rw [ih hcs hds]

theorem map_range (h : Spells t cs) : (List.range cs.length).map t = cs := by
  apply List.ext_getElem
  · rw [List.length_map, List.length_range]
  · intro i hi hi'
    rw [List.getElem_map, List.getElem_range]
    exact h.char hi'

end Spells

/-- How long the string is that a text spells. -/
noncomputable def length (t : Text α) : Nat := sInf {n | t n = 0}

theorem Spells.length_eq {t : Text α} {cs : List α} (h : Spells t cs) : length t = cs.length := by
  refine le_antisymm (Nat.sInf_le h.nul) ?_
  refine le_csInf ⟨cs.length, h.nul⟩ fun n hn => ?_
  by_contra hlt
  exact h.ne_zero (Nat.lt_of_not_le hlt) hn

theorem exists_spells {t : Text α} (h : ∃ n, t n = 0) : ∃ cs, Spells t cs := by
  classical
  refine ⟨(List.range (Nat.find h)).map t, spells_iff.mpr ⟨fun i hi => ?_, ?_⟩⟩
  · rw [List.length_map, List.length_range] at hi
    rw [List.getElem_map, List.getElem_range]
    exact ⟨rfl, Nat.find_min h hi⟩
  · rw [List.length_map, List.length_range]
    exact Nat.find_spec h

/-- Look for the zero with at most `fuel` looks, `n` characters having been passed. -/
def scan [DecidableEq α] (t : Text α) : Nat → Nat → Option Nat
  | 0, _ => none
  | fuel + 1, n => if t n = 0 then some n else scan t fuel (n + 1)

section Scan
variable [DecidableEq α] {t : Text α} {cs : List α}

theorem Spells.scan_eq (h : Spells t cs) {fuel n : Nat} (hn : n ≤ cs.length)
    (hfuel : cs.length < n + fuel) : scan t fuel n = some cs.length := by
  induction fuel generalizing n with
  | zero => exact absurd hfuel (by omega)
  | succ fuel ih =>
    unfold scan
    by_cases hend : n = cs.length
    · rw [hend, if_pos h.nul]
    · rw [if_neg (h.ne_zero (by omega))]
      exact ih (by omega) (by omega)

end Scan

end CString
