import Mathlib.Order.Lattice
import Mathlib.Data.List.Basic

/-!
# Nested activities

Activities that break into one another, the innermost first. One begins only when it comes
before all that are under way, so that the innermost is the least of them, and a register
with one flag for each level that loses its least flag at every end shows just these.
-/

namespace Nesting
set_option autoImplicit false

universe u
variable {α : Type u} [LinearOrder α]

structure Nest (α : Type u) [LinearOrder α] where
  active : List α
  sorted : active.Pairwise (· < ·)

namespace Nest

def empty : Nest α := ⟨[], List.Pairwise.nil⟩

def MayBegin (n : Nest α) (a : α) : Prop := ∀ b ∈ n.active, a < b

def start (n : Nest α) (a : α) (h : n.MayBegin a) : Nest α := ⟨a :: n.active, n.sorted.cons h⟩

def finish (n : Nest α) : Nest α := ⟨n.active.tail, n.sorted.tail⟩

/-- The register `r` has the flags of the activities under way. -/
def Shown (n : Nest α) (r : α → Bool) : Prop := ∀ a, r a = true ↔ a ∈ n.active

theorem shown_empty {r : α → Bool} (h : ∀ a, r a = false) : (empty : Nest α).Shown r := by
  intro a
  simp [h a, empty]

theorem Shown.mayBegin_iff {n : Nest α} {r : α → Bool} (h : n.Shown r) (a : α) :
    n.MayBegin a ↔ ∀ b, b ≤ a → r b = false := by
  constructor
  · intro hbegin b hb
    cases hr : r b with
    | false => rfl
    | true => exact absurd (hbegin b ((h b).mp hr)) (not_lt.mpr hb)
  · intro hall b hb
    by_contra hlt
    have hr := (h b).mpr hb
    rw [hall b (not_lt.mp hlt)] at hr
    exact Bool.false_ne_true hr

theorem Shown.start {n : Nest α} {r r' : α → Bool} (h : n.Shown r) {a : α} (ha : n.MayBegin a)
    (hr : ∀ b, r' b = (decide (b = a) || r b)) : (n.start a ha).Shown r' := by
  intro b
  rw [hr, Bool.or_eq_true, decide_eq_true_iff, h b]
  exact List.mem_cons.symm

/-- The least flag is that of the innermost activity. -/
theorem Shown.least {n : Nest α} {r : α → Bool} (h : n.Shown r) {a : α} {as : List α}
    (ha : n.active = a :: as) : r a = true ∧ ∀ b, b < a → r b = false := by
  have hmem : a ∈ n.active := ha ▸ List.mem_cons_self
  refine ⟨(h a).mpr hmem, fun b hb => ?_⟩
  have hsorted := n.sorted
  rw [ha, List.pairwise_cons] at hsorted
  cases hr : r b with
  | false => rfl
  | true =>
    have hb' := (h b).mp hr
    rw [ha] at hb'
    rcases List.mem_cons.mp hb' with rfl | hrest
    · exact absurd hb (lt_irrefl b)
    · exact absurd hb (lt_asymm (hsorted.1 b hrest))

theorem Shown.finish {n : Nest α} {r r' : α → Bool} (h : n.Shown r) {a : α} {as : List α}
    (ha : n.active = a :: as) (hr : ∀ b, r' b = (r b && !decide (b = a))) :
    n.finish.Shown r' := by
  intro b
  have hsorted := n.sorted
  rw [ha, List.pairwise_cons] at hsorted
  have htail : n.finish.active = as := by simp [Nest.finish, ha]
  rw [hr, Bool.and_eq_true, h b, htail, ha, List.mem_cons]
  constructor
  · rintro ⟨hmem | hmem, hne⟩
    · simp [hmem] at hne
    · exact hmem
  · intro hmem
    refine ⟨Or.inr hmem, ?_⟩
    have hne : b ≠ a := ne_of_gt (hsorted.1 b hmem)
    simp [hne]

end Nest
end Nesting
