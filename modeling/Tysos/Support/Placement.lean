import Tysos.Support.Interval
import Mathlib.Order.Interval.Set.Basic

/-!
# How one set of points lies to another

Four questions about two sets in a linear order, and what they come to for closed
intervals that are not empty: comparisons of the end points.
-/

namespace Interval
set_option autoImplicit false

inductive Relation where
  | equal | less | more | within
  deriving DecidableEq, Repr

namespace Relation

variable {α : Type*}

/-- They share a point; the first starts before the second; it ends after the second; it
lies in the second. -/
def Holds [LT α] (S T : Set α) : Relation → Prop
  | equal => (S ∩ T).Nonempty
  | less => ∃ a ∈ S, ∀ b ∈ T, a < b
  | more => ∃ a ∈ S, ∀ b ∈ T, b < a
  | within => S ⊆ T

theorem equal_comm [LT α] (S T : Set α) : equal.Holds S T ↔ equal.Holds T S := by
  unfold Holds
  rw [Set.inter_comm]

variable [LinearOrder α] {l₁ u₁ l₂ u₂ : α}

/-- The same questions asked of the end points. -/
def Ends (l₁ u₁ l₂ u₂ : α) : Relation → Prop
  | equal => Meets l₁ u₁ l₂ u₂
  | less => l₁ < l₂
  | more => u₂ < u₁
  | within => l₂ ≤ l₁ ∧ u₁ ≤ u₂

/-- What lies within the other overlaps it and sticks out on neither side. -/
theorem within_iff (h₁ : l₁ ≤ u₁) : within.Ends l₁ u₁ l₂ u₂ ↔
    equal.Ends l₁ u₁ l₂ u₂ ∧ ¬ less.Ends l₁ u₁ l₂ u₂ ∧ ¬ more.Ends l₁ u₁ l₂ u₂ := by
  unfold Ends Meets
  rw [not_lt, not_lt]
  constructor
  · rintro ⟨hl, hu⟩
    exact ⟨⟨le_trans h₁ hu, le_trans hl h₁⟩, hl, hu⟩
  · rintro ⟨-, hl, hu⟩
    exact ⟨hl, hu⟩

theorem holds_Icc_iff (h₁ : l₁ ≤ u₁) (h₂ : l₂ ≤ u₂) (r : Relation) :
    r.Holds (Set.Icc l₁ u₁) (Set.Icc l₂ u₂) ↔ r.Ends l₁ u₁ l₂ u₂ := by
  cases r with
  | equal =>
    constructor
    · rintro ⟨a, ⟨hl₁, hu₁⟩, hl₂, hu₂⟩
      exact ⟨le_trans hl₁ hu₂, le_trans hl₂ hu₁⟩
    · intro hmeets
      rcases le_total l₁ l₂ with hle | hle
      · exact ⟨l₂, ⟨hle, hmeets.2⟩, le_refl l₂, h₂⟩
      · exact ⟨l₁, ⟨le_refl l₁, h₁⟩, hle, hmeets.1⟩
  | less =>
    constructor
    · rintro ⟨a, ha, hbefore⟩
      exact lt_of_le_of_lt ha.1 (hbefore l₂ ⟨le_refl l₂, h₂⟩)
    · intro hlt
      exact ⟨l₁, ⟨le_refl l₁, h₁⟩, fun b hb => lt_of_lt_of_le hlt hb.1⟩
  | more =>
    constructor
    · rintro ⟨a, ha, hafter⟩
      exact lt_of_lt_of_le (hafter u₂ ⟨h₂, le_refl u₂⟩) ha.2
    · intro hlt
      exact ⟨u₁, ⟨h₁, le_refl u₁⟩, fun b hb => lt_of_le_of_lt hb.2 hlt⟩
  | within => exact Set.Icc_subset_Icc_iff h₁

end Relation
end Interval
