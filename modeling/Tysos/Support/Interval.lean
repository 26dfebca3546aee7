import Mathlib.Order.Defs.LinearOrder
import Mathlib.Order.Basic
import Mathlib.Order.Lattice

/-!
# Closed intervals

Two closed intervals meet when each starts no later than the other ends. The comparison
of end points that programs write for this is the same thing for intervals that are not
empty.
-/

namespace Interval
set_option autoImplicit false

variable {α : Type*} [LinearOrder α] {l₁ u₁ l₂ u₂ : α}

/-- `[l₁, u₁]` and `[l₂, u₂]` share a point. -/
def Meets (l₁ u₁ l₂ u₂ : α) : Prop := l₁ ≤ u₂ ∧ l₂ ≤ u₁

/-- One end of the first lies in the second, or the first reaches over it on both sides. -/
theorem meets_iff_ends (h₁ : l₁ ≤ u₁) (h₂ : l₂ ≤ u₂) :
    Meets l₁ u₁ l₂ u₂ ↔
      (l₂ ≤ l₁ ∧ l₁ ≤ u₂) ∨ (l₂ ≤ u₁ ∧ u₁ ≤ u₂) ∨ (l₁ < l₂ ∧ u₂ < u₁) := by
  constructor
  · intro h
    rcases le_or_gt l₂ l₁ with hl | hl
    · exact Or.inl ⟨hl, h.1⟩
    · rcases le_or_gt u₁ u₂ with hu | hu
      · exact Or.inr (Or.inl ⟨h.2, hu⟩)
      · exact Or.inr (Or.inr ⟨hl, hu⟩)
  · rintro (⟨hl, hu⟩ | ⟨hl, hu⟩ | ⟨hl, hu⟩)
    · exact ⟨hu, le_trans hl h₁⟩
    · exact ⟨le_trans h₁ hu, hl⟩
    · exact ⟨le_trans (le_of_lt hl) h₂, le_trans h₂ (le_of_lt hu)⟩

end Interval
