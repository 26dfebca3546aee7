import Mathlib.Algebra.Order.Monoid.Defs
import Mathlib.Data.Finset.Max

/-!
# Sliding a window down

A window of a given length that misses some blocks can be moved down to the last of the places
below it where a block ends, or to the start of the range, and still misses them. So a search
that tries these places only finds a window whenever there is one.
-/

namespace Sliding
set_option autoImplicit false

variable {α : Type*} [LinearOrder α]

/-- Among finitely many places there is a last one that is not past `x`. -/
theorem exists_last_le {places : List α} {x : α} (h : ∃ a ∈ places, a ≤ x) :
    ∃ a ∈ places, a ≤ x ∧ ∀ b ∈ places, b ≤ x → b ≤ a := by
  have hne : (places.filter (· ≤ x)).toFinset.Nonempty := by
    obtain ⟨a, ha, hle⟩ := h
    exact ⟨a, by simp [ha, hle]⟩
  obtain ⟨a, ha, hmax⟩ := Finset.exists_max_image _ id hne
  simp only [List.mem_toFinset, List.mem_filter, decide_eq_true_eq, id_eq, and_imp] at ha hmax
  exact ⟨a, ha.1, ha.2, hmax⟩

section Window
variable [Add α] [AddRightMono α] {x y len lo hi : α}

/-- The window at `x` begins no earlier than `hi` or ends no later than `lo`. -/
def Misses (x len lo hi : α) : Prop := hi ≤ x ∨ x + len ≤ lo

theorem Misses.slide (h : Misses x len lo hi) (hle : y ≤ x) (hend : hi ≤ x → hi ≤ y) :
    Misses y len lo hi := by
  rcases h with hhi | hlo
  · exact Or.inl (hend hhi)
  · exact Or.inr ((add_le_add_left hle len).trans hlo)

variable {blocks : List (α × α)} {start : α} {up : α → α}

/-- The places are rounded up by `up`, to places of the kind that `x` is. -/
theorem exists_window (hup : ∀ a, a ≤ up a) (hround : ∀ a ≤ x, up a ≤ x) (hstart : start ≤ x)
    (hmiss : ∀ b ∈ blocks, Misses x len b.1 b.2) :
    ∃ y ∈ start :: blocks.map Prod.snd, start ≤ up y ∧ up y ≤ x ∧
      ∀ b ∈ blocks, Misses (up y) len b.1 b.2 := by
  obtain ⟨y, hy, hyx, hlast⟩ := exists_last_le ⟨start, List.mem_cons_self, hstart⟩
  refine ⟨y, hy, (hlast start List.mem_cons_self hstart).trans (hup y), hround y hyx,
    fun b hb => ?_⟩
  refine (hmiss b hb).slide (hround y hyx) fun hbx => ?_
  have hmem : b.2 ∈ start :: blocks.map Prod.snd :=
    List.mem_cons_of_mem start (List.mem_map_of_mem hb)
  exact (hlast b.2 hmem hbx).trans (hup y)

end Window

end Sliding
