import Tysos.Support.Placement
import Tysos.Memory.Section
import Tysos.Boot.Multiboot

/-!
# The two interval classifiers

`Section::Extent::Overlap` takes the first and the last address of its regions and
`Multiboot::Overlap` their base and length; each has bits of its own for the answers. They
are one function of the end points, and its answers are about the addresses in the regions.
-/

namespace Tysos
open Interval
set_option autoImplicit false

namespace Section.Extent

/-- The bit of each answer. -/
def bit : Relation → BitVec 32
  | .equal => Section.equal
  | .less => Section.less
  | .more => Section.more
  | .within => Section.within

def reports (e₁ e₂ : Extent) (r : Relation) : Bool := overlap e₁ e₂ &&& bit r ≠ 0

def addresses (e : Extent) : Set Nat := Set.Icc e.lower.toNat e.upper.toNat

/-- `Within` is set where the word is `Equal` alone. -/
theorem reports_sides (e₁ e₂ : Extent) :
    (e₁.reports e₂ .less = true ↔ e₁.lower < e₂.lower) ∧
    (e₁.reports e₂ .more = true ↔ e₂.upper < e₁.upper) ∧
    (e₁.reports e₂ .within = true ↔ e₁.reports e₂ .equal = true ∧
      ¬ e₁.lower < e₂.lower ∧ ¬ e₂.upper < e₁.upper) := by
  unfold reports overlap bit
  by_cases hl : e₁.lower < e₂.lower <;> by_cases hm : e₁.upper > e₂.upper <;>
    by_cases h₁ : e₁.lower ≥ e₂.lower ∧ e₁.lower ≤ e₂.upper <;>
    by_cases h₂ : e₁.upper ≥ e₂.lower ∧ e₁.upper ≤ e₂.upper <;>
    simp [hl, hm, h₁, h₂, less, more, equal, within]

theorem reports_iff_ends {e₁ e₂ : Extent} (h₁ : e₁.lower ≤ e₁.upper) (h₂ : e₂.lower ≤ e₂.upper)
    (r : Relation) : e₁.reports e₂ r = true ↔
      r.Ends e₁.lower.toNat e₁.upper.toNat e₂.lower.toNat e₂.upper.toNat := by
  have hequal : e₁.reports e₂ .equal = true ↔
      Relation.equal.Ends e₁.lower.toNat e₁.upper.toNat e₂.lower.toNat e₂.upper.toNat :=
    eq_iff_meets h₁ h₂
  obtain ⟨hless, hmore, hwithin⟩ := reports_sides e₁ e₂
  cases r with
  | equal => exact hequal
  | less => exact hless
  | more => exact hmore
  | within =>
    apply hwithin.trans
    rw [hequal]
    exact (Relation.within_iff h₁).symm

theorem reports_iff_holds {e₁ e₂ : Extent} (h₁ : e₁.lower ≤ e₁.upper)
    (h₂ : e₂.lower ≤ e₂.upper) (r : Relation) :
    e₁.reports e₂ r = true ↔ r.Holds e₁.addresses e₂.addresses := by
  rw [reports_iff_ends h₁ h₂]
  exact (Relation.holds_Icc_iff h₁ h₂ r).symm

theorem reports_equal_comm {e₁ e₂ : Extent} (h₁ : e₁.lower ≤ e₁.upper)
    (h₂ : e₂.lower ≤ e₂.upper) : e₁.reports e₂ .equal = e₂.reports e₁ .equal := by
  rw [Bool.eq_iff_iff, reports_iff_holds h₁ h₂, reports_iff_holds h₂ h₁]
  exact Relation.equal_comm _ _

end Section.Extent

namespace Multiboot
open Section

def bit : Relation → BitVec 32
  | .equal => overlapEqual
  | .less => overlapLess
  | .more => overlapMore
  | .within => overlapWithin

def reports (base₁ length₁ base₂ length₂ : BitVec 32) (r : Relation) : Bool :=
  overlap base₁ length₁ base₂ length₂ &&& bit r ≠ 0

/-- The first and the last address, as `Overlap` computes them. -/
def extent (base length : BitVec 32) : Extent := ⟨base + (length - 1), base⟩

/-- Between lengths that are not 0 the function is that of the section code. -/
theorem reports_eq_extent {length₁ length₂ : BitVec 32} (h₁ : length₁ ≠ 0) (h₂ : length₂ ≠ 0)
    (base₁ base₂ : BitVec 32) (r : Relation) : reports base₁ length₁ base₂ length₂ r =
      (extent base₁ length₁).reports (extent base₂ length₂) r := by
  unfold reports Extent.reports overlap Extent.overlap extent
  rw [if_neg h₁, if_neg h₂]
  dsimp only
  generalize base₁ + (length₁ - 1) = end₁
  generalize base₂ + (length₂ - 1) = end₂
  cases r <;>
    by_cases hl : base₁ < base₂ <;> by_cases hm : end₁ > end₂ <;>
    by_cases he₁ : base₁ ≥ base₂ ∧ base₁ ≤ end₂ <;>
    by_cases he₂ : end₁ ≥ base₂ ∧ end₁ ≤ end₂ <;>
    simp [hl, hm, he₁, he₂, bit, Extent.bit, overlapLess, overlapMore, overlapEqual,
      overlapWithin, less, more, equal, within]

def addresses (base length : BitVec 32) : Set Nat :=
  Set.Ico base.toNat (base.toNat + length.toNat)

theorem extent_lower_le {base length : BitVec 32} (hpos : 0 < length.toNat)
    (hwrap : base.toNat + length.toNat ≤ 2 ^ 32) :
    (extent base length).lower ≤ (extent base length).upper := by
  have hlast := last_toNat hpos hwrap
  unfold extent
  rw [BitVec.le_def, hlast]
  dsimp only
  omega

theorem extent_addresses {base length : BitVec 32} (hpos : 0 < length.toNat)
    (hwrap : base.toNat + length.toNat ≤ 2 ^ 32) :
    (extent base length).addresses = addresses base length := by
  have hlast := last_toNat hpos hwrap
  unfold Extent.addresses addresses extent
  ext a
  rw [Set.mem_Icc, Set.mem_Ico, hlast]
  dsimp only
  omega

theorem reports_iff_holds {base₁ length₁ base₂ length₂ : BitVec 32}
    (hpos₁ : 0 < length₁.toNat) (hpos₂ : 0 < length₂.toNat)
    (hwrap₁ : base₁.toNat + length₁.toNat ≤ 2 ^ 32)
    (hwrap₂ : base₂.toNat + length₂.toNat ≤ 2 ^ 32) (r : Relation) :
    reports base₁ length₁ base₂ length₂ r = true ↔
      r.Holds (addresses base₁ length₁) (addresses base₂ length₂) := by
  have hle₁ := extent_lower_le hpos₁ hwrap₁
  have hle₂ := extent_lower_le hpos₂ hwrap₂
  rw [reports_eq_extent (ne_zero_of_pos hpos₁) (ne_zero_of_pos hpos₂),
    Extent.reports_iff_holds hle₁ hle₂, extent_addresses hpos₁ hwrap₁,
    extent_addresses hpos₂ hwrap₂]

end Multiboot

namespace Section.Extent

/-- `e` is the interval of that base and length; it ends at the top address at the latest. -/
def GivenBy (e : Extent) (base length : BitVec 32) : Prop :=
  e.lower = base ∧ e.upper.toNat + 1 = base.toNat + length.toNat

theorem GivenBy.nowrap {e : Extent} {base length : BitVec 32} (h : e.GivenBy base length) :
    base.toNat + length.toNat ≤ 2 ^ 32 := by
  rw [← h.2]
  exact e.upper.isLt

theorem GivenBy.pos {e : Extent} {base length : BitVec 32} (h : e.GivenBy base length)
    (he : e.lower ≤ e.upper) : 0 < length.toNat := by
  obtain ⟨rfl, hend⟩ := h
  rw [BitVec.le_def] at he
  omega

theorem GivenBy.extent_eq {e : Extent} {base length : BitVec 32} (h : e.GivenBy base length)
    (he : e.lower ≤ e.upper) : Multiboot.extent base length = e := by
  have hlast := Multiboot.last_toNat (h.pos he) h.nowrap
  obtain ⟨upper, lower⟩ := e
  obtain ⟨rfl, hend⟩ := h
  unfold Multiboot.extent
  congr 1
  apply BitVec.eq_of_toNat_eq
  dsimp only at hend hlast ⊢
  omega

theorem extent_givenBy {base length : BitVec 32} (hpos : 0 < length.toNat)
    (hwrap : base.toNat + length.toNat ≤ 2 ^ 32) :
    (Multiboot.extent base length).GivenBy base length := by
  have hlast := Multiboot.last_toNat hpos hwrap
  refine ⟨rfl, ?_⟩
  unfold Multiboot.extent
  dsimp only
  omega

end Section.Extent
open Section

theorem multiboot_reports_eq {e₁ e₂ : Extent} {base₁ length₁ base₂ length₂ : BitVec 32}
    (h₁ : e₁.lower ≤ e₁.upper) (h₂ : e₂.lower ≤ e₂.upper) (hg₁ : e₁.GivenBy base₁ length₁)
    (hg₂ : e₂.GivenBy base₂ length₂) (r : Relation) :
    Multiboot.reports base₁ length₁ base₂ length₂ r = e₁.reports e₂ r := by
  have hne₁ := Multiboot.ne_zero_of_pos (hg₁.pos h₁)
  have hne₂ := Multiboot.ne_zero_of_pos (hg₂.pos h₂)
  rw [Multiboot.reports_eq_extent hne₁ hne₂, hg₁.extent_eq h₁, hg₂.extent_eq h₂]

/-- Each answer of the section code says what it should about the addresses of the two
regions, and the boot code gives the same answers for those regions that have a length in
32 bits; swapping the regions keeps the answer to whether they overlap. -/
theorem overlap_classifies {e₁ e₂ : Extent} (h₁ : e₁.lower ≤ e₁.upper)
    (h₂ : e₂.lower ≤ e₂.upper) :
    (∀ r, e₁.reports e₂ r = true ↔ r.Holds e₁.addresses e₂.addresses) ∧
    e₁.reports e₂ .equal = e₂.reports e₁ .equal ∧
    ∀ base₁ length₁ base₂ length₂, e₁.GivenBy base₁ length₁ → e₂.GivenBy base₂ length₂ →
      (∀ r, Multiboot.reports base₁ length₁ base₂ length₂ r = e₁.reports e₂ r) ∧
      (∀ r, Multiboot.reports base₁ length₁ base₂ length₂ r = true ↔
        r.Holds (Multiboot.addresses base₁ length₁) (Multiboot.addresses base₂ length₂)) ∧
      Multiboot.reports base₁ length₁ base₂ length₂ .equal =
        Multiboot.reports base₂ length₂ base₁ length₁ .equal := by
  refine ⟨Extent.reports_iff_holds h₁ h₂, Extent.reports_equal_comm h₁ h₂, ?_⟩
  intro base₁ length₁ base₂ length₂ hg₁ hg₂
  have hsame := multiboot_reports_eq h₁ h₂ hg₁ hg₂
  refine ⟨hsame, ?_, ?_⟩
  · exact Multiboot.reports_iff_holds (hg₁.pos h₁) (hg₂.pos h₂) hg₁.nowrap hg₂.nowrap
  · rw [hsame, multiboot_reports_eq h₂ h₁ hg₂ hg₁]
    exact Extent.reports_equal_comm h₁ h₂

/-- The last page of the address space beside a region that reaches into its lower half. -/
theorem overlap_classifies_top_page :
    (∀ r, Multiboot.reports 0xfffff000 0x1000 0xffffe000 0x1800 r =
      Extent.reports ⟨0xffffffff, 0xfffff000⟩ ⟨0xfffff7ff, 0xffffe000⟩ r) ∧
    Multiboot.reports 0xfffff000 0x1000 0xffffe000 0x1800 .equal = true ∧
    Multiboot.reports 0xfffff000 0x1000 0xffffe000 0x1800 .more = true := by
  have hfirst : Extent.GivenBy ⟨0xffffffff, 0xfffff000⟩ 0xfffff000 0x1000 := ⟨rfl, by decide⟩
  have hsecond : Extent.GivenBy ⟨0xfffff7ff, 0xffffe000⟩ 0xffffe000 0x1800 := ⟨rfl, by decide⟩
  have hle₁ : Extent.lower ⟨0xffffffff, 0xfffff000⟩ ≤ Extent.upper ⟨0xffffffff, 0xfffff000⟩ := by
    decide
  have hle₂ : Extent.lower ⟨0xfffff7ff, 0xffffe000⟩ ≤ Extent.upper ⟨0xfffff7ff, 0xffffe000⟩ := by
    decide
  have hbits := overlap_classifies hle₁ hle₂
  exact ⟨(hbits.2.2 _ _ _ _ hfirst hsecond).1, by decide, by decide⟩

end Tysos
