import Tysos.PhysMem.Init
import Tysos.Boot.CheckRange
import Tysos.Support.Sliding
import Mathlib.Algebra.Order.Group.Nat

/-!
# What `FindRange` finds

`FindRange` tries the starts of usable regions and the ends of ELF sections and modules. A free
range slides down to one of these places unless a reserved entry of the memory map is in the way.
-/

namespace Tysos
open ByteMemory Sliding
set_option autoImplicit false

namespace Multiboot

/-- A range at or past this address is clear of the entry; one that wraps around the end of memory
is clear from its start on. -/
def clearFrom (base length : BitVec 32) : Nat :=
  if base.toNat + length.toNat ≤ 2 ^ 32 then base.toNat + length.toNat else base.toNat

/-- A range that ends by this address is clear of the entry. -/
def clearUpTo (base length : BitVec 32) : Nat :=
  if base.toNat + length.toNat ≤ 2 ^ 32 then base.toNat
  else base.toNat + length.toNat - 2 ^ 32

/-- `a` is where a range is clear of an entry that it may not meet, and `FindRange` does not try
`a` for the sake of this entry. -/
inductive Cuts (mb : Multiboot) : Nat → Prop where
  | reserved {e : MbMmap} : e ∈ mb.mmap → e.type ≠ mmapTypeAvail → e.length ≠ 0 →
      Cuts mb (clearFrom e.baseAddr e.length)
  | elfSection {s : ElfShdr} : mb.has elfAvail = true → s ∈ mb.elf →
      2 ^ 32 < s.shAddr.toNat + s.shSize.toNat → Cuts mb s.shAddr.toNat
  | module {e : MbMod} : mb.has modsAvail = true → e ∈ mb.mods →
      2 ^ 32 < e.modStart.toNat + (e.modEnd - e.modStart).toNat → Cuts mb e.modStart.toNat

section
variable {base length b l : BitVec 32} (hpos : 0 < length.toNat)
  (hend : base.toNat + length.toNat ≤ 2 ^ 32)
include hpos hend

/-- The `EQUAL` bit for any second range. -/
theorem equal_iff_not_misses : overlap base length b l &&& overlapEqual = 0 ↔
    l = 0 ∨ Misses base.toNat length.toNat (clearUpTo b l) (clearFrom b l) := by
  by_cases hl : l = 0
  · subst l
    rw [overlap_of_zero]
    exact ⟨fun _ => Or.inl rfl, fun _ => rfl⟩
  · have hlpos : 0 < l.toNat := by
      rcases Nat.eq_zero_or_pos l.toNat with hz | hp
      · exact absurd (BitVec.eq_of_toNat_eq hz) hl
      · exact hp
    have hequal : overlap base length b l &&& overlapEqual ≠ 0 ↔ _ :=
      overlap_equal_iff (ne_zero_of_pos hpos) hl
    have hlast := last_toNat hpos hend
    rw [← not_iff_not, ← ne_eq, hequal]
    simp only [BitVec.le_def, BitVec.lt_def, hlast, hl, false_or]
    unfold Misses clearUpTo clearFrom
    have hb := b.isLt
    by_cases hwrap : b.toNat + l.toNat ≤ 2 ^ 32
    · rw [last_toNat hlpos hwrap, if_pos hwrap, if_pos hwrap]
      omega
    · have hwrapped : (b + (l - 1)).toNat = b.toNat + l.toNat - 1 - 2 ^ 32 := by bv_omega
      rw [hwrapped, if_neg hwrap, if_neg hwrap]
      omega

/-- What is clear of an entry stays so while it slides down to where it is clear. -/
theorem clear_slide {base' : BitVec 32} (hle : base'.toNat ≤ base.toNat)
    (hclear : overlap base length b l &&& overlapEqual = 0)
    (hedge : l ≠ 0 → clearFrom b l ≤ base.toNat → clearFrom b l ≤ base'.toNat) :
    overlap base' length b l &&& overlapEqual = 0 := by
  rw [equal_iff_not_misses hpos hend] at hclear
  rw [equal_iff_not_misses hpos (by omega)]
  by_cases hl : l = 0
  · exact Or.inl hl
  · exact Or.inr ((hclear.resolve_left hl).slide hle (hedge hl))

end

theorem clearFrom_of_wraps {b l : BitVec 32} (h : 2 ^ 32 < b.toNat + l.toNat) :
    clearFrom b l = b.toNat := if_neg (Nat.not_le.mpr h)

/-- The end of a range that does not wrap is the place tried for it. -/
theorem clearFrom_eq_end {b l : BitVec 32} (h : b.toNat + l.toNat ≤ 2 ^ 32) {x : BitVec 32}
    (hle : clearFrom b l ≤ x.toNat) : clearFrom b l = (b + l).toNat := by
  have hx := x.isLt
  unfold clearFrom at hle ⊢
  rw [if_pos h] at hle ⊢
  rw [BitVec.toNat_add, Nat.mod_eq_of_lt (by omega)]

theorem mem_rangeStarts_mmap {mb : Multiboot} {e : MbMmap} (he : e ∈ mb.mmap)
    (htype : e.type = mmapTypeAvail) : e.baseAddr ∈ mb.rangeStarts := by
  refine List.mem_append_left _ (List.mem_append_left _ (List.mem_map_of_mem ?_))
  exact List.mem_filter.mpr ⟨he, decide_eq_true htype⟩

theorem mem_rangeStarts_elf {mb : Multiboot} {s : ElfShdr} (hs : s ∈ mb.elf) :
    s.shAddr + s.shSize ∈ mb.rangeStarts :=
  List.mem_append_left _ (List.mem_append_right _ (List.mem_map.mpr ⟨s, hs, rfl⟩))

theorem mem_rangeStarts_mods {mb : Multiboot} {e : MbMod} (he : e ∈ mb.mods) :
    e.modEnd ∈ mb.rangeStarts :=
  List.mem_append_right _ (List.mem_map.mpr ⟨e, he, rfl⟩)

theorem findRange_of_tried {mb : Multiboot} {length k : BitVec 32} (hk : k ∈ mb.rangeStarts)
    (hcheck : mb.checkRange k length = true) :
    mb.checkRange (mb.findRange length) length = true := by
  unfold findRange
  cases hfind : mb.rangeStarts.find? fun base => mb.checkRange base length with
  | none => exact absurd hcheck (List.find?_eq_none.mp hfind k hk)
  | some base =>
    have hbase := List.find?_some hfind
    exact hbase

section
variable {mb : Multiboot} {base length : BitVec 32} (hflag : mb.has mmapAvail = true)
  (hcheck : mb.checkRange base length = true)
include hflag hcheck

theorem exists_offer : ∃ e ∈ mb.mmap, Offered base length e := by
  by_contra hnone
  refine checkRange_iff.mp hcheck (Refused.notOffered hflag fun e he ho => hnone ⟨e, he, ho⟩)

/-- The last place tried below a free range is free, if there is one past each cut below it. -/
theorem exists_tried (hpos : 0 < length.toNat) (hend : base.toNat + length.toNat ≤ 2 ^ 32)
    (hcut : ∀ a, mb.Cuts a → a ≤ base.toNat →
      ∃ k ∈ mb.rangeStarts, a ≤ k.toNat ∧ k.toNat ≤ base.toNat) :
    ∃ k ∈ mb.rangeStarts, mb.checkRange k length = true := by
  obtain ⟨e, he, htype, hwithin⟩ := exists_offer hflag hcheck
  obtain ⟨hwrap, hsub⟩ := (within_iff_subset hpos hend).mp hwithin
  unfold span at hsub
  rw [Set.Ico_subset_Ico_iff (by omega)] at hsub
  have hstart := mem_rangeStarts_mmap he htype
  have hplace : ∃ n ∈ mb.rangeStarts.map BitVec.toNat, n ≤ base.toNat :=
    ⟨_, List.mem_map_of_mem hstart, hsub.1⟩
  obtain ⟨n, hn, hle, hlast⟩ := exists_last_le hplace
  obtain ⟨k, hk, rfl⟩ := List.mem_map.mp hn
  have htried : ∀ j ∈ mb.rangeStarts, j.toNat ≤ base.toNat → j.toNat ≤ k.toNat :=
    fun j hj => hlast _ (List.mem_map_of_mem hj)
  have hcuts : ∀ a, mb.Cuts a → a ≤ base.toNat → a ≤ k.toNat := by
    intro a ha hab
    obtain ⟨j, hj, haj, hjb⟩ := hcut a ha hab
    exact haj.trans (htried j hj hjb)
  have hcheck' := checkRange_iff.mp hcheck
  refine ⟨k, hk, checkRange_iff.mpr fun href => ?_⟩
  cases href with
  | notOffered _ hnone =>
    refine hnone e he ⟨htype, (within_iff_subset hpos (by omega)).mpr ⟨hwrap, ?_⟩⟩
    unfold span
    rw [Set.Ico_subset_Ico_iff (by omega)]
    exact ⟨htried _ hstart hsub.1, by omega⟩
  | reserved _ hr hres =>
    refine hres.2 (clear_slide hpos hend hle ?_ fun hl => hcuts _ (Cuts.reserved hr hres.1 hl))
    by_contra hequal
    exact hcheck' (Refused.reserved hflag hr ⟨hres.1, hequal⟩)
  | aboveLimit hno =>
    rw [hflag] at hno
    exact absurd hno (by simp)
  | @elfSection s helf hs hequal =>
    refine hequal (clear_slide hpos hend hle ?_ fun _ hedge => ?_)
    · by_contra hmeets
      exact hcheck' (Refused.elfSection helf hs hmeets)
    · by_cases hwraps : s.shAddr.toNat + s.shSize.toNat ≤ 2 ^ 32
      · have hplace := clearFrom_eq_end hwraps hedge
        rw [hplace] at hedge ⊢
        exact htried _ (mem_rangeStarts_elf hs) hedge
      · rw [clearFrom_of_wraps (Nat.not_le.mp hwraps)] at hedge ⊢
        exact hcuts _ (Cuts.elfSection helf hs (Nat.not_le.mp hwraps)) hedge
  | @module d hmods hd hequal =>
    refine hequal (clear_slide hpos hend hle ?_ fun _ hedge => ?_)
    · by_contra hmeets
      exact hcheck' (Refused.module hmods hd hmeets)
    · by_cases hwraps : d.modStart.toNat + (d.modEnd - d.modStart).toNat ≤ 2 ^ 32
      · have hplace := clearFrom_eq_end hwraps hedge
        rw [BitVec.add_comm, BitVec.sub_add_cancel] at hplace
        rw [hplace] at hedge ⊢
        exact htried _ (mem_rangeStarts_mods hd) hedge
      · rw [clearFrom_of_wraps (Nat.not_le.mp hwraps)] at hedge ⊢
        exact hcuts _ (Cuts.module hmods hd (Nat.not_le.mp hwraps)) hedge

end

theorem reserveLow_mmap {mb : Multiboot} (m : Memory) (hflag : mb.has mmapAvail = true) :
    (mb.reserveLow m).1 = { mb with mmap := mb.mmap ++ [⟨0, 0, 0x100000, 0, 2⟩] } := by
  unfold reserveLow
  rw [if_pos hflag]

/-- Nothing is free at 0, where the first megabyte is reserved. -/
theorem not_checkRange_zero {mb : Multiboot} (m : Memory) (hflag : mb.has mmapAvail = true)
    {length : BitVec 32} (hpos : 0 < length.toNat) :
    (mb.reserveLow m).1.checkRange 0 length = false := by
  rw [reserveLow_mmap m hflag, ← Bool.not_eq_true, checkRange_iff, not_not]
  refine Refused.reserved (e := ⟨0, 0, 0x100000, 0, 2⟩) hflag
    (List.mem_append_right _ (List.mem_singleton.mpr rfl)) ⟨by decide, ?_⟩
  rw [ne_eq, equal_iff_not_misses hpos (by simpa using length.isLt.le)]
  rintro (hzero | hmiss)
  · exact absurd hzero (by decide)
  · rcases hmiss with hpast | hbefore
    · exact absurd hpast (by decide)
    · have hstart : clearUpTo 0 0x100000 = 0 := by decide
      rw [hstart] at hbefore
      have hzero : (0 : BitVec 32).toNat = 0 := rfl
      omega

/-- With a memory map, `FindRange` finds a place whenever a range is free and a place that it tries
lies between the range and each reserved entry below it. -/
theorem findRange_finds {mb : Multiboot} (m : Memory) (hflag : mb.has mmapAvail = true)
    {base length : BitVec 32} (hpos : 0 < length.toNat)
    (hend : base.toNat + length.toNat ≤ 2 ^ 32)
    (hcheck : (mb.reserveLow m).1.checkRange base length = true)
    (hcut : ∀ a, (mb.reserveLow m).1.Cuts a → a ≤ base.toNat →
      ∃ k ∈ (mb.reserveLow m).1.rangeStarts, a ≤ k.toNat ∧ k.toNat ≤ base.toNat) :
    (mb.reserveLow m).1.findRange length ≠ 0 ∧
      (mb.reserveLow m).1.checkRange ((mb.reserveLow m).1.findRange length) length = true := by
  have hflag' : (mb.reserveLow m).1.has mmapAvail = true := by
    rw [reserveLow_mmap m hflag]
    exact hflag
  obtain ⟨k, hk, hfree⟩ := exists_tried hflag' hcheck hpos hend hcut
  have hfound := findRange_of_tried hk hfree
  refine ⟨fun hzero => ?_, hfound⟩
  rw [hzero, not_checkRange_zero m hflag hpos] at hfound
  exact Bool.false_ne_true hfound

/-- Tables with a memory map of one entry, which is usable memory. -/
def oneRegion (base length : BitVec 32) : Multiboot :=
  { flags := mmapAvail, memUpper := 0, mmapAddr := 0, elfAddr := 0,
    mmap := [⟨base, 0, length, 0, 1⟩], elf := [], mods := [] }

theorem oneRegion_high_finds :
    ((oneRegion 0x100000 0x1f00000).reserveLow fun _ => 0).1.findRange 512 ≠ 0 ∧
      ((oneRegion 0x100000 0x1f00000).reserveLow fun _ => 0).1.checkRange
        (((oneRegion 0x100000 0x1f00000).reserveLow fun _ => 0).1.findRange 512) 512 = true := by
  have hfree : ((oneRegion 0x100000 0x1f00000).reserveLow fun _ => 0).1.checkRange
      0x200000 512 = true := by decide
  refine findRange_finds (fun _ => 0) (by decide) (by decide) (by decide) hfree fun a ha hle => ?_
  refine ⟨0x100000, by decide, ?_, by decide⟩
  cases ha with
  | @reserved e he htype hlength =>
    have hcases : e = ⟨0x100000, 0, 0x1f00000, 0, 1⟩ ∨ e = ⟨0, 0, 0x100000, 0, 2⟩ := by
      rw [reserveLow_mmap _ (by decide)] at he
      simpa [oneRegion] using he
    rcases hcases with rfl | rfl
    · exact absurd rfl htype
    · decide
  | elfSection hflag => exact absurd hflag (by decide)
  | module hflag => exact absurd hflag (by decide)

/-- A region from 0 on over the first megabyte: the one place tried is in the part reserved. -/
theorem region_over_low_memory : ¬ ∀ (mb : Multiboot) (m : Memory) (base length : BitVec 32),
    0 < length.toNat → 0x100000 ≤ base.toNat → base.toNat + length.toNat ≤ 2 ^ 32 →
    (mb.reserveLow m).1.checkRange base length = true →
    (mb.reserveLow m).1.findRange length ≠ 0 ∧
      (mb.reserveLow m).1.checkRange ((mb.reserveLow m).1.findRange length) length = true := by
  intro h
  have hfound := h (oneRegion 0 0x2000000) (fun _ => 0) 0x100000 512 (by decide) (by decide)
    (by decide) (by decide)
  revert hfound
  decide

end Multiboot
end Tysos
