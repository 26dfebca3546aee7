import Tysos.Boot.Parse

/-!
# Memory that is not RAM

`CheckRange` looks at the low words of the memory map only. A range it lets through is usable
memory exactly when the high words and the ends past 4 GB make no difference to it.
-/

namespace Tysos
open ByteMemory TableCopy
set_option autoImplicit false

namespace LoaderTables

/-- All of the range is usable memory, by the whole of the tables. -/
structure RamOnly (T : LoaderTables) (base length : BitVec 32) : Prop where
  available : ∃ e ∈ T.mmap, e.type = Multiboot.mmapTypeAvail ∧ span base length ⊆ e.bytes
  other : ∀ e ∈ T.mmap, e.type ≠ Multiboot.mmapTypeAvail → Disjoint (span base length) e.bytes
  elf : ∀ s ∈ T.elf, Disjoint (span base length) (span s.shAddr s.shSize)
  mods : ∀ e ∈ T.mods, Disjoint (span base length) e.bytes

/-- A usable entry that starts below 4 GB, with the range in its low words or, if it goes on past
4 GB, from its start on. -/
def Backed (T : LoaderTables) (base length : BitVec 32) : Prop :=
  ∃ e ∈ T.mmap, e.type = Multiboot.mmapTypeAvail ∧ e.baseAddrHigh = 0 ∧
    (Multiboot.Offered base length e ∨ e.Truncated ∧ e.baseAddr ≤ base)

/-- The range ends before anything that goes on past 4 GB, and the string table is elsewhere. -/
structure Unhidden (T : LoaderTables) (base length : BitVec 32) : Prop where
  mmap : ∀ e ∈ T.mmap, e.type ≠ Multiboot.mmapTypeAvail → e.Truncated →
    base.toNat + length.toNat ≤ e.baseAddr.toNat
  elf : ∀ s ∈ T.elf, 2 ^ 32 < s.shAddr.toNat + s.shSize.toNat →
    base.toNat + length.toNat ≤ s.shAddr.toNat
  strings : ∀ s, T.elf[T.shndx]? = some s →
    Disjoint (span base length) (span s.shAddr s.shSize)

end LoaderTables

namespace MbMmap
variable {base length : BitVec 32} (hpos : 0 < length.toNat)
  (hend : base.toNat + length.toNat ≤ 2 ^ 32)
include hpos hend

theorem Truncated.disjoint_iff {e : MbMmap} (h : e.Truncated) :
    Disjoint (span base length) e.bytes ↔ base.toNat + length.toNat ≤ e.baseAddr.toNat := by
  obtain ⟨hbase, hreach⟩ := h.reaches
  unfold span bytes
  rw [Set.Ico_disjoint_Ico, ← hbase]
  omega

theorem Truncated.subset_iff {e : MbMmap} (h : e.Truncated) :
    span base length ⊆ e.bytes ↔ e.baseAddr ≤ base := by
  obtain ⟨hbase, hreach⟩ := h.reaches
  unfold span bytes
  rw [Set.Ico_subset_Ico_iff (by omega), BitVec.le_def, ← hbase]
  omega

theorem subset_iff {e : MbMmap} (htype : e.type = Multiboot.mmapTypeAvail) :
    span base length ⊆ e.bytes ↔ e.baseAddrHigh = 0 ∧
      (Multiboot.Offered base length e ∨ e.Truncated ∧ e.baseAddr ≤ base) := by
  by_cases hhigh : e.baseAddrHigh = 0
  · by_cases htrunc : e.Truncated
    · rw [htrunc.subset_iff hpos hend]
      constructor
      · exact fun hle => ⟨hhigh, Or.inr ⟨htrunc, hle⟩⟩
      · rintro ⟨-, hoffer | hle⟩
        · have hsub := ((Multiboot.within_iff_subset hpos hend).mp hoffer.2).2
          unfold span at hsub
          rw [Set.Ico_subset_Ico_iff (by omega)] at hsub
          exact hsub.1
        · exact hle.2
    · obtain ⟨hbytes, hwrap⟩ := bytes_of_not_truncated hhigh htrunc
      rw [hbytes]
      constructor
      · intro hsub
        exact ⟨hhigh, Or.inl ⟨htype,
          (Multiboot.within_iff_subset hpos hend).mpr ⟨hwrap, hsub⟩⟩⟩
      · rintro ⟨-, hoffer | hle⟩
        · exact ((Multiboot.within_iff_subset hpos hend).mp hoffer.2).2
        · exact absurd hle.1 htrunc
  · constructor
    · intro hsub
      have hstart := le_fullBase hhigh
      unfold span bytes at hsub
      rw [Set.Ico_subset_Ico_iff (by omega)] at hsub
      omega
    · exact fun h => absurd h.1 hhigh

end MbMmap

namespace MultibootObject

/-- With every table within its limit, a range is let through only as usable memory exactly when
it is turned down, or lies below 4 GB in a usable entry and clear of what goes on past it. -/
theorem checkRange_ram_iff {m : Memory} {self newHeader : Address} {ob ob' : MultibootObject}
    {es : List MbMmap} (hmmap : (MbHeader.read m newHeader).MmapTable m es)
    (hstr : (MbHeader.read m newHeader).has Multiboot.elfAvail = true →
      (MbHeader.read m newHeader).elfShndx.toNat < elfMax)
    (hmap : es.length ≤ mmapMax) (hmods : (MbHeader.read m newHeader).modsCount.toNat ≤ modMax)
    (helf : (MbHeader.read m newHeader).elfNum.toNat ≤ elfMax)
    (hparse : ob.parse m self newHeader = some ob') {base length : BitVec 32}
    (hpos : 0 < length.toNat) (hend : base.toNat + length.toNat ≤ 2 ^ 32) :
    (ob'.tables.checkRange base length = true →
        ((MbHeader.read m newHeader).tables m es).RamOnly base length) ↔
      ob'.tables.Refused base length ∨
        ((MbHeader.read m newHeader).tables m es).Backed base length ∧
          ((MbHeader.read m newHeader).tables m es).Unhidden base length := by
  obtain ⟨ob₂, hparse₂, hflags, hrec⟩ := parse_records_capped self ob hmmap hstr
  obtain rfl : ob' = ob₂ := Option.some.inj (hparse.symm.trans hparse₂)
  generalize MbHeader.read m newHeader = h at *
  have hmods' := Nat.le_trans (h.length_modsTable_le m) hmods
  have helf' := Nat.le_trans (h.length_elfTable_le m) helf
  have hpassed := hrec.passed base length hpos hend
  simp only [LoaderTables.capped, MbHeader.tables] at hpassed
  rw [List.take_of_length_le hmap, List.take_of_length_le hmods',
    List.take_of_length_le helf'] at hpassed
  rw [Multiboot.checkRange_iff] at hpassed ⊢
  constructor
  · intro hall
    by_cases href : ob'.tables.Refused base length
    · exact Or.inl href
    obtain ⟨⟨e, he, htype, hsub⟩, hother, hsections, -⟩ := hall href
    refine Or.inr ⟨⟨e, he, htype, (MbMmap.subset_iff hpos hend htype).mp hsub⟩, ?_, ?_, ?_⟩
    · intro e he htype htrunc
      exact (htrunc.disjoint_iff hpos hend).mp (hother e he htype)
    · intro s hs hwrap
      have hdisj := hsections s hs
      unfold span at hdisj
      rw [Set.Ico_disjoint_Ico] at hdisj
      omega
    · exact fun s hs => hsections s (List.mem_of_getElem? hs)
  · rintro (href | ⟨⟨e, he, htype, hback⟩, hhidden⟩) hok
    · exact absurd href hok
    obtain ⟨hother, hmodules, hsections⟩ := hpassed hok
    refine ⟨⟨e, he, htype, (MbMmap.subset_iff hpos hend htype).mpr hback⟩, ?_, ?_, hmodules⟩
    · intro e he htype
      by_cases htrunc : e.Truncated
      · exact (htrunc.disjoint_iff hpos hend).mpr (hhidden.mmap e he htype htrunc)
      · exact hother e he htype htrunc
    · intro s hs
      obtain ⟨i, hi⟩ := List.getElem?_of_mem hs
      by_cases hstrings : i = h.elfShndx.toNat
      · subst i
        exact hhidden.strings s hi
      by_cases hwrap : s.shAddr.toNat + s.shSize.toNat ≤ 2 ^ 32
      · exact hsections i s hi hstrings hwrap
      · have hbefore := hhidden.elf s hs (Nat.not_le.mp hwrap)
        unfold span
        rw [Set.Ico_disjoint_Ico]
        omega

/-- A header at 0 with a memory map of one entry: usable memory of one page from 4 GB on. -/
def highMemory : Memory := fun a =>
  if a = 0 then 0x40 else if a = 44 then 24 else if a = 48 then 64 else if a = 64 then 20 else
  if a = 72 then 1 else if a = 77 then 0x10 else if a = 84 then 1 else 0

theorem highMemory_map :
    (MbHeader.read highMemory 0).MmapTable highMemory [⟨0, 1, 0x1000, 0, 1⟩] := by
  unfold MbHeader.MmapTable
  rw [if_pos (by decide)]
  exact ⟨[64], Walk.entry (by decide) (Walk.stop (by decide)), by decide⟩

theorem highMemory_check :
    (emptyObject.parse highMemory 0x100000 0).map (fun ob => ob.tables.checkRange 0 0x1000) =
      some true := by
  decide +kernel

theorem highMemory_parsed :
    ∃ ob', emptyObject.parse highMemory 0x100000 0 = some ob' ∧
      ob'.tables.checkRange 0 0x1000 = true := Option.map_eq_some_iff.mp highMemory_check

theorem highMemory_first_page : ∃ ob', emptyObject.parse highMemory 0x100000 0 = some ob' ∧
    ((ob'.tables.checkRange 0 0x1000 = true →
        ((MbHeader.read highMemory 0).tables highMemory [⟨0, 1, 0x1000, 0, 1⟩]).RamOnly 0 0x1000) ↔
      ob'.tables.Refused 0 0x1000 ∨
        ((MbHeader.read highMemory 0).tables highMemory [⟨0, 1, 0x1000, 0, 1⟩]).Backed 0 0x1000 ∧
          ((MbHeader.read highMemory 0).tables highMemory
            [⟨0, 1, 0x1000, 0, 1⟩]).Unhidden 0 0x1000) := by
  obtain ⟨ob', hparse, -⟩ := highMemory_parsed
  refine ⟨ob', hparse, checkRange_ram_iff highMemory_map ?_ ?_ ?_ ?_ hparse ?_ ?_⟩
  all_goals decide

/-- The page at 4 GB is taken for the page at 0. -/
theorem high_page_called_free : ¬ ∀ (m : Memory) (self newHeader : Address)
    (ob ob' : MultibootObject) (es : List MbMmap) (base length : BitVec 32),
    (MbHeader.read m newHeader).MmapTable m es →
    (MbHeader.read m newHeader).has Multiboot.mmapAvail = true →
    ((MbHeader.read m newHeader).has Multiboot.elfAvail = true →
      (MbHeader.read m newHeader).elfShndx.toNat < elfMax) →
    es.length ≤ mmapMax → (MbHeader.read m newHeader).modsCount.toNat ≤ modMax →
    (MbHeader.read m newHeader).elfNum.toNat ≤ elfMax →
    ob.parse m self newHeader = some ob' → 0 < length.toNat →
    base.toNat + length.toNat ≤ 2 ^ 32 → ob'.tables.checkRange base length = true →
    ((MbHeader.read m newHeader).tables m es).RamOnly base length := by
  intro h
  obtain ⟨ob', hparse, hcheck⟩ := highMemory_parsed
  have hram := h highMemory 0x100000 0 emptyObject ob' _ 0 0x1000 highMemory_map (by decide)
    (by decide) (by decide) (by decide) (by decide) hparse (by decide) (by decide) hcheck
  obtain ⟨e, he, -, hsub⟩ := hram.available
  obtain rfl : e = ⟨0, 1, 0x1000, 0, 1⟩ := List.mem_singleton.mp he
  have hzero : 0 ∈ span 0 0x1000 := Set.mem_Ico.mpr ⟨by decide, by decide⟩
  have hstart := (Set.mem_Ico.mp (hsub hzero)).1
  exact absurd hstart (by decide)

end MultibootObject
end Tysos
