import Tysos.Boot.Multiboot
import Mathlib.Order.Interval.Set.Disjoint
import Mathlib.Order.Lattice.Nat
import Mathlib.Order.CompletePartialOrder

/-!
# What `CheckRange` decides

The memory that a table entry stands for, as a set of addresses, and the answer of
`CheckRange` in terms of the low words it looks at.
-/

namespace Tysos
set_option autoImplicit false

/-- The bytes of a range; one that goes past the end of memory is not wrapped around. -/
def span (base length : BitVec 32) : Set Nat :=
  Set.Ico base.toNat (base.toNat + length.toNat)

namespace MbMmap

def fullBase (e : MbMmap) : Nat := e.baseAddrHigh.toNat * 2 ^ 32 + e.baseAddr.toNat

def fullLength (e : MbMmap) : Nat := e.lengthHigh.toNat * 2 ^ 32 + e.length.toNat

/-- The memory of an entry, by the whole of its 64-bit base and length. -/
def bytes (e : MbMmap) : Set Nat := Set.Ico e.fullBase (e.fullBase + e.fullLength)

/-- The entry starts below 4 GB and its low words do not describe it. -/
def Truncated (e : MbMmap) : Prop :=
  e.baseAddrHigh = 0 ∧ (e.lengthHigh ≠ 0 ∨ 2 ^ 32 < e.baseAddr.toNat + e.length.toNat)

instance (e : MbMmap) : Decidable e.Truncated := inferInstanceAs (Decidable (_ ∧ _))

theorem Truncated.reaches {e : MbMmap} (h : e.Truncated) :
    e.fullBase = e.baseAddr.toNat ∧ 2 ^ 32 ≤ e.fullBase + e.fullLength := by
  obtain ⟨hbase, hlength⟩ := h
  unfold fullBase fullLength
  rw [hbase]
  refine ⟨by simp, ?_⟩
  rcases hlength with hhigh | hwrap
  · have hpos : e.lengthHigh.toNat ≠ 0 := fun hz => hhigh (BitVec.eq_of_toNat_eq hz)
    have hone : 2 ^ 32 ≤ e.lengthHigh.toNat * 2 ^ 32 :=
      Nat.le_mul_of_pos_left _ (Nat.pos_of_ne_zero hpos)
    exact hone.trans ((Nat.le_add_right _ _).trans (Nat.le_add_left _ _))
  · exact hwrap.le.trans (by simp)

theorem bytes_of_not_truncated {e : MbMmap} (hbase : e.baseAddrHigh = 0) (h : ¬ e.Truncated) :
    e.bytes = span e.baseAddr e.length ∧ e.baseAddr.toNat + e.length.toNat ≤ 2 ^ 32 := by
  have hlow : e.lengthHigh = 0 ∧ ¬ 2 ^ 32 < e.baseAddr.toNat + e.length.toNat := by
    constructor
    · by_contra hne
      exact h ⟨hbase, Or.inl hne⟩
    · exact fun hlt => h ⟨hbase, Or.inr hlt⟩
  unfold bytes fullBase fullLength span
  rw [hbase, hlow.1]
  exact ⟨by simp, Nat.not_lt.mp hlow.2⟩

theorem le_fullBase {e : MbMmap} (hbase : e.baseAddrHigh ≠ 0) : 2 ^ 32 ≤ e.fullBase := by
  have hpos : e.baseAddrHigh.toNat ≠ 0 := fun hz => hbase (BitVec.eq_of_toNat_eq hz)
  have hone : 2 ^ 32 ≤ e.baseAddrHigh.toNat * 2 ^ 32 :=
    Nat.le_mul_of_pos_left _ (Nat.pos_of_ne_zero hpos)
  exact hone.trans (Nat.le_add_right _ _)

end MbMmap

/-- The bytes of a module, none if it ends before it starts. -/
def MbMod.bytes (e : MbMod) : Set Nat := Set.Ico e.modStart.toNat e.modEnd.toNat

namespace Multiboot

section Overlap
variable {base length b l : BitVec 32} (hpos : 0 < length.toNat)
  (hend : base.toNat + length.toNat ≤ 2 ^ 32)
include hpos hend

theorem equal_iff_not_disjoint (hwrap : b.toNat + l.toNat ≤ 2 ^ 32) :
    overlap base length b l &&& overlapEqual = 0 ↔ Disjoint (span base length) (span b l) := by
  unfold span
  rw [Set.Ico_disjoint_Ico]
  by_cases hl : 0 < l.toNat
  · have hmeet := overlap_equal_iff_meets hpos hl hend hwrap
    by_cases hzero : overlap base length b l &&& overlapEqual = 0
    · have hapart := mt hmeet.mpr (not_not_intro hzero)
      exact ⟨fun _ => by omega, fun _ => hzero⟩
    · have hmeets := hmeet.mp hzero
      exact ⟨fun h => absurd h hzero, fun h => by omega⟩
  · obtain rfl : l = 0 := BitVec.eq_of_toNat_eq (Nat.eq_zero_of_not_pos hl)
    rw [overlap_of_zero]
    exact ⟨fun _ => by simp, fun _ => by simp⟩

/-- `WITHIN` is not given by a second range that wraps. -/
theorem within_iff_subset : overlap base length b l &&& overlapWithin ≠ 0 ↔
    b.toNat + l.toNat ≤ 2 ^ 32 ∧ span base length ⊆ span b l := by
  have hlast := last_toNat hpos hend
  unfold span
  rw [Set.Ico_subset_Ico_iff (by omega)]
  by_cases hl : 0 < l.toNat
  · rw [overlap_within_iff (ne_zero_of_pos hpos) (ne_zero_of_pos hl)]
    simp only [BitVec.le_def, hlast]
    by_cases hwrap : b.toNat + l.toNat ≤ 2 ^ 32
    · rw [last_toNat hl hwrap]
      omega
    · have hsmall : (b + (l - 1)).toNat < b.toNat := by
        have hb := b.isLt
        bv_omega
      omega
  · obtain rfl : l = 0 := BitVec.eq_of_toNat_eq (Nat.eq_zero_of_not_pos hl)
    rw [overlap_of_zero]
    have hzero : (0 : BitVec 32).toNat = 0 := rfl
    constructor
    · intro h
      exact absurd rfl h
    · rintro ⟨-, h⟩
      omega

/-- A module's length is taken modulo `2 ^ 32`. -/
theorem module_equal_iff (e : MbMod) (hmod : e.modStart ≤ e.modEnd) :
    overlap base length e.modStart (e.modEnd - e.modStart) &&& overlapEqual = 0 ↔
      Disjoint (span base length) e.bytes := by
  have hle : e.modStart.toNat ≤ e.modEnd.toNat := hmod
  have hlength : (e.modEnd - e.modStart).toNat = e.modEnd.toNat - e.modStart.toNat := by
    bv_omega
  have hlt := e.modEnd.isLt
  rw [equal_iff_not_disjoint hpos hend (by omega)]
  unfold MbMod.bytes span
  rw [hlength, Nat.add_sub_cancel' hle]

end Overlap

/-- An entry of the memory map speaks against the range. -/
def Reserved (base length : BitVec 32) (e : MbMmap) : Prop :=
  e.type ≠ mmapTypeAvail ∧ overlap base length e.baseAddr e.length &&& overlapEqual ≠ 0

/-- A usable entry whose low words take in the range. -/
def Offered (base length : BitVec 32) (e : MbMmap) : Prop :=
  e.type = mmapTypeAvail ∧ overlap base length e.baseAddr e.length &&& overlapWithin ≠ 0

/-- What makes `CheckRange` turn a range down. -/
inductive Refused (mb : Multiboot) (base length : BitVec 32) : Prop where
  | notOffered : mb.has mmapAvail = true → (∀ e ∈ mb.mmap, ¬ Offered base length e) →
      Refused mb base length
  | reserved {e : MbMmap} : mb.has mmapAvail = true → e ∈ mb.mmap → Reserved base length e →
      Refused mb base length
  | aboveLimit : mb.has mmapAvail = false → mb.has memAvail = true →
      base + length > mb.memUpper + 0x100000 → Refused mb base length
  | elfSection {s : ElfShdr} : mb.has elfAvail = true → s ∈ mb.elf →
      overlap base length s.shAddr s.shSize &&& overlapEqual ≠ 0 → Refused mb base length
  | module {e : MbMod} : mb.has modsAvail = true → e ∈ mb.mods →
      overlap base length e.modStart (e.modEnd - e.modStart) &&& overlapEqual ≠ 0 →
      Refused mb base length

theorem checkMmap_iff {base length : BitVec 32} {es : List MbMmap} {free : Bool} :
    checkMmap base length es free = true ↔
      (free = true ∨ ∃ e ∈ es, Offered base length e) ∧ ∀ e ∈ es, ¬ Reserved base length e := by
  induction es generalizing free with
  | nil => simp [checkMmap]
  | cons e es ih =>
    unfold checkMmap
    simp only [List.forall_mem_cons]
    by_cases htype : e.type = mmapTypeAvail
    · have hnot : ¬ Reserved base length e := fun h => h.1 htype
      by_cases hwithin : overlap base length e.baseAddr e.length &&& overlapWithin ≠ 0
      · have hoffer : Offered base length e := ⟨htype, hwithin⟩
        rw [if_pos htype, if_pos hwithin, ih]
        simp [hnot, hoffer]
      · have hoffer : ¬ Offered base length e := fun h => hwithin h.2
        rw [if_pos htype, if_neg hwithin, ih]
        simp [hnot, hoffer]
    · have hoffer : ¬ Offered base length e := fun h => htype h.1
      rw [if_neg htype]
      by_cases hequal : overlap base length e.baseAddr e.length &&& overlapEqual ≠ 0
      · have hres : Reserved base length e := ⟨htype, hequal⟩
        rw [if_pos hequal]
        simp [hres]
      · have hres : ¬ Reserved base length e := fun h => hequal h.2
        rw [if_neg hequal, ih]
        simp [hres, hoffer]

theorem checkRange_iff {mb : Multiboot} {base length : BitVec 32} :
    mb.checkRange base length = true ↔ ¬ mb.Refused base length := by
  unfold checkRange
  rw [Bool.and_eq_true, Bool.and_eq_true]
  constructor
  · rintro ⟨⟨hmap, helf⟩, hmods⟩ href
    cases href with
    | notOffered hflag hnone =>
      rw [if_pos hflag] at hmap
      obtain ⟨e, he, ho⟩ := (checkMmap_iff.mp hmap).1.resolve_left Bool.false_ne_true
      exact hnone e he ho
    | reserved hflag he hr =>
      rw [if_pos hflag] at hmap
      exact (checkMmap_iff.mp hmap).2 _ he hr
    | aboveLimit hflag hmem habove =>
      rw [hflag, if_neg Bool.false_ne_true, if_pos hmem] at hmap
      exact of_decide_eq_true hmap habove
    | elfSection hflag hs hequal =>
      rw [if_pos hflag] at helf
      exact hequal (by simpa using List.all_eq_true.mp helf _ hs)
    | module hflag he hequal =>
      rw [if_pos hflag] at hmods
      exact hequal (by simpa using List.all_eq_true.mp hmods _ he)
  · intro href
    refine ⟨⟨?_, ?_⟩, ?_⟩
    · cases hflag : mb.has mmapAvail with
      | true =>
        rw [if_pos rfl]
        refine checkMmap_iff.mpr ⟨?_, fun e he hr => href (Refused.reserved hflag he hr)⟩
        by_contra hnone
        refine href (Refused.notOffered hflag fun e he ho => hnone (Or.inr ⟨e, he, ho⟩))
      | false =>
        rw [if_neg Bool.false_ne_true]
        split
        · rename_i hmem
          exact decide_eq_true fun habove => href (Refused.aboveLimit hflag hmem habove)
        · rfl
    · split
      · rename_i hflag
        refine List.all_eq_true.mpr fun s hs => ?_
        by_contra hequal
        exact href (Refused.elfSection hflag hs (by simpa using hequal))
      · rfl
    · split
      · rename_i hflag
        refine List.all_eq_true.mpr fun e he => ?_
        by_contra hequal
        exact href (Refused.module hflag he (by simpa using hequal))
      · rfl

theorem findRange_checked {mb : Multiboot} {length : BitVec 32} (h : mb.findRange length ≠ 0) :
    mb.checkRange (mb.findRange length) length = true := by
  unfold findRange at h ⊢
  cases hfind : mb.rangeStarts.find? fun base => mb.checkRange base length with
  | none =>
    rw [hfind] at h
    exact absurd rfl h
  | some base =>
    have hbase := List.find?_some hfind
    exact hbase

section
variable {mb : Multiboot} {base length : BitVec 32} (hpos : 0 < length.toNat)
  (hend : base.toNat + length.toNat ≤ 2 ^ 32) (hcheck : mb.checkRange base length = true)
include hpos hend hcheck

theorem disjoint_mmap (hflag : mb.has mmapAvail = true) {e : MbMmap} (he : e ∈ mb.mmap)
    (htype : e.type ≠ mmapTypeAvail) (hfull : ¬ e.Truncated) :
    Disjoint (span base length) e.bytes := by
  have hnot : ¬ Reserved base length e := fun hr =>
    checkRange_iff.mp hcheck (Refused.reserved hflag he hr)
  by_cases hhigh : e.baseAddrHigh = 0
  · obtain ⟨hbytes, hwrap⟩ := MbMmap.bytes_of_not_truncated hhigh hfull
    rw [hbytes]
    apply (equal_iff_not_disjoint hpos hend hwrap).mp
    by_contra hequal
    exact hnot ⟨htype, hequal⟩
  · have hbase := MbMmap.le_fullBase hhigh
    unfold span MbMmap.bytes
    rw [Set.Ico_disjoint_Ico]
    omega

theorem disjoint_elf (hflag : mb.has elfAvail = true) {s : ElfShdr} (hs : s ∈ mb.elf)
    (hwrap : s.shAddr.toNat + s.shSize.toNat ≤ 2 ^ 32) :
    Disjoint (span base length) (span s.shAddr s.shSize) := by
  apply (equal_iff_not_disjoint hpos hend hwrap).mp
  by_contra hequal
  exact checkRange_iff.mp hcheck (Refused.elfSection hflag hs hequal)

theorem disjoint_mods (hflag : mb.has modsAvail = true) {e : MbMod} (he : e ∈ mb.mods) :
    Disjoint (span base length) e.bytes := by
  by_cases hle : e.modStart ≤ e.modEnd
  · apply (module_equal_iff hpos hend e hle).mp
    by_contra hequal
    exact checkRange_iff.mp hcheck (Refused.module hflag he hequal)
  · have hempty : e.modEnd.toNat ≤ e.modStart.toNat := (Nat.lt_of_not_le hle).le
    unfold MbMod.bytes
    rw [Set.Ico_eq_empty_of_le hempty]
    exact Set.disjoint_empty _

end

end Multiboot
end Tysos
