import Tysos.Support.Interval
import Tysos.Support.ByteMemory
import Mathlib.Order.Nat

/-!
# The multiboot tables

The tables of the class `Multiboot` as `Parse` leaves them, and the two questions asked of
them: whether a range of memory is free, and where one of a given length is.
-/

namespace Tysos
open ByteMemory
set_option autoImplicit false

structure MbMmap where
  baseAddr : BitVec 32
  baseAddrHigh : BitVec 32
  length : BitVec 32
  lengthHigh : BitVec 32
  type : BitVec 32
  deriving DecidableEq, Repr

structure ElfShdr where
  shAddr : BitVec 32
  shSize : BitVec 32
  deriving DecidableEq, Repr

structure MbMod where
  modStart : BitVec 32
  modEnd : BitVec 32
  deriving DecidableEq, Repr

/-- `mmapAddr` and `elfAddr` are the addresses given by the loader; they point to the copied
tables instead where the header has those. -/
structure Multiboot where
  flags : BitVec 32
  memUpper : BitVec 32
  mmapAddr : Address
  elfAddr : Address
  mmap : List MbMmap
  elf : List ElfShdr
  mods : List MbMod
  deriving DecidableEq, Repr

namespace Multiboot

def memAvail : BitVec 32 := 0x1
def modsAvail : BitVec 32 := 0x8
def elfAvail : BitVec 32 := 0x20
def mmapAvail : BitVec 32 := 0x40

/-- The type of a memory map entry that is usable memory. -/
def mmapTypeAvail : BitVec 32 := 1

def overlapEqual : BitVec 32 := 1
def overlapLess : BitVec 32 := 2
def overlapMore : BitVec 32 := 4
def overlapWithin : BitVec 32 := 8

def has (mb : Multiboot) (flag : BitVec 32) : Bool := mb.flags &&& flag ≠ 0

def overlap (base₁ length₁ base₂ length₂ : BitVec 32) : BitVec 32 :=
  if length₁ = 0 then 0
  else if length₂ = 0 then 0
  else
    let ret : BitVec 32 := 0
    let end₁ := base₁ + (length₁ - 1)
    let end₂ := base₂ + (length₂ - 1)
    let ret := if base₁ < base₂ then ret ||| overlapLess else ret
    let ret := if end₁ > end₂ then ret ||| overlapMore else ret
    let ret :=
      if base₁ ≥ base₂ ∧ base₁ ≤ end₂ then ret ||| overlapEqual
      else if end₁ ≥ base₂ ∧ end₁ ≤ end₂ then ret ||| overlapEqual
      else if ret &&& overlapLess ≠ 0 ∧ ret &&& overlapMore ≠ 0 then ret ||| overlapEqual
      else ret
    if ret = overlapEqual then ret ||| overlapWithin else ret

/-- The loop of `CheckRange` over the memory map; `free` is set by an entry around the range. -/
def checkMmap (base length : BitVec 32) : List MbMmap → Bool → Bool
  | [], free => free
  | e :: es, free =>
    if e.type = mmapTypeAvail then
      if overlap base length e.baseAddr e.length &&& overlapWithin ≠ 0 then
        checkMmap base length es true
      else checkMmap base length es free
    else if overlap base length e.baseAddr e.length &&& overlapEqual ≠ 0 then false
    else checkMmap base length es free

def checkElf (base length : BitVec 32) (elf : List ElfShdr) : Bool :=
  elf.all fun e => overlap base length e.shAddr e.shSize &&& overlapEqual = 0

def checkMods (base length : BitVec 32) (mods : List MbMod) : Bool :=
  mods.all fun e =>
    overlap base length e.modStart (e.modEnd - e.modStart) &&& overlapEqual = 0

def checkRange (mb : Multiboot) (base length : BitVec 32) : Bool :=
  (if mb.has mmapAvail then checkMmap base length mb.mmap false
    else if mb.has memAvail then ¬ (base + length > mb.memUpper + 0x100000)
    else true) &&
  (if mb.has elfAvail then checkElf base length mb.elf else true) &&
  (if mb.has modsAvail then checkMods base length mb.mods else true)

/-- The start of each usable entry, then the end of each ELF section, then of each module. -/
def rangeStarts (mb : Multiboot) : List (BitVec 32) :=
  ((mb.mmap.filter fun e => e.type = mmapTypeAvail).map MbMmap.baseAddr) ++
    mb.elf.map (fun e => e.shAddr + e.shSize) ++ mb.mods.map MbMod.modEnd

def findRange (mb : Multiboot) (length : BitVec 32) : BitVec 32 :=
  match mb.rangeStarts.find? fun base => mb.checkRange base length with
  | some base => base
  | none => 0

theorem overlap_equal_iff {base₁ length₁ base₂ length₂ : BitVec 32} (h₁ : length₁ ≠ 0)
    (h₂ : length₂ ≠ 0) : overlap base₁ length₁ base₂ length₂ &&& overlapEqual ≠ 0 ↔
      (base₂ ≤ base₁ ∧ base₁ ≤ base₂ + (length₂ - 1)) ∨
        (base₂ ≤ base₁ + (length₁ - 1) ∧ base₁ + (length₁ - 1) ≤ base₂ + (length₂ - 1)) ∨
        (base₁ < base₂ ∧ base₂ + (length₂ - 1) < base₁ + (length₁ - 1)) := by
  unfold overlap
  rw [if_neg h₁, if_neg h₂]
  generalize base₁ + (length₁ - 1) = end₁
  generalize base₂ + (length₂ - 1) = end₂
  by_cases hl : base₁ < base₂ <;> by_cases hm : end₁ > end₂ <;>
    by_cases he₁ : base₁ ≥ base₂ ∧ base₁ ≤ end₂ <;>
    by_cases he₂ : end₁ ≥ base₂ ∧ end₁ ≤ end₂ <;>
    simp [hl, hm, he₁, he₂, overlapLess, overlapMore, overlapEqual, overlapWithin]

theorem last_toNat {base length : BitVec 32} (hpos : 0 < length.toNat)
    (hwrap : base.toNat + length.toNat ≤ 2 ^ 32) :
    (base + (length - 1)).toNat = base.toNat + length.toNat - 1 := by
  bv_omega

theorem overlap_within_iff {base₁ length₁ base₂ length₂ : BitVec 32} (h₁ : length₁ ≠ 0)
    (h₂ : length₂ ≠ 0) : overlap base₁ length₁ base₂ length₂ &&& overlapWithin ≠ 0 ↔
      (base₂ ≤ base₁ ∧ base₁ + (length₁ - 1) ≤ base₂ + (length₂ - 1)) ∧
        (base₁ ≤ base₂ + (length₂ - 1) ∨ base₂ ≤ base₁ + (length₁ - 1)) := by
  unfold overlap
  rw [if_neg h₁, if_neg h₂]
  generalize base₁ + (length₁ - 1) = end₁
  generalize base₂ + (length₂ - 1) = end₂
  by_cases hl : base₁ < base₂ <;> by_cases hm : end₁ > end₂ <;>
    by_cases he₁ : base₁ ≥ base₂ ∧ base₁ ≤ end₂ <;>
    by_cases he₂ : end₁ ≥ base₂ ∧ end₁ ≤ end₂ <;>
    simp [hl, hm, he₁, he₂, overlapLess, overlapMore, overlapEqual, overlapWithin] <;> grind

theorem overlap_of_zero {base₁ length₁ base₂ : BitVec 32} : overlap base₁ length₁ base₂ 0 = 0 := by
  unfold overlap
  rw [if_pos rfl, ite_self]

theorem ne_zero_of_pos {length : BitVec 32} (h : 0 < length.toNat) : length ≠ 0 := by
  rintro rfl
  exact absurd h (by decide)

theorem overlap_equal_iff_meets {base₁ length₁ base₂ length₂ : BitVec 32}
    (hpos₁ : 0 < length₁.toNat) (hpos₂ : 0 < length₂.toNat)
    (hwrap₁ : base₁.toNat + length₁.toNat ≤ 2 ^ 32)
    (hwrap₂ : base₂.toNat + length₂.toNat ≤ 2 ^ 32) :
    overlap base₁ length₁ base₂ length₂ &&& overlapEqual ≠ 0 ↔
      base₁.toNat < base₂.toNat + length₂.toNat ∧ base₂.toNat < base₁.toNat + length₁.toNat := by
  have hlast₁ := last_toNat hpos₁ hwrap₁
  have hlast₂ := last_toNat hpos₂ hwrap₂
  have hle₁ : base₁ ≤ base₁ + (length₁ - 1) := by
    rw [BitVec.le_def]
    omega
  have hle₂ : base₂ ≤ base₂ + (length₂ - 1) := by
    rw [BitVec.le_def]
    omega
  have hends := Interval.meets_iff_ends (α := Nat) hle₁ hle₂
  rw [overlap_equal_iff (ne_zero_of_pos hpos₁) (ne_zero_of_pos hpos₂)]
  refine hends.symm.trans ?_
  unfold Interval.Meets
  rw [hlast₁, hlast₂]
  omega

theorem clear_of_overlap {base₁ length₁ base₂ length₂ : BitVec 32} (hpos₁ : 0 < length₁.toNat)
    (hpos₂ : 0 < length₂.toNat) (hwrap₁ : base₁.toNat + length₁.toNat ≤ 2 ^ 32)
    (hwrap₂ : base₂.toNat + length₂.toNat ≤ 2 ^ 32)
    (h : overlap base₁ length₁ base₂ length₂ &&& overlapEqual = 0) :
    Clear base₁ length₁.toNat base₂ length₂.toNat := by
  have hmeet := mt (overlap_equal_iff_meets hpos₁ hpos₂ hwrap₁ hwrap₂).mpr (not_not_intro h)
  rcases Nat.lt_or_ge base₁.toNat (base₂.toNat + length₂.toNat) with hlt | hge
  · exact clear_of_le hwrap₂ (by omega)
  · exact (clear_of_le hwrap₁ hge).symm

end Multiboot
end Tysos
