import Tysos.Memory.Section
import Tysos.Support.Run

/-!
# Section lists

The class `SectionList`: the sections of the kernel and those of a process, and the search
for a free place in one of the two.
-/

namespace Tysos
set_option autoImplicit false

/-- Both lists are there: the constructor replaces a missing one by an empty list. -/
structure SectionList where
  kernelSections : List Section
  processSections : List Section
  deriving DecidableEq, Repr

/-- Up to the next page boundary, in 32 bits. -/
def pageUp (x : Uintptr) : Uintptr := (x + pageSize - 1) &&& pageMask

theorem and_pageMask_toNat (a : BitVec 32) : (a &&& pageMask).toNat = a.toNat / 4096 * 4096 := by
  have hsplit : a &&& pageMask = (a >>> 12) <<< 12 := by
    apply BitVec.eq_of_getLsbD_eq
    intro i hi
    have hmask : pageMask = BitVec.allOnes 32 <<< 12 := rfl
    rw [hmask, BitVec.getLsbD_and, BitVec.getLsbD_shiftLeft, BitVec.getLsbD_shiftLeft,
      BitVec.getLsbD_ushiftRight, BitVec.getLsbD_allOnes]
    by_cases hlt : i < 12
    · simp [hlt]
    · have hback : 12 + (i - 12) = i := by omega
      have hin : i - 12 < 32 := by omega
      simp [hlt, hi, hback, hin]
  have ha := a.isLt
  rw [hsplit, BitVec.toNat_shiftLeft, BitVec.toNat_ushiftRight, Nat.shiftLeft_eq,
    Nat.shiftRight_eq_div_pow]
  omega

theorem pageUp_toNat {x : Uintptr} (h : x.toNat + 4095 < 2 ^ 32) :
    (pageUp x).toNat = (x.toNat + 4095) / 4096 * 4096 := by
  have hsum : (x + pageSize - 1).toNat = x.toNat + 4095 := by
    unfold pageSize
    bv_omega
  unfold pageUp
  rw [and_pageMask_toNat, hsum]

/-- First byte past the section as `_findfree` adds it up. -/
def Section.limit (s : Section) : Uintptr := s.base + s.length + s.expandUp + s.upperPadding

namespace SectionList

def count (l : SectionList) : Nat := l.kernelSections.length + l.processSections.length

/-- `none` is an access through a node that does not exist. Past the end of the kernel
sections it is again the kernel list that is asked. -/
def getItem (l : SectionList) (index : Nat) : Option Section :=
  if index < l.kernelSections.length then l.kernelSections[index]?
  else l.kernelSections[index - l.kernelSections.length]?

def add (l : SectionList) (item : Section) : SectionList :=
  if item.has Section.flagKernelSection then
    { l with kernelSections := l.kernelSections ++ [item] }
  else { l with processSections := l.processSections ++ [item] }

def isfree (sections : List Section) (re : Section.Extent) : Bool :=
  sections.all fun s =>
    match s.checkExtents with
    | none => true
    | some se => !re.eq se

/-- The loop of `_findfree` over the addresses to start from. -/
def findfreeLoop (sections : List Section) (request : Section) : List Uintptr → Option Section
  | [] => none
  | start :: rest =>
    let lower := pageUp start
    let upper := lower + request.extentLength - 1
    if lower ≥ request.rangeMin ∧ upper ≤ request.rangeMax ∧ isfree sections ⟨upper, lower⟩ then
      some { request with base := lower + request.lowerPadding + request.expandDown }
    else findfreeLoop sections request rest

def findfree (sections : List Section) (request : Section) : Option Section :=
  findfreeLoop sections request (request.rangeMin :: sections.map Section.limit)

/-- The list a section of this kind is looked for and added in. -/
def ofKind (l : SectionList) (s : Section) : List Section :=
  if s.has Section.flagKernelSection then l.kernelSections else l.processSections

def findFree (l : SectionList) (request : Section) : Option Section :=
  findfree (l.ofKind request) request

/-- `FindFree` and, if it returns the request, `Add`. -/
def place (l : SectionList) (request : Section) : Option SectionList :=
  (l.findFree request).map l.add

/-- What `_findfree` has tested of the place it returns. -/
theorem findfreeLoop_eq_some {sections : List Section} {request r : Section}
    {starts : List Uintptr} (h : findfreeLoop sections request starts = some r) :
    ∃ c : Uintptr, c ≥ request.rangeMin ∧ c + request.extentLength - 1 ≤ request.rangeMax ∧
      isfree sections ⟨c + request.extentLength - 1, c⟩ = true ∧
      r = { request with base := c + request.lowerPadding + request.expandDown } := by
  induction starts with
  | nil => simp [findfreeLoop] at h
  | cons start rest ih =>
    unfold findfreeLoop at h
    dsimp only at h
    split at h
    · rename_i htest
      exact ⟨pageUp start, htest.1, htest.2.1, htest.2.2, (Option.some.inj h).symm⟩
    · exact ih h

end SectionList
end Tysos
