import Tysos.Support.PageTables
import Tysos.PhysMem.Bitmap
import Tysos.Memory.Fault

/-!
# Memory through the page tables

Physical memory as frames of words, and the machine that reaches it through the page
directory in `cr3`, without a translation buffer. An address whose page is not present is
given to `ResolvePageFault`, which calls `MapPage`, and is then used again.
-/

namespace Tysos
open PageTables
set_option autoImplicit false

abbrev Frame := BitVec 20
abbrev Index := BitVec 10
abbrev FrameMemory := Frame → Index → BitVec 32

def frameOf (a : BitVec 32) : Frame := a.extractLsb' 12 20
def pdIndex (va : Uintptr) : Index := va.extractLsb' 22 10
def ptIndex (va : Uintptr) : Index := va.extractLsb' 12 10
def wordIndex (va : Uintptr) : Index := va.extractLsb' 2 10

def pPresent : BitVec 32 := 0x1
def pWritable : BitVec 32 := 0x2
def pUser : BitVec 32 := 0x4
def pWriteThrough : BitVec 32 := 0x8
def pCacheDisabled : BitVec 32 := 0x10
def pGlobal : BitVec 32 := 0x100

def pageTables : Uintptr := 0x3fc00000
def pageDir : Uintptr := 0x3fcff000

def isPresent (e : BitVec 32) : Bool := e &&& pPresent ≠ 0

/-- Entries of page directories and page tables. -/
def i386 : Format Frame (BitVec 32) := ⟨isPresent, frameOf⟩

theorem pdIndex_toNat (va : Uintptr) : (pdIndex va).toNat = va.toNat / 2 ^ 22 := by
  have hva := va.isLt
  unfold pdIndex
  rw [BitVec.extractLsb'_toNat, Nat.shiftRight_eq_div_pow]
  omega

theorem ptIndex_toNat (va : Uintptr) : (ptIndex va).toNat = va.toNat / 2 ^ 12 % 1024 := by
  unfold ptIndex
  rw [BitVec.extractLsb'_toNat, Nat.shiftRight_eq_div_pow]

theorem wordIndex_toNat (va : Uintptr) : (wordIndex va).toNat = va.toNat / 2 ^ 2 % 1024 := by
  unfold wordIndex
  rw [BitVec.extractLsb'_toNat, Nat.shiftRight_eq_div_pow]

theorem frameOf_toNat (a : BitVec 32) : (frameOf a).toNat = a.toNat / 2 ^ 12 := by
  have ha := a.isLt
  unfold frameOf
  rw [BitVec.extractLsb'_toNat, Nat.shiftRight_eq_div_pow]
  omega

theorem frameOf_congr {va va' : Uintptr} (hpd : pdIndex va = pdIndex va')
    (hpt : ptIndex va = ptIndex va') : frameOf va = frameOf va' := by
  have hpd' := congrArg BitVec.toNat hpd
  have hpt' := congrArg BitVec.toNat hpt
  rw [pdIndex_toNat, pdIndex_toNat] at hpd'
  rw [ptIndex_toNat, ptIndex_toNat] at hpt'
  apply BitVec.eq_of_toNat_eq
  rw [frameOf_toNat, frameOf_toNat]
  omega

theorem pdIndex_congr {va va' : Uintptr} (h : frameOf va = frameOf va') :
    pdIndex va = pdIndex va' := by
  have hframe := congrArg BitVec.toNat h
  rw [frameOf_toNat, frameOf_toNat] at hframe
  apply BitVec.eq_of_toNat_eq
  rw [pdIndex_toNat, pdIndex_toNat]
  omega

theorem ptIndex_congr {va va' : Uintptr} (h : frameOf va = frameOf va') :
    ptIndex va = ptIndex va' := by
  have hframe := congrArg BitVec.toNat h
  rw [frameOf_toNat, frameOf_toNat] at hframe
  apply BitVec.eq_of_toNat_eq
  rw [ptIndex_toNat, ptIndex_toNat, hframe]

section Words
variable {a b : BitVec 32}

theorem frameOf_inj (ha : a &&& pageMask = a) (hb : b &&& pageMask = b)
    (h : frameOf a = frameOf b) : a = b := by
  have ha' := and_pageMask_toNat a
  have hb' := and_pageMask_toNat b
  have hframe := congrArg BitVec.toNat h
  rw [frameOf_toNat, frameOf_toNat] at hframe
  rw [ha] at ha'
  rw [hb] at hb'
  apply BitVec.eq_of_toNat_eq
  omega

theorem frameOf_or (a : BitVec 32) {flag : BitVec 32} (hflag : frameOf flag = 0) :
    frameOf (a ||| flag) = frameOf a := by
  unfold frameOf at hflag ⊢
  rw [BitVec.extractLsb'_or, hflag, BitVec.ofNat_eq_ofNat, BitVec.or_zero]

theorem frameOf_and_pageMask (a : BitVec 32) : frameOf (a &&& pageMask) = frameOf a := by
  apply BitVec.eq_of_toNat_eq
  rw [frameOf_toNat, frameOf_toNat, and_pageMask_toNat]
  omega

theorem pdIndex_and_pageMask (a : BitVec 32) : pdIndex (a &&& pageMask) = pdIndex a := by
  apply BitVec.eq_of_toNat_eq
  rw [pdIndex_toNat, pdIndex_toNat, and_pageMask_toNat]
  omega

theorem ptIndex_and_pageMask (a : BitVec 32) : ptIndex (a &&& pageMask) = ptIndex a := by
  apply BitVec.eq_of_toNat_eq
  rw [ptIndex_toNat, ptIndex_toNat, and_pageMask_toNat]
  omega

theorem wordIndex_and_pageMask (a : BitVec 32) : wordIndex (a &&& pageMask) = 0 := by
  apply BitVec.eq_of_toNat_eq
  rw [wordIndex_toNat, and_pageMask_toNat]
  show _ = 0
  omega

theorem wordIndex_of_aligned (ha : a &&& pageMask = a) : wordIndex a = 0 := by
  rw [← ha]
  exact wordIndex_and_pageMask a

theorem index_ne_of_user {i : Index} (hi : 256 ≤ i.toNat) : i ≠ 255 := by
  rintro rfl
  exact absurd hi (by decide)

theorem isPresent_eq (e : BitVec 32) : isPresent e = e.getLsbD 0 := by
  have hbool : ∀ b : Bool, decide (BitVec.setWidth 32 (BitVec.ofBool b) ≠ 0) = b := by decide
  have hone : pPresent = 1#32 := rfl
  unfold isPresent
  rw [hone, BitVec.and_one_eq_setWidth_ofBool_getLsbD, hbool]

theorem isPresent_or (e flag : BitVec 32) :
    isPresent (e ||| flag) = (isPresent e || isPresent flag) := by
  rw [isPresent_eq, isPresent_eq, isPresent_eq, BitVec.getLsbD_or]

theorem isPresent_flags (a f g : BitVec 32) : isPresent (a ||| pPresent ||| f ||| g) = true := by
  have hP : isPresent pPresent = true := rfl
  rw [isPresent_or, isPresent_or, isPresent_or, hP, Bool.or_true, Bool.true_or, Bool.true_or]

theorem frameOf_flags (a : BitVec 32) {f g : BitVec 32} (hf : frameOf f = 0)
    (hg : frameOf g = 0) : frameOf (a ||| pPresent ||| f ||| g) = frameOf a := by
  have hP : frameOf pPresent = 0 := rfl
  rw [frameOf_or _ hg, frameOf_or _ hf, frameOf_or _ hP]

theorem isPresent_asked {e : BitVec 32} (he : isPresent e = true) (asked : Bool)
    (flag : BitVec 32) : isPresent (if asked then e ||| flag else e) = true := by
  cases asked with
  | false => exact he
  | true =>
    rw [if_pos rfl, isPresent_or, he]
    rfl

theorem frameOf_asked (e : BitVec 32) (asked : Bool) {flag : BitVec 32}
    (hflag : frameOf flag = 0) : frameOf (if asked then e ||| flag else e) = frameOf e := by
  cases asked with
  | false => rfl
  | true => exact frameOf_or e hflag

theorem isPresent_clear (e : BitVec 32) : isPresent (e &&& 0xfffffffe) = false := by
  rw [isPresent_eq, BitVec.getLsbD_and]
  have hbit : (0xfffffffe : BitVec 32).getLsbD 0 = false := rfl
  rw [hbit, Bool.and_false]

end Words

/-- The arguments of `MapPage` with their defaults; the address space is given by its
`addr_space`, and the length is 0 or that of a page. -/
structure MapCall where
  virtaddr : Uintptr
  asp : Option PhysAddr := none
  unmap : Bool := false
  physaddr : PhysAddr := 0
  user : Bool := false
  writable : Bool := true
  cacheDisabled : Bool := false
  writeThrough : Bool := false

/-- The processor and the kernel's data: `tempPd` to `kernelPts` are the bases of the sections
of these names. -/
structure Machine where
  mem : FrameMemory
  cr3 : PhysAddr
  stack : PhysMemStack
  enabled : Bool
  sections : SectionList
  tempPd : Uintptr
  tempPt : Uintptr
  tempP : Uintptr
  kernelPts : Uintptr

/-- `MapPage`, as called by itself and by the page fault handler. -/
abbrev MapPageCall := MapCall → Machine → Option Machine

namespace Machine

def dir (s : Machine) : Frame := frameOf s.cr3

def withMem (s : Machine) (m : FrameMemory) : Machine := { s with mem := m }

def withTop (s : Machine) (top : PhysAddr) : Machine := { s with stack := { top := top } }

section Fields
variable (s : Machine) (m : FrameMemory) (top : PhysAddr)

@[simp] theorem withMem_mem : (s.withMem m).mem = m := rfl
@[simp] theorem withMem_dir : (s.withMem m).dir = s.dir := rfl
@[simp] theorem withMem_enabled : (s.withMem m).enabled = s.enabled := rfl
@[simp] theorem withTop_dir : (s.withTop top).dir = s.dir := rfl
@[simp] theorem withTop_enabled : (s.withTop top).enabled = s.enabled := rfl

@[simp] theorem withMem_withMem (m' : FrameMemory) :
    (s.withMem m).withMem m' = s.withMem m' := rfl

theorem withTop_withMem : (s.withMem m).withTop top = (s.withTop top).withMem m := rfl

end Fields

/-- The page table entry an address is translated by. -/
def entry (s : Machine) (va : Uintptr) : Option (BitVec 32) :=
  walk i386 s.mem s.dir (pdIndex va) (ptIndex va)

/-- The frame an address is in. -/
def place (s : Machine) (va : Uintptr) : Option Frame :=
  if s.enabled then (s.entry va).map frameOf else some (frameOf va)

/-- `none` is a panic. -/
def fault (mapPage : MapPageCall) (va : Uintptr) (s : Machine) : Option Machine :=
  match s.sections.resolvePageFault va false with
  | some (.mapped sections _ request) =>
    mapPage { virtaddr := request.virtaddr, physaddr := request.physaddr, user := request.user,
              writable := request.writable } { s with sections := sections }
  | _ => none

def access (mapPage : MapPageCall) (va : Uintptr) (s : Machine) : Option (Frame × Machine) :=
  match s.place va with
  | some f => some (f, s)
  | none => do
    let s ← s.fault mapPage va
    let f ← s.place va
    some (f, s)

def read (mapPage : MapPageCall) (va : Uintptr) (s : Machine) :
    Option (BitVec 32 × Machine) := do
  let (f, s) ← s.access mapPage va
  some (s.mem f (wordIndex va), s)

def write (mapPage : MapPageCall) (va : Uintptr) (v : BitVec 32) (s : Machine) :
    Option Machine := do
  let (f, s) ← s.access mapPage va
  some (s.withMem (setWord s.mem f (wordIndex va) v))

/-- With an empty stack it is the bitmap that is asked, which returns `bitmap`. -/
def beginAllocWith (bitmap : Option PhysAddr) (s : Machine) : Option PhysAddr :=
  if s.stack.beginPop = 0 then bitmap else some s.stack.beginPop

/-- As it is, the bitmap never returns. -/
def beginAlloc (s : Machine) : Option PhysAddr := s.beginAllocWith none

/-- The page is reached at `va`; its first word is the link of the stack. -/
def endAlloc (mapPage : MapPageCall) (va : Uintptr) (s : Machine) : Option Machine := do
  let (link, s) ← s.read mapPage va
  let s := s.withTop link
  let (f, s) ← s.access mapPage va
  some (s.withMem (setFrame s.mem f 0))

end Machine
end Tysos
