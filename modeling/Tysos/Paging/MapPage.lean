import Tysos.Paging.Mmu

/-!
# MapPage

`i386_VirtMemManager::MapPage` for one page. The tables are reached through the page
directory's own entry or, for another address space, through the temporary pages. `MapPage`
calls itself, also by way of page faults, and so is a function of itself up to a depth. The
lock of the temporary pages is left out, since calls run one at a time.
-/

namespace Tysos
open PageTables
set_option autoImplicit false

def pdEnt (va : Uintptr) : BitVec 32 := (va >>> 22) &&& 0x3ff
def ptEnt (va : Uintptr) : BitVec 32 := (va >>> 12) &&& 0x3ff

namespace MapCall

def wrPd (c : MapCall) (s : Machine) : Uintptr :=
  match c.asp with
  | none => pageDir
  | some _ => s.tempPd

def wrPt (c : MapCall) (s : Machine) : Uintptr :=
  match c.asp with
  | none => pageTables + pdEnt c.virtaddr * 0x1000
  | some _ => s.tempPt

end MapCall

namespace Machine

section Body
variable (bitmap : Option PhysAddr) (mapPage : MapPageCall)

/-- Map the directory of another address space. -/
def openDir (c : MapCall) (s : Machine) : Option Machine :=
  match c.asp with
  | none => some s
  | some addrSpace => mapPage { virtaddr := s.tempPd, physaddr := addrSpace } s

/-- Create the page table if it does not exist. -/
def createTableWith (c : MapCall) (s : Machine) : Option Machine := do
  let wrPd := c.wrPd s
  let wrPt := c.wrPt s
  let (e, s) ← s.read mapPage (wrPd + pdEnt c.virtaddr * 4)
  if e &&& pPresent = 0 then do
    let newPt ← s.beginAllocWith bitmap
    let s ← mapPage { virtaddr := wrPt, asp := c.asp, physaddr := newPt, user := true } s
    let s ← s.endAlloc mapPage wrPt
    let s ← s.write mapPage (wrPd + pdEnt c.virtaddr * 4)
      (newPt ||| pPresent ||| pUser ||| pWritable)
    match c.asp with
    | none => some s
    | some _ => mapPage { virtaddr := wrPt, physaddr := newPt } s
  else some s

def clearPresent (va : Uintptr) (s : Machine) : Option Machine := do
  let (e, s) ← s.read mapPage va
  s.write mapPage va (e &&& 0xfffffffe)

/-- `wr_pt[pt_ent] |= flag`, if the flag is asked for. -/
def addFlag (va : Uintptr) (asked : Bool) (flag : BitVec 32) (s : Machine) : Option Machine :=
  if asked then do
    let (e, s) ← s.read mapPage va
    s.write mapPage va (e ||| flag)
  else some s

def setEntry (c : MapCall) (va : Uintptr) (physaddr : PhysAddr) (s : Machine) :
    Option Machine := do
  let s ← s.write mapPage va ((physaddr &&& pageMask) ||| pPresent)
  let s ← s.addFlag mapPage va c.user pUser
  let s ← s.addFlag mapPage va c.writable pWritable
  let s ← s.addFlag mapPage va c.cacheDisabled pCacheDisabled
  s.addFlag mapPage va c.writeThrough pWriteThrough

/-- A page for a call without a physical address; for another address space it is mapped here
as well. -/
def createPageWith (c : MapCall) (s : Machine) : Option (PhysAddr × Machine) :=
  if c.physaddr = 0 then do
    let physaddr ← s.beginAllocWith bitmap
    match c.asp with
    | none => some (physaddr, s)
    | some _ => do
      let s ← mapPage { virtaddr := s.tempP, physaddr := physaddr } s
      some (physaddr, s)
  else some (c.physaddr, s)

def completeAlloc (c : MapCall) (s : Machine) : Option Machine :=
  if c.physaddr = 0 then
    match c.asp with
    | none => s.endAlloc mapPage (c.virtaddr &&& pageMask)
    | some _ => do
      let s ← s.endAlloc mapPage s.tempP
      mapPage { virtaddr := s.tempP, unmap := true } s
  else some s

def closeTables (c : MapCall) (s : Machine) : Option Machine :=
  match c.asp with
  | none => some s
  | some _ => do
    let s ← mapPage { virtaddr := s.tempPd, unmap := true } s
    mapPage { virtaddr := s.tempPt, unmap := true } s

def mapPageBodyWith (c : MapCall) (s : Machine) : Option Machine :=
  if s.enabled = false then some s
  else do
    let s ← s.openDir mapPage c
    let s ← s.createTableWith bitmap mapPage c
    let s ←
      if c.unmap then s.clearPresent mapPage (c.wrPt s + ptEnt c.virtaddr * 4)
      else do
        let (physaddr, s) ← s.createPageWith bitmap mapPage c
        let s ← s.setEntry mapPage c (c.wrPt s + ptEnt c.virtaddr * 4) physaddr
        s.completeAlloc mapPage c
    s.closeTables mapPage c

/-! With the bitmap as it is, which never returns. -/

def createTable (c : MapCall) (s : Machine) : Option Machine := s.createTableWith none mapPage c

def createPage (c : MapCall) (s : Machine) : Option (PhysAddr × Machine) :=
  s.createPageWith none mapPage c

def mapPageBody (c : MapCall) (s : Machine) : Option Machine := s.mapPageBodyWith none mapPage c

end Body

end Machine

/-- `MapPage` to a depth of calls; every path of it returns 0. -/
def mapPageWith (bitmap : Option PhysAddr) : Nat → MapPageCall
  | 0, _, _ => none
  | n + 1, c, s => s.mapPageBodyWith bitmap (mapPageWith bitmap n) c

def mapPage : Nat → MapPageCall := mapPageWith none

namespace Machine

section Body
variable {mapPage : MapPageCall} {c : MapCall} {s : Machine}

theorem createTable_def : s.createTable mapPage c = (do
    let wrPd := c.wrPd s
    let wrPt := c.wrPt s
    let (e, s) ← s.read mapPage (wrPd + pdEnt c.virtaddr * 4)
    if e &&& pPresent = 0 then do
      let newPt ← s.beginAlloc
      let s ← mapPage { virtaddr := wrPt, asp := c.asp, physaddr := newPt, user := true } s
      let s ← s.endAlloc mapPage wrPt
      let s ← s.write mapPage (wrPd + pdEnt c.virtaddr * 4)
        (newPt ||| pPresent ||| pUser ||| pWritable)
      match c.asp with
      | none => some s
      | some _ => mapPage { virtaddr := wrPt, physaddr := newPt } s
    else some s) := rfl

theorem createPage_def : s.createPage mapPage c =
    (if c.physaddr = 0 then do
      let physaddr ← s.beginAlloc
      match c.asp with
      | none => some (physaddr, s)
      | some _ => do
        let s ← mapPage { virtaddr := s.tempP, physaddr := physaddr } s
        some (physaddr, s)
    else some (c.physaddr, s)) := rfl

theorem mapPageBody_def : s.mapPageBody mapPage c =
    (if s.enabled = false then some s
    else do
      let s ← s.openDir mapPage c
      let s ← s.createTable mapPage c
      let s ←
        if c.unmap then s.clearPresent mapPage (c.wrPt s + ptEnt c.virtaddr * 4)
        else do
          let (physaddr, s) ← s.createPage mapPage c
          let s ← s.setEntry mapPage c (c.wrPt s + ptEnt c.virtaddr * 4) physaddr
          s.completeAlloc mapPage c
      s.closeTables mapPage c) := rfl

end Body

/-- The words of a window on the tables: word `j` of table `i`. -/
def window (i j : Index) : Uintptr := pageTables + i.setWidth 32 * 0x1000 + j.setWidth 32 * 4

theorem window_toNat (i j : Index) :
    (window i j).toNat = 0x3fc00000 + i.toNat * 4096 + j.toNat * 4 := by
  have hi := i.isLt
  have hj := j.isLt
  unfold window pageTables
  rw [BitVec.toNat_add, BitVec.toNat_add, BitVec.toNat_mul, BitVec.toNat_mul,
    BitVec.toNat_setWidth, BitVec.toNat_setWidth]
  have h4096 : (0x1000 : BitVec 32).toNat = 4096 := rfl
  have h4 : (4 : BitVec 32).toNat = 4 := rfl
  have hbase : (0x3fc00000 : BitVec 32).toNat = 0x3fc00000 := rfl
  rw [h4096, h4, hbase]
  omega

theorem pdIndex_window (i j : Index) : pdIndex (window i j) = 255 := by
  apply BitVec.eq_of_toNat_eq
  have hi := i.isLt
  have hj := j.isLt
  rw [pdIndex_toNat, window_toNat]
  show _ = 255
  omega

theorem ptIndex_window (i j : Index) : ptIndex (window i j) = i := by
  apply BitVec.eq_of_toNat_eq
  have hi := i.isLt
  have hj := j.isLt
  rw [ptIndex_toNat, window_toNat]
  omega

theorem wordIndex_window (i j : Index) : wordIndex (window i j) = j := by
  apply BitVec.eq_of_toNat_eq
  have hi := i.isLt
  have hj := j.isLt
  rw [wordIndex_toNat, window_toNat]
  omega

theorem pdEnt_eq (va : Uintptr) : pdEnt va = (pdIndex va).setWidth 32 := by
  apply BitVec.eq_of_toNat_eq
  have hva := va.isLt
  unfold pdEnt
  rw [BitVec.toNat_and, BitVec.toNat_ushiftRight, BitVec.toNat_setWidth, pdIndex_toNat,
    Nat.shiftRight_eq_div_pow]
  have hmask : (0x3ff : BitVec 32).toNat = 2 ^ 10 - 1 := rfl
  rw [hmask, Nat.and_two_pow_sub_one_eq_mod]
  omega

theorem ptEnt_eq (va : Uintptr) : ptEnt va = (ptIndex va).setWidth 32 := by
  apply BitVec.eq_of_toNat_eq
  unfold ptEnt
  rw [BitVec.toNat_and, BitVec.toNat_ushiftRight, BitVec.toNat_setWidth, ptIndex_toNat,
    Nat.shiftRight_eq_div_pow]
  have hmask : (0x3ff : BitVec 32).toNat = 2 ^ 10 - 1 := rfl
  rw [hmask, Nat.and_two_pow_sub_one_eq_mod]
  omega

theorem pageDir_eq (va : Uintptr) : pageDir + pdEnt va * 4 = window 255 (pdIndex va) := by
  rw [pdEnt_eq]
  rfl

theorem tableWord_eq (va : Uintptr) :
    pageTables + pdEnt va * 0x1000 + ptEnt va * 4 = window (pdIndex va) (ptIndex va) := by
  rw [pdEnt_eq, ptEnt_eq]
  rfl

theorem tableStart_eq (va : Uintptr) :
    pageTables + pdEnt va * 0x1000 = window (pdIndex va) 0 := by
  rw [pdEnt_eq]
  unfold window
  simp

end Machine
end Tysos
