import Tysos.PhysMem.Bitmap
import Tysos.Memory.SectionList

/-!
# The i386 allocator

`i386_PhysMemAllocator` over a stack of free pages and a bitmap, with physical memory as
its third part. `none` is a call that never returns.
-/

namespace Tysos
open ByteMemory
set_option autoImplicit false

structure PhysMemAllocator where
  mem : Memory
  stack : PhysMemStack
  bmp : PhysMemBitmap

namespace PhysMemAllocator

/-- The loop of `PhysMemBitmap::Alloc` returns the same for all large enough bounds, or runs on
without end; the search of a caller for such a bound is its `fuel`. -/
def bitmapAlloc (al : PhysMemAllocator) (report : BtrReport) (fuel : Nat) :
    Option (PhysMemAllocator × PhysAddr) := do
  let (m, ret) ← al.bmp.allocLoop report fuel al.mem
  some ({ al with mem := m }, ret)

def allocAt (al : PhysMemAllocator) (report : BtrReport) (fixedAddress : PhysAddr) :
    PhysMemAllocator × PhysAddr :=
  if fixedAddress ≥ 0x1000000 then (al, 0)
  else
    let (m, ret) := al.bmp.allocAt report al.mem fixedAddress
    ({ al with mem := m }, ret)

def alloc (al : PhysMemAllocator) (report : BtrReport) (fuel : Nat) :
    Option (PhysMemAllocator × PhysAddr) :=
  let (s, ret) := al.stack.popPage al.mem
  let al := { al with stack := s }
  if ret = 0 then al.bitmapAlloc report fuel else some (al, ret)

def beginAlloc (al : PhysMemAllocator) (report : BtrReport) (fuel : Nat) :
    Option (PhysMemAllocator × PhysAddr) :=
  let ret := al.stack.beginPop
  if ret = 0 then al.bitmapAlloc report fuel else some (al, ret)

/-- The page is reached at `paddr`, where it is mapped. -/
def endAlloc (al : PhysMemAllocator) (paddr : Address) : PhysMemAllocator × PhysAddr :=
  ({ al with
    stack := al.stack.endPop al.mem paddr
    mem := fill al.mem paddr pageSize.toNat 0 }, 0)

def free (al : PhysMemAllocator) (paddr : PhysAddr) : PhysMemAllocator :=
  if paddr ≥ 0x1000000 then
    let (s, m) := al.stack.pushPage al.mem paddr
    { al with stack := s, mem := m }
  else { al with mem := al.bmp.free al.mem paddr }

def allocRange (al : PhysMemAllocator) (report : BtrReport) (fuel : Nat) (length : BitVec 32) :
    Option (PhysMemAllocator × PhysAddr) :=
  if length ≤ pageSize then al.alloc report fuel
  else do
    let ret ← al.bmp.allocRange al.mem length
    some (al, ret)

/-- The pages of one section, from `p` up to its end. -/
def useLoop (report : BtrReport) (end_ : Uintptr) :
    Nat → PhysAddr → PhysMemAllocator → Option PhysMemAllocator
  | 0, _, _ => none
  | k + 1, p, al =>
    if p < end_ then useLoop report end_ k (p + pageSize) (al.allocAt report p).1 else some al

/-- The two flags are tested with `&` between the results: different bits, so never both. -/
def useSection (report : BtrReport) (s : Section) (al : PhysMemAllocator) :
    Option PhysMemAllocator :=
  if (s.flags &&& Section.flagDefined) &&& (s.flags &&& Section.flagBits) ≠ 0 then
    useLoop report (s.base + s.length) (2 ^ 20 + 1) (s.base &&& pageMask) al
  else some al

def updateUsedLoop (report : BtrReport) (sections : SectionList) :
    Nat → Nat → PhysMemAllocator → Option PhysMemAllocator
  | _, 0, al => some al
  | i, k + 1, al => do
    let s ← sections.getItem i
    let al ← useSection report s al
    updateUsedLoop report sections (i + 1) k al

/-- Here `none` is also an access through a node that does not exist. -/
def updateUsed (report : BtrReport) (sections : SectionList) (al : PhysMemAllocator) :
    Option PhysMemAllocator :=
  updateUsedLoop report sections 0 sections.count al

end PhysMemAllocator
end Tysos
