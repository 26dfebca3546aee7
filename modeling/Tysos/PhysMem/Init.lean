import Tysos.PhysMem.Allocator
import Tysos.Boot.Multiboot

/-!
# Setting up the allocator

`i386_PhysMemAllocator::Init` with the page provider: a place for the bitmap is looked for
in the multiboot tables, and then every page of memory that `CheckRange` finds free is
given to `Free`.
-/

namespace Tysos
open ByteMemory
set_option autoImplicit false

namespace Multiboot

/-- Append the first megabyte as a reserved entry. Without a memory map `mmap_addr` is not the
table's own address, and the entry is written where the loader's value points. -/
def reserveLow (mb : Multiboot) (m : Memory) : Multiboot × Memory :=
  if mb.has mmapAvail then ({ mb with mmap := mb.mmap ++ [⟨0, 0, 0x100000, 0, 2⟩] }, m)
  else
    let m := write32 m (mb.mmapAddr + 4) 0
    let m := write32 m (mb.mmapAddr + 12) 0x100000
    ({ mb with mmap := mb.mmap ++ [⟨0, 0, 0, 0, 0⟩] }, write32 m (mb.mmapAddr + 20) 2)

/-- Append the bitmap as an ELF section, with the same reservation about `elf_addr`. -/
def reserveBitmap (mb : Multiboot) (m : Memory) (bitmap : Address) : Multiboot × Memory :=
  if mb.has elfAvail then ({ mb with elf := mb.elf ++ [⟨bitmap, 512⟩] }, m)
  else
    let m := write32 m (mb.elfAddr + 12) bitmap
    let m := write32 m (mb.elfAddr + 20) 512
    ({ mb with elf := mb.elf ++ [⟨0, 0⟩] }, write32 m mb.elfAddr 0)

/-- `i386_PageProvider::GetPage`, with the `nextpage` it leaves. -/
def getPage (mb : Multiboot) (nextpage : PhysAddr) : PhysAddr × PhysAddr :=
  let nextpage := nextpage + pageSize
  if nextpage > mb.memUpper * 1024 + 0x100000 then (nextpage, 0)
  else (nextpage, nextpage - pageSize)

/-- The loop of `Init` ends: the next page goes past the end of memory, or is page 0. -/
def PagesEnd (mb : Multiboot) (nextpage : PhysAddr) : Prop :=
  nextpage + pageSize > mb.memUpper * 1024 + 0x100000 ∨ nextpage = 0

instance (mb : Multiboot) (nextpage : PhysAddr) : Decidable (mb.PagesEnd nextpage) :=
  inferInstanceAs (Decidable (_ ∨ _))

theorem pagesEnd_zero (mb : Multiboot) : mb.PagesEnd 0 := Or.inr rfl

theorem getPage_of_gt {mb : Multiboot} {nextpage : PhysAddr}
    (h : nextpage + pageSize > mb.memUpper * 1024 + 0x100000) :
    mb.getPage nextpage = (nextpage + pageSize, 0) := by
  unfold getPage
  dsimp only
  rw [if_pos h]

theorem getPage_of_not_gt {mb : Multiboot} {nextpage : PhysAddr}
    (h : ¬ nextpage + pageSize > mb.memUpper * 1024 + 0x100000) :
    mb.getPage nextpage = (nextpage + pageSize, nextpage) := by
  unfold getPage
  dsimp only
  rw [if_neg h, BitVec.add_sub_cancel]

theorem getPage_of_end {mb : Multiboot} {nextpage : PhysAddr} (h : mb.PagesEnd nextpage) :
    (mb.getPage nextpage).2 = 0 := by
  by_cases hgt : nextpage + pageSize > mb.memUpper * 1024 + 0x100000
  · rw [getPage_of_gt hgt]
  · rw [getPage_of_not_gt hgt]
    exact h.resolve_left hgt

theorem getPage_of_not_end {mb : Multiboot} {nextpage : PhysAddr} (h : ¬ mb.PagesEnd nextpage) :
    mb.getPage nextpage = (nextpage + pageSize, nextpage) :=
  getPage_of_not_gt fun hgt => h (Or.inl hgt)

end Multiboot

namespace PhysMemAllocator

def freePages (mb : Multiboot) : Nat → PhysAddr → PhysMemAllocator → Option PhysMemAllocator
  | 0, _, _ => none
  | k + 1, nextpage, al =>
    let page := mb.getPage nextpage
    if page.2 = 0 then some al
    else freePages mb k page.1
      (if mb.checkRange page.2 pageSize then al.free page.2 else al)

theorem freePages_succ (mb : Multiboot) (k : Nat) (nextpage : PhysAddr) (al : PhysMemAllocator) :
    freePages mb (k + 1) nextpage al =
      if mb.PagesEnd nextpage then some al
      else freePages mb k (nextpage + pageSize)
        (if mb.checkRange nextpage pageSize then al.free nextpage else al) := by
  rw [freePages]
  by_cases hend : mb.PagesEnd nextpage
  · rw [if_pos hend, if_pos (Multiboot.getPage_of_end hend)]
  · have hne : nextpage ≠ 0 := fun hzero => hend (Or.inr hzero)
    rw [if_neg hend, Multiboot.getPage_of_not_end hend, if_neg hne]

/-- The tables with the first megabyte reserved, in which `Init` looks for the bitmap. -/
def bitmapTables (mb : Multiboot) (m : Memory) : Multiboot := (mb.reserveLow m).1

/-- Where `Init` puts the bitmap; 0 if there is no place for it. -/
def bitmapPlace (mb : Multiboot) (m : Memory) : Address := (bitmapTables mb m).findRange 512

/-- `bmp` holds whatever the fields of the bitmap are before the call. -/
def init (mb : Multiboot) (m : Memory) (bmp : PhysMemBitmap) : Option PhysMemAllocator :=
  let (mb, m) := mb.reserveLow m
  let bitmap := mb.findRange 512
  if bitmap ≠ 0 then
    let (mb, m) := mb.reserveBitmap m bitmap
    let (bmp, m) := PhysMemBitmap.init m bitmap 0 0x1000000 pageSize
    freePages mb (2 ^ 20 + 1) 0x100000 ⟨m, ⟨0⟩, bmp⟩
  else freePages mb (2 ^ 20 + 1) 0x100000 ⟨m, ⟨0⟩, bmp⟩

end PhysMemAllocator
end Tysos
