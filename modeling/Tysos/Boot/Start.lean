import Tysos.Boot.Kernel
import Tysos.Boot.Paging
import Tysos.PhysMem.BitmapRange
import Tysos.PhysMem.UpdateUsed

/-!
# From the multiboot tables to paging

`kmain` from `pma->Init` to `vmm->Enable`: the pages of memory that are free, the kernel's
sections, its page tables and its address space, each made with what the calls before it left.
The bitmap is at `bitmapPlace` and the records of the sections at `recordsPlace`.
-/

namespace Tysos
open ByteMemory PageTables
set_option autoImplicit false

namespace Vga

def monoFramebuffer : Address := 0xb0000
def colorFramebuffer : Address := 0xb8000

def fbSect (fb : Address) : Section where
  flags := Section.flagDefined ||| Section.flagBits ||| Section.flagRead ||| Section.flagWrite |||
    Section.flagKernelSection
  base := fb
  length := 0x1000
  expandDown := 0
  expandUp := 0
  lowerPadding := 0
  upperPadding := 0
  memSource := fb

def registerMemory (fb : Address) (l : SectionList) : SectionList := l.add (fbSect fb)

end Vga

/-- What `kmain` has when paging is on. -/
structure Booted where
  al : PhysMemAllocator
  tables : VirtMemManager
  machine : Machine

open PhysMemAllocator Kernel

/-- `mb` is as `Parse` leaves it, and `es` are the headers that `elf_num` counts after `Init`,
that of the bitmap with them. `none` is a start that hangs in `vmm->Init`, or one that finds no
page on the stack, where `Alloc` would look in the bitmap. -/
def kmain (report : BtrReport) (fuel : Nat) (mb : Multiboot) (m : Memory) (bmp : PhysMemBitmap)
    (es : List KernelShdr) (strings fb : Address) : Option Booted := do
  let al ← init mb m bmp
  let k := initKernel (tablesInUse mb m) es strings al.mem
  let sections := Vga.registerMemory fb k.2
  let al ← updateUsed report sections { al with mem := k.1 }
  let tables ← VirtMemManager.initOrReturn report fuel al sections
  let machine ← tables.enable al.stack
  some ⟨al, tables, machine⟩

/-- Where `InitKernel` puts its sections. -/
def recordsPlace (mb : Multiboot) (m : Memory) (es : List KernelShdr) : Address :=
  (tablesInUse mb m).findRange (recordsLength es)

/-- The sections of the kernel before its page tables have one. -/
def kernelSections (records : Address) (es : List KernelShdr) (fb : Address) : List Section :=
  elfSectionHeaders records (recordsLength es) ::
    (es.filter fun e => e.shSize ≠ 0).map sectionOf ++ [Vga.fbSect fb]

/-- A page that `Init` may have given to `Free`. -/
structure Passes (mb : Multiboot) (q : PhysAddr) : Prop where
  aligned : q.toNat % 4096 = 0
  low : 0x100000 ≤ q.toNat
  checked : mb.checkRange q pageSize = true

/-- The kernel is loaded below 1 GB, there is a place for its records, and no page that passes
`CheckRange` has a byte of them. -/
structure Loaded (mb : Multiboot) (m : Memory) (es : List KernelShdr) (fb : Address) : Prop where
  parsed : Parsed mb
  bitmap : bitmapPlace mb m ≠ 0
  headers : (es.map fun e => e.toElfShdr) = (tablesInUse mb m).elf
  below : ∀ e ∈ es, e.shAddr.toNat + e.shSize.toNat ≤ 2 ^ 30
  screen : fb = Vga.monoFramebuffer ∨ fb = Vga.colorFramebuffer
  place : recordsPlace mb m es ≠ 0
  placeBelow : (recordsPlace mb m es).toNat + Section.size * es.length ≤ 2 ^ 30
  placeApart : ∀ q, Passes (tablesInUse mb m) q →
    Clear q 4096 (recordsPlace mb m es) (Section.size * es.length)

namespace PhysMemAllocator

section Memory
variable {mb : Multiboot} {m : Memory} {bitmap : Address} {al al' : PhysMemAllocator}
  {x : Address}

theorem freePages_mem {k : Nat} {p : PhysAddr} (hbmp : al.bmp = PhysMemBitmap.lowMemory bitmap)
    (hal : p.toNat % 4096 = 0) (hlink : 4 ≤ x.toNat % 4096) (hx : ¬ InRange bitmap 512 x)
    (h : freePages mb k p al = some al') : al'.mem x = al.mem x := by
  induction k generalizing p al with
  | zero => exact absurd h (Option.some_ne_none al').symm
  | succ k ih =>
    rw [freePages_succ] at h
    by_cases hend : mb.PagesEnd p
    · rw [if_pos hend] at h
      rw [Option.some.inj h]
    · rw [if_neg hend] at h
      have hnext := nextPage_aligned hal
      cases hcheck : mb.checkRange p pageSize with
      | false =>
        rw [hcheck, if_neg Bool.false_ne_true] at h
        exact ih hbmp hnext h
      | true =>
        rw [hcheck, if_pos rfl] at h
        rw [ih ((free_bmp al p).trans hbmp) hnext h]
        refine free_mem hbmp hal (fun hin => ?_) hx
        unfold InRange at hin
        bv_omega

theorem init_mem (h : Parsed mb) (hfound : bitmapPlace mb m ≠ 0) {bmp : PhysMemBitmap}
    (hlink : 4 ≤ x.toNat % 4096) (hx : ¬ InRange (bitmapPlace mb m) 512 x)
    (hinit : init mb m bmp = some al) : al.mem x = m x := by
  have hfound' : (mb.reserveLow m).1.findRange 512 ≠ 0 := hfound
  have hplace : (mb.reserveLow m).1.findRange 512 = bitmapPlace mb m := rfl
  unfold init at hinit
  dsimp only at hinit
  rw [if_pos hfound', reserveLow_mem h, hplace, reserveBitmap_mem h] at hinit
  rw [freePages_mem rfl (by decide) hlink hx hinit]
  exact fill_of_not_inRange hx

end Memory

end PhysMemAllocator

section Loaded
variable {mb : Multiboot} {m : Memory} {es : List KernelShdr} {fb : Address} {sec : Section}
  {q : PhysAddr}

theorem Loaded.recordsLength_toNat (h : Loaded mb m es fb) :
    (recordsLength es).toNat = Section.size * es.length := by
  have hroom := h.placeBelow
  unfold recordsLength
  rw [BitVec.toNat_ofNat]
  omega

theorem Loaded.records_lt (h : Loaded mb m es fb) :
    Section.size * (0 + es.length) < 2 ^ 32 := by
  have hroom := h.placeBelow
  rw [Nat.zero_add]
  omega

/-- With the records in place the list has the kernel's sections and the screen. -/
theorem Loaded.registered (h : Loaded mb m es fb) (strings : Address) (mem : Memory) :
    Vga.registerMemory fb (initKernel (tablesInUse mb m) es strings mem).2 =
      ⟨kernelSections (recordsPlace mb m es) es fb, []⟩ := by
  have hplace : (tablesInUse mb m).findRange (recordsLength es) ≠ 0 := h.place
  have hkernel : (Vga.fbSect fb).has Section.flagKernelSection = true := by
    show decide ((Vga.fbSect 0).flags &&& Section.flagKernelSection ≠ 0) = true
    decide
  unfold Vga.registerMemory initKernel SectionList.add
  dsimp only
  rw [if_neg hplace, if_pos hkernel, addSections_sections]
  rfl

theorem Loaded.initKernel_mem (h : Loaded mb m es fb) {strings : Address} {mem : Memory}
    {x : Address} (hx : ¬ InRange (recordsPlace mb m es) (Section.size * es.length) x) :
    (initKernel (tablesInUse mb m) es strings mem).1 x = mem x := by
  have hplace : (tablesInUse mb m).findRange (recordsLength es) ≠ 0 := h.place
  unfold initKernel
  dsimp only
  rw [if_neg hplace]
  refine addSections_of_not_inRange h.records_lt ?_
  unfold record
  rw [Nat.mul_zero, BitVec.add_zero]
  exact hx

theorem Loaded.initKernel_words (h : Loaded mb m es fb) {strings : Address} (mem : Memory)
    {i : Nat} {e : KernelShdr} (he : es[i]? = some e) (hsize : e.shSize ≠ 0) :
    Words (initKernel (tablesInUse mb m) es strings mem).1 (record (recordsPlace mb m es) i)
      ((sectionOf e).words (strings + e.shName)) := by
  have hplace : (tablesInUse mb m).findRange (recordsLength es) ≠ 0 := h.place
  unfold initKernel
  dsimp only
  rw [if_neg hplace]
  have hwords := @addSections_words (recordsPlace mb m es) strings es 0 mem
    [elfSectionHeaders (recordsPlace mb m es) (recordsLength es)] h.records_lt i e he hsize
  rwa [Nat.zero_add] at hwords

theorem mem_kernelSections {records : Address} :
    sec ∈ kernelSections records es fb ↔ sec = elfSectionHeaders records (recordsLength es) ∨
      (∃ e ∈ es, e.shSize ≠ 0 ∧ sec = sectionOf e) ∨ sec = Vga.fbSect fb := by
  unfold kernelSections
  simp only [List.cons_append, List.mem_cons, List.mem_append, List.mem_map, List.mem_filter,
    List.not_mem_nil, or_false, decide_eq_true_eq, ne_eq]
  constructor
  · rintro (rfl | ⟨e, ⟨he, hsize⟩, rfl⟩ | rfl)
    · exact Or.inl rfl
    · exact Or.inr (Or.inl ⟨e, he, hsize, rfl⟩)
    · exact Or.inr (Or.inr rfl)
  · rintro (rfl | ⟨e, he, hsize, rfl⟩ | rfl)
    · exact Or.inl rfl
    · exact Or.inr (Or.inl ⟨e, ⟨he, hsize⟩, rfl⟩)
    · exact Or.inr (Or.inr rfl)

theorem has_bits {records : Address} (hsec : sec ∈ kernelSections records es fb) :
    sec.has Section.flagBits = true := by
  rcases mem_kernelSections.mp hsec with rfl | ⟨e, -, -, rfl⟩ | rfl
  · show decide ((elfSectionHeaders 0 0).flags &&& Section.flagBits ≠ 0) = true
    decide
  · unfold Section.has sectionOf
    dsimp only
    split <;> split <;> decide
  · show decide ((Vga.fbSect 0).flags &&& Section.flagBits ≠ 0) = true
    decide

theorem Loaded.plain (h : Loaded mb m es fb)
    (hsec : sec ∈ kernelSections (recordsPlace mb m es) es fb) : VirtMemManager.Plain sec := by
  intro _
  rcases mem_kernelSections.mp hsec with rfl | ⟨e, he, -, rfl⟩ | rfl
  · refine ⟨rfl, ?_⟩
    show (recordsPlace mb m es).toNat + (recordsLength es).toNat ≤ 2 ^ 30
    rw [h.recordsLength_toNat]
    exact h.placeBelow
  · exact ⟨rfl, h.below e he⟩
  · refine ⟨rfl, ?_⟩
    show fb.toNat + 0x1000 ≤ 2 ^ 30
    rcases h.screen with rfl | rfl
    · decide
    · decide

/-- No page that `Init` may have freed begins in a section of the kernel. -/
theorem Loaded.not_live (h : Loaded mb m es fb) (hq : Passes (tablesInUse mb m) q)
    (hsec : sec ∈ kernelSections (recordsPlace mb m es) es fb) : ¬ sec.Live q.toNat := by
  intro hlive
  have hlow := hq.low
  rcases mem_kernelSections.mp hsec with rfl | ⟨e, he, -, rfl⟩ | rfl
  · have hin : InRange (recordsPlace mb m es) (Section.size * es.length) q := by
      obtain ⟨hge, hlt⟩ : (recordsPlace mb m es).toNat ≤ q.toNat ∧
        q.toNat < (recordsPlace mb m es).toNat + (recordsLength es).toNat := hlive
      rw [h.recordsLength_toNat] at hlt
      unfold InRange
      bv_omega
    refine h.placeApart q hq q ?_ hin
    unfold InRange
    bv_omega
  · have hflag : (tablesInUse mb m).has Multiboot.elfAvail = true := by
      rw [tablesInUse_eq h.parsed]
      exact h.parsed.elfFlag
    have hmem : e.toElfShdr ∈ (tablesInUse mb m).elf := by
      rw [← h.headers]
      exact List.mem_map_of_mem he
    have hend := h.below e he
    have hps : pageSize.toNat = 4096 := rfl
    have hal := hq.aligned
    have hlt := q.isLt
    have hapart := Multiboot.disjoint_elf (by decide) (by omega) hq.checked hflag hmem (by omega)
    refine Set.disjoint_left.mp hapart ⟨Nat.le_refl _, ?_⟩ hlive
    rw [hps]
    omega
  · have hlt : q.toNat < fb.toNat + 0x1000 := hlive.2
    rcases h.screen with rfl | rfl
    · exact absurd (Nat.lt_of_le_of_lt hlow hlt) (by decide)
    · exact absurd (Nat.lt_of_le_of_lt hlow hlt) (by decide)

theorem Loaded.bitmap_header (h : Loaded mb m es fb) :
    ⟨bitmapPlace mb m, 512⟩ ∈ (tablesInUse mb m).elf := by
  rw [tablesInUse_eq h.parsed]
  exact List.mem_append_right _ (List.mem_singleton.mpr rfl)

/-- The records are not where the bitmap is. -/
theorem Loaded.bitmap_apart (h : Loaded mb m es fb) {x : Address}
    (hx : InRange (bitmapPlace mb m) 512 x) :
    ¬ InRange (recordsPlace mb m es) (Section.size * es.length) x := by
  have hflag : (tablesInUse mb m).has Multiboot.elfAvail = true := by
    rw [tablesInUse_eq h.parsed]
    exact h.parsed.elfFlag
  have hlength := h.recordsLength_toNat
  have hbelow := h.placeBelow
  have hroom := bitmapPlace_end h.parsed h.bitmap
  have hmem := h.bitmap_header
  have hpos : 0 < (recordsLength es).toNat := by
    rw [← h.headers] at hmem
    obtain ⟨e, he, -⟩ := List.mem_map.mp hmem
    rw [hlength]
    exact Nat.mul_pos (by decide) (List.length_pos_of_mem he)
  have hchecked : (tablesInUse mb m).checkRange (recordsPlace mb m es) (recordsLength es) = true :=
    Multiboot.findRange_checked h.place
  have hapart := Multiboot.disjoint_elf hpos (by omega) hchecked hflag hmem hroom
  intro hin
  have hrecords : x.toNat ∈ span (recordsPlace mb m es) (recordsLength es) := by
    unfold span
    rw [Set.mem_Ico]
    unfold InRange at hin
    bv_omega
  have hbitmap : x.toNat ∈ span (bitmapPlace mb m) 512 := by
    have h512 : (512 : BitVec 32).toNat = 512 := rfl
    unfold span
    rw [Set.mem_Ico, h512]
    unfold InRange at hx
    bv_omega
  exact Set.disjoint_left.mp hapart hrecords hbitmap

end Loaded

section Boot
variable {report : BtrReport} {fuel : Nat} {mb : Multiboot} {m : Memory} {bmp : PhysMemBitmap}
  {es : List KernelShdr} {strings fb : Address} {s : Booted} {al : PhysMemAllocator}
  {t : VirtMemManager} {lim : Nat} {chain : List PhysAddr} {q : PhysAddr}

/-- The allocator once the records are filled in. -/
def withRecords (mb : Multiboot) (m : Memory) (es : List KernelShdr) (strings : Address)
    (al : PhysMemAllocator) : PhysMemAllocator :=
  { al with mem := (initKernel (tablesInUse mb m) es strings al.mem).1 }

/-- With the records in place the stages follow each other; `UpdateUsed` does nothing. -/
theorem Loaded.kmain_eq (h : Loaded mb m es fb) (hinit : init mb m bmp = some al) :
    kmain report fuel mb m bmp es strings fb =
      (VirtMemManager.initOrReturn report fuel (withRecords mb m es strings al)
        ⟨kernelSections (recordsPlace mb m es) es fb, []⟩).bind fun t =>
          (t.enable al.stack).map fun machine => ⟨withRecords mb m es strings al, t, machine⟩ := by
  have hused : updateUsed report ⟨kernelSections (recordsPlace mb m es) es fb, []⟩
      (withRecords mb m es strings al) = some (withRecords mb m es strings al) := by
    rw [updateUsed_eq]
    exact if_pos (Nat.zero_le _)
  unfold withRecords at hused ⊢
  unfold kmain
  rw [hinit]
  dsimp only [Option.bind_eq_bind, Option.bind_some]
  rw [h.registered, hused]
  dsimp only [Option.bind_some]
  congr
  funext t
  cases t.enable al.stack with
  | none => rfl
  | some machine => rfl

theorem passes_of_mem (hst : Stocked (tablesInUse mb m) (bitmapPlace mb m) lim al chain)
    (hq : q ∈ chain) : Passes (tablesInUse mb m) q ∧ 2 ^ 24 ≤ q.toNat := by
  obtain ⟨hal, hhigh, -, hchecked⟩ := (hst.pages q).mp hq
  exact ⟨⟨hal, Nat.le_trans (by decide) hhigh, hchecked⟩, hhigh⟩

theorem withRecords_bmp (es : List KernelShdr) (strings : Address)
    (hst : Stocked (tablesInUse mb m) (bitmapPlace mb m) lim al chain) :
    (withRecords mb m es strings al).bmp = PhysMemBitmap.lowMemory (bitmapPlace mb m) := hst.bmp

/-- The records are in no page that is free, and so the pool is as `Init` has left it. -/
theorem Loaded.pool (h : Loaded mb m es fb) (strings : Address)
    (hst : Stocked (tablesInUse mb m) (bitmapPlace mb m) lim al chain) :
    (withRecords mb m es strings al).Pool chain := by
  have hbmp := withRecords_bmp es strings hst
  refine ⟨?_, ?_, ?_, ?_, ?_, ?_, hst.nodup, ?_⟩
  · rw [hbmp]
    rfl
  · rw [hbmp]
    rfl
  · rw [hbmp]
    rfl
  · rw [hbmp]
    rfl
  · have hmem := h.bitmap_header
    rw [← h.headers] at hmem
    obtain ⟨e, he, heq⟩ := List.mem_map.mp hmem
    have hbelow := h.below e he
    rw [heq] at hbelow
    dsimp only at hbelow
    have h512 : (512 : BitVec 32).toNat = 512 := rfl
    rw [hbmp]
    show (bitmapPlace mb m).toNat + 512 < 2 ^ 32
    omega
  · refine hst.links.congr fun p hp => read32_congr fun x hx => ?_
    have hclear := h.placeApart p (passes_of_mem hst hp).1
    exact h.initKernel_mem (hclear.mono (by decide) (Nat.le_refl _) x hx)
  · intro p hp
    obtain ⟨hpass, hhigh⟩ := passes_of_mem hst hp
    refine ⟨hpass.aligned, hhigh, ?_⟩
    rw [hbmp]
    exact bitmap_clear h.parsed h.bitmap hpass.aligned hpass.checked

/-- The free pages of the bitmap are those that `Init` has given to `Free`. -/
theorem Loaded.pageFree_iff (h : Loaded mb m es fb) (strings : Address)
    (hst : Stocked (tablesInUse mb m) (bitmapPlace mb m) lim al chain) {k : Nat} (hk : k < 4096) :
    (withRecords mb m es strings al).PageFree k ↔
      Passes (tablesInUse mb m) (pageAddr k) ∧ k * 4096 < lim := by
  have hbits : (withRecords mb m es strings al).bmp.isSet (withRecords mb m es strings al).mem
      (BitVec.ofNat 32 k) = al.bmp.isSet al.mem (BitVec.ofNat 32 k) := by
    show al.bmp.isSet _ _ = _
    rw [hst.bmp]
    refine PhysMemBitmap.isSet_congr (n := 512) rfl (fun x hx => ?_)
      (PhysMemBitmap.pageNumber_lt hk)
    exact h.initKernel_mem (h.bitmap_apart hx)
  have hfree := hst.bits k hk
  have haddr := pageAddr_toNat (Nat.le_of_lt hk)
  unfold PageFree at hfree ⊢
  rw [hbits, hfree]
  constructor
  · rintro ⟨hlow, hlt, hchecked⟩
    exact ⟨⟨by omega, by omega, hchecked⟩, hlt⟩
  · rintro ⟨hpass, hlt⟩
    have hlow := hpass.low
    rw [haddr] at hlow
    exact ⟨hlow, hlt, hpass.checked⟩

theorem inRange_records {records x : Address} {n i : Nat} (hi : i < n)
    (hroom : Section.size * n < 2 ^ 32) (hx : InRange (record records i) Section.size x) :
    InRange records (Section.size * n) x := by
  unfold record at hx
  unfold InRange Section.size at *
  bv_omega

section Stages
variable (h : Loaded mb m es fb)
  (hst : Stocked (tablesInUse mb m) (bitmapPlace mb m) lim al chain)
  (htables : VirtMemManager.init report fuel (withRecords mb m es strings al)
    ⟨kernelSections (recordsPlace mb m es) es fb, []⟩ = some t)
include h hst htables

/-- The page tables are put in pages that are free. -/
theorem Loaded.tables_pass : t.kernelPts.base.toNat % 4096 = 0 ∧
    t.kernelPts.base.toNat + 0x100000 ≤ 2 ^ 24 ∧
    ∀ k, t.kernelPts.base.toNat / 4096 ≤ k → k < t.kernelPts.base.toNat / 4096 + 256 →
      Passes (tablesInUse mb m) (pageAddr k) := by
  have hpool := h.pool strings hst
  have hbmp := withRecords_bmp es strings hst
  have hne := VirtMemManager.base_ne_zero hbmp htables
  have halloc := (VirtMemManager.init_sections hbmp htables).1
  have hlow := (VirtMemManager.allocRange_low hbmp halloc).2
  have hlen : ¬ VirtMemManager.kernelPtsLength ≤ pageSize := by decide
  unfold PhysMemAllocator.allocRange at halloc
  rw [if_neg hlen] at halloc
  obtain ⟨r, hr, hpair⟩ := Option.bind_eq_some_iff.mp halloc
  obtain rfl : r = t.kernelPts.base := congrArg Prod.snd (Option.some.inj hpair)
  have hcount : ((withRecords mb m es strings al).bmp.pageCount
      VirtMemManager.kernelPtsLength).toNat = 256 := by
    rw [hbmp]
    show ((VirtMemManager.kernelPtsLength + 0x1000 - 1) / 0x1000).toNat = 256
    decide
  obtain ⟨i, hi, hbase, hrun, -⟩ := hpool.allocRange (by rw [hcount]; decide) hr hne
  rw [hcount] at hi hrun
  have hnum : t.kernelPts.base.toNat = i * 4096 := by
    rw [hbase, pageAddr_toNat (by omega)]
  refine ⟨by omega, hlow, fun k hge hlt => ?_⟩
  have hk : k < 4096 := by omega
  have hfree := hrun (k - i) (by omega)
  have hsum : i + (k - i) = k := by omega
  rw [hsum, h.pageFree_iff strings hst hk] at hfree
  exact hfree.1

/-- A page of the stack is as the loader left it but for its link. -/
theorem Loaded.page_mem (hq : q ∈ chain) {x : Address} (hx : InRange q 4096 x) :
    t.mem x = al.mem x := by
  obtain ⟨hpass, hhigh⟩ := passes_of_mem hst hq
  obtain ⟨-, hlow, -⟩ := h.tables_pass hst htables
  have hbmp := withRecords_bmp es strings hst
  have hout : ¬ InRange t.kernelPts.base 0x100000 x := by
    have hal := hpass.aligned
    have hlt := q.isLt
    have hclear : Clear t.kernelPts.base 0x100000 q 4096 := clear_of_le (by omega) (by omega)
    exact fun hin => hclear x hin hx
  rw [VirtMemManager.init_mem hbmp htables (fun sec hsec => h.plain hsec) hout]
  exact h.initKernel_mem (h.placeApart q hpass x hx)

/-- The records are apart from the page tables. -/
theorem Loaded.records_words {i : Nat} {e : KernelShdr} (he : es[i]? = some e)
    (hsize : e.shSize ≠ 0) :
    Words t.mem (record (recordsPlace mb m es) i) ((sectionOf e).words (strings + e.shName)) := by
  obtain ⟨hal, hlow, hpass⟩ := h.tables_pass hst htables
  have hbmp := withRecords_bmp es strings hst
  have hroom := h.records_lt
  rw [Nat.zero_add] at hroom
  obtain ⟨hi, -⟩ := List.getElem?_eq_some_iff.mp he
  refine (h.initKernel_words al.mem he hsize).congr (Section.words_fit _ _) fun x hx => ?_
  refine VirtMemManager.init_mem hbmp htables (fun sec hsec => h.plain hsec) fun hin => ?_
  have hx32 := x.isLt
  have hk : t.kernelPts.base.toNat / 4096 ≤ x.toNat / 4096 ∧
      x.toNat / 4096 < t.kernelPts.base.toNat / 4096 + 256 := by
    unfold InRange at hin
    bv_omega
  have hpage : (pageAddr (x.toNat / 4096)).toNat = x.toNat / 4096 * 4096 :=
    pageAddr_toNat (by omega)
  have hin' : InRange (pageAddr (x.toNat / 4096)) 4096 x := by
    unfold InRange
    bv_omega
  exact h.placeApart _ (hpass _ hk.1 hk.2) x hin' (inRange_records hi hroom hx)

end Stages

theorem Loaded.startable (h : Loaded mb m es fb) {p : PhysAddr} {free : List PhysAddr}
    (hst : Stocked (tablesInUse mb m) (bitmapPlace mb m) lim al (p :: free))
    (hinit : init mb m bmp = some al)
    (htables : VirtMemManager.init report fuel (withRecords mb m es strings al)
      ⟨kernelSections (recordsPlace mb m es) es fb, []⟩ = some t)
    (hclean : ∀ j : Index, 256 ≤ j.toNat → isPresent (framesOf m (frameOf p) j) = false) :
    t.Startable al.stack p free := by
  obtain ⟨hal, hlow, -⟩ := h.tables_pass hst htables
  have hlinks : Chain t.mem al.stack.top (p :: free) := by
    refine hst.links.congr fun q hq => read32_congr fun x hx => ?_
    exact h.page_mem hst htables hq (Nat.lt_of_lt_of_le hx (by decide))
  have haligned : ∀ q ∈ p :: free, q.toNat % 4096 = 0 := fun q hq =>
    (passes_of_mem hst hq).1.aligned
  refine ⟨FreeList.of_chain hlinks haligned, hst.nodup, fun q hq => (passes_of_mem hst hq).2, hal,
    hlow, fun j hj => ?_⟩
  have hpass := (passes_of_mem hst List.mem_cons_self).1
  have hpage := haligned p List.mem_cons_self
  have hlt := p.isLt
  have hj' := j.isLt
  have hframe : (frameOf p).toNat * 4096 = p.toNat := by
    rw [frameOf_toNat]
    omega
  have hsame : framesOf t.mem (frameOf p) j = framesOf m (frameOf p) j := by
    refine read32_congr fun x hx => ?_
    rw [hframe] at hx
    have hin : InRange p 4096 x := by
      unfold InRange at hx ⊢
      bv_omega
    have hlink : 4 ≤ x.toNat % 4096 := by
      unfold InRange at hx
      bv_omega
    rw [h.page_mem hst htables List.mem_cons_self hin]
    refine PhysMemAllocator.init_mem h.parsed h.bitmap hlink (fun hbitmap => ?_) hinit
    exact bitmap_clear h.parsed h.bitmap hpass.aligned hpass.checked x hin hbitmap
  rw [hsame]
  exact hclean j hj

/-- Where `AllocRange` gives 0 the start goes on to `Enable` all the same, and the directory takes
the pages from 0 on for its tables. -/
theorem Loaded.kmain_without_tables (h : Loaded mb m es fb) {p : PhysAddr} {free : List PhysAddr}
    (hst : Stocked (tablesInUse mb m) (bitmapPlace mb m) lim al (p :: free))
    (hinit : init mb m bmp = some al) {al' : PhysMemAllocator}
    (hnone : (withRecords mb m es strings al).allocRange report fuel
      VirtMemManager.kernelPtsLength = some (al', 0)) :
    ∃ s, kmain report fuel mb m bmp es strings fb = some s ∧ s.tables.kernelPts.base = 0 ∧
      s.machine.enabled = true ∧ s.machine.dir = frameOf p ∧
      ∀ i : Index, i.toNat < 255 →
        frameOf (s.machine.mem s.machine.dir i) = BitVec.ofNat 20 i.toNat := by
  have hbmp := withRecords_bmp es strings hst
  obtain ⟨hsame, -⟩ := VirtMemManager.allocRange_low hbmp hnone
  let l : SectionList := ⟨kernelSections (recordsPlace mb m es) es fb, []⟩
  let t : VirtMemManager := ⟨al'.mem, l, VirtMemManager.clearedSection,
    VirtMemManager.clearedSection, VirtMemManager.clearedSection, VirtMemManager.clearedSection⟩
  have hreturn : VirtMemManager.initOrReturn report fuel (withRecords mb m es strings al) l =
      some t := by
    unfold VirtMemManager.initOrReturn
    rw [hnone, Option.bind_eq_bind, Option.bind_some]
    exact if_pos rfl
  have hlinks : FreeList (framesOf t.mem) al.stack.top (p :: free) := by
    refine FreeList.of_chain (hst.links.congr fun q hq => read32_congr fun x hx => ?_) fun q hq =>
      (passes_of_mem hst hq).1.aligned
    have hpass := (passes_of_mem hst hq).1
    have hpage : InRange q 4096 x := Nat.lt_of_lt_of_le hx (by decide)
    show al'.mem x = al.mem x
    rw [hsame]
    exact h.initKernel_mem (h.placeApart q hpass x hpage)
  refine ⟨⟨withRecords mb m es strings al, t, t.started al.stack p⟩, ?_, rfl, rfl, rfl,
    fun i hi => ?_⟩
  · rw [h.kmain_eq hinit, hreturn]
    dsimp only [Option.bind_some]
    rw [VirtMemManager.enable_eq hlinks]
    rfl
  · have hentry : (t.started al.stack p).mem (frameOf p) i =
        AddressSpace.kernelEntry 0 i.toNat := VirtMemManager.started_below hi
    have hpage : (0 + BitVec.ofNat 32 i.toNat * 0x1000 : Uintptr).toNat = i.toNat * 4096 := by
      bv_omega
    apply BitVec.eq_of_toNat_eq
    show (frameOf ((t.started al.stack p).mem (frameOf p) i)).toNat = _
    rw [hentry, AddressSpace.frameOf_kernelEntry, frameOf_toNat, hpage, BitVec.toNat_ofNat]
    omega

/-- Nothing is mapped for processes. The kernel's sections below 1020 MB, where its own page
tables end, are where the loader has put them, in frames that are not to be given away, and their
records are still there. -/
structure KernelMapped (mb : Multiboot) (m : Memory) (es : List KernelShdr) (strings fb : Address)
    (s : Booted) (free : List PhysAddr) (v : ProcessView) : Prop where
  user : ∀ page, IsUser page → v.mapped page = none
  kernel : ∀ sec ∈ kernelSections (recordsPlace mb m es) es fb, ∀ page : Frame,
    page.toNat < 255 * 1024 → sec.Live (page.toNat * 4096) →
      v.mapped page = some page ∧ v.held page
  free : ∀ q ∈ free, Passes (tablesInUse mb m) q ∧ 2 ^ 24 ≤ q.toNat
  records : ∀ i e, es[i]? = some e → e.shSize ≠ 0 →
    Words s.tables.mem (record (recordsPlace mb m es) i) ((sectionOf e).words (strings + e.shName))

theorem Loaded.kernelMapped (h : Loaded mb m es fb) {p : PhysAddr} {free : List PhysAddr}
    (hst : Stocked (tablesInUse mb m) (bitmapPlace mb m) lim al (p :: free))
    (htables : VirtMemManager.init report fuel (withRecords mb m es strings al)
      ⟨kernelSections (recordsPlace mb m es) es fb, []⟩ = some s.tables)
    (hstart : s.tables.Startable al.stack p free) :
    KernelMapped mb m es strings fb s free (VirtMemManager.firstView hstart) := by
  obtain ⟨-, -, hpass⟩ := h.tables_pass hst htables
  have hbmp := withRecords_bmp es strings hst
  refine ⟨fun page => VirtMemManager.firstView_user hstart, ?_, ?_, ?_⟩
  · intro sec hsec page hpage hlive
    have hother : ∀ q, Passes (tablesInUse mb m) q → q.toNat ≠ page.toNat * 4096 := by
      intro q hq heq
      rw [← heq] at hlive
      exact h.not_live hq hsec hlive
    constructor
    · apply VirtMemManager.firstView_identity hstart hpage
      have hentries := VirtMemManager.init_entries hbmp (fun sec hsec => h.plain hsec) htables
        (q := page.toNat) (by omega)
      apply hentries.1
      refine ⟨sec, ?_, has_bits hsec, hlive⟩
      exact ((VirtMemManager.init_sections hbmp htables).2.2 sec).2 (List.mem_append_left _ hsec)
    · refine (VirtMemManager.started_client_iff hstart).mpr ⟨?_, ?_⟩
      · rintro ⟨hge, hlt⟩
        have hlow := hstart.low
        refine hother _ (hpass page.toNat hge (by omega)) ?_
        rw [pageAddr_toNat (by omega)]
      · intro q hq heq
        have hq' := (passes_of_mem hst hq).1
        have hal := hq'.aligned
        have hframe := frameOf_toNat q
        rw [heq] at hframe
        exact hother q hq' (by omega)
  · exact fun q hq => passes_of_mem hst (List.mem_cons_of_mem p hq)
  · exact fun i e he hsize => h.records_words hst htables he hsize

/-- `kmain` from the multiboot tables to `Enable` leaves the machine that `MapPage` and the page
fault handler need, if `AllocRange` has found a place for the kernel's page tables and the
directory's page looks empty above its own entry. -/
theorem kmain_shows (report : BtrReport) (fuel : Nat) (mb : Multiboot) (m : Memory)
    (bmp : PhysMemBitmap) (es : List KernelShdr) (strings fb : Address) (s : Booted)
    (h : Loaded mb m es fb) (hstart : kmain report fuel mb m bmp es strings fb = some s)
    (hbase : s.tables.kernelPts.base ≠ 0)
    (hclean : ∀ j : Index, 256 ≤ j.toNat →
      isPresent (framesOf m (frameOf s.al.stack.top) j) = false) :
    ∃ free v, s.machine.Shows free v ∧ KernelMapped mb m es strings fb s free v := by
  obtain ⟨al, hinit⟩ := init_returns mb m bmp
  obtain ⟨chain, lim, hst, -⟩ := init_stocked h.parsed h.bitmap hinit
  rw [h.kmain_eq hinit] at hstart
  obtain ⟨t, hreturn, hstart⟩ := Option.bind_eq_some_iff.mp hstart
  obtain ⟨machine, hmachine, rfl⟩ := Option.map_eq_some_iff.mp hstart
  have htables := VirtMemManager.init_of_base hreturn hbase
  cases chain with
  | nil =>
    have hempty : al.stack = ⟨0⟩ := congrArg PhysMemStack.mk hst.links
    rw [hempty, VirtMemManager.enable_empty] at hmachine
    cases hmachine
  | cons p free =>
    have htop : (withRecords mb m es strings al).stack.top = p := hst.links.1
    dsimp only at hclean
    rw [htop] at hclean
    have hstartable := h.startable hst hinit htables hclean
    rw [VirtMemManager.enable_eq hstartable.links] at hmachine
    obtain rfl := Option.some.inj hmachine
    refine ⟨free, VirtMemManager.firstView hstartable, ?_, ?_⟩
    · exact VirtMemManager.firstView_shows hstartable
    · exact h.kernelMapped hst htables hstartable

end Boot

section Sample

/-- The kernel at 1 MB and the bitmap behind it; the records are in the page of the bitmap. -/
def topHeaders : List KernelShdr :=
  [⟨⟨⟨0x100000, 0x100000⟩, 0⟩, 0x7⟩, ⟨⟨⟨0x200000, 512⟩, 0⟩, 0⟩]

theorem topHeaders_tables : tablesInUse topTables (fun _ => 0) =
    { topTables with
      mmap := topTables.mmap ++ [⟨0, 0, 0x100000, 0, 2⟩]
      elf := topTables.elf ++ [⟨0x200000, 512⟩] } := by
  rw [tablesInUse_eq topTables_parsed, topTables_place]

/-- The allocator of the sample with the records in place. -/
abbrev topPool (al : PhysMemAllocator) : PhysMemAllocator :=
  withRecords topTables (fun _ => 0) topHeaders 0 al

theorem topHeaders_place : recordsPlace topTables (fun _ => 0) topHeaders = 0x200200 := by
  unfold recordsPlace
  rw [topHeaders_tables]
  decide

theorem topHeaders_page :
    (tablesInUse topTables fun _ => 0).checkRange 0x200000 pageSize = false := by
  rw [topHeaders_tables]
  decide

theorem topHeaders_loaded : Loaded topTables (fun _ => 0) topHeaders Vga.colorFramebuffer where
  parsed := topTables_parsed
  bitmap := topTables_found
  headers := by
    rw [topHeaders_tables]
    decide
  below := by decide
  screen := Or.inr rfl
  place := by
    rw [topHeaders_place]
    decide
  placeBelow := by
    rw [topHeaders_place]
    decide
  placeApart := by
    intro q hq x hx hin
    have hlen : Section.size * topHeaders.length = 72 := rfl
    rw [topHeaders_place, hlen] at hin
    have hpage : q = 0x200000 := by
      have hal := hq.aligned
      apply BitVec.eq_of_toNat_eq
      show q.toNat = 0x200000
      unfold InRange at hx hin
      bv_omega
    have hchecked := hq.checked
    rw [hpage, topHeaders_page] at hchecked
    cases hchecked

theorem topHeaders_free : ∀ k < 0x301, 0x201 ≤ k →
    (tablesInUse topTables fun _ => 0).checkRange (pageAddr k) pageSize = true := by
  rw [topHeaders_tables]
  decide +kernel

def topSections : SectionList :=
  ⟨kernelSections 0x200200 topHeaders Vga.colorFramebuffer ++
    [VirtMemManager.kernelPtsSection 0x201000], []⟩

def topSectionsEnd : SectionList :=
  ((topSections.add (tempAt 0x301000)).add (tempAt 0x302000)).add
    (tempAt 0x303000)

theorem topSections_temps :
    topSections.findFree VirtMemManager.tempSection = some (tempAt 0x301000) ∧
    (topSections.add (tempAt 0x301000)).findFree VirtMemManager.tempSection =
      some (tempAt 0x302000) ∧
    ((topSections.add (tempAt 0x301000)).add (tempAt 0x302000)).findFree
      VirtMemManager.tempSection = some (tempAt 0x303000) := by
  decide

/-- The lowest free page is the one behind that of the bitmap. -/
theorem topHeaders_lowest {k : Nat} (hk : k < 0x201) :
    ¬ Passes (tablesInUse topTables fun _ => 0) (pageAddr k) := by
  intro hpass
  have haddr : (pageAddr k).toNat = k * 4096 := pageAddr_toNat (by omega)
  have hlow := hpass.low
  by_cases hlast : k = 0x200
  · have hchecked := hpass.checked
    have hpage : pageAddr 0x200 = 0x200000 := rfl
    rw [hlast, hpage, topHeaders_page] at hchecked
    cases hchecked
  · have hsec : sectionOf ⟨⟨⟨0x100000, 0x100000⟩, 0⟩, 0x7⟩ ∈ kernelSections
        (recordsPlace topTables (fun _ => 0) topHeaders) topHeaders Vga.colorFramebuffer :=
      mem_kernelSections.mpr (Or.inr (Or.inl ⟨_, List.mem_cons_self, by decide, rfl⟩))
    apply topHeaders_loaded.not_live hpass hsec
    show 0x100000 ≤ (pageAddr k).toNat ∧ (pageAddr k).toNat < 0x100000 + 0x100000
    omega

section Pool
variable {al : PhysMemAllocator} {chain : List PhysAddr} {lim : Nat}
  (hst : Stocked (tablesInUse topTables fun _ => 0) (bitmapPlace topTables fun _ => 0) lim al chain)
  (hlim : 0x301000 ≤ lim)
include hst hlim

theorem topHeaders_firstRun : RunSearch.FirstRun ((topPool al).bmp.pageBit (topPool al).mem) 256
    0x201 := by
  have hbit : ∀ k < 4096, (topPool al).bmp.pageBit (topPool al).mem k = true ↔
      Passes (tablesInUse topTables fun _ => 0) (pageAddr k) ∧ k * 4096 < lim :=
    fun k hk => topHeaders_loaded.pageFree_iff 0 hst hk
  constructor
  · intro k hge hlt
    have haddr : (pageAddr k).toNat = k * 4096 := pageAddr_toNat (by omega)
    rw [hbit k (by omega)]
    exact ⟨⟨by omega, by omega, topHeaders_free k (by omega) hge⟩, by omega⟩
  · intro k hk hrun
    have hfree := hrun k (Nat.le_refl k) (by omega)
    rw [hbit k (by omega)] at hfree
    exact topHeaders_lowest hk hfree.1

theorem topHeaders_range : (topPool al).allocRange lockBtrReport 0 VirtMemManager.kernelPtsLength =
    some (topPool al, 0x201000) := by
  obtain ⟨hrun, hfirst⟩ := topHeaders_firstRun hst hlim
  have hbmp : (topPool al).bmp = PhysMemBitmap.lowMemory (bitmapPlace topTables fun _ => 0) :=
    hst.bmp
  have hlen : ¬ VirtMemManager.kernelPtsLength ≤ pageSize := by decide
  have hpages : (PhysMemBitmap.lowMemory (bitmapPlace topTables fun _ => 0)).pagesFor
      VirtMemManager.kernelPtsLength = 256 := by
    show (VirtMemManager.kernelPtsLength.toNat + (0x1000 : BitVec 32).toNat - 1) /
      (0x1000 : BitVec 32).toNat = 256
    decide
  have hcount : ((PhysMemBitmap.lowMemory (bitmapPlace topTables fun _ => 0)).pageCount
      VirtMemManager.kernelPtsLength).toNat = 256 := by
    show ((VirtMemManager.kernelPtsLength + 0x1000 - 1) / 0x1000).toNat = 256
    decide
  have hspec := ((PhysMemBitmap.lowMemory_covers (bitmapPlace topTables fun _ => 0)).allocRange_spec
    (m := (topPool al).mem) (hcount.trans hpages.symm) (by rw [hpages]; decide)).2
  rw [hbmp] at hrun hfirst
  rw [hpages] at hspec
  unfold PhysMemAllocator.allocRange
  rw [if_neg hlen, hbmp]
  rcases hspec with ⟨i, -, hfound, hrange⟩ | ⟨hnone, -⟩
  · have hi : i = 0x201 := by
      rcases Nat.lt_trichotomy i 0x201 with hlt | heq | hgt
      · exact absurd hfound.1 (hfirst i hlt)
      · exact heq
      · exact absurd hrun (hfound.2 0x201 hgt)
    rw [hrange, hi]
    rfl
  · exact absurd hrun (hnone 0x201 (by decide))

theorem topHeaders_tables_made : ∃ t, VirtMemManager.init lockBtrReport 0 (topPool al)
    ⟨kernelSections (recordsPlace topTables (fun _ => 0) topHeaders) topHeaders
      Vga.colorFramebuffer, []⟩ = some t := by
  obtain ⟨hpd, hpt, htp⟩ := topSections_temps
  have hadd : SectionList.add ⟨kernelSections (recordsPlace topTables (fun _ => 0) topHeaders)
      topHeaders Vga.colorFramebuffer, []⟩ (VirtMemManager.kernelPtsSection 0x201000) =
        topSections := by
    rw [topHeaders_place]
    decide
  have hplain : ∀ s ∈ topSectionsEnd.kernelSections, VirtMemManager.Plain s := by decide
  have hcount : 0 + topSectionsEnd.count ≤ topSectionsEnd.kernelSections.length := by decide
  obtain ⟨mem, hmem⟩ := @VirtMemManager.tablesLoop_returns 0x201000 (topPool al).mem _ hplain _ _
    hcount
  refine ⟨⟨mem, topSectionsEnd, VirtMemManager.kernelPtsSection 0x201000,
    tempAt 0x301000, tempAt 0x302000, tempAt 0x303000⟩, ?_⟩
  unfold VirtMemManager.init
  rw [topHeaders_range hst hlim]
  dsimp only [Option.bind_eq_bind, Option.bind_some]
  rw [if_neg (by decide), hadd, hpd]
  dsimp only [Option.bind_some]
  rw [hpt]
  dsimp only [Option.bind_some]
  rw [htp]
  dsimp only [Option.bind_some]
  show Option.bind (VirtMemManager.tablesLoop 0x201000 topSectionsEnd 0 topSectionsEnd.count _) _ =
    some _
  rw [hmem]
  rfl

end Pool

theorem framesOf_empty (f : Frame) (j : Index) : isPresent (framesOf (fun _ => 0) f j) = false := by
  have hword : framesOf (fun _ => 0) f j = 0 := rfl
  rw [hword]
  rfl

theorem topHeaders_started : ∃ s, kmain lockBtrReport 0 topTables (fun _ => 0) Clients.noBitmap
    topHeaders 0 Vga.colorFramebuffer = some s ∧ s.tables.kernelPts.base ≠ 0 := by
  obtain ⟨al, hinit⟩ := init_returns topTables (fun _ => 0) Clients.noBitmap
  obtain ⟨chain, lim, hst, hreach⟩ := init_stocked topTables_parsed topTables_found hinit
  have hlim : 0x1000000 < lim := (hreach _ (by decide) (by decide) (by decide)).mpr
    (Or.inl (by decide))
  obtain ⟨t, ht⟩ := topHeaders_tables_made hst (by omega)
  have hmem : (0x1000000 : PhysAddr) ∈ chain := by
    refine (hst.pages _).mpr ⟨by decide, by decide, hlim, ?_⟩
    rw [topHeaders_tables]
    decide
  obtain ⟨p, free, rfl⟩ := List.exists_cons_of_ne_nil (List.ne_nil_of_mem hmem)
  have hstartable := topHeaders_loaded.startable hst hinit ht fun j _ => framesOf_empty _ j
  have hbmp := withRecords_bmp topHeaders 0 hst
  refine ⟨⟨topPool al, t, t.started al.stack p⟩, ?_, VirtMemManager.base_ne_zero hbmp ht⟩
  rw [topHeaders_loaded.kmain_eq hinit, VirtMemManager.initOrReturn_eq ht]
  dsimp only [Option.bind_some]
  rw [VirtMemManager.enable_eq hstartable.links]
  rfl

theorem kmain_shows_top : ∃ s free v, kmain lockBtrReport 0 topTables (fun _ => 0)
      Clients.noBitmap topHeaders 0 Vga.colorFramebuffer = some s ∧ s.machine.Shows free v ∧
    KernelMapped topTables (fun _ => 0) topHeaders 0 Vga.colorFramebuffer s free v := by
  obtain ⟨s, hs, hbase⟩ := topHeaders_started
  obtain ⟨free, v, hshows, hmapped⟩ := kmain_shows lockBtrReport 0 topTables (fun _ => 0)
    Clients.noBitmap topHeaders 0 Vga.colorFramebuffer s topHeaders_loaded hs hbase
    fun j _ => framesOf_empty _ j
  exact ⟨s, free, v, hs, hshows, hmapped⟩

end Sample
end Tysos
