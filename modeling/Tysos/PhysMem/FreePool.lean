import Tysos.PhysMem.Ownership
import Tysos.Boot.NonRam

/-!
# What `Init` makes free

The pages that `Init` gives to `Free`, in the bitmap below 16 MB and on the stack above. They
are the pages of memory that `CheckRange` lets through, and with memory up to the end of the
address space one page more.
-/

namespace Tysos
open ByteMemory
set_option autoImplicit false

namespace PhysMemAllocator

/-- The tables with what `Init` has added to them, the first megabyte and the bitmap. -/
def tablesInUse (mb : Multiboot) (m : Memory) : Multiboot :=
  ((mb.reserveLow m).1.reserveBitmap (mb.reserveLow m).2 (bitmapPlace mb m)).1

/-- The end of memory by `mem_upper`, which is in kiB. -/
def limit (mb : Multiboot) : Nat := mb.memUpper.toNat * 1024 + 0x100000

/-- A page from 1 MB on, within memory, that `CheckRange` lets through. -/
structure Available (mb : Multiboot) (p : PhysAddr) : Prop where
  aligned : p.toNat % 4096 = 0
  low : 0x100000 ≤ p.toNat
  high : p.toNat + 4096 ≤ limit mb
  checked : mb.checkRange p pageSize = true

/-- The page is marked free in the bitmap or is on the stack. -/
def IsFree (al : PhysMemAllocator) (p : PhysAddr) : Prop :=
  (∃ k < 4096, p = pageAddr k ∧ al.PageFree k) ∨
    ∃ chain, Chain al.mem al.stack.top chain ∧ p ∈ chain

/-- The pool has the pages available by the tables `T` in use, and none of the tables `mb`. -/
structure ExactPool (T mb : Multiboot) (bitmap : Address) (al : PhysMemAllocator) : Prop where
  bits : ∀ k < 4096, al.PageFree k ↔ Available T (pageAddr k)
  stack : ∃ chain, Chain al.mem al.stack.top chain ∧ chain.Nodup ∧
    ∀ p, p ∈ chain ↔ 0x1000000 ≤ p.toNat ∧ Available T p
  apart : ∀ p, al.IsFree p → Disjoint (span p pageSize) (span bitmap 512) ∧
    (∀ s ∈ mb.elf, Disjoint (span p pageSize) (span s.shAddr s.shSize)) ∧
    ∀ e ∈ mb.mods, Disjoint (span p pageSize) e.bytes

/-- The pages below `lim` have been dealt with; `chain` lists those on the stack. -/
structure Stocked (mb : Multiboot) (bitmap : Address) (lim : Nat) (al : PhysMemAllocator)
    (chain : List PhysAddr) : Prop where
  bmp : al.bmp = PhysMemBitmap.lowMemory bitmap
  bits : ∀ k < 4096, al.PageFree k ↔
    0x100000 ≤ k * 4096 ∧ k * 4096 < lim ∧ mb.checkRange (pageAddr k) pageSize = true
  links : Chain al.mem al.stack.top chain
  nodup : chain.Nodup
  pages : ∀ p, p ∈ chain ↔ p.toNat % 4096 = 0 ∧ 0x1000000 ≤ p.toNat ∧ p.toNat < lim ∧
    mb.checkRange p pageSize = true

section
variable {mb : Multiboot} {bitmap : Address} {lim : Nat} {al : PhysMemAllocator}
  {chain : List PhysAddr} {p : PhysAddr}

theorem pageAddr_div (hal : p.toNat % 4096 = 0) (hlow : p.toNat < 0x1000000) :
    pageAddr (p.toNat / 4096) = p := by
  apply BitVec.eq_of_toNat_eq
  rw [pageAddr_toNat (by omega)]
  omega

theorem pageFree_free (hbmp : al.bmp = PhysMemBitmap.lowMemory bitmap) {j k : Nat}
    (hj : j < 4096) (hk : k < 4096) :
    (al.free (pageAddr k)).PageFree j ↔ al.PageFree j ∨ j = k := by
  have hge : ¬ pageAddr k ≥ 0x1000000 := by
    rw [ge_iff_le, BitVec.le_def, pageAddr_toNat (Nat.le_of_lt hk)]
    exact Nat.not_le.mpr (by show k * 4096 < 0x1000000; omega)
  have hset := congrArg (· = true) (PhysMemBitmap.isSet_free bitmap al.mem hk hj)
  simp only [Bool.or_eq_true, decide_eq_true_eq, eq_iff_iff] at hset
  unfold PageFree PhysMemAllocator.free
  rw [if_neg hge]
  dsimp only
  rw [hbmp]
  exact hset

/-- The pages below the next one are those below, but for the one dealt with. -/
theorem below_next_iff {n bound : Nat} {C : Prop} (hlim : lim % 4096 = 0)
    (hne : bound ≤ n → n ≠ lim) : (n % 4096 = 0 ∧ bound ≤ n ∧ n < lim ∧ C) ↔
      n % 4096 = 0 ∧ bound ≤ n ∧ n < lim + 4096 ∧ C := by
  constructor
  · rintro ⟨hn, hge, hlt, hc⟩
    exact ⟨hn, hge, by omega, hc⟩
  · rintro ⟨hn, hge, hlt, hc⟩
    have hother := hne hge
    exact ⟨hn, hge, by omega, hc⟩

theorem Stocked.skip (h : Stocked mb bitmap lim al chain) (hp : p.toNat = lim)
    (hal : p.toNat % 4096 = 0) (hcheck : mb.checkRange p pageSize = false) :
    Stocked mb bitmap (lim + 4096) al chain := by
  refine ⟨h.bmp, fun k hk => ?_, h.links, h.nodup, fun q => ?_⟩
  · rw [h.bits k hk]
    by_cases heq : k * 4096 = lim
    · have hpage : pageAddr k = p :=
        BitVec.eq_of_toNat_eq (by rw [pageAddr_toNat (by omega), heq, hp])
      rw [hpage, hcheck]
      simp
    · have hiff : k * 4096 < lim ↔ k * 4096 < lim + 4096 := by omega
      rw [hiff]
  · rw [h.pages q]
    by_cases heq : q = p
    · rw [heq, hcheck]
      simp
    · have hne : q.toNat ≠ lim := fun h => heq (BitVec.eq_of_toNat_eq (h.trans hp.symm))
      exact below_next_iff (by omega) fun _ => hne

/-- Below 16 MB the bit of the page is set; the links of the stack are not in the bitmap. -/
theorem Stocked.free_low (h : Stocked mb bitmap lim al chain) (hp : p.toNat = lim)
    (hal : p.toNat % 4096 = 0) (hfirst : 0x100000 ≤ lim) (hlow : p.toNat < 0x1000000)
    (hcheck : mb.checkRange p pageSize = true)
    (hclear : ∀ q ∈ chain, Clear q 4 bitmap 512) :
    Stocked mb bitmap (lim + 4096) (al.free p) chain := by
  have hnum : p.toNat / 4096 < 4096 := by omega
  have hpage := pageAddr_div hal hlow
  have hge : ¬ p ≥ 0x1000000 := by
    rw [ge_iff_le, BitVec.le_def]
    exact Nat.not_le.mpr hlow
  have hbit : ∀ k < 4096, (al.free p).PageFree k ↔ al.PageFree k ∨ k = p.toNat / 4096 := by
    intro k hk
    have hiff := pageFree_free h.bmp hk hnum
    rwa [hpage] at hiff
  have hfree : al.free p = { al with mem := al.bmp.free al.mem p } := by
    unfold PhysMemAllocator.free
    rw [if_neg hge]
  rw [hfree] at hbit ⊢
  refine ⟨h.bmp, fun k hk => ?_, ?_, h.nodup, fun q => ?_⟩
  · rw [hbit k hk, h.bits k hk]
    by_cases heq : k = p.toNat / 4096
    · have hkp : pageAddr k = p := by rw [heq, hpage]
      have hk' : k * 4096 = lim := by omega
      rw [hkp, hcheck]
      simp only [heq, or_true, true_iff, and_true]
      omega
    · have hne : k * 4096 ≠ lim := by omega
      have hiff : k * 4096 < lim ↔ k * 4096 < lim + 4096 := by omega
      rw [hiff]
      simp [heq]
  · apply h.links.congr
    intro q hq
    dsimp only
    rw [h.bmp]
    apply read32_congr
    intro x hx
    apply PhysMemBitmap.free_lowMemory hal hlow
    exact hclear q hq x hx
  · rw [h.pages q]
    exact below_next_iff (by omega) fun hhigh => by omega

/-- From 16 MB on the page is pushed; its first word is not in the bitmap. -/
theorem Stocked.free_high (h : Stocked mb bitmap lim al chain) (hp : p.toNat = lim)
    (hal : p.toNat % 4096 = 0) (hhigh : 0x1000000 ≤ p.toNat)
    (hcheck : mb.checkRange p pageSize = true) (hclear : Clear p 4 bitmap 512) :
    Stocked mb bitmap (lim + 4096) (al.free p) (p :: chain) := by
  have hge : p ≥ 0x1000000 := by
    rw [ge_iff_le, BitVec.le_def]
    exact hhigh
  have hne : p ≠ 0 := by
    rintro rfl
    exact absurd hhigh (by decide)
  have hout : p ∉ chain := by
    intro hmem
    have hlt := ((h.pages p).mp hmem).2.2.1
    omega
  have hfree : al.free p = { al with stack := ⟨p⟩, mem := write32 al.mem p al.stack.top } := by
    unfold PhysMemAllocator.free PhysMemStack.pushPage
    rw [if_pos hge, if_neg hne]
  rw [hfree]
  refine ⟨h.bmp, fun k hk => ?_, ?_, List.nodup_cons.mpr ⟨hout, h.nodup⟩, fun q => ?_⟩
  · have hsame : ∀ x, InRange bitmap 512 x → write32 al.mem p al.stack.top x = al.mem x := by
      intro x hx
      apply write32_of_not_inRange
      exact fun hin => hclear x hin hx
    have hbits := h.bits k hk
    unfold PageFree at hbits ⊢
    dsimp only
    rw [h.bmp] at hbits ⊢
    rw [PhysMemBitmap.isSet_congr (by rfl) hsame (PhysMemBitmap.pageNumber_lt hk), hbits]
    have hiff : k * 4096 < lim ↔ k * 4096 < lim + 4096 := by omega
    rw [hiff]
  · refine h.links.push hne fun q hq => ?_
    have hq' := ((h.pages q).mp hq).1
    have hqp : q ≠ p := fun heq => hout (heq ▸ hq)
    exact (clear_pages hq' hal hqp).mono (by decide) (by decide)
  · rw [List.mem_cons, h.pages q]
    by_cases heq : q = p
    · subst q
      simp only [true_or, true_iff]
      exact ⟨hal, hhigh, by omega, hcheck⟩
    · have hqne : q.toNat ≠ lim := fun h => heq (BitVec.eq_of_toNat_eq (h.trans hp.symm))
      simp only [heq, false_or]
      exact below_next_iff (by omega) fun _ => hqne

theorem Stocked.round (h : Stocked mb bitmap lim al chain) (hp : p.toNat = lim)
    (hal : p.toNat % 4096 = 0) (hfirst : 0x100000 ≤ lim)
    (hclear : ∀ q : PhysAddr, q.toNat % 4096 = 0 → 0x1000000 ≤ q.toNat →
      mb.checkRange q pageSize = true → Clear q 4 bitmap 512) :
    ∃ chain', Stocked mb bitmap (lim + 4096)
      (if mb.checkRange p pageSize then al.free p else al) chain' := by
  cases hcheck : mb.checkRange p pageSize with
  | false =>
    rw [if_neg Bool.false_ne_true]
    exact ⟨chain, h.skip hp hal hcheck⟩
  | true =>
    rw [if_pos rfl]
    by_cases hlow : p.toNat < 0x1000000
    · refine ⟨chain, h.free_low hp hal hfirst hlow hcheck fun q hq => ?_⟩
      have hq' := (h.pages q).mp hq
      exact hclear q hq'.1 hq'.2.1 hq'.2.2.2
    · have hhigh := Nat.not_lt.mp hlow
      exact ⟨p :: chain, h.free_high hp hal hhigh hcheck (hclear p hal hhigh hcheck)⟩

theorem limit_toNat (hlim : limit mb < 2 ^ 32) :
    (mb.memUpper * 1024 + 0x100000).toNat = limit mb := by
  unfold limit at hlim ⊢
  bv_omega

/-- From 1 MB on the pages end where the next one would go past the end of memory. -/
theorem pagesEnd_iff (hlim : limit mb < 2 ^ 32) (hlow : 0x100000 ≤ p.toNat) :
    mb.PagesEnd p ↔ limit mb < (p.toNat + 4096) % 2 ^ 32 := by
  have hne : p ≠ 0 := by
    rintro rfl
    exact absurd hlow (by decide)
  unfold Multiboot.PagesEnd
  rw [gt_iff_lt, BitVec.lt_def, limit_toNat hlim, nextPage_toNat]
  exact or_iff_left hne

theorem freePages_zero {k : Nat} {al' : PhysMemAllocator}
    (hf : freePages mb k 0 al = some al') : al' = al := by
  cases k with
  | zero => simp [freePages] at hf
  | succ k =>
    rw [freePages_succ, if_pos mb.pagesEnd_zero] at hf
    exact (Option.some.inj hf).symm

/-- The loop runs through the pages within memory, and with memory up to the last page of the
address space through that page too, since its end is address 0. -/
theorem Stocked.freePages {k : Nat} {al' : PhysMemAllocator}
    (h : Stocked mb bitmap lim al chain) (hp : p.toNat = lim) (hal : p.toNat % 4096 = 0)
    (hfirst : 0x100000 ≤ lim) (hbelow : lim = 0x100000 ∨ lim ≤ limit mb)
    (hlim : limit mb < 2 ^ 32)
    (hclear : ∀ q : PhysAddr, q.toNat % 4096 = 0 → 0x1000000 ≤ q.toNat →
      mb.checkRange q pageSize = true → Clear q 4 bitmap 512)
    (hf : freePages mb k p al = some al') :
    ∃ chain' lim', Stocked mb bitmap lim' al' chain' ∧
      ∀ n, n % 4096 = 0 → 0x100000 ≤ n → n < 2 ^ 32 →
        (n < lim' ↔ n + 4096 ≤ limit mb ∨ 0xfffff000 ≤ limit mb ∧ n = 0xfffff000) := by
  induction k generalizing lim p al chain with
  | zero => simp [PhysMemAllocator.freePages] at hf
  | succ k ih =>
    rw [freePages_succ] at hf
    have hsum := nextPage_toNat p
    have hplt := p.isLt
    have hiff := pagesEnd_iff hlim (hp ▸ hfirst)
    by_cases hlast : mb.PagesEnd p
    · rw [if_pos hlast] at hf
      obtain rfl := Option.some.inj hf
      have hover := hiff.mp hlast
      refine ⟨chain, lim, h, fun n hn hlow hlt => ?_⟩
      omega
    · rw [if_neg hlast] at hf
      have hunder := Nat.not_lt.mp (mt hiff.mpr hlast)
      obtain ⟨chain₁, h₁⟩ := h.round hp hal hfirst hclear
      by_cases hwrap : p.toNat + 4096 = 2 ^ 32
      · have hzero : p + pageSize = 0 := BitVec.eq_of_toNat_eq (by rw [hsum, hwrap]; rfl)
        rw [hzero] at hf
        rw [freePages_zero hf]
        refine ⟨chain₁, lim + 4096, h₁, fun n hn hlow hlt => ?_⟩
        omega
      · have hnext : (p + pageSize).toNat = lim + 4096 := by
          rw [hsum]
          omega
        exact ih h₁ hnext (by omega) (by omega) (by omega) hf

end

/-- Tables as `Parse` leaves them, with ELF sections and a memory map, and with room for what
`Init` adds; nothing wraps around the end of memory. -/
structure Parsed (mb : Multiboot) : Prop where
  elfFlag : mb.has Multiboot.elfAvail = true
  mmapFlag : mb.has Multiboot.mmapAvail = true
  modsFlag : mb.has Multiboot.modsAvail = true ∨ mb.mods = []
  mmapRoom : mb.mmap.length < mmapMax
  elfRoom : mb.elf.length < elfMax
  limit : limit mb < 2 ^ 32
  elfEnd : ∀ s ∈ mb.elf, s.shAddr.toNat + s.shSize.toNat ≤ 2 ^ 32
  mmapEnd : ∀ e ∈ mb.mmap, e.baseAddr.toNat + e.length.toNat ≤ 2 ^ 32
  modsEnd : ∀ e ∈ mb.mods, e.modStart ≤ e.modEnd

section
variable {mb : Multiboot} {m : Memory}

theorem bitmapTables_eq (h : Parsed mb) :
    bitmapTables mb m = { mb with mmap := mb.mmap ++ [⟨0, 0, 0x100000, 0, 2⟩] } := by
  unfold bitmapTables Multiboot.reserveLow
  rw [if_pos h.mmapFlag]

theorem tablesInUse_eq (h : Parsed mb) : tablesInUse mb m =
    { mb with
      mmap := mb.mmap ++ [⟨0, 0, 0x100000, 0, 2⟩]
      elf := mb.elf ++ [⟨bitmapPlace mb m, 512⟩] } := by
  have hlow : (mb.reserveLow m).1 = _ := bitmapTables_eq (m := m) h
  unfold tablesInUse Multiboot.reserveBitmap
  rw [hlow]
  exact congrArg Prod.fst (if_pos h.elfFlag)

/-- The bitmap does not wrap: the bytes at the start of memory are reserved. -/
theorem bitmapPlace_end (h : Parsed mb) (hfound : bitmapPlace mb m ≠ 0) :
    (bitmapPlace mb m).toNat + 512 ≤ 2 ^ 32 := by
  have hcheck : (bitmapTables mb m).checkRange (bitmapPlace mb m) 512 = true :=
    Multiboot.findRange_checked hfound
  generalize bitmapPlace mb m = bitmap at hcheck
  rw [bitmapTables_eq h, Multiboot.checkRange_iff] at hcheck
  by_contra hover
  refine hcheck (Multiboot.Refused.reserved h.mmapFlag
    (List.mem_append_right _ (List.mem_singleton.mpr rfl)) ⟨by decide, ?_⟩)
  rw [Multiboot.overlap_equal_iff (by decide) (by decide)]
  refine Or.inr (Or.inl ⟨BitVec.le_def.mpr (Nat.zero_le _), ?_⟩)
  rw [BitVec.le_def]
  have hlt := bitmap.isLt
  have hlast : (0 + (0x100000 - 1) : BitVec 32).toNat = 0xfffff := rfl
  rw [hlast]
  bv_omega

theorem bitmap_clear (h : Parsed mb) (hfound : bitmapPlace mb m ≠ 0) {q : PhysAddr}
    (hal : q.toNat % 4096 = 0) (hcheck : (tablesInUse mb m).checkRange q pageSize = true) :
    Clear q 4096 (bitmapPlace mb m) 512 := by
  have htables := tablesInUse_eq (m := m) h
  refine clear_of_checkRange ?_ ?_ hal (bitmapPlace_end h hfound) hcheck
  · rw [htables]
    exact h.elfFlag
  · rw [htables]
    exact List.mem_append_right _ (List.mem_singleton.mpr rfl)

theorem isSet_fill {bitmap : Address} {k : Nat} (hk : k < 4096) :
    (PhysMemBitmap.lowMemory bitmap).isSet (fill m bitmap 512 0) (BitVec.ofNat 32 k) = false := by
  have hzero : ∀ x, InRange (bitmap + BitVec.ofNat 32 k / 32 * 4) 4 x →
      fill m bitmap 512 0 x = (fun _ => 0 : Memory) x := fun x hx =>
    if_pos ((PhysMemBitmap.lowMemory bitmap).word_inRange (PhysMemBitmap.pageNumber_lt hk) rfl hx)
  have hread : ∀ a, read32 (fun _ => 0 : Memory) a = 0 := fun _ => rfl
  unfold PhysMemBitmap.isSet
  rw [testBit_eq]
  unfold PhysMemBitmap.lowMemory
  dsimp only
  rw [read32_congr hzero, hread]
  simp

theorem tablesInUse_limit : limit (tablesInUse mb m) = limit mb := by
  unfold tablesInUse Multiboot.reserveBitmap Multiboot.reserveLow
  split <;> split <;> rfl

theorem fresh_stocked (mb : Multiboot) (m : Memory) (bitmap : Address) :
    Stocked mb bitmap 0x100000 ⟨(PhysMemBitmap.init m bitmap 0 0x1000000 pageSize).2, ⟨0⟩,
      (PhysMemBitmap.init m bitmap 0 0x1000000 pageSize).1⟩ [] := by
  refine ⟨rfl, fun k hk => ?_, rfl, List.nodup_nil, fun p => ?_⟩
  · have hclear : ¬ PageFree ⟨(PhysMemBitmap.init m bitmap 0 0x1000000 pageSize).2, ⟨0⟩,
        (PhysMemBitmap.init m bitmap 0 0x1000000 pageSize).1⟩ k :=
      Bool.eq_false_iff.mp (isSet_fill hk)
    simp only [hclear, false_iff]
    omega
  · simp only [List.not_mem_nil, false_iff]
    omega

/-- The links of the stack have to stay out of the bitmap. -/
theorem init_stocked_of_clear {bmp : PhysMemBitmap} {al : PhysMemAllocator}
    (hlimit : limit mb < 2 ^ 32) (hfound : bitmapPlace mb m ≠ 0)
    (hclear : ∀ q : PhysAddr, q.toNat % 4096 = 0 → 0x1000000 ≤ q.toNat →
      (tablesInUse mb m).checkRange q pageSize = true → Clear q 4 (bitmapPlace mb m) 512)
    (hinit : init mb m bmp = some al) :
    ∃ chain lim, Stocked (tablesInUse mb m) (bitmapPlace mb m) lim al chain ∧
      ∀ n, n % 4096 = 0 → 0x100000 ≤ n → n < 2 ^ 32 →
        (n < lim ↔ n + 4096 ≤ limit mb ∨ 0xfffff000 ≤ limit mb ∧ n = 0xfffff000) := by
  have hfound' : (mb.reserveLow m).1.findRange 512 ≠ 0 := hfound
  unfold init at hinit
  dsimp only at hinit
  rw [if_pos hfound'] at hinit
  have hrun := (fresh_stocked _ _ _).freePages rfl (by decide) (Nat.le_refl _) (Or.inl rfl)
    (by rw [tablesInUse_limit]; exact hlimit) hclear hinit
  rwa [tablesInUse_limit] at hrun

theorem init_stocked {bmp : PhysMemBitmap} {al : PhysMemAllocator} (h : Parsed mb)
    (hfound : bitmapPlace mb m ≠ 0) (hinit : init mb m bmp = some al) :
    ∃ chain lim, Stocked (tablesInUse mb m) (bitmapPlace mb m) lim al chain ∧
      ∀ n, n % 4096 = 0 → 0x100000 ≤ n → n < 2 ^ 32 →
        (n < lim ↔ n + 4096 ≤ limit mb ∨ 0xfffff000 ≤ limit mb ∧ n = 0xfffff000) := by
  refine init_stocked_of_clear h.limit hfound (fun q hal _ hcheck => ?_) hinit
  exact (bitmap_clear h hfound hal hcheck).mono (by decide) (Nat.le_refl 512)

theorem apart_of_checkRange (h : Parsed mb) (hfound : bitmapPlace mb m ≠ 0) {p : PhysAddr}
    (hal : p.toNat % 4096 = 0) (hcheck : (tablesInUse mb m).checkRange p pageSize = true) :
    Disjoint (span p pageSize) (span (bitmapPlace mb m) 512) ∧
      (∀ s ∈ mb.elf, Disjoint (span p pageSize) (span s.shAddr s.shSize)) ∧
      ∀ e ∈ mb.mods, Disjoint (span p pageSize) e.bytes := by
  have hroom := bitmapPlace_end h hfound
  rw [tablesInUse_eq h] at hcheck
  generalize bitmapPlace mb m = bitmap at hroom hcheck ⊢
  have hps : pageSize.toNat = 4096 := rfl
  have hend : p.toNat + pageSize.toNat ≤ 2 ^ 32 := by
    have hlt := p.isLt
    omega
  refine ⟨?_, ?_, ?_⟩
  · exact Multiboot.disjoint_elf (by decide) hend hcheck h.elfFlag
      (List.mem_append_right _ (List.mem_singleton.mpr rfl)) hroom
  · intro s hs
    exact Multiboot.disjoint_elf (by decide) hend hcheck h.elfFlag
      (List.mem_append_left _ hs) (h.elfEnd s hs)
  · intro e he
    exact Multiboot.disjoint_mods (by decide) hend hcheck
      (h.modsFlag.resolve_right (List.ne_nil_of_mem he)) he

/-- The pool is exact unless memory reaches into the last page of the address space and that
page is let through: it does not end within memory, but its end is address 0. -/
theorem init_pool_exact_iff {bmp : PhysMemBitmap} {al : PhysMemAllocator} (h : Parsed mb)
    (hfound : bitmapPlace mb m ≠ 0) (hinit : init mb m bmp = some al) :
    ExactPool (tablesInUse mb m) mb (bitmapPlace mb m) al ↔
      limit mb < 0xfffff000 ∨ (tablesInUse mb m).checkRange 0xfffff000 pageSize = false := by
  obtain ⟨chain, lim, hst, hreach⟩ := init_stocked h hfound hinit
  have hlimit : limit (tablesInUse mb m) = limit mb := tablesInUse_limit
  have hbits : ∀ k < 4096, al.PageFree k ↔ Available (tablesInUse mb m) (pageAddr k) := by
    intro k hk
    have hpage := pageAddr_toNat (Nat.le_of_lt hk)
    rw [hst.bits k hk]
    constructor
    · rintro ⟨hlow, hlt, hcheck⟩
      have hend := (hreach _ (Nat.mul_mod_left k 4096) hlow (by omega)).mp hlt
      exact ⟨by omega, by omega, by omega, hcheck⟩
    · rintro ⟨-, hlow, hhigh, hcheck⟩
      rw [hpage] at hlow hhigh
      rw [hlimit] at hhigh
      exact ⟨hlow, (hreach _ (Nat.mul_mod_left k 4096) hlow (by omega)).mpr (Or.inl hhigh), hcheck⟩
  have hapart : ∀ p, al.IsFree p → Disjoint (span p pageSize) (span (bitmapPlace mb m) 512) ∧
      (∀ s ∈ mb.elf, Disjoint (span p pageSize) (span s.shAddr s.shSize)) ∧
      ∀ e ∈ mb.mods, Disjoint (span p pageSize) e.bytes := by
    rintro p (⟨k, hk, rfl, hfree⟩ | ⟨chain₂, hchain₂, hmem⟩)
    · have hav := (hbits k hk).mp hfree
      exact apart_of_checkRange h hfound hav.aligned hav.checked
    · obtain rfl := hst.links.unique hchain₂
      have hp := (hst.pages p).mp hmem
      exact apart_of_checkRange h hfound hp.1 hp.2.2.2
  have hlast : (0xfffff000 : BitVec 32).toNat = 0xfffff000 := rfl
  constructor
  · rintro ⟨-, ⟨chain₂, hchain₂, -, hpages⟩, -⟩
    obtain rfl := hst.links.unique hchain₂
    by_contra hnot
    obtain ⟨hge, hcheck⟩ := not_or.mp hnot
    have hmem : (0xfffff000 : BitVec 32) ∈ chain := by
      refine (hst.pages _).mpr ⟨by decide, by decide, ?_, by simpa using hcheck⟩
      exact (hreach _ (by decide) (by decide) (by decide)).mpr
        (Or.inr ⟨Nat.not_lt.mp hge, rfl⟩)
    have hhigh := ((hpages _).mp hmem).2.high
    have hlim := h.limit
    omega
  · intro hcond
    refine ⟨hbits, ⟨chain, hst.links, hst.nodup, fun p => ?_⟩, hapart⟩
    rw [hst.pages p]
    have hp := p.isLt
    constructor
    · rintro ⟨hal, hhigh, hlt, hcheck⟩
      refine ⟨hhigh, hal, by omega, ?_, hcheck⟩
      rw [hlimit]
      rcases (hreach _ hal (by omega) hp).mp hlt with hin | ⟨hge, heq⟩
      · exact hin
      · have hpl : p = 0xfffff000 := BitVec.eq_of_toNat_eq (heq.trans hlast.symm)
        rcases hcond with hlt | hfalse
        · omega
        · rw [hpl, hfalse] at hcheck
          exact absurd hcheck Bool.false_ne_true
    · rintro ⟨hhigh, hal, hlow, hin, hcheck⟩
      rw [hlimit] at hin
      exact ⟨hal, hhigh, (hreach _ hal hlow hp).mpr (Or.inl hin), hcheck⟩

/-- Memory from 1 MB on to the end of the address space, the kernel at 1 MB. -/
def topTables : Multiboot :=
  ⟨0x60, 0x3ffbfc, 0, 0, [⟨0x100000, 0, 0xfff00000, 0, 1⟩], [⟨0x100000, 0x100000⟩], []⟩

theorem topTables_parsed : Parsed topTables where
  elfFlag := by decide
  mmapFlag := by decide
  modsFlag := Or.inr rfl
  mmapRoom := by decide
  elfRoom := by decide
  limit := by decide
  elfEnd := by decide
  mmapEnd := by decide
  modsEnd := by decide

theorem topTables_place : bitmapPlace topTables (fun _ => 0) = 0x200000 := by decide

theorem topTables_found : bitmapPlace topTables (fun _ => 0) ≠ 0 := by
  rw [topTables_place]
  decide

theorem topTables_pool : ∃ al, init topTables (fun _ => 0) Clients.noBitmap = some al ∧
    (ExactPool (tablesInUse topTables fun _ => 0) topTables
        (bitmapPlace topTables fun _ => 0) al ↔
      limit topTables < 0xfffff000 ∨
        (tablesInUse topTables fun _ => 0).checkRange 0xfffff000 pageSize = false) := by
  obtain ⟨al, hinit⟩ := init_returns topTables (fun _ => 0) Clients.noBitmap
  exact ⟨al, hinit, init_pool_exact_iff topTables_parsed topTables_found hinit⟩

theorem topTables_last :
    (tablesInUse topTables fun _ => 0).checkRange 0xfffff000 pageSize = true := by
  rw [tablesInUse_eq topTables_parsed, topTables_place]
  decide

/-- The last page of the address space is on the stack although it does not end within memory. -/
theorem last_page_free : ¬ ∀ (mb : Multiboot) (m : Memory) (bmp : PhysMemBitmap)
    (al : PhysMemAllocator), Parsed mb → bitmapPlace mb m ≠ 0 → init mb m bmp = some al →
    ExactPool (tablesInUse mb m) mb (bitmapPlace mb m) al := by
  intro hall
  obtain ⟨al, hinit⟩ := init_returns topTables (fun _ => 0) Clients.noBitmap
  have hexact := hall _ _ _ al topTables_parsed topTables_found hinit
  obtain ⟨chain, hchain, -, hpages⟩ := hexact.stack
  obtain ⟨chain₂, lim, hst, hreach⟩ := init_stocked topTables_parsed topTables_found hinit
  obtain rfl := hst.links.unique hchain
  have hmem : (0xfffff000 : BitVec 32) ∈ chain₂ := by
    refine (hst.pages _).mpr ⟨by decide, by decide, ?_, topTables_last⟩
    exact (hreach _ (by decide) (by decide) (by decide)).mpr (Or.inr ⟨by decide, rfl⟩)
  have hhigh := ((hpages _).mp hmem).2.high
  exact absurd hhigh (by decide)

end

/-- The loop of `Init` with the tables read from memory anew for every page. -/
def freePagesIn (tables : Memory → Multiboot) :
    Nat → PhysAddr → PhysMemAllocator → Option PhysMemAllocator
  | 0, _, _ => none
  | k + 1, nextpage, al =>
    let page := (tables al.mem).getPage nextpage
    if page.2 = 0 then some al
    else freePagesIn tables k page.1
      (if (tables al.mem).checkRange page.2 pageSize then al.free page.2 else al)

section
variable {tables : Memory → Multiboot} {s : ElfShdr} {bitmap : Address} {al : PhysMemAllocator}
  {nextpage : PhysAddr}

/-- Of a page on the stack only the link is written. -/
theorem free_mem (hbmp : al.bmp = PhysMemBitmap.lowMemory bitmap) {p : PhysAddr}
    (hal : p.toNat % 4096 = 0) {x : Address} (hlink : ¬ InRange p 4 x)
    (hbitmap : ¬ InRange bitmap 512 x) : (al.free p).mem x = al.mem x := by
  unfold PhysMemAllocator.free
  by_cases hge : p ≥ 0x1000000
  · rw [if_pos hge]
    unfold PhysMemStack.pushPage
    by_cases hzero : p = 0
    · rw [if_pos hzero]
    · rw [if_neg hzero]
      exact write32_of_not_inRange hlink
  · have hlow : p.toNat < 0x1000000 := by
      rw [ge_iff_le, BitVec.le_def] at hge
      exact Nat.not_le.mp hge
    rw [if_neg hge]
    dsimp only
    rw [hbmp]
    exact PhysMemBitmap.free_lowMemory hal hlow hbitmap

/-- With the multiboot object in an ELF section, no round of the loop changes the tables: a page
that passes `CheckRange` misses the section. -/
theorem freePagesIn_eq (hobject : ∀ m m' : Memory,
      (∀ x, InRange s.shAddr s.shSize.toNat x → m' x = m x) → tables m' = tables m)
    (hflag : (tables al.mem).has Multiboot.elfAvail = true) (hs : s ∈ (tables al.mem).elf)
    (hend : s.shAddr.toNat + s.shSize.toNat ≤ 2 ^ 32) (hsize : 0 < s.shSize.toNat)
    (hbmp : al.bmp = PhysMemBitmap.lowMemory bitmap)
    (hbitmap : Clear s.shAddr s.shSize.toNat bitmap 512) (hal : nextpage.toNat % 4096 = 0)
    (k : Nat) : freePagesIn tables k nextpage al = freePages (tables al.mem) k nextpage al := by
  induction k generalizing nextpage al with
  | zero => rfl
  | succ k ih =>
    rw [freePages_succ]
    unfold freePagesIn
    by_cases hlast : (tables al.mem).PagesEnd nextpage
    · rw [if_pos hlast]
      exact if_pos (Multiboot.getPage_of_end hlast)
    rw [if_neg hlast, Multiboot.getPage_of_not_end hlast]
    dsimp only
    rw [if_neg fun hzero => hlast (Or.inr hzero)]
    have hnext := nextPage_aligned hal
    cases hcheck : (tables al.mem).checkRange nextpage pageSize with
    | false =>
      rw [if_neg Bool.false_ne_true]
      exact ih hflag hs hbmp hnext
    | true =>
      rw [if_pos rfl]
      have hclear : Clear nextpage 4096 s.shAddr s.shSize.toNat := by
        have hps : pageSize.toNat = 4096 := rfl
        have hlt := nextpage.isLt
        have hequal : ¬ (Multiboot.overlap nextpage pageSize s.shAddr s.shSize &&&
            Multiboot.overlapEqual ≠ 0) := fun h =>
          Multiboot.checkRange_iff.mp hcheck (Multiboot.Refused.elfSection hflag hs h)
        have hclear := Multiboot.clear_of_overlap (by decide) hsize (by omega) hend
          (not_not.mp hequal)
        exact hclear
      have hsame : tables (al.free nextpage).mem = tables al.mem := hobject _ _ fun x hx =>
        free_mem hbmp hal (fun hin => hclear x (Nat.lt_of_lt_of_le hin (by decide)) hx)
          (hbitmap x hx)
      have hbmp' : (al.free nextpage).bmp = PhysMemBitmap.lowMemory bitmap :=
        (free_bmp al nextpage).trans hbmp
      rw [← hsame]
      exact ih (by rw [hsame]; exact hflag) (by rw [hsame]; exact hs) hbmp' hnext

theorem reserveLow_mem {mb : Multiboot} {m : Memory} (h : Parsed mb) :
    (mb.reserveLow m).2 = m := by
  unfold Multiboot.reserveLow
  rw [if_pos h.mmapFlag]

theorem reserveBitmap_mem {mb : Multiboot} {m : Memory} (h : Parsed mb) :
    ((mb.reserveLow m).1.reserveBitmap m (bitmapPlace mb m)).2 = m := by
  have hflag : (mb.reserveLow m).1.has Multiboot.elfAvail = true := by
    have heq : (mb.reserveLow m).1 = _ := bitmapTables_eq (m := m) h
    rw [heq]
    exact h.elfFlag
  unfold Multiboot.reserveBitmap
  rw [if_pos hflag]

/-- `Init` does the same with its tables in memory, in an ELF section, as with them apart. -/
theorem init_eq_in_memory {mb : Multiboot} {m : Memory} {bmp : PhysMemBitmap} (h : Parsed mb)
    (hfound : bitmapPlace mb m ≠ 0) (hs : s ∈ mb.elf) (hsize : 0 < s.shSize.toNat)
    (hobject : ∀ m m' : Memory,
      (∀ x, InRange s.shAddr s.shSize.toNat x → m' x = m x) → tables m' = tables m)
    (htables : tables (fill m (bitmapPlace mb m) 512 0) = tablesInUse mb m) :
    init mb m bmp = freePagesIn tables (2 ^ 20 + 1) 0x100000
      ⟨fill m (bitmapPlace mb m) 512 0, ⟨0⟩, PhysMemBitmap.lowMemory (bitmapPlace mb m)⟩ := by
  have hfound' : (mb.reserveLow m).1.findRange 512 ≠ 0 := hfound
  have hroom := bitmapPlace_end h hfound
  have hbitmap : Clear s.shAddr s.shSize.toNat (bitmapPlace mb m) 512 := by
    have hcheck := Multiboot.findRange_checked hfound
    have hequal : ¬ (Multiboot.overlap (bitmapPlace mb m) 512 s.shAddr s.shSize &&&
        Multiboot.overlapEqual ≠ 0) := by
      intro hne
      refine Multiboot.checkRange_iff.mp hcheck (Multiboot.Refused.elfSection ?_ ?_ hne)
      · rw [bitmapTables_eq h]
        exact h.elfFlag
      · rw [bitmapTables_eq h]
        exact hs
    exact (Multiboot.clear_of_overlap (by decide) hsize hroom (h.elfEnd s hs)
      (not_not.mp hequal)).symm
  have hin : s ∈ (tablesInUse mb m).elf := by
    rw [tablesInUse_eq h]
    exact List.mem_append_left _ hs
  have hflag : (tablesInUse mb m).has Multiboot.elfAvail = true := by
    rw [tablesInUse_eq h]
    exact h.elfFlag
  rw [freePagesIn_eq hobject (by rw [htables]; exact hflag) (by rw [htables]; exact hin)
    (h.elfEnd s hs) hsize rfl hbitmap (by decide), htables]
  have hplace : (mb.reserveLow m).1.findRange 512 = bitmapPlace mb m := rfl
  have hfill : PhysMemBitmap.init m (bitmapPlace mb m) 0 0x1000000 pageSize =
      (PhysMemBitmap.lowMemory (bitmapPlace mb m), fill m (bitmapPlace mb m) 512 0) := rfl
  unfold init tablesInUse
  dsimp only
  rw [if_pos hfound', reserveLow_mem h, hplace, reserveBitmap_mem h, hfill]

end

end PhysMemAllocator
end Tysos
