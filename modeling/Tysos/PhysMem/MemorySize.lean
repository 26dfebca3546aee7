import Tysos.PhysMem.FreePool

/-!
# The size of memory

`CheckRange` and `GetPage` each find the end of memory from `mem_upper`, which is in kiB. The one
adds it to 1 MB as it is, the other times 1024.
-/

namespace Tysos
open ByteMemory
set_option autoImplicit false

namespace Multiboot

/-- The range meets an ELF section or a module. -/
def Meets (mb : Multiboot) (base length : BitVec 32) : Prop :=
  (mb.has elfAvail = true ∧
    ∃ s ∈ mb.elf, overlap base length s.shAddr s.shSize &&& overlapEqual ≠ 0) ∨
  (mb.has modsAvail = true ∧ ∃ e ∈ mb.mods,
    overlap base length e.modStart (e.modEnd - e.modStart) &&& overlapEqual ≠ 0)

instance (mb : Multiboot) (base length : BitVec 32) : Decidable (mb.Meets base length) :=
  inferInstanceAs (Decidable (_ ∨ _))

/-- `CheckRange` holds of what is within memory and meets no ELF section or module. -/
def SizeAgrees (mb : Multiboot) (base length : BitVec 32) : Prop :=
  mb.checkRange base length = true ↔
    base.toNat + length.toNat ≤ PhysMemAllocator.limit mb ∧ ¬ mb.Meets base length

section
variable {mb : Multiboot} {base length : BitVec 32}

/-- For tables that do not wrap around the end of memory it is the bytes that meet. -/
theorem not_meets_iff (hpos : 0 < length.toNat) (hend : base.toNat + length.toNat ≤ 2 ^ 32)
    (helf : ∀ s ∈ mb.elf, s.shAddr.toNat + s.shSize.toNat ≤ 2 ^ 32)
    (hmods : ∀ e ∈ mb.mods, e.modStart ≤ e.modEnd) : ¬ mb.Meets base length ↔
      (mb.has elfAvail = true → ∀ s ∈ mb.elf,
        Disjoint (span base length) (span s.shAddr s.shSize)) ∧
      (mb.has modsAvail = true → ∀ e ∈ mb.mods, Disjoint (span base length) e.bytes) := by
  unfold Meets
  rw [not_or, not_and, not_and]
  refine and_congr (imp_congr_right fun _ => ?_) (imp_congr_right fun _ => ?_)
  · rw [not_exists]
    refine forall_congr' fun s => ?_
    rw [not_and, not_ne_iff]
    exact imp_congr_right fun hs => equal_iff_not_disjoint hpos hend (helf s hs)
  · rw [not_exists]
    refine forall_congr' fun e => ?_
    rw [not_and, not_ne_iff]
    exact imp_congr_right fun he => module_equal_iff hpos hend e (hmods e he)

variable (hmem : mb.has memAvail = true) (hmap : mb.has mmapAvail = false)
include hmem hmap

theorem checkRange_iff_end : mb.checkRange base length = true ↔
    ¬ base + length > mb.memUpper + 0x100000 ∧ ¬ mb.Meets base length := by
  rw [checkRange_iff, ← not_or, not_iff_not]
  constructor
  · intro href
    cases href with
    | notOffered hflag _ => exact absurd (hmap.symm.trans hflag) Bool.false_ne_true
    | reserved hflag _ _ => exact absurd (hmap.symm.trans hflag) Bool.false_ne_true
    | aboveLimit _ _ habove => exact Or.inl habove
    | elfSection hflag hs hequal => exact Or.inr (Or.inl ⟨hflag, _, hs, hequal⟩)
    | module hflag he hequal => exact Or.inr (Or.inr ⟨hflag, _, he, hequal⟩)
  · rintro (habove | ⟨hflag, s, hs, hequal⟩ | ⟨hflag, e, he, hequal⟩)
    · exact Refused.aboveLimit hmap hmem habove
    · exact Refused.elfSection hflag hs hequal
    · exact Refused.module hflag he hequal

variable (hlimit : PhysMemAllocator.limit mb < 2 ^ 32)
include hlimit

/-- A range that ends at the end of the address space ends at address 0 in the code. -/
theorem checkRange_iff_size (hpos : 0 < length.toNat)
    (hend : base.toNat + length.toNat ≤ 2 ^ 32) : mb.checkRange base length = true ↔
      (base.toNat + length.toNat ≤ mb.memUpper.toNat + 0x100000 ∨
        base.toNat + length.toNat = 2 ^ 32) ∧ ¬ mb.Meets base length := by
  have hmega : (0x100000 : BitVec 32).toNat = 0x100000 := rfl
  unfold PhysMemAllocator.limit at hlimit
  rw [checkRange_iff_end hmem hmap, gt_iff_lt, BitVec.lt_def, BitVec.toNat_add, BitVec.toNat_add,
    hmega]
  refine and_congr ?_ Iff.rfl
  omega

/-- The two sizes agree on a range that meets a section or module, that is within `mem_upper`
bytes from 1 MB, or that goes past the end of memory but not up to that of the address space. -/
theorem sizeAgrees_iff (hpos : 0 < length.toNat)
    (hend : base.toNat + length.toNat ≤ 2 ^ 32) : mb.SizeAgrees base length ↔
      mb.Meets base length ∨ base.toNat + length.toNat ≤ mb.memUpper.toNat + 0x100000 ∨
        PhysMemAllocator.limit mb < base.toNat + length.toNat ∧
          base.toNat + length.toNat < 2 ^ 32 := by
  unfold SizeAgrees
  rw [checkRange_iff_size hmem hmap hlimit hpos hend]
  by_cases hmeets : mb.Meets base length
  · simp only [hmeets, not_true, and_false, true_or]
  · simp only [hmeets, not_false_iff, and_true, false_or]
    unfold PhysMemAllocator.limit at hlimit ⊢
    omega

end

end Multiboot

namespace PhysMemAllocator

/-- The pages that `GetPage` delivers from `nextpage` on. -/
def delivered (mb : Multiboot) : Nat → PhysAddr → List PhysAddr
  | 0, _ => []
  | k + 1, nextpage =>
    let page := mb.getPage nextpage
    if page.2 = 0 then [] else page.2 :: delivered mb k page.1

/-- The page is one of those that `GetPage` delivers to `Init`. -/
def Delivered (mb : Multiboot) (p : PhysAddr) : Prop := p ∈ delivered mb (2 ^ 20 + 1) 0x100000

instance (mb : Multiboot) (p : PhysAddr) : Decidable (Delivered mb p) :=
  inferInstanceAs (Decidable (_ ∈ _))

/-- The page has its bit in the bitmap, if it has one at all, or is on the stack. -/
def InPool (al : PhysMemAllocator) (p : PhysAddr) : Prop :=
  (al.bmp.base ≤ p ∧ p < al.bmp.end_ ∧ al.bmp.isSet al.mem (al.bmp.bitno p) = true) ∨
    ∃ chain, Chain al.mem al.stack.top chain ∧ p ∈ chain

/-- The tables by which `Init` frees the pages. -/
def freeTables (mb : Multiboot) (m : Memory) : Multiboot :=
  if bitmapPlace mb m ≠ 0 then tablesInUse mb m else bitmapTables mb m

section
variable {mb : Multiboot} {m : Memory} {al al' : PhysMemAllocator} {p q : PhysAddr} {k : Nat}

theorem bitmapTables_header (mb : Multiboot) (m : Memory) : (bitmapTables mb m).flags =
    mb.flags ∧ (bitmapTables mb m).memUpper = mb.memUpper := by
  unfold bitmapTables Multiboot.reserveLow
  split <;> exact ⟨rfl, rfl⟩

theorem freeTables_header (mb : Multiboot) (m : Memory) : (freeTables mb m).flags = mb.flags ∧
    (freeTables mb m).memUpper = mb.memUpper := by
  unfold freeTables
  split
  · unfold tablesInUse Multiboot.reserveBitmap Multiboot.reserveLow
    split <;> split <;> exact ⟨rfl, rfl⟩
  · exact bitmapTables_header mb m

theorem delivered_succ : delivered mb (k + 1) p =
    if mb.PagesEnd p then [] else p :: delivered mb k (p + pageSize) := by
  have hround : delivered mb (k + 1) p = if (mb.getPage p).2 = 0 then []
      else (mb.getPage p).2 :: delivered mb k (mb.getPage p).1 := rfl
  rw [hround]
  by_cases hend : mb.PagesEnd p
  · rw [if_pos hend, if_pos (Multiboot.getPage_of_end hend)]
  · have hne : p ≠ 0 := fun hzero => hend (Or.inr hzero)
    rw [if_neg hend, Multiboot.getPage_of_not_end hend, if_neg hne]

theorem delivered_zero : delivered mb k 0 = [] := by
  cases k with
  | zero => rfl
  | succ k => rw [delivered_succ, if_pos mb.pagesEnd_zero]

/-- What is delivered is within memory, or is the last page of the address space. -/
theorem delivered_within (hlimit : limit mb < 2 ^ 32) (hal : p.toNat % 4096 = 0)
    (hlow : 0x100000 ≤ p.toNat) (hbelow : p.toNat = 0x100000 ∨ p.toNat ≤ limit mb)
    (hq : q ∈ delivered mb k p) : q.toNat % 4096 = 0 ∧ p.toNat ≤ q.toNat ∧
    (q.toNat + 4096 ≤ limit mb ∨ 0xfffff000 ≤ limit mb ∧ q.toNat = 0xfffff000) := by
  induction k generalizing p with
  | zero => exact absurd hq List.not_mem_nil
  | succ k ih =>
    have hsum := nextPage_toNat p
    have hplt := p.isLt
    rw [delivered_succ] at hq
    by_cases hlast : mb.PagesEnd p
    · rw [if_pos hlast] at hq
      exact absurd hq List.not_mem_nil
    have hunder := Nat.not_lt.mp (mt (pagesEnd_iff hlimit hlow).mpr hlast)
    rw [if_neg hlast, List.mem_cons] at hq
    rcases hq with rfl | hq
    · exact ⟨hal, Nat.le_refl _, by omega⟩
    · by_cases hwrap : p.toNat + 4096 = 2 ^ 32
      · have hzero : p + pageSize = 0 := BitVec.eq_of_toNat_eq (by rw [hsum, hwrap]; rfl)
        rw [hzero, delivered_zero] at hq
        exact absurd hq List.not_mem_nil
      · obtain ⟨hqal, hle, hwithin⟩ := ih (nextPage_aligned hal) (by omega) (by omega) hq
        exact ⟨hqal, by omega, hwithin⟩

/-- What is in the pool once the pages below `lim` have been dealt with. -/
theorem Stocked.inPool_iff {bitmap : Address} {lim : Nat} {chain : List PhysAddr}
    (h : Stocked mb bitmap lim al chain) (hal : p.toNat % 4096 = 0) (hlow : 0x100000 ≤ p.toNat) :
    al.InPool p ↔ p.toNat < lim ∧ mb.checkRange p pageSize = true := by
  have hstack : (∃ chain₂, Chain al.mem al.stack.top chain₂ ∧ p ∈ chain₂) ↔ p ∈ chain :=
    ⟨fun ⟨_, hchain₂, hp⟩ => h.links.unique hchain₂ ▸ hp, fun hp => ⟨chain, h.links, hp⟩⟩
  unfold InPool
  rw [hstack, h.pages]
  have hbmp := h.bmp
  by_cases hhigh : p.toNat < 0x1000000
  · have hnum : p.toNat / 4096 < 4096 := by omega
    have hpage := pageAddr_div hal hhigh
    have hbase : (PhysMemBitmap.lowMemory bitmap).base ≤ p := Nat.zero_le _
    have hend : p < (PhysMemBitmap.lowMemory bitmap).end_ := hhigh
    have hno : (PhysMemBitmap.lowMemory bitmap).bitno p = BitVec.ofNat 32 (p.toNat / 4096) := by
      have hbitno := PhysMemBitmap.bitno_page bitmap hnum
      unfold pageAddr at hpage
      rwa [hpage] at hbitno
    have hbit := h.bits _ hnum
    unfold PageFree at hbit
    rw [hbmp] at hbit
    have hback : p.toNat / 4096 * 4096 = p.toNat := by omega
    have hnot : ¬ 0x1000000 ≤ p.toNat := Nat.not_le.mpr hhigh
    rw [hbmp, hno, hbit, hpage, hback]
    simp only [hbase, hend, hlow, hnot, true_and, false_and, and_false, or_false]
  · have hend : ¬ p < (PhysMemBitmap.lowMemory bitmap).end_ := hhigh
    rw [hbmp]
    simp only [hend, false_and, and_false, false_or, hal, Nat.not_lt.mp hhigh, true_and]

theorem free_noBitmap (hbmp : al.bmp = Clients.noBitmap) (hlow : p.toNat < 0x1000000) :
    al.free p = al := by
  have hge : ¬ p ≥ 0x1000000 := by
    rw [ge_iff_le, BitVec.le_def]
    exact Nat.not_le.mpr hlow
  have hbase : ¬ p < Clients.noBitmap.base := Nat.not_lt_zero _
  have hend : p ≥ Clients.noBitmap.end_ := Nat.zero_le _
  unfold PhysMemAllocator.free PhysMemBitmap.free
  rw [if_neg hge, hbmp, if_neg hbase, if_pos hend, ← hbmp]

theorem inPool_noBitmap (hbmp : al.bmp = Clients.noBitmap) :
    al.InPool p ↔ ∃ chain, Chain al.mem al.stack.top chain ∧ p ∈ chain := by
  have hend : ¬ p < Clients.noBitmap.end_ := Nat.not_lt_zero _
  unfold InPool
  rw [hbmp]
  simp only [hend, false_and, and_false, false_or]

theorem not_inPool_noBitmap (hbmp : al.bmp = Clients.noBitmap) (htop : al.stack.top = 0) :
    ¬ al.InPool p := by
  intro hp
  obtain ⟨chain, hchain, hmem⟩ := (inPool_noBitmap hbmp).mp hp
  rw [htop] at hchain
  have hnil : chain = [] := hchain.unique rfl
  rw [hnil] at hmem
  exact absurd hmem List.not_mem_nil

theorem inPool_free_noBitmap (hbmp : al.bmp = Clients.noBitmap) (htop : al.stack.top = 0)
    (hhigh : 0x1000000 ≤ p.toNat) : (al.free p).InPool q ↔ q = p := by
  have hne : p ≠ 0 := by
    rintro rfl
    exact absurd hhigh (by decide)
  have hpush : al.free p = { al with stack := ⟨p⟩, mem := write32 al.mem p 0 } := by
    have hge : p ≥ 0x1000000 := hhigh
    unfold PhysMemAllocator.free PhysMemStack.pushPage
    rw [if_pos hge, if_neg hne, htop]
  have hchain : Chain (write32 al.mem p 0) p [p] := ⟨rfl, hne, read32_write32_self _ _ _⟩
  rw [hpush]
  refine Iff.trans (inPool_noBitmap ?_) ?_
  · exact hbmp
  · constructor
    · intro h
      obtain ⟨chain, hchain₂, hmem⟩ := h
      rw [hchain₂.unique hchain] at hmem
      exact List.mem_singleton.mp hmem
    · intro heq
      exact ⟨[p], hchain, List.mem_singleton.mpr heq⟩

/-- Without a bitmap the pool is what has been pushed, here at most the last page. -/
theorem freePages_noBitmap (hbmp : al.bmp = Clients.noBitmap)
    (htop : al.stack.top = 0) (hal : p.toNat % 4096 = 0) (hlow : 0x100000 ≤ p.toNat)
    (hhigh : ∀ q : PhysAddr, q.toNat % 4096 = 0 → 0x1000000 ≤ q.toNat →
      mb.checkRange q pageSize = true → q = 0xfffff000)
    (hf : freePages mb k p al = some al') : al'.InPool q ↔
      q = 0xfffff000 ∧ q ∈ delivered mb k p ∧ mb.checkRange q pageSize = true := by
  have hempty : ¬ al.InPool q := not_inPool_noBitmap hbmp htop
  induction k generalizing p al with
  | zero => exact absurd hf.symm (Option.some_ne_none al')
  | succ k ih =>
    have hsum := nextPage_toNat p
    have hplt := p.isLt
    rw [freePages_succ] at hf
    rw [delivered_succ]
    by_cases hend : mb.PagesEnd p
    · rw [if_pos hend] at hf ⊢
      obtain rfl := Option.some.inj hf
      simp only [hempty, List.not_mem_nil, false_and, and_false]
    rw [if_neg hend] at hf ⊢
    by_cases hlast : p = 0xfffff000
    · -- the page after it is page 0, which ends the loop
      have hzero : p + pageSize = 0 := by
        rw [hlast]
        decide
      rw [hzero] at hf ⊢
      rw [freePages_zero hf, delivered_zero, List.mem_singleton, ← hlast]
      cases hcheck : mb.checkRange p pageSize with
      | false =>
        rw [if_neg Bool.false_ne_true]
        refine iff_of_false hempty ?_
        rintro ⟨rfl, -, htrue⟩
        exact Bool.false_ne_true (hcheck.symm.trans htrue)
      | true =>
        have hpage : 0x1000000 ≤ p.toNat := by
          rw [hlast]
          decide
        rw [if_pos rfl, inPool_free_noBitmap hbmp htop hpage]
        constructor
        · rintro rfl
          exact ⟨rfl, rfl, hcheck⟩
        · exact fun h => h.1
    · have hsame : (if mb.checkRange p pageSize then al.free p else al) = al := by
        split
        · rename_i hcheck
          refine free_noBitmap hbmp ?_
          by_contra hnot
          exact hlast (hhigh p hal (Nat.not_lt.mp hnot) hcheck)
        · rfl
      have hwrap : p.toNat ≠ 0xfffff000 := fun heq => hlast (BitVec.eq_of_toNat_eq heq)
      rw [hsame] at hf
      have hlow' : 0x100000 ≤ (p + pageSize).toNat := by omega
      refine (ih hbmp htop (nextPage_aligned hal) hlow' hf hempty).trans ?_
      rw [List.mem_cons]
      constructor
      · rintro ⟨heq, hmem, hcheck⟩
        exact ⟨heq, Or.inr hmem, hcheck⟩
      · rintro ⟨rfl, hmem, hcheck⟩
        exact ⟨rfl, hmem.resolve_left (Ne.symm hlast), hcheck⟩

theorem delivered_congr {T : Multiboot} (hsame : T.memUpper = mb.memUpper) :
    delivered T k p = delivered mb k p := by
  induction k generalizing p with
  | zero => rfl
  | succ k ih =>
    have hpage : T.getPage p = mb.getPage p := by
      unfold Multiboot.getPage
      rw [hsame]
    unfold delivered
    dsimp only
    rw [hpage, ih]

section
variable (hmem : mb.has Multiboot.memAvail = true) (hmap : mb.has Multiboot.mmapAvail = false)
  (hlimit : limit mb < 2 ^ 32)
include hmem hmap hlimit

/-- From 16 MB on `CheckRange` lets nothing through but the last page of the address space. -/
theorem eq_last_of_checkRange (hal : q.toNat % 4096 = 0) (hhigh : 0x1000000 ≤ q.toNat)
    (hcheck : mb.checkRange q pageSize = true) : q = 0xfffff000 := by
  have hps : pageSize.toNat = 4096 := rfl
  have hlt := q.isLt
  have hsize := ((Multiboot.checkRange_iff_size hmem hmap hlimit (by decide) (by omega)).mp
    hcheck).1
  unfold limit at hlimit
  apply BitVec.eq_of_toNat_eq
  show q.toNat = 0xfffff000
  omega

theorem freeTables_size : (freeTables mb m).has Multiboot.memAvail = true ∧
    (freeTables mb m).has Multiboot.mmapAvail = false ∧ limit (freeTables mb m) < 2 ^ 32 := by
  obtain ⟨hflags, hupper⟩ := freeTables_header mb m
  unfold Multiboot.has limit at *
  rw [hflags, hupper]
  exact ⟨hmem, hmap, hlimit⟩

/-- The bitmap is not at the start of the last page: it ends within the first megabytes. -/
theorem bitmap_clear_of_size (hfound : bitmapPlace mb m ≠ 0) :
    Clear 0xfffff000 4 (bitmapPlace mb m) 512 := by
  have hcheck : (bitmapTables mb m).checkRange (bitmapPlace mb m) 512 = true :=
    Multiboot.findRange_checked hfound
  obtain ⟨hflags, hupper⟩ := bitmapTables_header mb m
  have hsize := ((Multiboot.checkRange_iff_end (by unfold Multiboot.has; rw [hflags]; exact hmem)
    (by unfold Multiboot.has; rw [hflags]; exact hmap)).mp hcheck).1
  rw [hupper] at hsize
  generalize bitmapPlace mb m = bitmap at hsize
  unfold limit at hlimit
  intro x hx hbitmap
  unfold InRange at hx hbitmap
  bv_omega

/-- `Init` frees the pages delivered that `CheckRange` lets through, those below 16 MB into the
bitmap, if there is one. -/
theorem init_inPool_iff (hinit : init mb m Clients.noBitmap = some al) (hq : Delivered mb q) :
    al.InPool q ↔ (bitmapPlace mb m ≠ 0 ∨ q = 0xfffff000) ∧
      (freeTables mb m).checkRange q pageSize = true := by
  obtain ⟨hmem', hmap', hlimit'⟩ := freeTables_size (m := m) hmem hmap hlimit
  have hlast := fun q => eq_last_of_checkRange (q := q) hmem' hmap' hlimit'
  have hstart : (0x100000 : PhysAddr).toNat = 0x100000 := rfl
  obtain ⟨hal, hlow, hwithin⟩ := delivered_within hlimit (by decide) (Nat.le_refl _)
    (Or.inl rfl) hq
  rw [hstart] at hlow
  by_cases hfound : bitmapPlace mb m ≠ 0
  · have htables : freeTables mb m = tablesInUse mb m := if_pos hfound
    rw [htables] at hlast ⊢
    obtain ⟨chain, lim, hst, hreach⟩ := init_stocked_of_clear hlimit hfound
      (fun q hqal hqhigh hcheck => hlast q hqal hqhigh hcheck ▸
        bitmap_clear_of_size hmem hmap hlimit hfound) hinit
    have hlim := (hreach q.toNat hal hlow q.isLt).mpr hwithin
    rw [hst.inPool_iff hal hlow]
    simp only [hlim, hfound, true_and, ne_eq, not_false_iff, true_or]
  · have htables : freeTables mb m = bitmapTables mb m := if_neg hfound
    rw [htables] at hlast ⊢
    have hplace : ¬ (mb.reserveLow m).1.findRange 512 ≠ 0 := hfound
    have hpages : delivered (bitmapTables mb m) (2 ^ 20 + 1) 0x100000 =
        delivered mb (2 ^ 20 + 1) 0x100000 := delivered_congr (bitmapTables_header mb m).2
    unfold init at hinit
    dsimp only at hinit
    rw [if_neg hplace] at hinit
    have hpool : al.InPool q ↔ q = 0xfffff000 ∧
        q ∈ delivered (bitmapTables mb m) (2 ^ 20 + 1) 0x100000 ∧ _ :=
      freePages_noBitmap rfl rfl (by decide) (Nat.le_refl _) hlast hinit
    rw [hpages] at hpool
    refine hpool.trans ?_
    unfold Delivered at hq
    simp only [hq, hfound, false_or, true_and]

end

end

/-- Without a memory map, `CheckRange` takes the size of memory for bytes: it agrees with the page
provider up to `mem_upper` bytes from 1 MB on and past the end of memory, and a page that meets
nothing is in the pool if it ends there, or with the address space. -/
theorem memorySize_iff (mb : Multiboot) (hmem : mb.has Multiboot.memAvail = true)
    (hmap : mb.has Multiboot.mmapAvail = false) (hlimit : limit mb < 2 ^ 32) :
    (∀ base length : BitVec 32, 0 < length.toNat → base.toNat + length.toNat ≤ 2 ^ 32 →
      (mb.SizeAgrees base length ↔ mb.Meets base length ∨
        base.toNat + length.toNat ≤ mb.memUpper.toNat + 0x100000 ∨
        limit mb < base.toNat + length.toNat ∧ base.toNat + length.toNat < 2 ^ 32)) ∧
    ∀ (m : Memory) (al : PhysMemAllocator) (p : PhysAddr),
      init mb m Clients.noBitmap = some al → Delivered mb p →
      ¬ (freeTables mb m).Meets p pageSize →
      (al.InPool p ↔ bitmapPlace mb m ≠ 0 ∧ p.toNat + 4096 ≤ mb.memUpper.toNat + 0x100000 ∨
        p = 0xfffff000) := by
  refine ⟨fun base length hpos hend => Multiboot.sizeAgrees_iff hmem hmap hlimit hpos hend,
    fun m al p hinit hp hmeets => ?_⟩
  obtain ⟨hmem', hmap', hlimit'⟩ := freeTables_size (m := m) hmem hmap hlimit
  have hps : pageSize.toNat = 4096 := rfl
  obtain ⟨hal, -, -⟩ := delivered_within hlimit (by decide) (Nat.le_refl _) (Or.inl rfl) hp
  have hlt := p.isLt
  have hlast : p = 0xfffff000 ↔ p.toNat = 0xfffff000 :=
    ⟨fun heq => heq ▸ rfl, fun heq => BitVec.eq_of_toNat_eq heq⟩
  rw [init_inPool_iff hmem hmap hlimit hinit hp,
    Multiboot.checkRange_iff_size hmem' hmap' hlimit' (by decide) (by omega),
    (freeTables_header mb m).2, hps, hlast]
  simp only [hmeets, not_false_iff, and_true]
  unfold limit at hlimit
  by_cases hfound : bitmapPlace mb m = 0
  · simp only [hfound, ne_eq, not_true, false_or, false_and]
    omega
  · simp only [hfound, ne_eq, not_false_iff, true_or, true_and]
    omega

/-- A loader that gives 32 MB and no memory map; the one section is in low memory, and the bitmap
after it. -/
def lowKernel : Multiboot := ⟨0x21, 0x8000, 0, 0, [], [⟨0x80000, 0x1000⟩], []⟩

theorem lowKernel_first_page :
    (lowKernel.SizeAgrees 0x100000 0x1000 ↔ lowKernel.Meets 0x100000 0x1000 ∨
      0x101000 ≤ 0x8000 + 0x100000 ∨ limit lowKernel < 0x101000 ∧ 0x101000 < 2 ^ 32) ∧
    ∃ al, init lowKernel (fun _ => 0) Clients.noBitmap = some al ∧
      (al.InPool 0x100000 ↔ bitmapPlace lowKernel (fun _ => 0) ≠ 0 ∧
        0x101000 ≤ 0x8000 + 0x100000 ∨ (0x100000 : PhysAddr) = 0xfffff000) := by
  obtain ⟨al, hinit⟩ := init_returns lowKernel (fun _ => 0) Clients.noBitmap
  have hsize := memorySize_iff lowKernel (by decide) (by decide) (by decide)
  exact ⟨hsize.1 0x100000 0x1000 (by decide) (by decide), al, hinit,
    hsize.2 (fun _ => 0) al 0x100000 hinit (by decide) (by decide)⟩

/-- The ninth page is within memory and meets nothing, and `CheckRange` turns it down. -/
theorem lowKernel_ninth_page : ¬ lowKernel.SizeAgrees 0x108000 0x1000 ∧
    Delivered lowKernel 0x108000 ∧ ¬ (freeTables lowKernel fun _ => 0).Meets 0x108000 pageSize ∧
    ∃ al, init lowKernel (fun _ => 0) Clients.noBitmap = some al ∧ ¬ al.InPool 0x108000 := by
  obtain ⟨al, hinit⟩ := init_returns lowKernel (fun _ => 0) Clients.noBitmap
  have hdelivered : Delivered lowKernel 0x108000 := by decide
  refine ⟨?_, hdelivered, by decide, al, hinit, ?_⟩
  · unfold Multiboot.SizeAgrees
    decide
  · rw [init_inPool_iff (by decide) (by decide) (by decide) hinit hdelivered]
    decide

end PhysMemAllocator
end Tysos
