import Tysos.PhysMem.Init

/-!
# The pool of free pages

What `Init` sets up and every call keeps: the stack is a list of distinct pages at or above
16 MB, clear of the bitmap, each linked through its own first word.
-/

namespace Tysos
open ByteMemory
set_option autoImplicit false

/-- A page that may be on the stack while the bitmap is at `bmp`. -/
structure StackPage (bmp : Address) (p : PhysAddr) : Prop where
  aligned : p.toNat % 4096 = 0
  high : 0x1000000 ≤ p.toNat
  clear : Clear p 4096 bmp 512

theorem StackPage.ne_zero {bmp : Address} {p : PhysAddr} (h : StackPage bmp p) : p ≠ 0 := by
  rintro rfl
  exact absurd h.high (by decide)

namespace PhysMemAllocator

/-- `chain` lists the pages of the stack from the top. -/
structure Pool (al : PhysMemAllocator) (chain : List PhysAddr) : Prop where
  base : al.bmp.base = 0
  end_ : al.bmp.end_ = 0x1000000
  ps : al.bmp.ps = 0x1000
  size : al.bmp.bmpSize = 512
  room : al.bmp.bmp.toNat + 512 < 2 ^ 32
  links : Chain al.mem al.stack.top chain
  nodup : chain.Nodup
  pages : ∀ p ∈ chain, StackPage al.bmp.bmp p

theorem clear_pages {p q : PhysAddr} (hp : p.toNat % 4096 = 0) (hq : q.toNat % 4096 = 0)
    (hne : p ≠ q) : Clear p 4096 q 4096 := by
  have hne' : p.toNat ≠ q.toNat := fun h => hne (BitVec.eq_of_toNat_eq h)
  have hp' := p.isLt
  have hq' := q.isLt
  rcases Nat.lt_or_ge p.toNat q.toNat with hlt | hge
  · exact clear_of_le (by omega) (by omega)
  · exact (clear_of_le (by omega) (by omega)).symm

section
variable {al : PhysMemAllocator} {chain : List PhysAddr}

/-- The memory may change wherever no link word is. -/
theorem Pool.with_mem (h : al.Pool chain) {m : Memory}
    (hsame : ∀ p ∈ chain, read32 m p = read32 al.mem p) : ({ al with mem := m }).Pool chain :=
  ⟨h.base, h.end_, h.ps, h.size, h.room, h.links.congr hsame, h.nodup, h.pages⟩

theorem Pool.bitno_toNat (h : al.Pool chain) {p : PhysAddr} (hp : p.toNat < 0x1000000) :
    (al.bmp.bitno p).toNat < 2 ^ 31 ∧ (al.bmp.bitno p / 32 * 4).toNat < 512 ∧
      (al.bmp.bitno p / 32 * 4).toNat % 4 = 0 := by
  unfold PhysMemBitmap.bitno
  rw [h.base, h.ps]
  have hdiv : ((p - 0) / 0x1000).toNat = p.toNat / 4096 := by
    rw [BitVec.toNat_udiv, BitVec.ofNat_eq_ofNat, BitVec.sub_zero]
    rfl
  have hdw : ((p - 0) / 0x1000 / 32).toNat = p.toNat / 4096 / 32 := by
    rw [BitVec.toNat_udiv, hdiv]
    rfl
  have hfour : (4 : BitVec 32).toNat = 4 := rfl
  rw [BitVec.toNat_mul, hdw, hfour, hdiv]
  omega

theorem Pool.allocAt (h : al.Pool chain) (p : PhysAddr) :
    (al.allocAt lockBtrReport p).1.Pool chain ∧ (al.allocAt lockBtrReport p).2 = 0 := by
  unfold PhysMemAllocator.allocAt
  by_cases hge : p ≥ 0x1000000
  · rw [if_pos hge]
    exact ⟨h, rfl⟩
  have hlow : p.toNat < 0x1000000 := by
    rw [ge_iff_le, BitVec.le_def] at hge
    exact Nat.not_le.mp hge
  obtain ⟨hno, hword, -⟩ := h.bitno_toNat hlow
  rw [if_neg hge, PhysMemBitmap.allocAt_eq _ _ hno, h.end_, if_neg (by rw [h.base]; simp),
    if_neg hge]
  refine ⟨h.with_mem fun q hq => ?_, rfl⟩
  -- the cleared bit is in the first 512 bytes of memory
  apply read32_write32_of_clear
  have hhigh := (h.pages q hq).high
  have hzero : al.bmp.base + al.bmp.bitno p / 32 * 4 = al.bmp.bitno p / 32 * 4 := by
    rw [h.base, BitVec.ofNat_eq_ofNat, BitVec.zero_add]
  have hq' := q.isLt
  have hal := (h.pages q hq).aligned
  rw [hzero]
  exact (clear_of_le (by omega) (by omega)).symm

theorem Pool.free_low (h : al.Pool chain) {p : PhysAddr} (hlow : p.toNat < 0x1000000) :
    (al.free p).Pool chain := by
  have hge : ¬ p ≥ 0x1000000 := by
    rw [ge_iff_le, BitVec.le_def]
    exact Nat.not_le.mpr hlow
  obtain ⟨hno, hword, hmod⟩ := h.bitno_toNat hlow
  unfold PhysMemAllocator.free
  rw [if_neg hge, PhysMemBitmap.free_eq _ _ hno, h.end_, if_neg (by rw [h.base]; simp),
    if_neg hge]
  refine h.with_mem fun q hq => ?_
  -- the set bit is in the bitmap
  apply read32_write32_of_clear
  intro x hx hx'
  refine (h.pages q hq).clear x (Nat.lt_of_lt_of_le hx (by decide)) ?_
  unfold InRange at hx' ⊢
  bv_omega

theorem Pool.free_high (h : al.Pool chain) {p : PhysAddr} (hp : StackPage al.bmp.bmp p)
    (hout : p ∉ chain) : (al.free p).Pool (p :: chain) := by
  have hge : p ≥ 0x1000000 := by
    rw [ge_iff_le, BitVec.le_def]
    exact hp.high
  unfold PhysMemAllocator.free PhysMemStack.pushPage
  rw [if_pos hge, if_neg hp.ne_zero]
  refine ⟨h.base, h.end_, h.ps, h.size, h.room, ?_, List.nodup_cons.mpr ⟨hout, h.nodup⟩, ?_⟩
  · refine h.links.push hp.ne_zero fun q hq => ?_
    have hne : q ≠ p := fun heq => hout (heq ▸ hq)
    exact (clear_pages (h.pages q hq).aligned hp.aligned hne).mono (by decide) (by decide)
  · intro q hq
    rcases List.mem_cons.mp hq with rfl | hq
    · exact hp
    · exact h.pages q hq

/-- Once a bit has been cleared, `lock_btr` reports 0 for it. -/
theorem allocBits_none (b : PhysMemBitmap) (off : Address) (k : Nat) (i : BitVec 32)
    (m : Memory) : (b.allocBits lockBtrReport off k i m).2 = none := by
  induction k generalizing i m with
  | zero => rfl
  | succ k ih =>
    unfold PhysMemBitmap.allocBits
    split
    · exact ih _ _
    · exact ih _ _

/-- `PhysMemBitmap::Alloc()` never returns, whatever the bitmap holds. -/
theorem allocLoop_none {b : PhysMemBitmap} (h : b.bmp ≤ b.bmp + b.bmpSize) (k : Nat)
    (m : Memory) : b.allocLoop lockBtrReport k m = none := by
  induction k generalizing m with
  | zero => rfl
  | succ k ih =>
    unfold PhysMemBitmap.allocLoop
    dsimp only
    rw [if_pos h]
    have hnone := allocBits_none b b.bmp 32 0 m
    split
    · split
      · rename_i he
        rw [he] at hnone
        exact absurd hnone (by simp)
      · exact ih _
    · exact ih _

theorem Pool.bmp_le (h : al.Pool chain) : al.bmp.bmp ≤ al.bmp.bmp + al.bmp.bmpSize := by
  have hroom := h.room
  rw [h.size]
  bv_omega

theorem Pool.bitmapAlloc (h : al.Pool chain) (al' : PhysMemAllocator) (hb : al'.bmp = al.bmp)
    (k : Nat) : al'.bitmapAlloc lockBtrReport k = none := by
  unfold PhysMemAllocator.bitmapAlloc
  rw [hb, allocLoop_none h.bmp_le]
  rfl

theorem Pool.pop {p : PhysAddr} (h : al.Pool (p :: chain)) :
    al.stack.beginPop = p ∧ ({ al with stack := al.stack.endPop al.mem p }).Pool chain := by
  obtain ⟨htop, hne, hrest⟩ := h.links
  have hbegin : al.stack.beginPop = p := by
    unfold PhysMemStack.beginPop
    rw [htop, if_neg hne]
  exact ⟨hbegin, h.base, h.end_, h.ps, h.size, h.room, hrest, h.nodup.of_cons,
    fun q hq => h.pages q (List.mem_cons_of_mem p hq)⟩

theorem Pool.beginPop_nil (h : al.Pool []) : al.stack.beginPop = 0 := by
  have htop : al.stack.top = 0 := h.links
  unfold PhysMemStack.beginPop
  rw [if_pos htop]

theorem Pool.alloc (h : al.Pool chain) {k : Nat} {al' : PhysMemAllocator} {p : PhysAddr}
    (ha : al.alloc lockBtrReport k = some (al', p)) :
    ∃ rest, chain = p :: rest ∧ al'.Pool rest ∧ al'.bmp = al.bmp := by
  unfold PhysMemAllocator.alloc PhysMemStack.popPage at ha
  dsimp only at ha
  cases chain with
  | nil =>
    have hnone : ({ al with stack := al.stack.endPop al.mem 0 } : PhysMemAllocator).bitmapAlloc
        lockBtrReport k = none := h.bitmapAlloc { al with stack := al.stack.endPop al.mem 0 } rfl k
    rw [h.beginPop_nil, if_pos rfl, hnone] at ha
    exact absurd ha (by simp)
  | cons q rest =>
    obtain ⟨hbegin, hpool⟩ := h.pop
    rw [hbegin, if_neg (h.pages q List.mem_cons_self).ne_zero] at ha
    obtain ⟨rfl, rfl⟩ : _ = al' ∧ q = p := by simpa using ha
    exact ⟨rest, rfl, hpool, rfl⟩

theorem Pool.endAlloc {p : PhysAddr} (h : al.Pool (p :: chain)) :
    (al.endAlloc p).1.Pool chain := by
  have hp := h.pages p List.mem_cons_self
  refine h.pop.2.with_mem fun q hq => ?_
  have hne : q ≠ p := by
    rintro rfl
    exact (List.nodup_cons.mp h.nodup).1 hq
  have hq' := h.pages q (List.mem_cons_of_mem p hq)
  exact read32_fill_of_clear
    ((clear_pages hq'.aligned hp.aligned hne).mono (by decide) (Nat.le_refl _))

/-- `BeginAlloc` and `EndAlloc` of its result return only with a page from the stack. -/
theorem Pool.beginAlloc (h : al.Pool chain) {k : Nat} {al' : PhysMemAllocator} {p : PhysAddr}
    (ha : al.beginAlloc lockBtrReport k = some (al', p)) :
    ∃ rest, chain = p :: rest ∧ al' = al := by
  unfold PhysMemAllocator.beginAlloc at ha
  dsimp only at ha
  cases chain with
  | nil =>
    rw [h.beginPop_nil, if_pos rfl, h.bitmapAlloc _ rfl k] at ha
    exact absurd ha (by simp)
  | cons q rest =>
    rw [h.pop.1, if_neg (h.pages q List.mem_cons_self).ne_zero] at ha
    obtain ⟨rfl, rfl⟩ : al = al' ∧ q = p := by simpa using ha
    exact ⟨rest, rfl, rfl⟩

end

theorem free_bmp (al : PhysMemAllocator) (p : PhysAddr) : (al.free p).bmp = al.bmp := by
  unfold PhysMemAllocator.free
  split <;> rfl

theorem nextPage_toNat (p : PhysAddr) : (p + pageSize).toNat = (p.toNat + 4096) % 2 ^ 32 :=
  BitVec.toNat_add p pageSize

theorem nextPage_aligned {p : PhysAddr} (h : p.toNat % 4096 = 0) :
    (p + pageSize).toNat % 4096 = 0 := by
  rw [nextPage_toNat]
  omega

/-- The pages `freePages` will still come to are not on the stack yet. -/
theorem Pool.freePages {mb : Multiboot} {k : Nat} {nextpage : PhysAddr}
    {al al' : PhysMemAllocator} {chain : List PhysAddr} (h : al.Pool chain)
    (hal : nextpage.toNat % 4096 = 0)
    (hbelow : nextpage ≠ 0 → ∀ p ∈ chain, p.toNat < nextpage.toNat)
    (hclear : ∀ p : PhysAddr, p.toNat % 4096 = 0 → 0x1000000 ≤ p.toNat →
      mb.checkRange p pageSize = true → Clear p 4096 al.bmp.bmp 512)
    (hf : freePages mb k nextpage al = some al') :
    ∃ chain', al'.Pool chain' ∧ al'.bmp = al.bmp := by
  induction k generalizing nextpage al chain with
  | zero => simp [PhysMemAllocator.freePages] at hf
  | succ k ih =>
    rw [freePages_succ] at hf
    by_cases hlast : mb.PagesEnd nextpage
    · rw [if_pos hlast] at hf
      obtain rfl := Option.some.inj hf
      exact ⟨chain, h, rfl⟩
    rw [if_neg hlast] at hf
    have hzero : nextpage ≠ 0 := fun heq => hlast (Or.inr heq)
    have hnext := nextPage_aligned hal
    have hgrow : nextpage + pageSize ≠ 0 → nextpage.toNat < (nextpage + pageSize).toNat := by
      unfold pageSize
      bv_omega
    have hold : nextpage + pageSize ≠ 0 → ∀ p ∈ chain, p.toNat < (nextpage + pageSize).toNat :=
      fun hne p hp => Nat.lt_trans (hbelow hzero p hp) (hgrow hne)
    cases hcheck : mb.checkRange nextpage pageSize with
    | false =>
      rw [hcheck, if_neg (by simp)] at hf
      exact ih h hnext hold hclear hf
    | true =>
      rw [hcheck, if_pos rfl] at hf
      have hbmp := free_bmp al nextpage
      by_cases hlow : nextpage.toNat < 0x1000000
      · obtain ⟨chain', hp, hb⟩ := ih (h.free_low hlow) hnext hold (by rwa [hbmp]) hf
        exact ⟨chain', hp, hb.trans hbmp⟩
      · have hpage : StackPage al.bmp.bmp nextpage :=
          ⟨hal, Nat.not_lt.mp hlow, hclear nextpage hal (Nat.not_lt.mp hlow) hcheck⟩
        have hout : nextpage ∉ chain := fun hm => Nat.lt_irrefl _ (hbelow hzero nextpage hm)
        have hnew : nextpage + pageSize ≠ 0 →
            ∀ p ∈ nextpage :: chain, p.toNat < (nextpage + pageSize).toNat := by
          intro hne p hp
          rcases List.mem_cons.mp hp with rfl | hp
          · exact hgrow hne
          · exact hold hne p hp
        obtain ⟨chain', hp, hb⟩ := ih (h.free_high hpage hout) hnext hnew (by rwa [hbmp]) hf
        exact ⟨chain', hp, hb.trans hbmp⟩

/-- The bound `2 ^ 20 + 1` is enough: each round moves on by a page, and 0 ends the loop. -/
theorem freePages_returns (mb : Multiboot) {k : Nat} {nextpage : PhysAddr}
    (hal : nextpage.toNat % 4096 = 0)
    (hk : nextpage = 0 ∧ 0 < k ∨ (2 ^ 32 - nextpage.toNat) / 4096 < k) (al : PhysMemAllocator) :
    ∃ al', freePages mb k nextpage al = some al' := by
  induction k generalizing nextpage al with
  | zero => omega
  | succ k ih =>
    rw [freePages_succ]
    by_cases hlast : mb.PagesEnd nextpage
    · rw [if_pos hlast]
      exact ⟨al, rfl⟩
    rw [if_neg hlast]
    have hk' := hk.resolve_left fun h => hlast (Or.inr h.1)
    have hlt := nextpage.isLt
    have hsum := nextPage_toNat nextpage
    apply ih
    · exact nextPage_aligned hal
    · by_cases hwrap : nextpage.toNat + 4096 = 2 ^ 32
      · exact Or.inl ⟨BitVec.eq_of_toNat_eq (by rw [hsum, hwrap]; rfl), by omega⟩
      · exact Or.inr (by omega)

theorem init_returns (mb : Multiboot) (m : Memory) (bmp : PhysMemBitmap) :
    ∃ al, init mb m bmp = some al := by
  unfold init
  dsimp only
  split
  · exact freePages_returns _ (by decide) (Or.inr (by decide)) _
  · exact freePages_returns _ (by decide) (Or.inr (by decide)) _

theorem clear_of_checkRange {mb : Multiboot} {p : PhysAddr} {bitmap : Address}
    (helf : mb.has Multiboot.elfAvail = true) (hmem : ⟨bitmap, 512⟩ ∈ mb.elf)
    (hp : p.toNat % 4096 = 0) (hroom : bitmap.toNat + 512 ≤ 2 ^ 32)
    (hcheck : mb.checkRange p pageSize = true) : Clear p 4096 bitmap 512 := by
  have hall : Multiboot.checkElf p pageSize mb.elf = true := by
    unfold Multiboot.checkRange at hcheck
    rw [helf] at hcheck
    simp only [Bool.and_eq_true, if_true] at hcheck
    exact hcheck.1.2
  have hone := List.all_eq_true.mp hall _ hmem
  have hp' := p.isLt
  have hps : pageSize.toNat = 4096 := rfl
  have hclear : Clear p pageSize.toNat bitmap (512 : BitVec 32).toNat :=
    Multiboot.clear_of_overlap (by decide) (by decide) (by omega) hroom
      (by simpa using hone)
  exact hclear

/-- The bitmap is out of the way of the stack: its entry in the ELF table counts, or it is
below 16 MB; and it does not end at the end of memory. -/
structure BitmapKept (mb : Multiboot) (bitmap : Address) : Prop where
  room : bitmap.toNat + 512 < 2 ^ 32
  apart : mb.has Multiboot.elfAvail = true ∨ bitmap.toNat + 512 ≤ 0x1000000

theorem init_pool {mb : Multiboot} {m : Memory} {bmp : PhysMemBitmap} {al : PhysMemAllocator}
    (hinit : init mb m bmp = some al) (hfound : bitmapPlace mb m ≠ 0)
    (hkept : BitmapKept mb (bitmapPlace mb m)) : ∃ chain, al.Pool chain := by
  have hfound' : (mb.reserveLow m).1.findRange 512 ≠ 0 := hfound
  unfold init at hinit
  dsimp only at hinit
  rw [if_pos hfound'] at hinit
  have hflags : (mb.reserveLow m).1.flags = mb.flags := by
    unfold Multiboot.reserveLow
    split <;> rfl
  have hpool : ∀ m', (⟨m', ⟨0⟩, (PhysMemBitmap.init m' (bitmapPlace mb m) 0 0x1000000
      pageSize).1⟩ : PhysMemAllocator).Pool [] := fun m' =>
    ⟨rfl, rfl, rfl, rfl, hkept.room, rfl, List.nodup_nil, by simp⟩
  have hclear : ∀ (m' : Memory) (p : PhysAddr), p.toNat % 4096 = 0 → 0x1000000 ≤ p.toNat →
      (((mb.reserveLow m).1.reserveBitmap m' (bitmapPlace mb m)).1).checkRange p pageSize = true →
      Clear p 4096 (bitmapPlace mb m) 512 := by
    intro m' p hal hhigh hcheck
    rcases hkept.apart with helf | hlow
    · have helf' : (mb.reserveLow m).1.has Multiboot.elfAvail = true := by
        unfold Multiboot.has at helf ⊢
        rwa [hflags]
      unfold Multiboot.reserveBitmap at hcheck
      rw [if_pos helf'] at hcheck
      refine clear_of_checkRange ?_ ?_ hal (Nat.le_of_lt hkept.room) hcheck
      · exact helf'
      · exact List.mem_append_right _ (List.mem_singleton.mpr rfl)
    · exact (clear_of_le (by have hp := p.isLt; omega) (by omega)).symm
  obtain ⟨chain, hp, -⟩ := Pool.freePages (hpool _) (by decide) (by simp) (hclear _) hinit
  exact ⟨chain, hp⟩

end PhysMemAllocator
end Tysos
