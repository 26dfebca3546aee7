import Tysos.PhysMem.FreePool

/-!
# Allocation in two phases

`BeginAlloc` finds a page, the caller maps it, and `EndAlloc` reads the next link of the stack
from the page where it is mapped and clears it. A page from the bitmap holds no link, and
`EndAlloc` is not told where the page came from. `lock_btr` reports the old value here.
-/

namespace Tysos
open ByteMemory
set_option autoImplicit false

/-- What the callers of `lock_btr` take it to report. -/
def oldValue : BtrReport := id

namespace PhysMemBitmap

/-- The bits below `j` are not set, so the search stops at `j`. -/
theorem allocBits_first (b : PhysMemBitmap) {m : Memory} {off : Address} {i j k : Nat}
    (hj : j < 32) (hij : i ≤ j) (hjk : j < i + k) (hset : testBit m off (BitVec.ofNat 32 j) = true)
    (hmin : ∀ t < j, testBit m off (BitVec.ofNat 32 t) = false) :
    b.allocBits oldValue off k (BitVec.ofNat 32 i) m =
      ((lockBtr oldValue m off (BitVec.ofNat 32 j)).1,
        some (((off - b.bmp) * 32 + BitVec.ofNat 32 j) * b.ps + b.base)) := by
  induction k generalizing i with
  | zero => omega
  | succ k ih =>
    unfold allocBits
    by_cases heq : i = j
    · subst i
      have hok : (lockBtr oldValue m off (BitVec.ofNat 32 j)).2 = true := by
        rw [lockBtr_eq (by rw [BitVec.toNat_ofNat]; omega)]
        exact hset
      rw [if_pos hset]
      dsimp only
      rw [hok, if_pos rfl]
    · have hnext : BitVec.ofNat 32 i + 1 = BitVec.ofNat 32 (i + 1) := by bv_omega
      rw [hmin i (by omega), if_neg Bool.false_ne_true, hnext]
      exact ih (by omega) (by omega)

theorem exists_lowest_bit {m : Memory} {off : Address} (h : read32 m off ≠ 0) :
    ∃ j < 32, testBit m off (BitVec.ofNat 32 j) = true ∧
      ∀ t < j, testBit m off (BitVec.ofNat 32 t) = false := by
  have hbit : ∃ j, (read32 m off).getLsbD j = true := by
    by_contra hnone
    refine h (BitVec.eq_of_getLsbD_eq fun j _ => ?_)
    rw [BitVec.ofNat_eq_ofNat, BitVec.getLsbD_zero]
    exact Bool.eq_false_iff.mpr (not_exists.mp hnone j)
  have hj := BitVec.lt_of_getLsbD (Nat.find_spec hbit)
  refine ⟨Nat.find hbit, hj, ?_, fun t ht => ?_⟩
  · rw [testBit_eq, BitVec.toNat_ofNat, Nat.mod_eq_of_lt (by omega)]
    exact Nat.find_spec hbit
  · rw [testBit_eq, BitVec.toNat_ofNat, Nat.mod_eq_of_lt (by omega)]
    exact Bool.eq_false_iff.mpr (Nat.find_min hbit ht)

/-- The search never leaves the first word, and goes on as long as it is 0. -/
theorem allocLoop_zero {b : PhysMemBitmap} {m : Memory} (hle : b.bmp ≤ b.bmp + b.bmpSize)
    (h : read32 m b.bmp = 0) (report : BtrReport) (k : Nat) :
    b.allocLoop report k m = none := by
  induction k with
  | zero => rfl
  | succ k ih =>
    unfold allocLoop
    dsimp only
    rw [if_pos hle, if_neg (not_not.mpr h)]
    exact ih

theorem allocLoop_first {b : PhysMemBitmap} {m : Memory} (hle : b.bmp ≤ b.bmp + b.bmpSize)
    {j : Nat} (hj : j < 32) (hset : testBit m b.bmp (BitVec.ofNat 32 j) = true)
    (hmin : ∀ t < j, testBit m b.bmp (BitVec.ofNat 32 t) = false) (k : Nat) :
    b.allocLoop oldValue (k + 1) m = some ((lockBtr oldValue m b.bmp (BitVec.ofNat 32 j)).1,
      BitVec.ofNat 32 j * b.ps + b.base) := by
  have hne : read32 m b.bmp ≠ 0 := by
    intro hzero
    rw [testBit_eq, hzero] at hset
    simp at hset
  have hbits := b.allocBits_first hj (Nat.zero_le j) (by omega : j < 0 + 32) hset hmin
  have hoff : (b.bmp - b.bmp) * 32 + BitVec.ofNat 32 j = BitVec.ofNat 32 j := by
    rw [BitVec.sub_self]
    simp
  have hstart : (0 : BitVec 32) = BitVec.ofNat 32 0 := rfl
  unfold allocLoop
  dsimp only
  rw [if_pos hle, if_pos hne, hstart, hbits, hoff]

end PhysMemBitmap

namespace PhysMemAllocator

/-- Page `p` of memory is at `v`. -/
def MapsPage (map : Address → PhysAddr) (v : Address) (p : PhysAddr) : Prop :=
  ∀ k < pageSize.toNat, map (v + BitVec.ofNat 32 k) = p + BitVec.ofNat 32 k

/-- `EndAlloc` of an address that the processor translates by `map`. -/
def endAllocAt (al : PhysMemAllocator) (map : Address → PhysAddr) (paddr : Address) :
    PhysMemAllocator × PhysAddr :=
  ({ al with
    stack := al.stack.endPop (fun x => al.mem (map x)) paddr
    mem := fun x =>
      if ∃ k < pageSize.toNat, map (paddr + BitVec.ofNat 32 k) = x then 0 else al.mem x }, 0)

theorem endAllocAt_eq {al : PhysMemAllocator} {map : Address → PhysAddr} {v : Address}
    {p : PhysAddr} (h : MapsPage map v p) : al.endAllocAt map v = al.endAlloc p := by
  have hps : pageSize.toNat = 4096 := rfl
  have hword : ∀ k < 4, map (v + BitVec.ofNat 32 k) = p + BitVec.ofNat 32 k :=
    fun k hk => h k (by omega)
  have htop : read32 (fun x => al.mem (map x)) v = read32 al.mem p := by
    have h₀ := hword 0 (by omega)
    have h₁ := hword 1 (by omega)
    have h₂ := hword 2 (by omega)
    have h₃ := hword 3 (by omega)
    rw [BitVec.add_zero, BitVec.add_zero] at h₀
    unfold read32
    simp only [BitVec.ofNat_eq_ofNat, h₀, h₁, h₂, h₃]
  have hmem : (fun x => if ∃ k < pageSize.toNat, map (v + BitVec.ofNat 32 k) = x then 0
      else al.mem x) = fill al.mem p pageSize.toNat 0 := by
    funext x
    unfold fill
    have hiff : (∃ k < pageSize.toNat, map (v + BitVec.ofNat 32 k) = x) ↔
        InRange p pageSize.toNat x := by
      unfold InRange
      constructor
      · rintro ⟨k, hk, rfl⟩
        rw [h k hk]
        bv_omega
      · intro hin
        refine ⟨(x - p).toNat, hin, ?_⟩
        rw [h _ hin, BitVec.ofNat_toNat, BitVec.setWidth_eq]
        rw [BitVec.add_comm, BitVec.sub_add_cancel]
    simp only [hiff]
  unfold endAllocAt endAlloc PhysMemStack.endPop
  rw [htop, hmem]

/-- A pool whose free pages below 16 MB are out of the way of the bitmap too. -/
structure FreePool (al : PhysMemAllocator) (chain : List PhysAddr) : Prop where
  pool : al.Pool chain
  low : ∀ k < 4096, al.PageFree k → Clear (pageAddr k) 4096 al.bmp.bmp 512

/-- Page `k` is the free page with the lowest number. -/
def FirstFree (al : PhysMemAllocator) (k : Nat) : Prop :=
  al.PageFree k ∧ ∀ j < k, ¬ al.PageFree j

/-- From `al` to `al'`, the page `p` and no other has left the pool, and a stack that was empty
is empty. -/
structure TakesOne (al al' : PhysMemAllocator) (p : PhysAddr) : Prop where
  wasFree : al.IsFree p
  isFree_iff : ∀ q, al'.IsFree q ↔ al.IsFree q ∧ q ≠ p
  empty : al.stack.top = 0 → al'.stack.top = 0

/-- `BeginAlloc` returns, and with `EndAlloc` of its result, wherever the page is mapped, it takes
that page and no other. -/
structure AllocatesOne (al : PhysMemAllocator) : Prop where
  returns : ∃ fuel r, al.beginAlloc oldValue fuel = some r
  takes : ∀ fuel al₁ p map v, al.beginAlloc oldValue fuel = some (al₁, p) → MapsPage map v p →
    TakesOne al (al₁.endAllocAt map v).1 p

/-- There is a page on the stack, or the first free page is one of the first 32 and begins with a
word that is 0. -/
def StackOrZeroPage (al : PhysMemAllocator) : Prop :=
  al.stack.top ≠ 0 ∨ ∃ k < 32, al.FirstFree k ∧ read32 al.mem (pageAddr k) = 0

section
variable {al : PhysMemAllocator} {chain : List PhysAddr}

theorem pageAddr_inj {j k : Nat} (hj : j < 4096) (hk : k < 4096) :
    pageAddr j = pageAddr k ↔ j = k := by
  constructor
  · intro h
    have htoNat := congrArg BitVec.toNat h
    rw [pageAddr_toNat (by omega), pageAddr_toNat (by omega)] at htoNat
    omega
  · rintro rfl
    rfl

theorem Pool.bmp_eq (h : al.Pool chain) : al.bmp = PhysMemBitmap.lowMemory al.bmp.bmp := by
  have hbase := h.base
  have hend := h.end_
  have hps := h.ps
  have hsize := h.size
  unfold PhysMemBitmap.lowMemory
  cases hb : al.bmp with
  | mk bmp base end_ ps bmpSize =>
    rw [hb] at hbase hend hps hsize
    dsimp only at hbase hend hps hsize ⊢
    rw [hbase, hend, hps, hsize]

theorem Pool.isFree_iff (h : al.Pool chain) (q : PhysAddr) :
    al.IsFree q ↔ (∃ k < 4096, q = pageAddr k ∧ al.PageFree k) ∨ q ∈ chain := by
  unfold IsFree
  constructor
  · rintro (hlow | ⟨chain', hchain, hq⟩)
    · exact Or.inl hlow
    · rw [hchain.unique h.links] at hq
      exact Or.inr hq
  · rintro (hlow | hq)
    · exact Or.inl hlow
    · exact Or.inr ⟨chain, h.links, hq⟩

theorem first_pages (bmp : Address) {k : Nat} (hk : k < 32) :
    bmp + BitVec.ofNat 32 k / 32 * 4 = bmp ∧ BitVec.ofNat 32 k % 32 = BitVec.ofNat 32 k := by
  have hk' : (BitVec.ofNat 32 k).toNat < 32 := by
    rw [BitVec.toNat_ofNat]
    omega
  exact ⟨first_word hk' bmp, mod_of_lt hk'⟩

theorem pageFree_first (al : PhysMemAllocator) {k : Nat} (hk : k < 32) :
    al.PageFree k ↔ testBit al.mem al.bmp.bmp (BitVec.ofNat 32 k) = true := by
  obtain ⟨hword, hbit⟩ := first_pages al.bmp.bmp hk
  unfold PageFree PhysMemBitmap.isSet
  rw [hword, hbit]

/-- Clearing a page that is away from the bitmap leaves the bits as they are. -/
theorem pageFree_endAlloc {p : PhysAddr} (hclear : Clear p 4096 al.bmp.bmp 512) {k : Nat}
    (hk : k < 4096) : (al.endAlloc p).1.PageFree k ↔ al.PageFree k := by
  have hsame : ∀ x, InRange al.bmp.bmp 512 x → (al.endAlloc p).1.mem x = al.mem x := by
    intro x hx
    have hout : ¬ InRange p pageSize.toNat x := fun hin => hclear x hin hx
    exact fill_of_not_inRange hout
  have hbmp : (al.endAlloc p).1.bmp = al.bmp := rfl
  unfold PageFree
  rw [hbmp, PhysMemBitmap.isSet_congr (by rfl) hsame (PhysMemBitmap.pageNumber_lt hk)]

theorem FreePool.init {bitmap : Address} (hroom : bitmap.toNat + 512 < 2 ^ 32) (m : Memory) :
    FreePool ⟨fill m bitmap 512 0, ⟨0⟩, PhysMemBitmap.lowMemory bitmap⟩ [] := by
  refine ⟨⟨rfl, rfl, rfl, rfl, hroom, rfl, List.nodup_nil, by simp⟩, fun k hk hfree => ?_⟩
  exact absurd hfree (Bool.eq_false_iff.mp (isSet_fill hk))

theorem init_freePool {mb : Multiboot} {m : Memory} {bmp : PhysMemBitmap} (h : Parsed mb)
    (hfound : bitmapPlace mb m ≠ 0) (hroom : (bitmapPlace mb m).toNat + 512 < 2 ^ 32)
    (hinit : init mb m bmp = some al) : ∃ chain, al.FreePool chain := by
  obtain ⟨chain, lim, hst, -⟩ := init_stocked h hfound hinit
  have hbmp := hst.bmp
  refine ⟨chain, ⟨?_, ?_, ?_, ?_, ?_, hst.links, hst.nodup, fun p hp => ?_⟩, fun k hk hfree => ?_⟩
  · rw [hbmp]
    rfl
  · rw [hbmp]
    rfl
  · rw [hbmp]
    rfl
  · rw [hbmp]
    rfl
  · rw [hbmp]
    exact hroom
  · obtain ⟨hal, hhigh, -, hcheck⟩ := (hst.pages p).mp hp
    rw [hbmp]
    exact ⟨hal, hhigh, bitmap_clear h hfound hal hcheck⟩
  · obtain ⟨-, -, hcheck⟩ := (hst.bits k hk).mp hfree
    rw [hbmp]
    refine bitmap_clear h hfound ?_ hcheck
    rw [pageAddr_toNat (Nat.le_of_lt hk)]
    exact Nat.mul_mod_left k 4096

/-- From the stack: the pages below the top stay, and so do the bits. -/
theorem FreePool.takesOne_cons {p : PhysAddr} (h : al.FreePool (p :: chain)) :
    TakesOne al (al.endAlloc p).1 p := by
  have hp := h.pool.pages p List.mem_cons_self
  have hbits : ∀ k < 4096, (al.endAlloc p).1.PageFree k ↔ al.PageFree k :=
    fun k hk => pageFree_endAlloc hp.clear hk
  have hout : p ∉ chain := (List.nodup_cons.mp h.pool.nodup).1
  refine ⟨(h.pool.isFree_iff p).mpr (Or.inr List.mem_cons_self), fun q => ?_, fun htop => ?_⟩
  · rw [h.pool.isFree_iff, h.pool.endAlloc.isFree_iff]
    constructor
    · rintro (⟨k, hk, rfl, hfree⟩ | hq)
      · refine ⟨Or.inl ⟨k, hk, rfl, (hbits k hk).mp hfree⟩, ?_⟩
        rintro rfl
        have hhigh := hp.high
        rw [pageAddr_toNat (by omega)] at hhigh
        omega
      · refine ⟨Or.inr (List.mem_cons_of_mem p hq), ?_⟩
        rintro rfl
        exact hout hq
    · rintro ⟨⟨k, hk, rfl, hfree⟩ | hq, hne⟩
      · exact Or.inl ⟨k, hk, rfl, (hbits k hk).mpr hfree⟩
      · exact Or.inr ((List.mem_cons.mp hq).resolve_left hne)
  · exact absurd (h.pool.links.1.symm.trans htop) hp.ne_zero

/-- The allocator after `BeginAlloc` has taken page `k` from the bitmap. -/
def withoutBit (al : PhysMemAllocator) (k : Nat) : PhysMemAllocator :=
  { al with mem := (lockBtr oldValue al.mem al.bmp.bmp (BitVec.ofNat 32 k)).1 }

theorem withoutBit_mem (al : PhysMemAllocator) {k : Nat} (hk : k < 32) :
    (al.withoutBit k).mem = clearBit al.mem al.bmp.bmp (BitVec.ofNat 32 k) := by
  unfold withoutBit
  rw [lockBtr_eq (by rw [BitVec.toNat_ofNat]; omega)]

/-- From the bitmap: the bit is cleared, and the page is away from the bitmap. -/
theorem FreePool.withoutBit_spec (h : al.FreePool chain) {k : Nat} (hk : k < 32)
    (hfree : al.PageFree k) :
    read32 (al.withoutBit k).mem (pageAddr k) = read32 al.mem (pageAddr k) ∧
      ∀ j < 4096, ((al.withoutBit k).endAlloc (pageAddr k)).1.PageFree j ↔
        al.PageFree j ∧ j ≠ k := by
  have hclear := h.low k (by omega) hfree
  obtain ⟨hword, hbit⟩ := first_pages al.bmp.bmp hk
  constructor
  · rw [withoutBit_mem al hk]
    refine read32_write32_of_clear fun x hx hin => ?_
    rw [← hword] at hin
    exact hclear x (Nat.lt_of_lt_of_le hx (by decide))
      (al.bmp.word_inRange (PhysMemBitmap.pageNumber_lt (by omega)) rfl hin)
  · intro j hj
    have hset := al.bmp.isSet_clearBit al.mem (BitVec.ofNat 32 j) (BitVec.ofNat 32 k)
    rw [hword, hbit] at hset
    have hbmp : (al.withoutBit k).bmp = al.bmp := rfl
    have hclear' : Clear (pageAddr k) 4096 (al.withoutBit k).bmp.bmp 512 := hclear
    rw [pageFree_endAlloc hclear' hj]
    have hiff := congrArg (· = true) hset
    simp only [Bool.and_eq_true, decide_eq_true_eq, eq_iff_iff, ne_eq,
      PhysMemBitmap.pageNumber_eq hj (by omega : k < 4096)] at hiff
    unfold PageFree
    rw [withoutBit_mem al hk, hbmp]
    exact hiff

/-- Without a stack, `BeginAlloc` returns the first free page of the first word, or nothing. -/
theorem Pool.beginAlloc_nil (h : al.Pool []) (fuel : Nat) :
    al.beginAlloc oldValue fuel = al.bitmapAlloc oldValue fuel := by
  unfold PhysMemAllocator.beginAlloc
  dsimp only
  rw [h.beginPop_nil, if_pos rfl]

theorem Pool.beginAlloc_cons {p : PhysAddr} (h : al.Pool (p :: chain)) (fuel : Nat) :
    al.beginAlloc oldValue fuel = some (al, p) := by
  unfold PhysMemAllocator.beginAlloc
  dsimp only
  rw [h.pop.1, if_neg (h.pages p List.mem_cons_self).ne_zero]

theorem Pool.bitmapAlloc_first (h : al.Pool chain) {k : Nat} (hk : k < 32)
    (hfirst : al.FirstFree k) (fuel : Nat) :
    al.bitmapAlloc oldValue (fuel + 1) = some (al.withoutBit k, pageAddr k) := by
  have hset := (al.pageFree_first hk).mp hfirst.1
  have hmin : ∀ t < k, testBit al.mem al.bmp.bmp (BitVec.ofNat 32 t) = false := by
    intro t ht
    have hnot := hfirst.2 t ht
    rw [al.pageFree_first (by omega)] at hnot
    exact Bool.eq_false_iff.mpr hnot
  have hpage : BitVec.ofNat 32 k * al.bmp.ps + al.bmp.base = pageAddr k := by
    rw [h.ps, h.base]
    unfold pageAddr
    bv_omega
  unfold PhysMemAllocator.bitmapAlloc
  rw [PhysMemBitmap.allocLoop_first h.bmp_le hk hset hmin, hpage]
  rfl

/-- The search finds the first free page, if there is one among the first 32. -/
theorem Pool.bitmapAlloc_eq (h : al.Pool chain) {fuel : Nat} {al' : PhysMemAllocator}
    {p : PhysAddr} (ha : al.bitmapAlloc oldValue fuel = some (al', p)) :
    ∃ k < 32, al.FirstFree k ∧ al' = al.withoutBit k ∧ p = pageAddr k := by
  have hne : read32 al.mem al.bmp.bmp ≠ 0 := by
    intro hzero
    unfold PhysMemAllocator.bitmapAlloc at ha
    rw [PhysMemBitmap.allocLoop_zero h.bmp_le hzero] at ha
    exact absurd ha (by simp)
  obtain ⟨k, hk, hset, hmin⟩ := PhysMemBitmap.exists_lowest_bit hne
  have hfirst : al.FirstFree k := by
    refine ⟨(al.pageFree_first hk).mpr hset, fun j hj => ?_⟩
    rw [al.pageFree_first (by omega), hmin j hj]
    exact Bool.false_ne_true
  cases fuel with
  | zero => exact absurd ha (by simp [PhysMemAllocator.bitmapAlloc, PhysMemBitmap.allocLoop])
  | succ fuel =>
    rw [h.bitmapAlloc_first hk hfirst] at ha
    obtain ⟨rfl, rfl⟩ : al.withoutBit k = al' ∧ pageAddr k = p := by simpa using ha
    exact ⟨k, hk, hfirst, rfl, rfl⟩

theorem FirstFree.unique {j k : Nat} (hj : al.FirstFree j) (hk : al.FirstFree k) : j = k := by
  rcases Nat.lt_trichotomy j k with hlt | heq | hgt
  · exact absurd hj.1 (hk.2 j hlt)
  · exact heq
  · exact absurd hk.1 (hj.2 k hgt)

/-- The word that becomes the top of the stack decides. -/
theorem FreePool.takesOne_nil_iff (h : al.FreePool []) {k : Nat} (hk : k < 32)
    (hfree : al.PageFree k) :
    TakesOne al ((al.withoutBit k).endAlloc (pageAddr k)).1 (pageAddr k) ↔
      read32 al.mem (pageAddr k) = 0 := by
  obtain ⟨hread, hbits⟩ := h.withoutBit_spec hk hfree
  have htop : ((al.withoutBit k).endAlloc (pageAddr k)).1.stack.top = read32 al.mem (pageAddr k) :=
    hread
  constructor
  · exact fun ht => htop.symm.trans (ht.empty h.pool.links)
  · intro hzero
    have hpool : ((al.withoutBit k).endAlloc (pageAddr k)).1.Pool [] :=
      ⟨h.pool.base, h.pool.end_, h.pool.ps, h.pool.size, h.pool.room, htop.trans hzero,
        List.nodup_nil, by simp⟩
    refine ⟨(h.pool.isFree_iff _).mpr (Or.inl ⟨k, by omega, rfl, hfree⟩), fun q => ?_,
      fun _ => htop.trans hzero⟩
    rw [h.pool.isFree_iff, hpool.isFree_iff]
    simp only [List.not_mem_nil, or_false]
    constructor
    · rintro ⟨j, hj, rfl, hj'⟩
      obtain ⟨hjfree, hne⟩ := (hbits j hj).mp hj'
      exact ⟨⟨j, hj, rfl, hjfree⟩, fun heq => hne ((pageAddr_inj hj (by omega)).mp heq)⟩
    · rintro ⟨⟨j, hj, rfl, hj'⟩, hne⟩
      refine ⟨j, hj, rfl, (hbits j hj).mpr ⟨hj', ?_⟩⟩
      rintro rfl
      exact hne rfl

theorem FreePool.allocatesOne_cons {p : PhysAddr} (h : al.FreePool (p :: chain)) :
    al.AllocatesOne := by
  refine ⟨⟨0, _, h.pool.beginAlloc_cons 0⟩, ?_⟩
  intro fuel al₁ q map v ha hmap
  rw [h.pool.beginAlloc_cons] at ha
  obtain ⟨rfl, rfl⟩ : al = al₁ ∧ p = q := by simpa using ha
  rw [endAllocAt_eq hmap]
  exact h.takesOne_cons

/-- Without a stack the search returns a page among the first 32, or nothing at all. -/
theorem FreePool.allocatesOne_nil_iff (h : al.FreePool []) :
    al.AllocatesOne ↔ ∃ k < 32, al.FirstFree k ∧ read32 al.mem (pageAddr k) = 0 := by
  constructor
  · rintro ⟨⟨fuel, ⟨al₁, p⟩, ha⟩, htakes⟩
    have hone := htakes fuel al₁ p id p ha fun _ _ => rfl
    rw [h.pool.beginAlloc_nil] at ha
    obtain ⟨k, hk, hfirst, rfl, rfl⟩ := h.pool.bitmapAlloc_eq ha
    rw [endAllocAt_eq fun _ _ => rfl, h.takesOne_nil_iff hk hfirst.1] at hone
    exact ⟨k, hk, hfirst, hone⟩
  · rintro ⟨k, hk, hfirst, hzero⟩
    refine ⟨⟨1, _, (h.pool.beginAlloc_nil 1).trans (h.pool.bitmapAlloc_first hk hfirst 0)⟩, ?_⟩
    intro fuel al₁ p map v ha hmap
    rw [h.pool.beginAlloc_nil] at ha
    obtain ⟨j, hj, hfirst', rfl, rfl⟩ := h.pool.bitmapAlloc_eq ha
    obtain rfl := hfirst'.unique hfirst
    rw [endAllocAt_eq hmap, h.takesOne_nil_iff hj hfirst'.1]
    exact hzero

/-- Exactly with a page on the stack, or with a lowest free page that begins with 0 and that the
search can find, the two calls take one page and no other. -/
theorem two_phase_takes_one_iff (h : al.FreePool chain) :
    al.AllocatesOne ↔ al.StackOrZeroPage := by
  unfold StackOrZeroPage
  cases chain with
  | cons p chain =>
    have htop : al.stack.top ≠ 0 := by
      rw [h.pool.links.1]
      exact h.pool.links.2.1
    exact iff_of_true h.allocatesOne_cons (Or.inl htop)
  | nil =>
    have htop : al.stack.top = 0 := h.pool.links
    rw [h.allocatesOne_nil_iff]
    constructor
    · exact Or.inr
    · exact fun hcond => hcond.resolve_left fun hne => hne htop

theorem FreePool.free_low (h : al.FreePool chain) {k : Nat} (hk : k < 4096)
    (hclear : Clear (pageAddr k) 4096 al.bmp.bmp 512) :
    (al.free (pageAddr k)).FreePool chain ∧
      ∀ j < 4096, (al.free (pageAddr k)).PageFree j ↔ al.PageFree j ∨ j = k := by
  have hlow : (pageAddr k).toNat < 0x1000000 := by
    rw [pageAddr_toNat (Nat.le_of_lt hk)]
    omega
  have hbits : ∀ j < 4096, (al.free (pageAddr k)).PageFree j ↔ al.PageFree j ∨ j = k :=
    fun j hj => pageFree_free h.pool.bmp_eq hj hk
  refine ⟨⟨h.pool.free_low hlow, fun j hj hfree => ?_⟩, hbits⟩
  rw [free_bmp]
  rcases (hbits j hj).mp hfree with hold | rfl
  · exact h.low j hj hold
  · exact hclear

end

/-- An allocator in memory `m` with one free page, the second of all. -/
def onePage (m : Memory) : PhysMemAllocator :=
  PhysMemAllocator.free ⟨fill m 0x200000 512 0, ⟨0⟩, PhysMemBitmap.lowMemory 0x200000⟩ 0x1000

theorem onePage_freePool (m : Memory) : (onePage m).FreePool [] ∧ (onePage m).FirstFree 1 := by
  have hstart := FreePool.init (by decide : (0x200000 : Address).toNat + 512 < 2 ^ 32) m
  have hclear : Clear (pageAddr 1) 4096 0x200000 512 := clear_of_le (by decide) (by decide)
  obtain ⟨hpool, hbits⟩ := hstart.free_low (by decide : 1 < 4096) hclear
  refine ⟨hpool, (hbits 1 (by decide)).mpr (Or.inr rfl), fun j hj hfree => ?_⟩
  rcases (hbits j (by omega)).mp hfree with hold | rfl
  · exact absurd hold (Bool.eq_false_iff.mp (isSet_fill (by omega)))
  · exact absurd hj (Nat.lt_irrefl 1)

theorem onePage_beginAlloc (m : Memory) :
    (onePage m).beginAlloc oldValue 1 = some ((onePage m).withoutBit 1, 0x1000) := by
  obtain ⟨hpool, hfirst⟩ := onePage_freePool m
  rw [hpool.pool.beginAlloc_nil]
  exact hpool.pool.bitmapAlloc_first (by decide) hfirst 0

/-- The page of `onePage`, mapped in the upper half, begins with 0. -/
theorem cleared_page_taken : ∃ al₁,
    (onePage fun _ => 0).beginAlloc oldValue 1 = some (al₁, 0x1000) ∧
      TakesOne (onePage fun _ => 0)
        (al₁.endAllocAt (fun x => x - 0x80000000) 0x80001000).1 0x1000 := by
  obtain ⟨hpool, hfirst⟩ := onePage_freePool fun _ => 0
  have hone := (two_phase_takes_one_iff hpool).mpr (Or.inr ⟨1, by decide, hfirst, by decide⟩)
  refine ⟨_, onePage_beginAlloc _, hone.takes 1 _ _ _ _ (onePage_beginAlloc _) fun k _ => ?_⟩
  bv_omega

/-- Where its page begins with another word, that word is the top of the stack afterwards. -/
theorem page_contents_become_top :
    ¬ ∀ (al : PhysMemAllocator) (chain : List PhysAddr), al.FreePool chain →
      ∀ fuel al₁ p map v, al.beginAlloc oldValue fuel = some (al₁, p) → MapsPage map v p →
        TakesOne al (al₁.endAllocAt map v).1 p := by
  intro h
  obtain ⟨hpool, -⟩ := onePage_freePool fun _ => 1
  have hone := h _ [] hpool 1 _ 0x1000 id 0x1000 (onePage_beginAlloc _) fun k _ => rfl
  have htop := hone.empty rfl
  revert htop
  decide

end PhysMemAllocator
end Tysos
