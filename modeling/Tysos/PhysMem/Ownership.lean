import Tysos.PhysMem.Pool
import Tysos.PhysMem.UpdateUsed
import Mathlib.Data.List.Nodup

/-!
# Who owns which page

Clients that allocate pages in any of the ways there are, and free only what they own. The
one way that can hand out a page twice is `AllocRange` for more than one page, since it
leaves the pages it returns marked free; in runs where it does not meet such pages again, no
page is handed out twice.
-/

namespace Tysos
open ByteMemory
set_option autoImplicit false

namespace PhysMemAllocator

/-- The page with this number. -/
def pageAddr (k : Nat) : PhysAddr := BitVec.ofNat 32 (k * 4096)

/-- Pages `i` to `i + n - 1` are marked free. -/
def FreeRun (al : PhysMemAllocator) (i n : Nat) : Prop := ∀ j < n, al.PageFree (i + j)

theorem firstUsed_none {b : PhysMemBitmap} {m : Memory} {k : Nat} {j : BitVec 32}
    (h : b.firstUsed m k j = none) : ∀ t < k, b.isSet m (j + BitVec.ofNat 32 t) = true := by
  induction k generalizing j with
  | zero => exact fun t ht => absurd ht (Nat.not_lt_zero t)
  | succ k ih =>
    unfold PhysMemBitmap.firstUsed at h
    split at h
    · rename_i hset
      intro t ht
      cases t with
      | zero => simpa using hset
      | succ t =>
        have hone : j + 1 + BitVec.ofNat 32 t = j + BitVec.ofNat 32 (t + 1) := by bv_omega
        rw [← hone]
        exact ih h t (Nat.lt_of_succ_lt_succ ht)
    · exact absurd h (by simp)

theorem firstUsed_some {b : PhysMemBitmap} {m : Memory} {k : Nat} {j j' : BitVec 32}
    (h : b.firstUsed m k j = some j') :
    ∃ t < k, j' = j + BitVec.ofNat 32 t ∧ b.isSet m j' = false := by
  induction k generalizing j with
  | zero => simp [PhysMemBitmap.firstUsed] at h
  | succ k ih =>
    unfold PhysMemBitmap.firstUsed at h
    split at h
    · obtain ⟨t, ht, rfl, hset⟩ := ih h
      exact ⟨t + 1, Nat.succ_lt_succ ht, by bv_omega, hset⟩
    · rename_i hset
      obtain rfl := Option.some.inj h
      exact ⟨0, Nat.succ_pos k, by simp, by simpa using hset⟩

/-- `AllocRange` returns 0 or the lowest run of free pages that does not end the bitmap. -/
theorem Pool.allocRangeLoop {al : PhysMemAllocator} {chain : List PhysAddr}
    (h : al.Pool chain) {pages : BitVec 32} (hpages : pages.toNat ≤ 4096) {k : Nat}
    {i : BitVec 32} {r : PhysAddr} (hlow : ∀ i' < i.toNat, ¬ al.FreeRun i' pages.toNat)
    (hr : al.bmp.allocRangeLoop al.mem pages k i = some r) :
    r = 0 ∨ ∃ i₀, i₀ + pages.toNat < 4096 ∧ r = pageAddr i₀ ∧ al.FreeRun i₀ pages.toNat ∧
      ∀ i' < i₀, ¬ al.FreeRun i' pages.toNat := by
  induction k generalizing i with
  | zero => simp [PhysMemBitmap.allocRangeLoop] at hr
  | succ k ih =>
    unfold PhysMemBitmap.allocRangeLoop at hr
    have hlim : (al.bmp.bmpSize * 8 - pages).toNat = 4096 - pages.toNat := by
      rw [h.size]
      bv_omega
    by_cases hi : i < al.bmp.bmpSize * 8 - pages
    · rw [if_pos hi] at hr
      have hi' : i.toNat < 4096 - pages.toNat := by
        rw [BitVec.lt_def, hlim] at hi
        exact hi
      have hcount : (i + pages).toNat - i.toNat = pages.toNat := by bv_omega
      rw [hcount] at hr
      cases hf : al.bmp.firstUsed al.mem pages.toNat i with
      | none =>
        rw [hf] at hr
        have hrun := firstUsed_none hf
        obtain rfl : al.bmp.base + i * al.bmp.ps = r := Option.some.inj hr
        refine Or.inr ⟨i.toNat, by omega, ?_, fun j hj => ?_, hlow⟩
        · unfold pageAddr
          rw [h.base, h.ps]
          bv_omega
        · have heq : i + BitVec.ofNat 32 j = BitVec.ofNat 32 (i.toNat + j) := by bv_omega
          have hset := hrun j hj
          rw [heq] at hset
          exact hset
      | some j =>
        rw [hf] at hr
        obtain ⟨t, ht, rfl, hused⟩ := firstUsed_some hf
        refine ih (fun i' hi'' => ?_) hr
        by_cases hlt : i' < i.toNat
        · exact hlow i' hlt
        -- a run from `i'` on would contain the page found in use
        · intro hrun
          have hnext : (i + BitVec.ofNat 32 t + 1).toNat = i.toNat + t + 1 := by bv_omega
          have hmem := hrun (i.toNat + t - i') (by omega)
          have heq : BitVec.ofNat 32 (i' + (i.toNat + t - i')) = i + BitVec.ofNat 32 t := by
            bv_omega
          unfold PageFree at hmem
          rw [heq, hused] at hmem
          exact absurd hmem (by simp)
    · rw [if_neg hi] at hr
      exact Or.inl (Option.some.inj hr).symm

theorem pageAddr_toNat {k : Nat} (hk : k ≤ 4096) : (pageAddr k).toNat = k * 4096 := by
  unfold pageAddr
  rw [BitVec.toNat_ofNat]
  omega

/-- A range that is handed out is the lowest run of free pages, and as long as asked for. -/
theorem Pool.allocRange {al : PhysMemAllocator} {chain : List PhysAddr} (h : al.Pool chain)
    {length : BitVec 32} {r : PhysAddr} (hn : (al.bmp.pageCount length).toNat ≤ 4096)
    (hr : al.bmp.allocRange al.mem length = some r) (hne : r ≠ 0) :
    ∃ i₀, i₀ + (al.bmp.pageCount length).toNat < 4096 ∧ r = pageAddr i₀ ∧
      al.FreeRun i₀ (al.bmp.pageCount length).toNat ∧
      (∀ i' < i₀, ¬ al.FreeRun i' (al.bmp.pageCount length).toNat) ∧
      (length.toNat + 4095) / 4096 = (al.bmp.pageCount length).toNat := by
  have hstart : ∀ i' < (0 : BitVec 32).toNat, ¬ al.FreeRun i' (al.bmp.pageCount length).toNat :=
    fun i' hi' => absurd hi' (Nat.not_lt_zero i')
  obtain ⟨i₀, hi, rfl, hrun, hmin⟩ := (h.allocRangeLoop hn hstart hr).resolve_left hne
  refine ⟨i₀, hi, rfl, hrun, hmin, ?_⟩
  have hcount : (al.bmp.pageCount length).toNat =
      (length + 0x1000 - 1).toNat / (0x1000 : BitVec 32).toNat := by
    unfold PhysMemBitmap.pageCount
    rw [h.ps, BitVec.toNat_udiv]
  have hps : (0x1000 : BitVec 32).toNat = 4096 := rfl
  rw [hps] at hcount
  by_cases hwrap : length.toNat + 4095 < 2 ^ 32
  · have hsum : (length + 0x1000 - 1).toNat = length.toNat + 4095 := by bv_omega
    rw [hcount, hsum]
  · -- the count wraps to 0, and the run found is the empty one at page 0
    have hzero : (al.bmp.pageCount length).toNat = 0 := by
      rw [hcount]
      bv_omega
    have hfirst : i₀ = 0 := by
      apply Nat.eq_zero_of_not_pos
      intro hpos
      refine hmin 0 hpos ?_
      rw [hzero]
      exact fun j hj => absurd hj (Nat.not_lt_zero j)
    rw [hfirst] at hne
    exact absurd rfl hne

/-- The calls of the clients; `beginEnd` is `BeginAlloc` and then `EndAlloc` of its result. -/
inductive Op where
  | alloc
  | allocAt (paddr : PhysAddr)
  | allocRange (length : BitVec 32)
  | beginEnd
  | free (paddr : PhysAddr)

/-- The allocator and the pages handed out and not freed since. -/
structure Clients where
  al : PhysMemAllocator
  owned : List PhysAddr

namespace Clients

def oneOrNone (ret : PhysAddr) : List PhysAddr := if ret = 0 then [] else [ret]

/-- The pages of a range of `length` bytes. -/
def pagesFrom (start : PhysAddr) (length : BitVec 32) : List PhysAddr :=
  (List.range ((length.toNat + 4095) / 4096)).map fun j => start + pageAddr j

/-- The allocator after the call, and the pages the call hands out. A client frees only what
it owns. -/
def call (fuel : Nat) (c : Clients) : Op → Option (PhysMemAllocator × List PhysAddr)
  | .alloc => do
    let (al, ret) ← c.al.alloc lockBtrReport fuel
    some (al, oneOrNone ret)
  | .allocAt paddr =>
    let (al, ret) := c.al.allocAt lockBtrReport paddr
    some (al, oneOrNone ret)
  | .allocRange length => do
    let (al, ret) ← c.al.allocRange lockBtrReport fuel length
    some (al, if ret = 0 then [] else if length ≤ pageSize then [ret] else pagesFrom ret length)
  | .beginEnd => do
    let (al, paddr) ← c.al.beginAlloc lockBtrReport fuel
    some ((al.endAlloc paddr).1, oneOrNone paddr)
  | .free paddr => if paddr ∈ c.owned then some (c.al.free paddr, []) else none

/-- What is left of the pages owned so far. -/
def keep (owned : List PhysAddr) : Op → List PhysAddr
  | .free paddr => owned.erase paddr
  | _ => owned

def step (fuel : Nat) (c : Clients) (op : Op) : Option Clients := do
  let (al, pages) ← c.call fuel op
  some ⟨al, pages ++ keep c.owned op⟩

/-- The call hands out no page that is owned. -/
def Fresh (fuel : Nat) (c : Clients) (op : Op) : Prop :=
  ∀ al pages, c.call fuel op = some (al, pages) → ∀ p ∈ pages, p ∉ c.owned

/-- For a range of `n > 1` pages: `n` is at most the pages of the bitmap, and every run of `n`
pages that are marked free, but of which one is owned, has a lower one of which none is. -/
def RangeClear (c : Clients) : Op → Prop
  | .allocRange length => pageSize < length →
      (c.al.bmp.pageCount length).toNat ≤ 4096 ∧
      ∀ i, i + (c.al.bmp.pageCount length).toNat < 4096 →
        c.al.FreeRun i (c.al.bmp.pageCount length).toNat →
        (∃ j < (c.al.bmp.pageCount length).toNat, pageAddr (i + j) ∈ c.owned) →
        ∃ i' < i, c.al.FreeRun i' (c.al.bmp.pageCount length).toNat ∧
          ∀ j < (c.al.bmp.pageCount length).toNat, pageAddr (i' + j) ∉ c.owned
  | _ => True

/-- The pool is in order, no page of the stack is owned, and none is owned twice. -/
structure Sound (c : Clients) (chain : List PhysAddr) : Prop where
  pool : c.al.Pool chain
  apart : ∀ p ∈ chain, p ∉ c.owned
  nodup : c.owned.Nodup
  pages : ∀ p ∈ c.owned, 0x1000000 ≤ p.toNat → StackPage c.al.bmp.bmp p

variable {c : Clients} {chain : List PhysAddr}

/-- A page taken off the stack was not owned, and is now. -/
theorem Sound.take {rest : List PhysAddr} {p : PhysAddr} {al : PhysMemAllocator}
    (h : c.Sound (p :: rest)) (hpool : al.Pool rest) (hb : al.bmp = c.al.bmp) :
    p ∉ c.owned ∧ (⟨al, p :: c.owned⟩ : Clients).Sound rest := by
  have hp := h.apart p List.mem_cons_self
  refine ⟨hp, hpool, fun q hq => ?_, List.nodup_cons.mpr ⟨hp, h.nodup⟩, fun q hq => ?_⟩
  · rintro (_ | ⟨_, hm⟩)
    · exact (List.nodup_cons.mp h.pool.nodup).1 hq
    · exact h.apart q (List.mem_cons_of_mem p hq) hm
  · rw [hb]
    rcases List.mem_cons.mp hq with rfl | hq
    · exact fun _ => h.pool.pages q List.mem_cons_self
    · exact h.pages q hq

theorem Sound.alloc (h : c.Sound chain) {fuel : Nat} {al : PhysMemAllocator} {p : PhysAddr}
    (ha : c.al.alloc lockBtrReport fuel = some (al, p)) :
    oneOrNone p = [p] ∧ p ∉ c.owned ∧ ∃ rest, (⟨al, p :: c.owned⟩ : Clients).Sound rest := by
  obtain ⟨rest, rfl, hpool, hb⟩ := h.pool.alloc ha
  obtain ⟨hout, hs⟩ := h.take hpool hb
  have hne := (h.pool.pages p List.mem_cons_self).ne_zero
  exact ⟨if_neg hne, hout, rest, hs⟩

theorem Sound.free {p : PhysAddr} (h : c.Sound chain) (hp : p ∈ c.owned) :
    ∃ chain', (⟨c.al.free p, c.owned.erase p⟩ : Clients).Sound chain' := by
  have hb : (c.al.free p).bmp = c.al.bmp := by
    unfold PhysMemAllocator.free
    split <;> rfl
  have hnodup := h.nodup.erase p
  have hpages : ∀ q ∈ c.owned.erase p, 0x1000000 ≤ q.toNat →
      StackPage (c.al.free p).bmp.bmp q := by
    intro q hq hhigh
    rw [hb]
    exact h.pages q (List.mem_of_mem_erase hq) hhigh
  by_cases hlow : p.toNat < 0x1000000
  · exact ⟨chain, h.pool.free_low hlow, fun q hq hm => h.apart q hq (List.mem_of_mem_erase hm),
      hnodup, hpages⟩
  · have hout : p ∉ chain := fun hm => h.apart p hm hp
    refine ⟨p :: chain, h.pool.free_high (h.pages p hp (Nat.not_lt.mp hlow)) hout,
      fun q hq => ?_, hnodup, hpages⟩
    rcases List.mem_cons.mp hq with rfl | hq
    · exact h.nodup.not_mem_erase
    · exact fun hm => h.apart q hq (List.mem_of_mem_erase hm)

theorem mem_pagesFrom {i₀ n : Nat} {length : BitVec 32} (hi : i₀ + n < 4096)
    (hn : (length.toNat + 4095) / 4096 = n) {p : PhysAddr} :
    p ∈ pagesFrom (pageAddr i₀) length ↔ ∃ j < n, p = pageAddr (i₀ + j) := by
  have hsum : ∀ j < n, pageAddr i₀ + pageAddr j = pageAddr (i₀ + j) := by
    intro j hj
    have h₁ := pageAddr_toNat (k := i₀) (by omega)
    have h₂ := pageAddr_toNat (k := j) (by omega)
    have h₃ := pageAddr_toNat (k := i₀ + j) (by omega)
    apply BitVec.eq_of_toNat_eq
    rw [BitVec.toNat_add]
    omega
  unfold pagesFrom
  rw [hn]
  simp only [List.mem_map, List.mem_range]
  constructor
  · rintro ⟨j, hj, rfl⟩
    exact ⟨j, hj, hsum j hj⟩
  · rintro ⟨j, hj, rfl⟩
    exact ⟨j, hj, hsum j hj⟩

theorem nodup_pagesFrom {i₀ n : Nat} {length : BitVec 32} (hi : i₀ + n < 4096)
    (hn : (length.toNat + 4095) / 4096 = n) : (pagesFrom (pageAddr i₀) length).Nodup := by
  unfold pagesFrom
  rw [hn]
  refine List.Nodup.map_on (fun j hj j' hj' heq => ?_) List.nodup_range
  rw [List.mem_range] at hj hj'
  have h₁ := pageAddr_toNat (k := i₀) (by omega)
  have h₂ := pageAddr_toNat (k := j) (by omega)
  have h₃ := pageAddr_toNat (k := j') (by omega)
  have hval := congrArg BitVec.toNat heq
  simp only [BitVec.toNat_add] at hval
  omega

/-- What a range hands out is fresh, and the clients can take it. -/
theorem Sound.allocRange (h : c.Sound chain) {length : BitVec 32} (hlen : pageSize < length)
    (hclear : c.RangeClear (.allocRange length)) {r : PhysAddr}
    (hr : c.al.bmp.allocRange c.al.mem length = some r) (hne : r ≠ 0) :
    (∀ p ∈ pagesFrom r length, p ∉ c.owned) ∧
      (⟨c.al, pagesFrom r length ++ c.owned⟩ : Clients).Sound chain := by
  obtain ⟨hn, hruns⟩ := hclear hlen
  obtain ⟨i₀, hi, rfl, hrun, hmin, hceil⟩ := h.pool.allocRange hn hr hne
  have hmem := @mem_pagesFrom i₀ _ length hi hceil
  have hfresh : ∀ p ∈ pagesFrom (pageAddr i₀) length, p ∉ c.owned := by
    intro p hp howned
    obtain ⟨j, hj, rfl⟩ := hmem.mp hp
    obtain ⟨i', hlt, hrun', -⟩ := hruns i₀ hi hrun ⟨j, hj, howned⟩
    exact hmin i' hlt hrun'
  have hlow : ∀ p ∈ pagesFrom (pageAddr i₀) length, p.toNat < 0x1000000 := by
    intro p hp
    obtain ⟨j, hj, rfl⟩ := hmem.mp hp
    rw [pageAddr_toNat (by omega)]
    omega
  refine ⟨hfresh, h.pool, fun q hq hm => ?_, ?_, fun q hq hhigh => ?_⟩
  · rcases List.mem_append.mp hm with hm | hm
    · exact Nat.not_lt.mpr (h.pool.pages q hq).high (hlow q hm)
    · exact h.apart q hq hm
  · exact List.nodup_append'.mpr ⟨nodup_pagesFrom hi hceil, h.nodup, fun p hp => hfresh p hp⟩
  · rcases List.mem_append.mp hq with hq | hq
    · exact absurd (hlow q hq) (Nat.not_lt.mpr hhigh)
    · exact h.pages q hq hhigh

theorem Sound.call (h : c.Sound chain) {fuel : Nat} {op : Op} (hclear : c.RangeClear op)
    {al : PhysMemAllocator} {pages : List PhysAddr} (hc : c.call fuel op = some (al, pages)) :
    (∀ p ∈ pages, p ∉ c.owned) ∧
      ∃ chain', (⟨al, pages ++ keep c.owned op⟩ : Clients).Sound chain' := by
  unfold Clients.call at hc
  cases op with
  | alloc =>
    obtain ⟨⟨al', p⟩, ha, hc⟩ := Option.bind_eq_some_iff.mp hc
    obtain ⟨hone, hout, rest, hs⟩ := h.alloc ha
    obtain ⟨rfl, rfl⟩ : al' = al ∧ oneOrNone p = pages := by simpa using hc
    rw [hone]
    exact ⟨by simpa using hout, rest, hs⟩
  | allocAt p =>
    obtain ⟨hpool, hzero⟩ := h.pool.allocAt p
    have hb : (c.al.allocAt lockBtrReport p).1.bmp = c.al.bmp := by
      unfold PhysMemAllocator.allocAt
      split <;> rfl
    obtain ⟨rfl, rfl⟩ : (c.al.allocAt lockBtrReport p).1 = al ∧
        oneOrNone (c.al.allocAt lockBtrReport p).2 = pages := by simpa using hc
    rw [hzero]
    refine ⟨by simp [oneOrNone], chain, hpool, h.apart, h.nodup, ?_⟩
    rw [hb]
    exact h.pages
  | allocRange length =>
    obtain ⟨⟨al', r⟩, ha, hc⟩ := Option.bind_eq_some_iff.mp hc
    unfold PhysMemAllocator.allocRange at ha
    by_cases hlen : length ≤ pageSize
    · rw [if_pos hlen] at ha
      obtain ⟨hone, hout, rest, hs⟩ := h.alloc ha
      simp only [if_pos hlen] at hc
      obtain ⟨rfl, rfl⟩ : al' = al ∧ oneOrNone r = pages := by simpa [oneOrNone] using hc
      rw [hone]
      exact ⟨by simpa using hout, rest, hs⟩
    · rw [if_neg hlen] at ha
      obtain ⟨r', hr, ha⟩ := Option.bind_eq_some_iff.mp ha
      obtain ⟨rfl, rfl⟩ : c.al = al' ∧ r' = r := by simpa using ha
      by_cases hne : r' = 0
      · simp only [if_pos hne] at hc
        obtain ⟨rfl, rfl⟩ : c.al = al ∧ [] = pages := by simpa using hc
        exact ⟨by simp, chain, h⟩
      · simp only [if_neg hne, if_neg hlen] at hc
        obtain ⟨rfl, rfl⟩ : c.al = al ∧ pagesFrom r' length = pages := by simpa using hc
        obtain ⟨hfresh, hs⟩ := h.allocRange (BitVec.not_le.mp hlen) hclear hr hne
        exact ⟨hfresh, chain, hs⟩
  | beginEnd =>
    obtain ⟨⟨al', p⟩, ha, hc⟩ := Option.bind_eq_some_iff.mp hc
    obtain ⟨rest, rfl, rfl⟩ := h.pool.beginAlloc ha
    obtain ⟨rfl, rfl⟩ : (c.al.endAlloc p).1 = al ∧ oneOrNone p = pages := by simpa using hc
    obtain ⟨hout, hs⟩ := h.take h.pool.endAlloc rfl
    have hone : oneOrNone p = [p] := if_neg (h.pool.pages p List.mem_cons_self).ne_zero
    rw [hone]
    exact ⟨by simpa using hout, rest, hs⟩
  | free p =>
    obtain ⟨hp, hc⟩ := Option.ite_none_right_eq_some.mp hc
    obtain ⟨rfl, rfl⟩ : c.al.free p = al ∧ [] = pages := by simpa using hc
    exact ⟨by simp, h.free hp⟩

/-- From a state `Init` leaves with a bitmap that is kept apart from the stack, no page is
handed out again before it is freed, in every run whose ranges are clear of owned pages. -/
theorem no_page_handed_out_twice {mb : Multiboot} {m : Memory} {bmp : PhysMemBitmap}
    {al : PhysMemAllocator} (hinit : init mb m bmp = some al) (hfound : bitmapPlace mb m ≠ 0)
    (hkept : BitmapKept mb (bitmapPlace mb m)) {fuel : Nat} {ops : List Op}
    (hops : Transition.EachStep (step fuel) RangeClear ⟨al, []⟩ ops) :
    Transition.EachStep (step fuel) (Fresh fuel) ⟨al, []⟩ ops := by
  obtain ⟨chain, hpool⟩ := init_pool hinit hfound hkept
  have h₀ : ∃ chain, (⟨al, []⟩ : Clients).Sound chain :=
    ⟨chain, hpool, by simp, List.nodup_nil, by simp⟩
  have hstep : ∀ (c : Clients) (op : Op) (c' : Clients), (∃ chain, c.Sound chain) →
      c.RangeClear op → c.step fuel op = some c' → ∃ chain, c'.Sound chain := by
    rintro c op c' ⟨chain, hs⟩ hclear hstep
    obtain ⟨⟨al', pages⟩, hcall, hstep⟩ := Option.bind_eq_some_iff.mp hstep
    obtain rfl := Option.some.inj hstep
    exact (hs.call hclear hcall).2
  refine hops.imp hstep ?_ h₀
  rintro c op ⟨chain, hs⟩ hclear al' pages hcall
  exact (hs.call hclear hcall).1

/-- One stretch of eight megabytes above the first. -/
def smallTables : Multiboot := ⟨0x60, 12, 0, 0, [⟨0x100000, 0, 0x800000, 0, 1⟩], [], []⟩

def noBitmap : PhysMemBitmap := ⟨0, 0, 0, 0, 0⟩

theorem smallTables_place : bitmapPlace smallTables (fun _ => 0) = 0x100000 := by decide

theorem smallTables_range {al : PhysMemAllocator}
    (hinit : init smallTables (fun _ => 0) noBitmap = some al) :
    al.bmp.allocRange al.mem 0x2000 = some 0x101000 := by
  have hall : ((init smallTables (fun _ => 0) noBitmap).bind
      fun al => al.bmp.allocRange al.mem 0x2000) = some 0x101000 := by decide +kernel
  rwa [hinit] at hall

theorem smallTables_found : bitmapPlace smallTables (fun _ => 0) ≠ 0 := by
  rw [smallTables_place]
  decide

/-- Six pages from 1 MB on, the first of which holds the bitmap. -/
def sixPages : Multiboot := { smallTables with memUpper := 24 }

theorem sixPages_place : bitmapPlace sixPages (fun _ => 0) = 0x100000 := smallTables_place

/-- A range of three pages is taken, and two of them are freed again. -/
def takeThree : List Op := [.allocRange 0x3000, .free 0x101000, .free 0x102000]

/-- The two are taken as a range of their own while the third is still owned, and that is freed. -/
def takeTwo : List Op := [.allocRange 0x2000, .free 0x103000]

theorem takeThree_takeTwo {al : PhysMemAllocator}
    (hinit : init sixPages (fun _ => 0) noBitmap = some al) :
    ∃ c, Transition.run (step 1) ⟨al, []⟩ takeThree = some c ∧ c.owned = [0x103000] ∧
      c.al.bmp.pageCount 0x2000 = 2 ∧ c.al.FreeRun 0x101 2 ∧
      (Transition.run (step 1) c takeTwo).map Clients.owned = some [0x101000, 0x102000] := by
  have hall : ((init sixPages (fun _ => 0) noBitmap).bind fun al =>
      Transition.run (step 1) ⟨al, []⟩ takeThree).any (fun c => c.owned = [0x103000] ∧
        c.al.bmp.pageCount 0x2000 = 2 ∧
        (∀ j < 2, c.al.bmp.isSet c.al.mem (BitVec.ofNat 32 (0x101 + j)) = true) ∧
        (Transition.run (step 1) c takeTwo).map Clients.owned = some [0x101000, 0x102000]) =
      true := by
    decide +kernel
  rw [hinit] at hall
  obtain ⟨c, hrun, hc⟩ := (Option.any_eq_true _ _).mp hall
  obtain ⟨howned, hcount, hfree, hlast⟩ := of_decide_eq_true hc
  exact ⟨c, hrun, howned, hcount, hfree, hlast⟩

theorem takeTwo_clear {c : Clients} (howned : c.owned = [0x103000])
    (hcount : c.al.bmp.pageCount 0x2000 = 2) (hfree : c.al.FreeRun 0x101 2) :
    c.RangeClear (.allocRange 0x2000) := by
  intro _
  rw [hcount, howned]
  refine ⟨by decide, fun i hi _ howns => ⟨0x101, ?_, hfree, by decide⟩⟩
  obtain ⟨j, hj, hmem⟩ := howns
  have hpage := congrArg BitVec.toNat (List.mem_singleton.mp hmem)
  have htwo : (2 : BitVec 32).toNat = 2 := rfl
  rw [htwo] at hi hj
  rw [pageAddr_toNat (by omega)] at hpage
  have hthird : (0x103000 : PhysAddr).toNat = 0x103 * 4096 := rfl
  omega

theorem ranges_are_fresh : ∃ al c, init sixPages (fun _ => 0) noBitmap = some al ∧
    Transition.run (step 1) ⟨al, []⟩ (takeThree ++ takeTwo) = some c ∧
    c.owned = [0x101000, 0x102000] ∧
    Transition.EachStep (step 1) (Fresh 1) ⟨al, []⟩ (takeThree ++ takeTwo) := by
  obtain ⟨al, hinit⟩ := init_returns sixPages (fun _ => 0) noBitmap
  obtain ⟨c₃, hthree, howned, hcount, hfree, hlast⟩ := takeThree_takeTwo hinit
  obtain ⟨c, htwo, hleft⟩ := Option.map_eq_some_iff.mp hlast
  have hfound : bitmapPlace sixPages (fun _ => 0) ≠ 0 := by
    rw [sixPages_place]
    decide
  have hkept : BitmapKept sixPages (bitmapPlace sixPages (fun _ => 0)) := by
    rw [sixPages_place]
    exact ⟨by decide, Or.inl (by decide)⟩
  refine ⟨al, c, hinit, ?_, hleft, no_page_handed_out_twice hinit hfound hkept ?_⟩
  · rw [Transition.run_append, hthree]
    exact htwo
  refine ⟨fun _ => ⟨?_, ?_⟩, fun c₁ h₁ => ⟨trivial, fun c₂ h₂ => ⟨trivial, fun c₃' h₃ =>
    ⟨?_, fun _ _ => ⟨trivial, fun _ _ => trivial⟩⟩⟩⟩⟩
  · obtain ⟨chain, hpool⟩ := init_pool hinit hfound hkept
    have hcount : (0x3000 + 0x1000 - 1 : BitVec 32) / 0x1000 = 3 := by decide
    unfold PhysMemBitmap.pageCount
    rw [hpool.ps, hcount]
    decide
  · rintro i - - ⟨j, -, howned⟩
    exact absurd howned List.not_mem_nil
  · have hrun : Transition.run (step 1) ⟨al, []⟩ takeThree = some c₃' := by
      simp only [takeThree, Transition.run_cons, h₁, h₂, h₃, Option.bind_some,
        Transition.run_nil]
    obtain rfl := Option.some.inj (hthree.symm.trans hrun)
    exact takeTwo_clear howned hcount hfree

/-- The same range is handed out twice in a row. -/
theorem range_handed_out_twice :
    ¬ ∀ (mb : Multiboot) (m : Memory) (bmp : PhysMemBitmap) (al : PhysMemAllocator),
      init mb m bmp = some al → bitmapPlace mb m ≠ 0 → ∀ (fuel : Nat) (ops : List Op),
        Transition.EachStep (step fuel) (Fresh fuel) ⟨al, []⟩ ops := by
  intro h
  obtain ⟨al, hinit⟩ := init_returns smallTables (fun _ => 0) noBitmap
  have hcall : ∀ owned, call 1 ⟨al, owned⟩ (.allocRange 0x2000) =
      some (al, pagesFrom 0x101000 0x2000) := by
    intro owned
    have hlong : ¬ (0x2000 : BitVec 32) ≤ pageSize := by decide
    unfold call PhysMemAllocator.allocRange
    dsimp only
    rw [if_neg hlong, smallTables_range hinit]
    rfl
  have hmem : (0x101000 : PhysAddr) ∈ pagesFrom 0x101000 0x2000 := by decide
  have hrun := h _ _ _ al hinit smallTables_found 1 [.allocRange 0x2000, .allocRange 0x2000]
  have hfirst : step 1 ⟨al, []⟩ (.allocRange 0x2000) =
      some ⟨al, pagesFrom 0x101000 0x2000 ++ []⟩ := by
    unfold step
    rw [hcall]
    rfl
  have hsecond := (hrun.2 _ hfirst).1 al _ (hcall _) _ hmem
  exact hsecond (List.mem_append_left [] hmem)

end Clients
end PhysMemAllocator
end Tysos
