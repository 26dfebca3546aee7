import Tysos.PhysMem.FreePool
import Tysos.Paging.AddressSpace
import Tysos.Paging.KernelTables
import Tysos.Paging.VirtualMemory

/-!
# Turning paging on

The part of `kmain` that makes the first address space and loads it. The memory that
`i386_VirtMemManager::Init` has written byte by byte is from here on seen as frames of words.
-/

namespace Tysos
open ByteMemory PageTables
set_option autoImplicit false

/-- Memory as frames of words. -/
def framesOf (m : Memory) : FrameMemory :=
  fun f j => read32 m (BitVec.ofNat 32 (f.toNat * 4096 + j.toNat * 4))

section FramesOf
variable {m : Memory}

/-- A word in place is the word of its frame. -/
theorem framesOf_word {a : Address} (ha : a.toNat % 4 = 0) :
    framesOf m (frameOf a) (wordIndex a) = read32 m a := by
  have hlt := a.isLt
  have haddr : BitVec.ofNat 32 ((frameOf a).toNat * 4096 + (wordIndex a).toNat * 4) = a := by
    apply BitVec.eq_of_toNat_eq
    rw [frameOf_toNat, wordIndex_toNat, BitVec.toNat_ofNat]
    omega
  unfold framesOf
  rw [haddr]

theorem and_pageMask_of_aligned {p : PhysAddr} (hp : p.toNat % 4096 = 0) : p &&& pageMask = p := by
  apply BitVec.eq_of_toNat_eq
  rw [and_pageMask_toNat]
  omega

theorem framesOf_page {p : PhysAddr} (hp : p.toNat % 4096 = 0) :
    framesOf m (frameOf p) 0 = read32 m p := by
  rw [← wordIndex_of_aligned (and_pageMask_of_aligned hp)]
  exact framesOf_word (by omega)

/-- The stack of free pages is there in frames as it is in bytes. -/
theorem FreeList.of_chain {top : PhysAddr} {ps : List PhysAddr} (h : Chain m top ps)
    (hal : ∀ p ∈ ps, p.toNat % 4096 = 0) : FreeList (framesOf m) top ps := by
  induction ps generalizing top with
  | nil => exact h
  | cons p ps ih =>
    obtain ⟨htop, hne, hrest⟩ := h
    have hp := hal p List.mem_cons_self
    refine ⟨htop, hne, and_pageMask_of_aligned hp, ?_⟩
    rw [framesOf_page hp]
    exact ih hrest fun q hq => hal q (List.mem_cons_of_mem p hq)

end FramesOf

namespace VirtMemManager

instance (s : Section) : Decidable (Plain s) := inferInstanceAs (Decidable (_ → _))

section Frame
variable {kpt : Address} {s : Section} {m m' : Memory} {x : Address}

/-- Only the tables are written for a section that ends below 1 GB. -/
theorem mapLoop_of_not_inRange {firstPage curPage : PhysAddr} {k : Nat}
    (hend : (s.base + s.length).toNat ≤ 2 ^ 30) (hx : ¬ InRange kpt 0x100000 x)
    (h : mapLoop kpt s firstPage k curPage m = some m') : m' x = m x := by
  induction k generalizing curPage m with
  | zero => exact absurd h (Option.some_ne_none m').symm
  | succ k ih =>
    unfold mapLoop at h
    by_cases hlt : curPage < s.base + s.length
    · rw [if_pos hlt] at h
      rw [ih h]
      apply write32_of_not_inRange
      intro hin
      apply hx
      rw [BitVec.lt_def] at hlt
      have hindex : (curPage >>> 12).toNat = curPage.toNat / 4096 := by
        rw [BitVec.toNat_ushiftRight, Nat.shiftRight_eq_div_pow]
      generalize curPage >>> 12 = q at hindex hin
      unfold InRange at hin ⊢
      bv_omega
    · rw [if_neg hlt] at h
      rw [Option.some.inj h]

theorem mapSection_of_not_inRange (hs : Plain s) (hx : ¬ InRange kpt 0x100000 x)
    (h : mapSection kpt s m = some m') : m' x = m x := by
  unfold mapSection at h
  by_cases hbits : s.has Section.flagBits = true
  · rw [if_pos hbits] at h
    have hend := (hs hbits).2
    refine mapLoop_of_not_inRange ?_ hx h
    rw [limit_toNat hend]
    exact hend
  · rw [if_neg hbits] at h
    rw [Option.some.inj h]

theorem tablesLoop_of_not_inRange {l : SectionList} (hl : ∀ s ∈ l.kernelSections, Plain s)
    (hx : ¬ InRange kpt 0x100000 x) {i k : Nat} (h : tablesLoop kpt l i k m = some m') :
    m' x = m x := by
  induction k generalizing i m with
  | zero => rw [Option.some.inj h]
  | succ k ih =>
    obtain ⟨s, hs, h⟩ := Option.bind_eq_some_iff.mp h
    obtain ⟨m₁, hm₁, h⟩ := Option.bind_eq_some_iff.mp h
    rw [ih h]
    exact mapSection_of_not_inRange (hl s (mem_of_getItem hs)) hx hm₁

theorem tablesLoop_returns {l : SectionList} (hl : ∀ s ∈ l.kernelSections, Plain s) {i k : Nat}
    (hk : i + k ≤ l.kernelSections.length) : ∃ m', tablesLoop kpt l i k m = some m' := by
  induction k generalizing i m with
  | zero => exact ⟨m, rfl⟩
  | succ k ih =>
    have hs : l.getItem i = some l.kernelSections[i] := by
      unfold SectionList.getItem
      rw [if_pos (by omega)]
      exact List.getElem?_eq_getElem (by omega)
    obtain ⟨m₁, hm₁, -⟩ := @mapSection_entries kpt _ m (hl _ (mem_of_getItem hs))
    obtain ⟨m', hm'⟩ := @ih m₁ (i + 1) (by omega)
    refine ⟨m', ?_⟩
    unfold tablesLoop
    rw [hs]
    dsimp only [Option.bind_eq_bind, Option.bind_some]
    rw [hm₁]
    exact hm'

end Frame

section Init
variable {report : BtrReport} {fuel : Nat} {al : PhysMemAllocator} {l : SectionList}
  {t : VirtMemManager} {bmp : Address} (hbmp : al.bmp = PhysMemBitmap.lowMemory bmp)
  (h : init report fuel al l = some t)
include hbmp h

theorem base_ne_zero : t.kernelPts.base ≠ 0 := by
  have halloc := (init_sections hbmp h).1
  intro hzero
  rw [hzero] at halloc
  unfold init at h
  rw [halloc] at h
  dsimp only [Option.bind_eq_bind, Option.bind_some] at h
  rw [if_pos rfl] at h
  cases h

/-- `Init` writes nothing but the tables. -/
theorem init_mem (hl : ∀ s ∈ l.kernelSections, Plain s) {x : Address}
    (hx : ¬ InRange t.kernelPts.base 0x100000 x) : t.mem x = al.mem x :=
  tablesLoop_of_not_inRange (init_plain hbmp hl h) hx (init_sections hbmp h).2.1

end Init

/-- The sections of the kernel's page tables and of the temporary pages before `Init`. -/
def clearedSection : Section := ⟨0, 0, 0, 0, 0, 0, 0, 0⟩

/-- `Init` as `kmain` calls it: when `AllocRange` gives 0 it says so and returns, with nothing in
its sections, and the start goes on. -/
def initOrReturn (report : BtrReport) (fuel : Nat) (al : PhysMemAllocator) (l : SectionList) :
    Option VirtMemManager := do
  let (al', base) ← al.allocRange report fuel kernelPtsLength
  if base = 0 then
    some ⟨al'.mem, l, clearedSection, clearedSection, clearedSection, clearedSection⟩
  else init report fuel al l

theorem init_of_base {report : BtrReport} {fuel : Nat} {al : PhysMemAllocator} {l : SectionList}
    {t : VirtMemManager} (h : initOrReturn report fuel al l = some t)
    (hbase : t.kernelPts.base ≠ 0) : init report fuel al l = some t := by
  obtain ⟨⟨al', base⟩, -, h⟩ := Option.bind_eq_some_iff.mp h
  dsimp only at h
  split at h
  · obtain rfl := Option.some.inj h
    exact absurd rfl hbase
  · exact h

theorem initOrReturn_eq {report : BtrReport} {fuel : Nat} {al : PhysMemAllocator}
    {l : SectionList} {t : VirtMemManager} (h : init report fuel al l = some t) :
    initOrReturn report fuel al l = some t := by
  have halloc := h
  unfold init at halloc
  obtain ⟨⟨al', base⟩, hrange, hrest⟩ := Option.bind_eq_some_iff.mp halloc
  dsimp only at hrest
  unfold initOrReturn
  rw [hrange]
  dsimp only [Option.bind_eq_bind, Option.bind_some]
  split at hrest
  · cases hrest
  · rename_i hne
    rw [if_neg hne, h]

/-- The machine as `Init` leaves it; nothing has been loaded into `cr3`. -/
def machine (t : VirtMemManager) (stack : PhysMemStack) : Machine where
  mem := framesOf t.mem
  cr3 := 0
  stack := stack
  enabled := false
  sections := t.sections
  tempPd := t.tempPd.base
  tempPt := t.tempPt.base
  tempP := t.tempP.base
  kernelPts := t.kernelPts.base

/-- `Init` of the kernel's address space, `SetAddressSpace` and `Enable`. -/
def enable (t : VirtMemManager) (stack : PhysMemStack) : Option Machine := do
  let (addrSpace, s) ← AddressSpace.init (mapPage 0) (t.machine stack)
  some { s with cr3 := addrSpace, enabled := true }

/-- The machine with paging on and its directory in page `p`. -/
def started (t : VirtMemManager) (stack : PhysMemStack) (p : PhysAddr) : Machine :=
  { t.machine stack with
    mem := setWord (AddressSpace.filled (t.machine stack) (frameOf p) 255) (frameOf p) 255
      (AddressSpace.selfEntry p)
    stack := ⟨framesOf t.mem (frameOf p) 0⟩
    cr3 := p
    enabled := true }

/-- The stack has page `p` and then the pages `free`, all of them above the tables, and what is
left in page `p` above entry 255 does not look present. -/
structure Startable (t : VirtMemManager) (stack : PhysMemStack) (p : PhysAddr)
    (free : List PhysAddr) : Prop where
  links : FreeList (framesOf t.mem) stack.top (p :: free)
  nodup : (p :: free).Nodup
  high : ∀ q ∈ p :: free, 2 ^ 24 ≤ q.toNat
  aligned : t.kernelPts.base.toNat % 4096 = 0
  low : t.kernelPts.base.toNat + 0x100000 ≤ 2 ^ 24
  clean : ∀ j : Index, 256 ≤ j.toNat → isPresent (framesOf t.mem (frameOf p) j) = false

/-- The frames of the kernel's page tables that the directory has. -/
def IsTable (t : VirtMemManager) (f : Frame) : Prop :=
  t.kernelPts.base.toNat / 4096 ≤ f.toNat ∧ f.toNat < t.kernelPts.base.toNat / 4096 + 255

section Started
variable {t : VirtMemManager} {stack : PhysMemStack} {p : PhysAddr} {free : List PhysAddr}

theorem enable_eq (h : FreeList (framesOf t.mem) stack.top (p :: free)) :
    t.enable stack = some (t.started stack p) := by
  unfold enable
  rw [AddressSpace.init_of_disabled rfl h]
  rfl

/-- Without a free page there is no directory. -/
theorem enable_empty : t.enable ⟨0⟩ = none := by
  have hbegin : (t.machine ⟨0⟩).beginAlloc = none := by
    unfold Machine.beginAlloc Machine.beginAllocWith machine PhysMemStack.beginPop
    rfl
  unfold enable AddressSpace.init AddressSpace.openDirectory Machine.alloc
  rw [hbegin]
  rfl

theorem frameOf_table (h : t.Startable stack p free) {i : Nat} (hi : i < 255) :
    (frameOf (AddressSpace.kernelEntry t.kernelPts.base i)).toNat =
      t.kernelPts.base.toNat / 4096 + i := by
  have hlow := h.low
  have hal := h.aligned
  have hsum : (t.kernelPts.base + BitVec.ofNat 32 i * 0x1000).toNat =
      t.kernelPts.base.toNat + i * 4096 := by
    have hpage : (0x1000 : BitVec 32).toNat = 4096 := rfl
    rw [BitVec.toNat_add, BitVec.toNat_mul, BitVec.toNat_ofNat, hpage]
    omega
  rw [AddressSpace.frameOf_kernelEntry, frameOf_toNat, hsum]
  omega

theorem frame_high (h : t.Startable stack p free) {q : PhysAddr} (hq : q ∈ p :: free) :
    2 ^ 12 ≤ (frameOf q).toNat := by
  have hhigh := h.high q hq
  rw [frameOf_toNat]
  omega

theorem table_ne (h : t.Startable stack p free) {i : Nat} (hi : i < 255) {q : PhysAddr}
    (hq : q ∈ p :: free) : frameOf (AddressSpace.kernelEntry t.kernelPts.base i) ≠ frameOf q := by
  intro heq
  have hval := congrArg BitVec.toNat heq
  have hhigh := frame_high h hq
  have hlow := h.low
  rw [frameOf_table h hi] at hval
  omega

theorem started_dir : (t.started stack p).dir = frameOf p := rfl

theorem started_below {i : Index} (hi : i.toNat < 255) :
    (t.started stack p).mem (frameOf p) i =
      AddressSpace.kernelEntry t.kernelPts.base i.toNat := by
  have hne : i ≠ 255 := by
    rintro rfl
    exact absurd hi (by decide)
  exact (setWord_of_index_ne hne _ _ _).trans (AddressSpace.filled_below hi)

theorem started_self : (t.started stack p).mem (frameOf p) 255 = AddressSpace.selfEntry p :=
  setWord_self _ _ _ _

theorem started_above {i : Index} (hi : 256 ≤ i.toNat) :
    (t.started stack p).mem (frameOf p) i = framesOf t.mem (frameOf p) i :=
  (setWord_of_index_ne (index_ne_of_user hi) _ _ _).trans (AddressSpace.filled_above (by omega))

theorem started_mem {f : Frame} (hf : f ≠ frameOf p) (i : Index) :
    (t.started stack p).mem f i = framesOf t.mem f i :=
  (setWord_of_frame_ne hf _ _ _).trans (AddressSpace.filled_of_ne 255 hf i)

/-- What the directory has. -/
theorem dir_cases (h : t.Startable stack p free) (i : Index)
    (hpres : isPresent ((t.started stack p).mem (frameOf p) i) = true) :
    i.toNat < 255 ∧ (t.started stack p).mem (frameOf p) i =
        AddressSpace.kernelEntry t.kernelPts.base i.toNat ∨
      i = 255 ∧ (t.started stack p).mem (frameOf p) i = AddressSpace.selfEntry p := by
  rcases Nat.lt_or_ge i.toNat 255 with hlt | hge
  · exact Or.inl ⟨hlt, started_below hlt⟩
  rcases Nat.lt_or_ge i.toNat 256 with hlt | hge'
  · obtain rfl : i = 255 := by
      apply BitVec.eq_of_toNat_eq
      show i.toNat = 255
      omega
    exact Or.inr ⟨rfl, started_self⟩
  · rw [started_above hge', h.clean i hge'] at hpres
    cases hpres

theorem started_selfMapped (h : t.Startable stack p free) :
    SelfMapped i386 (t.started stack p).mem (t.started stack p).dir 255 := by
  have hbelow : ∀ a : Index, a ≠ 255 →
      i386.present ((t.started stack p).mem (frameOf p) a) = true →
      a.toNat < 255 ∧ (t.started stack p).mem (frameOf p) a =
        AddressSpace.kernelEntry t.kernelPts.base a.toNat := by
    intro a ha hpres
    rcases dir_cases h a hpres with hbelow | ⟨hself, -⟩
    · exact hbelow
    · exact absurd hself ha
  rw [started_dir]
  refine ⟨?_, ?_, ?_, ?_⟩
  · rw [started_self]
    exact AddressSpace.isPresent_selfEntry p
  · rw [started_self]
    exact AddressSpace.frameOf_selfEntry p
  · intro a ha hpres
    obtain ⟨hlt, hentry⟩ := hbelow a ha hpres
    rw [hentry]
    exact table_ne h hlt List.mem_cons_self
  · intro a b ha hb hpresA hpresB heq
    obtain ⟨hltA, hentryA⟩ := hbelow a ha hpresA
    obtain ⟨hltB, hentryB⟩ := hbelow b hb hpresB
    rw [hentryA, hentryB] at heq
    have hval := congrArg BitVec.toNat heq
    have hA := frameOf_table h hltA
    have hB := frameOf_table h hltB
    apply BitVec.eq_of_toNat_eq
    have hsame : t.kernelPts.base.toNat / 4096 + a.toNat =
        t.kernelPts.base.toNat / 4096 + b.toNat := hA.symm.trans (hval.trans hB)
    omega

theorem frame_inj (h : t.Startable stack p free) {q r : PhysAddr} (hq : q ∈ p :: free)
    (hr : r ∈ p :: free) (heq : frameOf q = frameOf r) : q = r :=
  frameOf_inj (h.links.aligned hq) (h.links.aligned hr) heq

/-- The frames that are neither the directory nor one of its tables. -/
theorem started_spare_iff (h : t.Startable stack p free) {f : Frame} :
    Spare i386 (t.started stack p).mem (t.started stack p).dir f ↔
      f ≠ frameOf p ∧ ¬ t.IsTable f := by
  rw [started_dir]
  constructor
  · intro hspare
    constructor
    · rintro rfl
      have hself := hspare 255
      rw [started_self] at hself
      exact hself (AddressSpace.isPresent_selfEntry p) (AddressSpace.frameOf_selfEntry p)
    · rintro ⟨hge, hlt⟩
      have hi : f.toNat - t.kernelPts.base.toNat / 4096 < 255 := by omega
      generalize hnum : f.toNat - t.kernelPts.base.toNat / 4096 = i at hi
      have hindex : (BitVec.ofNat 10 i).toNat = i := by
        rw [BitVec.toNat_ofNat]
        omega
      have htable := hspare (BitVec.ofNat 10 i)
      rw [started_below (by rw [hindex]; exact hi), hindex] at htable
      apply htable (AddressSpace.isPresent_kernelEntry _ _)
      apply BitVec.eq_of_toNat_eq
      have hframe := frameOf_table h hi
      exact hframe.trans (by omega)
  · rintro ⟨hne, htable⟩ a hpres heq
    rcases dir_cases h a hpres with ⟨hlt, hentry⟩ | ⟨-, hentry⟩
    · rw [hentry] at heq
      apply htable
      have hframe : f.toNat = t.kernelPts.base.toNat / 4096 + a.toNat := by
        rw [← heq]
        exact frameOf_table h hlt
      unfold IsTable
      omega
    · rw [hentry] at heq
      exact hne (heq.symm.trans (AddressSpace.frameOf_selfEntry p))

theorem started_ready (h : t.Startable stack p free) : Ready (t.started stack p) free := by
  have hout := (List.nodup_cons.mp h.nodup).1
  have hframe : ∀ q ∈ free, frameOf q ≠ frameOf p := by
    intro q hq heq
    have hqp := frame_inj h (List.mem_cons_of_mem p hq) List.mem_cons_self heq
    exact hout (hqp ▸ hq)
  refine ⟨rfl, started_selfMapped h, ?_, ?_, (List.nodup_cons.mp h.nodup).2, ?_⟩
  · intro i hi
    rw [started_dir, started_below hi]
    exact AddressSpace.isPresent_kernelEntry _ _
  · obtain ⟨-, -, -, hrest⟩ := h.links
    exact hrest.congr fun q hq => started_mem (hframe q hq) 0
  · intro q hq
    rw [started_spare_iff h]
    refine ⟨hframe q hq, ?_⟩
    rintro ⟨-, hlt⟩
    have hhigh := frame_high h (List.mem_cons_of_mem p hq)
    have hlow := h.low
    omega

/-- The tables are one array of entries. -/
theorem framesOf_table (h : t.Startable stack p free) {va : Uintptr}
    (hlt : (pdIndex va).toNat < 255) :
    framesOf t.mem (frameOf (AddressSpace.kernelEntry t.kernelPts.base (pdIndex va).toNat))
      (ptIndex va) = entryAt t.mem t.kernelPts.base (va.toNat / 4096) := by
  have hpd := pdIndex_toNat va
  have hal := h.aligned
  have hlow := h.low
  have haddr : BitVec.ofNat 32 ((frameOf (AddressSpace.kernelEntry t.kernelPts.base
      (pdIndex va).toNat)).toNat * 4096 + (ptIndex va).toNat * 4) =
      t.kernelPts.base + BitVec.ofNat 32 (va.toNat / 4096) * 4 := by
    have hfour : (4 : BitVec 32).toNat = 4 := rfl
    apply BitVec.eq_of_toNat_eq
    rw [frameOf_table h hlt, hpd, ptIndex_toNat, BitVec.toNat_add, BitVec.toNat_mul,
      BitVec.toNat_ofNat, BitVec.toNat_ofNat, hfour]
    omega
  unfold framesOf entryAt
  rw [haddr]

/-- Below the directory's own window an address is translated by the kernel's tables. -/
theorem started_entry (h : t.Startable stack p free) {va : Uintptr}
    (hva : va.toNat / 2 ^ 22 < 255) :
    (t.started stack p).entry va =
      if isPresent (entryAt t.mem t.kernelPts.base (va.toNat / 4096)) then
        some (entryAt t.mem t.kernelPts.base (va.toNat / 4096))
      else none := by
  have hpd := pdIndex_toNat va
  have hlt : (pdIndex va).toNat < 255 := by omega
  have hne := table_ne h hlt List.mem_cons_self
  have hdir : isPresent ((t.started stack p).mem (frameOf p) (pdIndex va)) = true := by
    rw [started_below hlt]
    exact AddressSpace.isPresent_kernelEntry _ _
  unfold Machine.entry walk
  rw [started_dir]
  refine (if_pos hdir).trans ?_
  rw [started_below hlt]
  have hword : (t.started stack p).mem (i386.frame (AddressSpace.kernelEntry t.kernelPts.base
      (pdIndex va).toNat)) (ptIndex va) = entryAt t.mem t.kernelPts.base (va.toNat / 4096) :=
    (started_mem hne (ptIndex va)).trans (framesOf_table h hlt)
  rw [hword]
  rfl

theorem started_place (h : t.Startable stack p free) {va : Uintptr}
    (hva : va.toNat / 2 ^ 22 < 255) :
    (t.started stack p).place va =
      if isPresent (entryAt t.mem t.kernelPts.base (va.toNat / 4096)) then
        some (frameOf (entryAt t.mem t.kernelPts.base (va.toNat / 4096)))
      else none := by
  have hentry := started_entry h hva
  by_cases hpres : isPresent (entryAt t.mem t.kernelPts.base (va.toNat / 4096)) = true
  · rw [if_pos hpres] at hentry ⊢
    exact Machine.place_of_entry rfl hentry
  · rw [if_neg hpres] at hentry ⊢
    exact Machine.place_eq_none rfl hentry

/-- Nothing is mapped for the process. -/
theorem started_place_user (h : t.Startable stack p free) {va : Uintptr}
    (hva : IsUser (frameOf va)) : (t.started stack p).place va = none := by
  apply Machine.place_eq_none rfl
  have hpd := pdIndex_toNat va
  have hge : 256 ≤ (pdIndex va).toNat := by
    unfold IsUser at hva
    rw [frameOf_toNat] at hva
    omega
  have habs : isPresent ((t.started stack p).mem (frameOf p) (pdIndex va)) = false := by
    rw [started_above hge]
    exact h.clean _ hge
  unfold Machine.entry walk
  rw [started_dir]
  exact if_neg (Bool.eq_false_iff.mp habs)

/-- The frames that are left to clients. -/
theorem started_client_iff (h : t.Startable stack p free) {f : Frame} :
    (t.started stack p).Client free f ↔ ¬ t.IsTable f ∧ ∀ q ∈ p :: free, frameOf q ≠ f := by
  constructor
  · intro hf
    obtain ⟨hne, htable⟩ := (started_spare_iff h).mp hf.spare
    refine ⟨htable, fun q hq => ?_⟩
    rcases List.mem_cons.mp hq with rfl | hq
    · exact hne.symm
    · exact hf.taken q hq
  · rintro ⟨htable, hpages⟩
    refine ⟨(started_spare_iff h).mpr ⟨?_, htable⟩, fun q hq => ?_⟩
    · exact (hpages p List.mem_cons_self).symm
    · exact hpages q (List.mem_cons_of_mem p hq)

/-- The memory of the first process. -/
def firstView (h : t.Startable stack p free) : ProcessView where
  mapped page := (t.started stack p).place (pageStart page)
  held := (t.started stack p).Client free
  data := (t.started stack p).mem
  user_held := by
    intro page huser f hf
    rw [started_place_user h (by rw [frameOf_pageStart]; exact huser)] at hf
    cases hf

theorem firstView_shows (h : t.Startable stack p free) :
    (t.started stack p).Shows free (firstView h) := by
  refine ⟨started_ready h, fun va _ => ?_, fun _ => Iff.rfl, fun _ _ _ => rfl⟩
  exact Machine.place_page (frameOf_pageStart (frameOf va)).symm

theorem firstView_user (h : t.Startable stack p free) {page : Frame} (hpage : IsUser page) :
    (firstView h).mapped page = none :=
  started_place_user h (by rw [frameOf_pageStart]; exact hpage)

/-- A page whose entry leads to itself stays where it is. -/
theorem firstView_identity (h : t.Startable stack p free) {page : Frame}
    (hpage : page.toNat < 255 * 1024)
    (hentry : entryAt t.mem t.kernelPts.base page.toNat = identity page.toNat) :
    (firstView h).mapped page = some page := by
  have hframe : (pageStart page).toNat / 4096 = page.toNat := by
    have hval := frameOf_toNat (pageStart page)
    rw [frameOf_pageStart] at hval
    exact hval.symm
  have hlow : (pageStart page).toNat / 2 ^ 22 < 255 := by omega
  have hplace := started_place h hlow
  rw [hframe, hentry, if_pos (isPresent_identity _)] at hplace
  refine hplace.trans (congrArg some (BitVec.eq_of_toNat_eq ?_))
  exact frameOf_identity (by omega)

end Started

end VirtMemManager
end Tysos
