import Tysos.PhysMem.Allocator
import Tysos.Paging.Mmu

/-!
# The kernel's page tables

`i386_VirtMemManager::Init`: places for the kernel's page tables and the temporary pages, and
the tables with an entry for each page of a section with `Bits`. The tables are one array of
entries, for the pages below 1 GB.
-/

namespace Tysos
open ByteMemory
set_option autoImplicit false

/-- What `Init` leaves: `kernelPts` to `tempP` are the sections of these names. -/
structure VirtMemManager where
  mem : Memory
  sections : SectionList
  kernelPts : Section
  tempPd : Section
  tempPt : Section
  tempP : Section

namespace VirtMemManager

def kernelPtsLength : Uintptr := 0x100000

def kernelPtsSection (base : PhysAddr) : Section where
  flags := Section.flagDefined ||| Section.flagBits ||| Section.flagKernelSection |||
    Section.flagRead ||| Section.flagWrite
  base := base
  length := kernelPtsLength
  expandDown := 0
  expandUp := 0
  lowerPadding := 0
  upperPadding := 0
  memSource := base

/-- A temporary page, before a place is found for it. -/
def tempSection : Section where
  flags := Section.flagDefined ||| Section.flagKernelSection ||| Section.flagRead |||
    Section.flagWrite
  base := 0
  length := pageSize
  expandDown := 0
  expandUp := 0
  lowerPadding := 0
  upperPadding := 0
  memSource := 0

/-- The pages of one section: `curPage` is the next. -/
def mapLoop (kpt : Address) (s : Section) (firstPage : PhysAddr) :
    Nat → PhysAddr → Memory → Option Memory
  | 0, _, _ => none
  | k + 1, curPage, m =>
    if curPage < s.base + s.length then
      let entry := ((s.memSource + curPage - firstPage + pageSize - 1) &&& pageMask) |||
        pPresent ||| pWritable ||| pGlobal
      mapLoop kpt s firstPage k (curPage + pageSize)
        (write32 m (kpt + (curPage >>> 12) * 4) entry)
    else some m

def mapSection (kpt : Address) (s : Section) (m : Memory) : Option Memory :=
  if s.has Section.flagBits then
    let firstPage := (s.base + pageSize - 1) &&& pageMask
    mapLoop kpt s firstPage (2 ^ 20 + 1) firstPage m
  else some m

/-- The loop over the sections: `k` of them left, from `i` on. -/
def tablesLoop (kpt : Address) (l : SectionList) : Nat → Nat → Memory → Option Memory
  | _, 0, m => some m
  | i, k + 1, m => do
    let s ← l.getItem i
    let m ← mapSection kpt s m
    tablesLoop kpt l (i + 1) k m

/-- `none` is an `Init` without tables: it returns early, hangs for want of a place, or reads
through a node that does not exist. -/
def init (report : BtrReport) (fuel : Nat) (al : PhysMemAllocator) (sections : SectionList) :
    Option VirtMemManager := do
  let (al, base) ← al.allocRange report fuel kernelPtsLength
  if base = 0 then none
  else do
    let kernelPts := kernelPtsSection base
    let sections := sections.add kernelPts
    let tempPd ← sections.findFree tempSection
    let sections := sections.add tempPd
    let tempPt ← sections.findFree tempSection
    let sections := sections.add tempPt
    let tempP ← sections.findFree tempSection
    let sections := sections.add tempP
    let mem ← tablesLoop kernelPts.base sections 0 sections.count al.mem
    some { mem, sections, kernelPts, tempPd, tempPt, tempP }

/-- The entry for page `q`. -/
def entryAt (m : Memory) (kpt : Address) (q : Nat) : BitVec 32 :=
  read32 m (kpt + BitVec.ofNat 32 q * 4)

/-- The entry that maps page `q` to itself. -/
def identity (q : Nat) : BitVec 32 :=
  BitVec.ofNat 32 (q * 4096) ||| pPresent ||| pWritable ||| pGlobal

/-- The sections to be mapped keep their addresses, and end below 1 GB. -/
def Plain (s : Section) : Prop :=
  s.has Section.flagBits = true →
    s.memSource = s.base ∧ s.base.toNat + s.length.toNat ≤ 2 ^ 30

/-- Page `q` begins in the section. -/
def Begins (s : Section) (q : Nat) : Prop :=
  s.has Section.flagBits = true ∧ s.Live (q * 4096)

/-- Page `q` has a byte of the section. -/
def Overlaps (s : Section) (q : Nat) : Prop :=
  s.has Section.flagBits = true ∧ ∃ x, s.Live x ∧ x / 4096 = q

instance (s : Section) (q : Nat) : Decidable (Begins s q) := inferInstanceAs (Decidable (_ ∧ _))

section Loops
variable {kpt : Address} {s : Section} {m : Memory}

theorem entryAt_write {q q' : Nat} (hq : q < 2 ^ 18) (hq' : q' < 2 ^ 18) (v : BitVec 32) :
    entryAt (write32 m (kpt + BitVec.ofNat 32 q * 4) v) kpt q' =
      if q' = q then v else entryAt m kpt q' := by
  unfold entryAt
  by_cases heq : q' = q
  · rw [if_pos heq, heq, read32_write32_self]
  · rw [if_neg heq]
    apply read32_write32_of_clear
    intro x hx hx'
    unfold InRange at hx hx'
    bv_omega

/-- The source moves with the page, whatever `Base` was rounded up by. -/
theorem source_eq {base : BitVec 32} (hbase : base.toNat ≤ 2 ^ 30) {q : Nat} (hq : q < 2 ^ 18)
    (hle : base.toNat ≤ q * 4096) :
    (base + BitVec.ofNat 32 (q * 4096) - ((base + pageSize - 1) &&& pageMask) + pageSize - 1) &&&
      pageMask = BitVec.ofNat 32 (q * 4096) := by
  have hsize : pageSize.toNat = 4096 := rfl
  have hround := and_pageMask_toNat (base + pageSize - 1)
  have hup : (base + pageSize - 1).toNat = base.toNat + 4095 := by bv_omega
  rw [hup] at hround
  apply BitVec.eq_of_toNat_eq
  rw [and_pageMask_toNat]
  generalize (base + pageSize - 1) &&& pageMask = first at hround
  have hpage : (BitVec.ofNat 32 (q * 4096)).toNat = q * 4096 := by
    rw [BitVec.toNat_ofNat]
    omega
  have hsum : (base + BitVec.ofNat 32 (q * 4096) - first + pageSize - 1).toNat =
      q * 4096 + (base.toNat + 4095 - first.toNat) := by
    bv_omega
  rw [hsum, hpage]
  omega

theorem page_toNat {c : Nat} (hc : c ≤ 2 ^ 18) : (BitVec.ofNat 32 (c * 4096)).toNat = c * 4096 := by
  rw [BitVec.toNat_ofNat]
  omega

theorem limit_toNat (hend : s.base.toNat + s.length.toNat ≤ 2 ^ 30) :
    (s.base + s.length).toNat = s.base.toNat + s.length.toNat := by
  rw [BitVec.toNat_add]
  omega

theorem mem_of_getItem {l : SectionList} {i : Nat} (h : l.getItem i = some s) :
    s ∈ l.kernelSections := by
  unfold SectionList.getItem at h
  split at h
  · exact List.mem_of_getElem? h
  · exact List.mem_of_getElem? h

/-- From page `c` on the loop maps each page that begins before the end to itself. -/
theorem mapLoop_entries (hsource : s.memSource = s.base)
    (hend : s.base.toNat + s.length.toNat ≤ 2 ^ 30) {k c : Nat} (hfirst : s.base.toNat ≤ c * 4096)
    (hc : c ≤ 2 ^ 18) (hk : 2 ^ 18 < c + k) :
    ∃ m', mapLoop kpt s ((s.base + pageSize - 1) &&& pageMask) k (BitVec.ofNat 32 (c * 4096)) m =
        some m' ∧
      ∀ q < 2 ^ 18, entryAt m' kpt q =
        if c ≤ q ∧ q * 4096 < s.base.toNat + s.length.toNat then identity q
        else entryAt m kpt q := by
  induction k generalizing c m with
  | zero => omega
  | succ k ih =>
    have hpage := page_toNat hc
    unfold mapLoop
    by_cases hlt : BitVec.ofNat 32 (c * 4096) < s.base + s.length
    · rw [if_pos hlt]
      rw [BitVec.lt_def, hpage, limit_toNat hend] at hlt
      have hin : c < 2 ^ 18 := by omega
      have hfirst' : s.base.toNat ≤ (c + 1) * 4096 :=
        Nat.le_trans hfirst (Nat.mul_le_mul_right 4096 (Nat.le_succ c))
      have hk' : 2 ^ 18 < c + 1 + k := by omega
      have hnext : BitVec.ofNat 32 (c * 4096) + pageSize = BitVec.ofNat 32 ((c + 1) * 4096) := by
        have hsize : pageSize.toNat = 4096 := rfl
        bv_omega
      have hindex : BitVec.ofNat 32 (c * 4096) >>> 12 = BitVec.ofNat 32 c := by
        apply BitVec.eq_of_toNat_eq
        rw [BitVec.toNat_ushiftRight, hpage, Nat.shiftRight_eq_div_pow, BitVec.toNat_ofNat]
        omega
      dsimp only
      rw [hsource, source_eq (by omega) hin hfirst, hnext, hindex]
      obtain ⟨m', hloop, hentries⟩ := ih (c := c + 1)
        (m := write32 m (kpt + BitVec.ofNat 32 c * 4) (identity c)) hfirst' hin hk'
      refine ⟨m', hloop, fun q hq => ?_⟩
      rw [hentries q hq, entryAt_write hin hq]
      by_cases heq : q = c
      · rw [if_neg (by omega), if_pos heq, if_pos (by omega), heq]
      · rw [if_neg heq]
        by_cases hin : c + 1 ≤ q ∧ q * 4096 < s.base.toNat + s.length.toNat
        · rw [if_pos hin, if_pos (by omega)]
        · rw [if_neg hin, if_neg (by omega)]
    · rw [if_neg hlt]
      rw [BitVec.lt_def, hpage, limit_toNat hend] at hlt
      refine ⟨m, rfl, fun q _ => ?_⟩
      rw [if_neg (by omega)]

/-- A section leaves the entries of the pages that begin in it, and no others. -/
theorem mapSection_entries (hs : Plain s) : ∃ m', mapSection kpt s m = some m' ∧
    ∀ q < 2 ^ 18, entryAt m' kpt q = if Begins s q then identity q else entryAt m kpt q := by
  unfold mapSection
  by_cases hbits : s.has Section.flagBits = true
  · obtain ⟨hsource, hend⟩ := hs hbits
    have hround := and_pageMask_toNat (s.base + pageSize - 1)
    have hup : (s.base + pageSize - 1).toNat = s.base.toNat + 4095 := by
      have hsize : pageSize.toNat = 4096 := rfl
      bv_omega
    rw [hup] at hround
    have hfirst : (s.base + pageSize - 1) &&& pageMask =
        BitVec.ofNat 32 ((s.base.toNat + 4095) / 4096 * 4096) := by
      apply BitVec.eq_of_toNat_eq
      rw [hround, BitVec.toNat_ofNat]
      omega
    obtain ⟨m', hloop, hentries⟩ := @mapLoop_entries kpt s m hsource hend (2 ^ 20 + 1)
      ((s.base.toNat + 4095) / 4096) (by omega) (by omega) (by omega)
    rw [if_pos hbits]
    dsimp only
    rw [← hfirst] at hloop
    refine ⟨m', hloop, fun q hq => ?_⟩
    rw [hentries q hq]
    have hsame : ((s.base.toNat + 4095) / 4096 ≤ q ∧
        q * 4096 < s.base.toNat + s.length.toNat) ↔ Begins s q := by
      unfold Begins Section.Live
      simp only [hbits, true_and]
      omega
    rw [if_congr hsame rfl rfl]
  · rw [if_neg hbits]
    refine ⟨m, rfl, fun q _ => ?_⟩
    rw [if_neg fun hb => hbits hb.1]

/-- After the loop the entries of the pages that begin in one of the sections are made. -/
theorem tablesLoop_entries {l : SectionList} (hl : ∀ s ∈ l.kernelSections, Plain s) {i k : Nat}
    {m' : Memory} (h : tablesLoop kpt l i k m = some m') :
    ∀ q < 2 ^ 18,
      ((∃ j s, i ≤ j ∧ j < i + k ∧ l.getItem j = some s ∧ Begins s q) →
        entryAt m' kpt q = identity q) ∧
      ((∀ j s, i ≤ j → j < i + k → l.getItem j = some s → ¬ Begins s q) →
        entryAt m' kpt q = entryAt m kpt q) := by
  induction k generalizing i m with
  | zero =>
    obtain rfl := Option.some.inj h
    intro q _
    refine ⟨?_, fun _ => rfl⟩
    rintro ⟨j, s, hlo, hhi, -⟩
    omega
  | succ k ih =>
    obtain ⟨s, hs, h⟩ := Option.bind_eq_some_iff.mp h
    obtain ⟨m₁, hm₁, h⟩ := Option.bind_eq_some_iff.mp h
    have hmem : s ∈ l.kernelSections := mem_of_getItem hs
    obtain ⟨m₁', hm₁', hentries⟩ := @mapSection_entries kpt s m (hl s hmem)
    obtain rfl : m₁' = m₁ := Option.some.inj (hm₁'.symm.trans hm₁)
    intro q hq
    obtain ⟨hmade, hkept⟩ := ih h q hq
    constructor
    · rintro ⟨j, s', hlo, hhi, hj, hbegins⟩
      by_cases hlater : ∃ j s, i + 1 ≤ j ∧ j < i + 1 + k ∧ l.getItem j = some s ∧ Begins s q
      · exact hmade hlater
      · -- the page begins in this section, and in none after it
        have hji : j = i := by
          by_contra hne
          exact hlater ⟨j, s', by omega, by omega, hj, hbegins⟩
        obtain rfl : s = s' := by
          rw [hji, hs] at hj
          exact Option.some.inj hj
        rw [hkept fun j s hlo hhi hj hb => hlater ⟨j, s, hlo, hhi, hj, hb⟩, hentries q hq,
          if_pos hbegins]
    · intro hnone
      rw [hkept fun j s hlo hhi hj => hnone j s (by omega) (by omega) hj, hentries q hq,
        if_neg (hnone i s (by omega) (by omega) hs)]

end Loops
/-- The tables map each byte of the sections with `Bits` to itself, and no page without one. -/
structure MapsExactly (t : VirtMemManager) : Prop where
  mapped : ∀ s ∈ t.sections.kernelSections, s.has Section.flagBits = true → ∀ v : Uintptr,
    s.Live v.toNat → isPresent (entryAt t.mem t.kernelPts.base (v.toNat / 4096)) = true ∧
      frameOf (entryAt t.mem t.kernelPts.base (v.toNat / 4096)) = frameOf v
  unmapped : ∀ q < 2 ^ 18, (∀ s ∈ t.sections.kernelSections, ¬ Overlaps s q) →
    isPresent (entryAt t.mem t.kernelPts.base q) = false

/-- The sections there are to map, with the tables themselves at `base`. -/
def toMap (l : SectionList) (base : PhysAddr) : List Section :=
  l.kernelSections ++ [kernelPtsSection base]

/-- What the memory at `base` holds would do for the pages that are not made: those where
sections only end are there, and those without a section are not. -/
structure Lucky (l : SectionList) (base : PhysAddr) (m : Memory) : Prop where
  ends : ∀ q < 2 ^ 18, (∃ s ∈ toMap l base, Overlaps s q) →
    (∀ s ∈ toMap l base, ¬ Begins s q) →
      isPresent (entryAt m base q) = true ∧ (frameOf (entryAt m base q)).toNat = q
  empty : ∀ q < 2 ^ 18, (∀ s ∈ toMap l base, ¬ Overlaps s q) →
    isPresent (entryAt m base q) = false

section Init
variable {report : BtrReport} {fuel : Nat} {al : PhysMemAllocator} {l : SectionList}
  {t : VirtMemManager} {bmp : Address} {s : Section}

theorem findfreeLoop_flags {sections : List Section} {request : Section}
    {starts : List Uintptr} (h : SectionList.findfreeLoop sections request starts = some s) :
    s.flags = request.flags := by
  induction starts with
  | nil => exact absurd h (Option.some_ne_none s).symm
  | cons start starts ih =>
    unfold SectionList.findfreeLoop at h
    dsimp only at h
    split at h
    · obtain rfl := Option.some.inj h
      rfl
    · exact ih h

theorem flags_of_findFree (h : l.findFree tempSection = some s) : s.flags = tempSection.flags :=
  findfreeLoop_flags h

theorem allocRangeLoop_bound {b : PhysMemBitmap} {m : Memory} {pages : BitVec 32} {k : Nat}
    {i : BitVec 32} {r : PhysAddr} (h : b.allocRangeLoop m pages k i = some r) :
    r = 0 ∨ ∃ i', i' < b.bmpSize * 8 - pages ∧ r = b.base + i' * b.ps := by
  induction k generalizing i with
  | zero => exact absurd h (Option.some_ne_none r).symm
  | succ k ih =>
    unfold PhysMemBitmap.allocRangeLoop at h
    by_cases hi : i < b.bmpSize * 8 - pages
    · rw [if_pos hi] at h
      split at h
      · exact ih h
      · exact .inr ⟨i, hi, (Option.some.inj h).symm⟩
    · rw [if_neg hi] at h
      exact .inl (Option.some.inj h).symm

theorem allocRange_low (hbmp : al.bmp = PhysMemBitmap.lowMemory bmp) {al' : PhysMemAllocator}
    {base : PhysAddr} (h : al.allocRange report fuel kernelPtsLength = some (al', base)) :
    al' = al ∧ base.toNat + 0x100000 ≤ 2 ^ 24 := by
  have hlen : ¬ kernelPtsLength ≤ pageSize := by decide
  unfold PhysMemAllocator.allocRange at h
  rw [if_neg hlen] at h
  obtain ⟨r, hr, hpair⟩ := Option.bind_eq_some_iff.mp h
  obtain ⟨rfl, rfl⟩ := Prod.mk.inj (Option.some.inj hpair)
  refine ⟨rfl, ?_⟩
  rw [hbmp] at hr
  rcases allocRangeLoop_bound hr with rfl | ⟨i, hi, rfl⟩
  · decide
  · have hpages : (PhysMemBitmap.lowMemory bmp).pageCount kernelPtsLength = 256 := by
      show (kernelPtsLength + 0x1000 - 1) / 0x1000 = 256
      decide
    rw [hpages] at hi
    have hlimit : (PhysMemBitmap.lowMemory bmp).bmpSize * 8 - 256 = 3840 := by
      show (512 : BitVec 32) * 8 - 256 = 3840
      decide
    rw [hlimit, BitVec.lt_def] at hi
    have h3840 : (3840 : BitVec 32).toNat = 3840 := rfl
    have haddr : ((PhysMemBitmap.lowMemory bmp).base + i * (PhysMemBitmap.lowMemory bmp).ps).toNat =
        i.toNat * 4096 := by
      have hbase : (PhysMemBitmap.lowMemory bmp).base = 0 := rfl
      have hps : (PhysMemBitmap.lowMemory bmp).ps = 0x1000 := rfl
      rw [hbase, hps]
      bv_omega
    omega

theorem no_bits_of_flags (h : s.flags = tempSection.flags) : ¬ s.has Section.flagBits = true := by
  unfold Section.has
  rw [h]
  decide

theorem plain_of_flags (h : s.flags = tempSection.flags) : Plain s :=
  fun hbits => absurd hbits (no_bits_of_flags h)

theorem add_of_kernel (h : s.has Section.flagKernelSection = true) :
    (l.add s).kernelSections = l.kernelSections ++ [s] := by
  unfold SectionList.add
  rw [if_pos h]

theorem kernel_of_flags (h : s.flags = tempSection.flags) :
    s.has Section.flagKernelSection = true := by
  unfold Section.has
  rw [h]
  decide

/-- An `Init` that succeeds adds the section of the tables, and sections without `Bits`. -/
theorem init_sections (hbmp : al.bmp = PhysMemBitmap.lowMemory bmp)
    (h : init report fuel al l = some t) :
    al.allocRange report fuel kernelPtsLength = some (al, t.kernelPts.base) ∧
      tablesLoop t.kernelPts.base t.sections 0 t.sections.count al.mem = some t.mem ∧
      ∀ s, (s ∈ t.sections.kernelSections → s ∈ l.kernelSections ∨
        s = kernelPtsSection t.kernelPts.base ∨ s.flags = tempSection.flags) ∧
        (s ∈ toMap l t.kernelPts.base → s ∈ t.sections.kernelSections) := by
  obtain ⟨⟨al', base⟩, halloc, hrest⟩ := Option.bind_eq_some_iff.mp h
  obtain ⟨rfl, -⟩ := allocRange_low hbmp halloc
  dsimp only at hrest
  split at hrest
  · exact absurd hrest (Option.some_ne_none t).symm
  · obtain ⟨tempPd, hpd, hrest⟩ := Option.bind_eq_some_iff.mp hrest
    obtain ⟨tempPt, hpt, hrest⟩ := Option.bind_eq_some_iff.mp hrest
    obtain ⟨tempP, hp, hrest⟩ := Option.bind_eq_some_iff.mp hrest
    obtain ⟨mem, hloop, hrest⟩ := Option.bind_eq_some_iff.mp hrest
    obtain rfl := Option.some.inj hrest
    have hpd' := flags_of_findFree hpd
    have hpt' := flags_of_findFree hpt
    have hp' := flags_of_findFree hp
    have hkernel : (kernelPtsSection base).has Section.flagKernelSection = true := by
      show decide ((kernelPtsSection 0).flags &&& Section.flagKernelSection ≠ 0) = true
      decide
    refine ⟨halloc, hloop, fun s => ?_⟩
    unfold toMap
    dsimp only
    rw [add_of_kernel (kernel_of_flags hp'), add_of_kernel (kernel_of_flags hpt'),
      add_of_kernel (kernel_of_flags hpd'), add_of_kernel hkernel]
    simp only [List.mem_append, List.mem_singleton]
    constructor
    · rintro ((((hs | rfl) | rfl) | rfl) | rfl)
      · exact .inl hs
      · exact .inr (.inl rfl)
      · exact .inr (.inr hpd')
      · exact .inr (.inr hpt')
      · exact .inr (.inr hp')
    · exact fun hs => .inl (.inl (.inl hs))

/-- The temporary pages do not count. -/
theorem exists_mapped_iff (hbmp : al.bmp = PhysMemBitmap.lowMemory bmp)
    (h : init report fuel al l = some t) {P : Section → Prop}
    (hP : ∀ s, P s → s.has Section.flagBits = true) :
    (∃ s ∈ t.sections.kernelSections, P s) ↔ ∃ s ∈ toMap l t.kernelPts.base, P s := by
  obtain ⟨-, -, hsections⟩ := init_sections hbmp h
  constructor
  · rintro ⟨s, hs, hp⟩
    refine ⟨s, ?_, hp⟩
    rcases (hsections s).1 hs with hs | rfl | hflags
    · exact List.mem_append_left _ hs
    · exact List.mem_append_right _ (List.mem_singleton.mpr rfl)
    · exact absurd (hP s hp) (no_bits_of_flags hflags)
  · rintro ⟨s, hs, hp⟩
    exact ⟨s, (hsections s).2 hs, hp⟩

theorem forall_mapped_iff (hbmp : al.bmp = PhysMemBitmap.lowMemory bmp)
    (h : init report fuel al l = some t) {P : Section → Prop}
    (hP : ∀ s, P s → s.has Section.flagBits = true) :
    (∀ s ∈ t.sections.kernelSections, ¬ P s) ↔ ∀ s ∈ toMap l t.kernelPts.base, ¬ P s := by
  have hiff := not_congr (exists_mapped_iff hbmp h hP)
  simpa only [not_exists, not_and] using hiff

theorem init_plain (hbmp : al.bmp = PhysMemBitmap.lowMemory bmp)
    (hl : ∀ s ∈ l.kernelSections, Plain s) (h : init report fuel al l = some t) :
    ∀ s ∈ t.sections.kernelSections, Plain s := by
  obtain ⟨halloc, -, hsections⟩ := init_sections hbmp h
  intro s hs
  rcases (hsections s).1 hs with hs | rfl | hflags
  · exact hl s hs
  · intro _
    have hlow := (allocRange_low hbmp halloc).2
    have hlength : (kernelPtsSection t.kernelPts.base).length.toNat = 0x100000 := rfl
    rw [hlength]
    exact ⟨rfl, Nat.le_trans hlow (by decide)⟩
  · exact plain_of_flags hflags

theorem visited (hs : s ∈ l.kernelSections) :
    ∃ j, 0 ≤ j ∧ j < 0 + l.count ∧ l.getItem j = some s := by
  obtain ⟨j, hj, hget⟩ := List.getElem_of_mem hs
  refine ⟨j, Nat.zero_le j, ?_, ?_⟩
  · unfold SectionList.count
    omega
  · unfold SectionList.getItem
    rw [if_pos hj, List.getElem?_eq_getElem hj, hget]

theorem init_entries (hbmp : al.bmp = PhysMemBitmap.lowMemory bmp)
    (hl : ∀ s ∈ l.kernelSections, Plain s) (h : init report fuel al l = some t) {q : Nat}
    (hq : q < 2 ^ 18) :
    ((∃ s ∈ t.sections.kernelSections, Begins s q) →
      entryAt t.mem t.kernelPts.base q = identity q) ∧
    ((∀ s ∈ t.sections.kernelSections, ¬ Begins s q) →
      entryAt t.mem t.kernelPts.base q = entryAt al.mem t.kernelPts.base q) := by
  have hloop := (init_sections hbmp h).2.1
  obtain ⟨hmade, hkept⟩ := tablesLoop_entries (init_plain hbmp hl h) hloop q hq
  constructor
  · rintro ⟨s, hs, hbegins⟩
    obtain ⟨j, hlo, hhi, hj⟩ := visited hs
    exact hmade ⟨j, s, hlo, hhi, hj, hbegins⟩
  · intro hnone
    exact hkept fun j s _ _ hj => hnone s (mem_of_getItem hj)

theorem isPresent_identity (q : Nat) : isPresent (identity q) = true :=
  isPresent_flags _ pWritable pGlobal

theorem frameOf_identity {q : Nat} (hq : q < 2 ^ 18) : (frameOf (identity q)).toNat = q := by
  unfold identity
  rw [frameOf_flags _ rfl rfl, frameOf_toNat, page_toNat (by omega)]
  omega

theorem Begins.overlaps {q : Nat} (h : Begins s q) : Overlaps s q :=
  ⟨h.1, q * 4096, h.2, Nat.mul_div_cancel q (by decide)⟩

theorem Plain.page_lt (h : Plain s) {x : Nat} (hbits : s.has Section.flagBits = true)
    (hx : s.Live x) : x / 4096 < 2 ^ 18 ∧ x < 2 ^ 32 := by
  have hend := (h hbits).2
  unfold Section.Live at hx
  omega

/-- `Init` maps exactly the kernel's memory exactly if the memory it finds for the tables
happens to hold the right entries for the pages that no section begins in. -/
theorem init_mapsExactly_iff (report : BtrReport) (fuel : Nat) (al : PhysMemAllocator)
    (l : SectionList) (al' : PhysMemAllocator) (base : PhysAddr) (t : VirtMemManager)
    (bmp : Address) (hbmp : al.bmp = PhysMemBitmap.lowMemory bmp)
    (hl : ∀ s ∈ l.kernelSections, Plain s)
    (halloc : al.allocRange report fuel kernelPtsLength = some (al', base))
    (h : init report fuel al l = some t) : MapsExactly t ↔ Lucky l base al.mem := by
  have hplain := init_plain hbmp hl h
  obtain ⟨-, rfl⟩ : al' = al ∧ base = t.kernelPts.base :=
    Prod.mk.inj (Option.some.inj (halloc.symm.trans (init_sections hbmp h).1))
  constructor
  · intro hexact
    constructor
    · intro q hq hover hnone
      rw [← exists_mapped_iff hbmp h fun s hs => hs.1] at hover
      rw [← forall_mapped_iff hbmp h fun s hs => hs.1] at hnone
      obtain ⟨s, hs, hbits, x, hx, hxq⟩ := hover
      obtain ⟨-, hx32⟩ := (hplain s hs).page_lt hbits hx
      have hval : (BitVec.ofNat 32 x).toNat = x := by
        rw [BitVec.toNat_ofNat]
        omega
      have hmapped := hexact.mapped s hs hbits (BitVec.ofNat 32 x) (by rw [hval]; exact hx)
      rw [hval, hxq, (init_entries hbmp hl h hq).2 hnone] at hmapped
      refine ⟨hmapped.1, ?_⟩
      rw [hmapped.2, frameOf_toNat, hval]
      exact hxq
    · intro q hq hempty
      rw [← forall_mapped_iff hbmp h fun s hs => hs.1] at hempty
      have hunmapped := hexact.unmapped q hq hempty
      rwa [(init_entries hbmp hl h hq).2 fun s hs hb => hempty s hs hb.overlaps] at hunmapped
  · intro hlucky
    constructor
    · intro s hs hbits v hv
      obtain ⟨hq, -⟩ := (hplain s hs).page_lt hbits hv
      obtain ⟨hmade, hkept⟩ := init_entries hbmp hl h hq
      have hframe : (frameOf v).toNat = v.toNat / 4096 := frameOf_toNat v
      by_cases hbegins : ∃ s ∈ t.sections.kernelSections, Begins s (v.toNat / 4096)
      · rw [hmade hbegins]
        refine ⟨isPresent_identity _, BitVec.eq_of_toNat_eq ?_⟩
        rw [frameOf_identity hq, hframe]
      · have hnone : ∀ s ∈ t.sections.kernelSections, ¬ Begins s (v.toNat / 4096) :=
          fun s hs hb => hbegins ⟨s, hs, hb⟩
        have hover : ∃ s ∈ toMap l t.kernelPts.base, Overlaps s (v.toNat / 4096) :=
          (exists_mapped_iff hbmp h fun s hs => hs.1).mp ⟨s, hs, hbits, v.toNat, hv, rfl⟩
        obtain ⟨hpres, hends⟩ :=
          hlucky.ends _ hq hover ((forall_mapped_iff hbmp h fun s hs => hs.1).mp hnone)
        rw [hkept hnone]
        refine ⟨hpres, BitVec.eq_of_toNat_eq ?_⟩
        rw [hends, hframe]
    · intro q hq hempty
      rw [(init_entries hbmp hl h hq).2 fun s hs hb => hempty s hs hb.overlaps]
      exact hlucky.empty q hq ((forall_mapped_iff hbmp h fun s hs => hs.1).mp hempty)

end Init

section Sample

/-- All of the first 16 MB is free but for its first page; the rest of memory is empty. -/
def lowFree : PhysMemAllocator where
  mem a := if InRange 0x200000 512 a then (if a = 0x200000 then 0xfe else 0xff) else 0
  stack := ⟨0⟩
  bmp := PhysMemBitmap.lowMemory 0x200000

/-- A section that starts in the middle of a page. -/
def unaligned : Section := ⟨0x4087, 0x300800, 0x1000, 0, 0, 0, 0, 0x300800⟩

theorem lowFree_range : lowFree.allocRange lockBtrReport 0 kernelPtsLength =
    some (lowFree, 0x1000) := by
  have hlen : ¬ kernelPtsLength ≤ pageSize := by decide
  have hrange : lowFree.bmp.allocRange lowFree.mem kernelPtsLength = some 0x1000 := by
    decide +kernel
  unfold PhysMemAllocator.allocRange
  rw [if_neg hlen, hrange]
  rfl

def unalignedList : SectionList := ⟨[unaligned], []⟩

theorem unaligned_init : (init lockBtrReport 0 lowFree unalignedList).isSome = true := by
  decide +kernel

theorem unaligned_plain : ∀ s ∈ unalignedList.kernelSections, Plain s := by
  intro s hs
  obtain rfl := List.mem_singleton.mp hs
  intro _
  decide

theorem init_mapsExactly_unaligned : ∃ t, init lockBtrReport 0 lowFree unalignedList = some t ∧
    (MapsExactly t ↔ Lucky unalignedList 0x1000 lowFree.mem) := by
  obtain ⟨t, ht⟩ := Option.isSome_iff_exists.mp unaligned_init
  exact ⟨t, ht, init_mapsExactly_iff lockBtrReport 0 lowFree unalignedList lowFree 0x1000 t
    0x200000 rfl unaligned_plain lowFree_range ht⟩

/-- The bytes of the first page of the section are not mapped. -/
theorem unaligned_not_mapped : ∃ t, init lockBtrReport 0 lowFree unalignedList = some t ∧
    ¬ MapsExactly t := by
  obtain ⟨t, ht⟩ := Option.isSome_iff_exists.mp unaligned_init
  refine ⟨t, ht, fun hexact => ?_⟩
  obtain ⟨halloc, -, hsections⟩ := init_sections rfl ht
  have hbase : t.kernelPts.base = 0x1000 :=
    congrArg Prod.snd (Option.some.inj (halloc.symm.trans lowFree_range))
  have hnone : ∀ s ∈ t.sections.kernelSections, ¬ Begins s 0x300 := by
    intro s hs
    rcases (hsections s).1 hs with hs | rfl | hflags
    · obtain rfl := List.mem_singleton.mp hs
      decide
    · rw [hbase]
      decide
    · exact fun hb => no_bits_of_flags hflags hb.1
  have hkept := (init_entries rfl unaligned_plain ht (q := 0x300) (by decide)).2 hnone
  have hmem : unaligned ∈ t.sections.kernelSections :=
    (hsections unaligned).2 (List.mem_append_left _ List.mem_cons_self)
  have hmapped := (hexact.mapped unaligned hmem (by decide) 0x300800 (by decide)).1
  have hpage : (0x300800 : Uintptr).toNat / 4096 = 0x300 := by decide
  rw [hpage, hkept, hbase] at hmapped
  exact absurd hmapped (by decide +kernel)

end Sample

end VirtMemManager
end Tysos
