import Tysos.Paging.CurrentSpace

/-!
# New address spaces

`i386_AddressSpace::Init`. Before paging the directory is a page straight off the stack; later
it is the page that `MapPage` takes for the temporary page directory, and `addr_space` is what
`MapPage` returns.
-/

namespace Tysos
open PageTables
set_option autoImplicit false

namespace Machine

/-- `Alloc` of the physical memory; here too an empty stack means a search without end. -/
def alloc (mapPage : MapPageCall) (s : Machine) : Option (PhysAddr × Machine) := do
  let p ← s.beginAlloc
  let (link, s) ← s.read mapPage p
  some (p, s.withTop link)

end Machine

/-- What `MapPage` returns for one page. -/
def MapCall.result (_ : MapCall) : PhysAddr := 0

namespace AddressSpace

def kernelEntry (kernelPts : Uintptr) (i : Nat) : BitVec 32 :=
  ((kernelPts + BitVec.ofNat 32 i * 0x1000) &&& pageMask) ||| pPresent ||| pWritable ||| pGlobal

def selfEntry (addrSpace : PhysAddr) : BitVec 32 :=
  addrSpace ||| pPresent ||| pWritable ||| pGlobal

section Code
variable (mapPage : MapPageCall)

/-- `wr_pd` and `addr_space`. -/
def openDirectory (s : Machine) : Option (Uintptr × PhysAddr × Machine) :=
  if s.enabled then do
    let call : MapCall := { virtaddr := s.tempPd }
    let s ← mapPage call s
    some (s.tempPd, call.result, s)
  else do
    let (wrPd, s) ← s.alloc mapPage
    some (wrPd, wrPd, s)

/-- The first `i` turns of the loop over the kernel's entries. -/
def mapKernel (wrPd : Uintptr) : Nat → Machine → Option Machine
  | 0, s => some s
  | i + 1, s => do
    let s ← mapKernel wrPd i s
    s.write mapPage (wrPd + BitVec.ofNat 32 i * 4) (kernelEntry s.kernelPts i)

/-- Fill in the directory at `wrPd`. -/
def fill (wrPd : Uintptr) (addrSpace : PhysAddr) (s : Machine) : Option Machine :=
  if wrPd = 0 then some s
  else do
    let s ← mapKernel mapPage wrPd 255 s
    let s ← s.write mapPage (wrPd + 255 * 4) (selfEntry addrSpace)
    if s.enabled then mapPage { virtaddr := s.tempPd, unmap := true } s else some s

/-- `addr_space` after `Init`, and the machine. -/
def init (s : Machine) : Option (PhysAddr × Machine) := do
  let (wrPd, addrSpace, s) ← openDirectory mapPage s
  let s ← fill mapPage wrPd addrSpace s
  some (addrSpace, s)

end Code

/-- The directory is one of the pages that were free, with the kernel's tables, itself as table
255, and nothing above. -/
structure Consistent (free : List PhysAddr) (kernelPts : Uintptr) (addrSpace : PhysAddr)
    (mem : FrameMemory) : Prop where
  page : addrSpace ∈ free
  kernel : ∀ i : Index, i.toNat < 255 → isPresent (mem (frameOf addrSpace) i) = true ∧
    frameOf (mem (frameOf addrSpace) i) = frameOf (kernelPts + i.setWidth 32 * 0x1000)
  self : isPresent (mem (frameOf addrSpace) 255) = true ∧
    frameOf (mem (frameOf addrSpace) 255) = frameOf addrSpace
  user : ∀ i : Index, 256 ≤ i.toNat → isPresent (mem (frameOf addrSpace) i) = false

section Entries

theorem frameOf_kernelEntry (kernelPts : Uintptr) (i : Nat) :
    frameOf (kernelEntry kernelPts i) = frameOf (kernelPts + BitVec.ofNat 32 i * 0x1000) := by
  unfold kernelEntry
  rw [frameOf_flags _ rfl rfl, frameOf_and_pageMask]

theorem isPresent_kernelEntry (kernelPts : Uintptr) (i : Nat) :
    isPresent (kernelEntry kernelPts i) = true :=
  isPresent_flags _ pWritable pGlobal

theorem frameOf_selfEntry (addrSpace : PhysAddr) :
    frameOf (selfEntry addrSpace) = frameOf addrSpace :=
  frameOf_flags addrSpace rfl rfl

theorem isPresent_selfEntry (addrSpace : PhysAddr) :
    isPresent (selfEntry addrSpace) = true :=
  isPresent_flags addrSpace pWritable pGlobal

end Entries

/-- The page at `wrPd` is frame `f`, whatever is written into it. -/
structure Shown (s : Machine) (wrPd : Uintptr) (f : Frame) : Prop where
  aligned : wrPd &&& pageMask = wrPd
  place : ∀ mem : FrameMemory, (∀ f', f' ≠ f → ∀ j, mem f' j = s.mem f' j) →
    ∀ va, frameOf va = frameOf wrPd → (s.withMem mem).place va = some f

/-- The directory with its first `i` entries written. -/
def filled (s : Machine) (f : Frame) (i : Nat) : FrameMemory :=
  fun f' j => if f' = f ∧ j.toNat < i then kernelEntry s.kernelPts j.toNat else s.mem f' j

section Fill
variable {mapPage : MapPageCall} {s : Machine} {wrPd : Uintptr} {f : Frame}

theorem word_of_aligned (hal : wrPd &&& pageMask = wrPd) {i : Nat} (hi : i < 1024) :
    frameOf (wrPd + BitVec.ofNat 32 i * 4) = frameOf wrPd ∧
      wordIndex (wrPd + BitVec.ofNat 32 i * 4) = BitVec.ofNat 10 i := by
  have hwrPd := wrPd.isLt
  have hmask := and_pageMask_toNat wrPd
  rw [hal] at hmask
  have hadd : (wrPd + BitVec.ofNat 32 i * 4).toNat = wrPd.toNat + i * 4 := by
    have h4 : (4 : BitVec 32).toNat = 4 := rfl
    rw [BitVec.toNat_add, BitVec.toNat_mul, BitVec.toNat_ofNat, h4]
    omega
  constructor
  · apply BitVec.eq_of_toNat_eq
    rw [frameOf_toNat, frameOf_toNat, hadd]
    omega
  · apply BitVec.eq_of_toNat_eq
    rw [wordIndex_toNat, hadd, BitVec.toNat_ofNat]
    omega

theorem filled_of_ne (i : Nat) {f' : Frame} (h : f' ≠ f) (j : Index) :
    filled s f i f' j = s.mem f' j := if_neg fun hc => h hc.1

theorem filled_below {i : Nat} {j : Index} (hj : j.toNat < i) :
    filled s f i f j = kernelEntry s.kernelPts j.toNat := if_pos ⟨rfl, hj⟩

theorem filled_above {i : Nat} {j : Index} (hj : i ≤ j.toNat) :
    filled s f i f j = s.mem f j := if_neg fun hc => absurd hc.2 (Nat.not_lt.mpr hj)

theorem filled_succ {i : Nat} (hi : i < 1024) :
    setWord (filled s f i) f (BitVec.ofNat 10 i) (kernelEntry s.kernelPts i) =
      filled s f (i + 1) := by
  have hval : (BitVec.ofNat 10 i : Index).toNat = i := by
    rw [BitVec.toNat_ofNat]
    omega
  funext f' j
  by_cases hf : f' = f
  · subst f'
    by_cases hj : j = BitVec.ofNat 10 i
    · rw [hj, setWord_self, filled_below (by omega), hval]
    · have hne : j.toNat ≠ i := by
        intro hc
        exact hj (BitVec.eq_of_toNat_eq (hc.trans hval.symm))
      rw [setWord_of_index_ne hj]
      rcases Nat.lt_or_ge j.toNat i with hlt | hge
      · rw [filled_below hlt, filled_below (by omega)]
      · rw [filled_above hge, filled_above (by omega)]
  · rw [setWord_of_frame_ne hf, filled_of_ne i hf, filled_of_ne (i + 1) hf]

theorem mapKernel_eq (h : Shown s wrPd f) {i : Nat} (hi : i ≤ 1024) :
    mapKernel mapPage wrPd i s = some (s.withMem (filled s f i)) := by
  induction i with
  | zero =>
    have hnone : filled s f 0 = s.mem := by
      funext f' j
      exact if_neg fun hc => absurd hc.2 (Nat.not_lt_zero _)
    rw [hnone]
    rfl
  | succ i ih =>
    obtain ⟨hframe, hword⟩ := word_of_aligned h.aligned (i := i) (by omega)
    have hplace := h.place (filled s f i) (fun f' hf' => filled_of_ne i hf') _ hframe
    unfold mapKernel
    rw [ih (by omega)]
    dsimp only [Option.bind_eq_bind, Option.bind_some]
    rw [Machine.write_eq hplace hword]
    rw [Machine.withMem_mem, Machine.withMem_withMem, ← filled_succ (by omega)]
    rfl

theorem write_self_eq (h : Shown s wrPd f) (addrSpace : PhysAddr) :
    (do
      let s ← mapKernel mapPage wrPd 255 s
      s.write mapPage (wrPd + 255 * 4) (selfEntry addrSpace)) =
      some (s.withMem (setWord (filled s f 255) f 255 (selfEntry addrSpace))) := by
  obtain ⟨hframe, hword⟩ := word_of_aligned h.aligned (i := 255) (by omega)
  have hplace := h.place (filled s f 255) (fun f' hf' => filled_of_ne 255 hf') _ hframe
  rw [mapKernel_eq h (by omega)]
  exact Machine.write_eq hplace hword (selfEntry addrSpace)

/-- With its own page as `addrSpace`, only what the page had above entry 255 is left to chance. -/
theorem consistent_built_iff {free : List PhysAddr} {p : PhysAddr} (hp : p ∈ free) :
    Consistent free s.kernelPts p
        (setWord (filled s (frameOf p) 255) (frameOf p) 255 (selfEntry p)) ↔
      ∀ j : Index, 256 ≤ j.toNat → isPresent (s.mem (frameOf p) j) = false := by
  have hother : ∀ j : Index, j.toNat ≠ 255 →
      setWord (filled s (frameOf p) 255) (frameOf p) 255 (selfEntry p) (frameOf p) j =
        filled s (frameOf p) 255 (frameOf p) j := by
    intro j hj
    refine setWord_of_index_ne ?_ _ _ _
    rintro rfl
    exact hj rfl
  constructor
  · intro h j hj
    have huser := h.user j hj
    rwa [hother j (by omega), filled_above (by omega)] at huser
  · intro h
    refine ⟨hp, ?_, ?_, ?_⟩
    · intro i hi
      rw [hother i (by omega), filled_below hi]
      refine ⟨isPresent_kernelEntry _ _, ?_⟩
      rw [frameOf_kernelEntry, BitVec.ofNat_toNat]
    · rw [setWord_self]
      exact ⟨isPresent_selfEntry p, frameOf_selfEntry p⟩
    · intro j hj
      rw [hother j (by omega), filled_above (by omega)]
      exact h j hj

end Fill

section Paths
variable {mapPage : MapPageCall} {s s' : Machine} {free : List PhysAddr} {p addrSpace : PhysAddr}

theorem init_of_disabled (hoff : s.enabled = false)
    (hlinks : FreeList s.mem s.stack.top (p :: free)) :
    init mapPage s = some (p, (s.withTop (s.mem (frameOf p) 0)).withMem
      (setWord (filled s (frameOf p) 255) (frameOf p) 255 (selfEntry p))) := by
  obtain ⟨htop, hne, hal, -⟩ := hlinks
  have hplace : ∀ (s' : Machine), s'.enabled = false → ∀ va, s'.place va = some (frameOf va) := by
    intro s' hoff' va
    unfold Machine.place
    rw [hoff', if_neg Bool.false_ne_true]
  have hbegin : s.beginAlloc = some p := by
    unfold Machine.beginAlloc Machine.beginAllocWith PhysMemStack.beginPop
    rw [htop, if_neg hne, if_neg hne]
  have halloc : s.alloc mapPage = some (p, s.withTop (s.mem (frameOf p) 0)) := by
    unfold Machine.alloc
    rw [hbegin]
    dsimp only [Option.bind_eq_bind, Option.bind_some]
    rw [Machine.read_eq (hplace s hoff p) (wordIndex_of_aligned hal)]
    rfl
  have hshown : Shown (s.withTop (s.mem (frameOf p) 0)) p (frameOf p) := by
    refine ⟨hal, fun mem _ va hva => ?_⟩
    rw [← hva]
    exact hplace ((s.withTop _).withMem mem) hoff va
  have hbuilt := @write_self_eq mapPage _ _ _ hshown p
  unfold init openDirectory fill
  rw [hoff, if_neg Bool.false_ne_true, halloc]
  dsimp only [Option.bind_eq_bind, Option.bind_some] at hbuilt ⊢
  rw [if_neg hne, ← Option.bind_assoc, hbuilt]
  dsimp only [Option.bind_some]
  rw [Machine.withMem_enabled, Machine.withTop_enabled, hoff, if_neg Bool.false_ne_true]
  rfl

/-- `addr_space` is 0 with paging on, whatever `MapPage` did. -/
theorem addrSpace_of_enabled (hon : s.enabled = true)
    (h : init mapPage s = some (addrSpace, s')) : addrSpace = 0 := by
  unfold init openDirectory at h
  rw [if_pos hon] at h
  simp only [Option.bind_eq_bind, Option.bind_eq_some_iff] at h
  obtain ⟨r, ⟨s₁, -, hopen⟩, s₂, -, hlast⟩ := h
  obtain rfl := Option.some.inj hopen
  exact (congrArg Prod.fst (Option.some.inj hlast)).symm

/-- The page of an entry that was just written is shown at the entry's address. -/
theorem shown_withEntry (h : Ready s (p :: free)) {va : Uintptr}
    (hal : va &&& pageMask = va) (hva : pdIndex va ≠ 255)
    (hpres : isPresent (s.mem s.dir (pdIndex va)) = true) {e : BitVec 32}
    (he : isPresent e = true) (hep : frameOf e = frameOf p) :
    Shown ((s.withPage p).withEntry va e) va (frameOf p) := by
  have hp := h.spare p List.mem_cons_self
  have hself := (Machine.ready_withPage h).self
  rw [← Machine.dir_withPage h] at hpres
  have hpage : ∀ i, isPresent ((s.withPage p).mem s.dir i) = true →
      frameOf ((s.withPage p).mem s.dir i) ≠ frameOf p := by
    intro i hi
    rw [Machine.dir_withPage h] at hi ⊢
    exact hp _ hi
  have hent : ((s.withPage p).withEntry va e).entry va = some e := by
    rw [Machine.entry_withEntry hself hva hpres, if_pos he]
  have hdir : ∀ i, ((s.withPage p).withEntry va e).mem s.dir i = (s.withPage p).mem s.dir i :=
    Machine.dir_withEntry hself hva hpres e
  refine ⟨hal, fun mem hmem va' hva' => ?_⟩
  rw [← hep]
  refine Machine.place_of_entry (s := ((s.withPage p).withEntry va e).withMem mem) h.enabled ?_
  refine (Machine.entry_congr hva').trans (Eq.trans ?_ hent)
  apply walk_congr
  · exact fun i => hmem _ (hp.ne_dir h.self).symm i
  · intro hi i
    apply hmem
    show frameOf (((s.withPage p).withEntry va e).mem s.dir _) ≠ _
    rw [hdir]
    exact hpage _ hpres

end Paths

/-- Frame `f` is neither the directory nor the table for `va`, which is there. -/
structure Apart (s : Machine) (va : Uintptr) (f : Frame) : Prop where
  enabled : s.enabled = true
  self : SelfMapped i386 s.mem s.dir 255
  dir : s.dir ≠ f
  present : isPresent (s.mem s.dir (pdIndex va)) = true
  table : frameOf (s.mem s.dir (pdIndex va)) ≠ f

section Enabled
variable {n : Nat} {s : Machine} {free : List PhysAddr}

theorem fill_of_shown {wrPd : Uintptr} {f : Frame} (hshown : Shown s wrPd f) (hne : wrPd ≠ 0)
    (hapart : Apart s s.tempPd f) (hva : pdIndex s.tempPd ≠ 255) (addrSpace : PhysAddr) :
    ∃ s', fill (mapPage (n + 1)) wrPd addrSpace s = some s' ∧
      s'.mem f 255 = selfEntry addrSpace := by
  obtain ⟨hon, hself, hdir, hpres, htable⟩ := hapart
  have hbuilt := @write_self_eq (mapPage (n + 1)) _ _ _ hshown addrSpace
  have hkept : ∀ i, setWord (filled s f 255) f 255 (selfEntry addrSpace) s.dir i =
      s.mem s.dir i := by
    intro i
    rw [setWord_of_frame_ne hdir, filled_of_ne 255 hdir]
  have hdone : setWord (filled s f 255) f 255 (selfEntry addrSpace) f 255 =
      selfEntry addrSpace := setWord_self _ _ _ _
  generalize setWord (filled s f 255) f 255 (selfEntry addrSpace) = mem at hbuilt hkept hdone
  have hself' : SelfMapped i386 mem s.dir 255 := hself.congr hkept
  rw [← hkept] at hpres htable
  have hunmap : Machine.mapPageBody (mapPage n) { virtaddr := s.tempPd, unmap := true }
      (s.withMem mem) = _ := Machine.mapPageBody_unmap (s := s.withMem mem)
    (c := { virtaddr := s.tempPd, unmap := true }) rfl hon
    (Machine.createTable_of_present rfl hon hself' hpres) rfl
    (Machine.steady_entry (s := s.withMem mem) hon hself' hva hpres)
  have hfill : fill (mapPage (n + 1)) wrPd addrSpace s =
      mapPage (n + 1) { virtaddr := s.tempPd, unmap := true } (s.withMem mem) := by
    unfold fill
    dsimp only [Option.bind_eq_bind] at hbuilt ⊢
    rw [if_neg hne, ← Option.bind_assoc, hbuilt]
    dsimp only [Option.bind_some]
    rw [Machine.withMem_enabled, hon, if_pos rfl]
    rfl
  refine ⟨_, hfill.trans hunmap, ?_⟩
  exact (setWord_of_frame_ne htable.symm _ _ _).trans hdone

theorem mapPage_shows (h : Ready s free) (hfree : 2 ≤ free.length) {va : Uintptr}
    (hal : va &&& pageMask = va) (hva : pdIndex va ≠ 255) :
    ∃ s' p, mapPage (n + 2) { virtaddr := va } s = some s' ∧ p ∈ free ∧
      s'.tempPd = s.tempPd ∧ Shown s' va (frameOf p) ∧ Apart s' va (frameOf p) := by
  obtain ⟨tables, pages, rest, s₁, s₂, hsplit, hcall, hopen, h₁, henter⟩ :=
    Machine.mapPage_outcome (n := n) (c := { virtaddr := va }) h hfree rfl hva
  have hpres := hopen.present
  have hword := henter.dir_word h₁ hpres hva
  have hself : SelfMapped i386 s₂.mem s₁.dir 255 := h₁.self.congr hword
  have htemp : s₁.tempPd = s.tempPd := by
    cases hopen <;> rfl
  cases henter with
  | cleared e he hunmap => exact absurd hunmap Bool.false_ne_true
  | given hmap hgiven => exact absurd rfl hgiven
  | fresh p hmap hnew =>
    have hp := h₁.spare p List.mem_cons_self
    have htable := hp _ hpres
    have hmem : p ∈ free := by
      rw [hsplit]
      exact List.mem_append_right _ (List.mem_append_left _ List.mem_cons_self)
    have hshown := shown_withEntry h₁ hal hva hpres
      (MapCall.isPresent_entryWord { virtaddr := va } p)
      (MapCall.frameOf_entryWord { virtaddr := va } p)
    refine ⟨_, p, hcall, hmem, htemp, hshown, h₁.enabled, hself, (hp.ne_dir h₁.self).symm, ?_, ?_⟩
    · exact (congrArg isPresent (hword _)).trans hpres
    · intro heq
      exact htable ((congrArg frameOf (hword _)).symm.trans heq)

/-- With paging on `Init` returns, and the new directory's own entry is for frame 0. -/
theorem init_of_enabled (h : Ready s free) (hfree : 2 ≤ free.length)
    (hal : s.tempPd &&& pageMask = s.tempPd) (hne : s.tempPd ≠ 0)
    (hva : pdIndex s.tempPd ≠ 255) : ∃ s' p, init (mapPage (n + 2)) s = some (0, s') ∧
      p ∈ free ∧ frameOf (s'.mem (frameOf p) 255) = 0 := by
  obtain ⟨s₁, p, hcall, hp, htemp, hshown, hapart⟩ := mapPage_shows (n := n) h hfree hal hva
  rw [← htemp] at hshown hapart hne hva
  obtain ⟨s₂, hfill, hself⟩ := fill_of_shown (n := n + 1) hshown hne hapart hva 0
  refine ⟨s₂, p, ?_, hp, ?_⟩
  · unfold init openDirectory
    rw [if_pos h.enabled]
    dsimp only [Option.bind_eq_bind]
    rw [hcall]
    dsimp only [Option.bind_some]
    rw [← htemp]
    have hresult : MapCall.result { virtaddr := s₁.tempPd } = 0 := rfl
    have hreturn : fill (mapPage (n + 2)) s₁.tempPd 0 s₁ = some s₂ := hfill
    rw [hresult, hreturn]
    rfl
  · rw [hself, frameOf_selfEntry]
    rfl

end Enabled
/-- `Init` gives a consistent directory exactly when paging is off, the stack has a page, and
nothing of what is left in that page above entry 255 looks present. -/
theorem init_consistent_iff (mapPage : MapPageCall) (s : Machine) (free : List PhysAddr)
    (hlinks : FreeList s.mem s.stack.top free) :
    (∃ addrSpace s', init mapPage s = some (addrSpace, s') ∧
      Consistent free s.kernelPts addrSpace s'.mem) ↔
    s.enabled = false ∧ ∃ p rest, free = p :: rest ∧
      ∀ j : Index, 256 ≤ j.toNat → isPresent (s.mem (frameOf p) j) = false := by
  constructor
  · rintro ⟨addrSpace, s', hinit, hcons⟩
    cases hon : s.enabled with
    | true =>
      obtain rfl := addrSpace_of_enabled hon hinit
      exact absurd rfl (hlinks.ne_zero hcons.page)
    | false =>
      refine ⟨rfl, ?_⟩
      cases free with
      | nil => exact absurd hcons.page List.not_mem_nil
      | cons p rest =>
        rw [init_of_disabled hon hlinks] at hinit
        obtain ⟨rfl, rfl⟩ := Prod.mk.inj (Option.some.inj hinit)
        exact ⟨p, rest, rfl, (consistent_built_iff List.mem_cons_self).mp hcons⟩
  · rintro ⟨hoff, p, rest, rfl, huser⟩
    exact ⟨p, _, init_of_disabled hoff hlinks,
      (consistent_built_iff List.mem_cons_self).mpr huser⟩

theorem init_consistent_sample : ∃ addrSpace s',
    init (mapPage 0) { Machine.sample with enabled := false } = some (addrSpace, s') ∧
      Consistent Machine.sampleFree 0x10000 addrSpace s'.mem := by
  refine (init_consistent_iff (mapPage 0) { Machine.sample with enabled := false }
    Machine.sampleFree Machine.sample_links).mpr ⟨rfl, 0x2000, _, rfl, ?_⟩
  intro j hj
  have hzero : Machine.sample.mem (frameOf 0x2000) j = 0 := by
    rw [Machine.sample_mem, if_neg (by decide), if_neg]
    rintro ⟨rfl, -⟩
    exact absurd hj (by decide)
  show isPresent (Machine.sample.mem (frameOf 0x2000) j) = false
  rw [hzero]
  rfl

/-- With paging on, the new address space is at 0 and not at one of the pages. -/
theorem init_enabled_inconsistent :
    (∃ s', init (mapPage 2) Machine.sample = some (0, s')) ∧
      ¬ ∃ addrSpace s', init (mapPage 2) Machine.sample = some (addrSpace, s') ∧
        Consistent Machine.sampleFree Machine.sample.kernelPts addrSpace s'.mem := by
  constructor
  · obtain ⟨s', p, hinit, -⟩ := init_of_enabled (n := 0) Machine.sample_ready (by decide)
      (by decide) (by decide) (by decide)
    exact ⟨s', hinit⟩
  · rintro ⟨addrSpace, s', hinit, hcons⟩
    obtain rfl := addrSpace_of_enabled rfl hinit
    exact absurd hcons.page (by decide)

end AddressSpace
end Tysos
