import Tysos.Paging.Temporary

/-!
# Mapping in another address space

`MapPage` with an address space that is not loaded. It reaches the other directory at the
temporary page directory, but the temporary page table only if it has just made the table; for
a table that was there the page at that address is one that a page fault put there.
-/

namespace Tysos
open PageTables
set_option autoImplicit false

namespace Machine

/-- The part of the call that makes the entry, with the temporary pages as they are then. -/
def entryPhase (s : Machine) (mapPage : MapPageCall) (c : MapCall) : Option Machine :=
  if c.unmap then s.clearPresent mapPage (c.wrPt s + ptEnt c.virtaddr * 4)
  else do
    let (physaddr, s) ← s.createPage mapPage c
    let s ← s.setEntry mapPage c (c.wrPt s + ptEnt c.virtaddr * 4) physaddr
    s.completeAlloc mapPage c

theorem mapPageBody_phases {mapPage : MapPageCall} {c : MapCall} {t : Machine}
    (hon : t.enabled = true) : t.mapPageBody mapPage c =
      (t.openDir mapPage c).bind fun s => (s.createTable mapPage c).bind fun s =>
        (s.entryPhase mapPage c).bind fun s => s.closeTables mapPage c := by
  rw [mapPageBody_def]
  unfold entryPhase
  rw [hon, if_neg (by simp)]
  cases hunmap : c.unmap with
  | true => rfl
  | false => simp only [Bool.false_eq_true, if_false, Option.bind_eq_bind, Option.bind_assoc]

section Accesses
variable {mapPage : MapPageCall} {t t' : Machine} {f : Frame} {a : Uintptr}
  (hacc : t.access mapPage a = some (f, t')) (hplace : t'.place a = some f)
include hacc hplace

/-- After its fault an access is made again, and then nothing more happens. -/
theorem read_of_access : t.read mapPage a = t'.read mapPage a := by
  unfold read
  rw [hacc, access_eq hplace]

theorem write_of_access (v : BitVec 32) : t.write mapPage a v = t'.write mapPage a v := by
  unfold write
  rw [hacc, access_eq hplace]

theorem clearPresent_of_access : t.clearPresent mapPage a = t'.clearPresent mapPage a := by
  unfold clearPresent
  rw [read_of_access hacc hplace]

theorem setEntry_of_access (c : MapCall) (physaddr : PhysAddr) :
    t.setEntry mapPage c a physaddr = t'.setEntry mapPage c a physaddr := by
  unfold setEntry
  rw [write_of_access hacc hplace]

theorem endAlloc_of_access : t.endAlloc mapPage a = t'.endAlloc mapPage a := by
  unfold endAlloc
  rw [read_of_access hacc hplace]

end Accesses

theorem word_of_page {b : Uintptr} (hal : b &&& pageMask = b) (va : Uintptr) :
    frameOf (b + ptEnt va * 4) = frameOf b ∧ wordIndex (b + ptEnt va * 4) = ptIndex va ∧
      frameOf (b + pdEnt va * 4) = frameOf b ∧ wordIndex (b + pdEnt va * 4) = pdIndex va := by
  have hword : ∀ i : Index, frameOf (b + i.setWidth 32 * 4) = frameOf b ∧
      wordIndex (b + i.setWidth 32 * 4) = i := by
    intro i
    have hone := AddressSpace.word_of_aligned hal (i := i.toNat) i.isLt
    rwa [BitVec.ofNat_toNat, BitVec.ofNat_toNat, BitVec.setWidth_eq] at hone
  rw [ptEnt_eq, pdEnt_eq]
  exact ⟨(hword _).1, (hword _).2, (hword _).1, (hword _).2⟩

theorem ready_setWord {t : Machine} {p : PhysAddr} {rest : List PhysAddr} (h : Ready t rest)
    (hp : Spare i386 t.mem t.dir (frameOf p)) (hne : ∀ q ∈ rest, frameOf q ≠ frameOf p)
    (j : Index) (v : BitVec 32) :
    Ready (t.withMem (setWord t.mem (frameOf p) j v)) rest := by
  have hdir : ∀ i, setWord t.mem (frameOf p) j v t.dir i = t.mem t.dir i :=
    fun i => setWord_of_frame_ne (hp.ne_dir h.self).symm _ _ _
  refine ⟨h.enabled, h.self.congr hdir, ?_, ?_, h.nodup, ?_⟩
  · intro i hi
    show isPresent (setWord t.mem (frameOf p) j v t.dir i) = true
    rw [hdir]
    exact h.kernel i hi
  · exact h.links.congr fun q hq => setWord_of_frame_ne (hne q hq) _ _ _
  · exact fun q hq => (h.spare q hq).congr hdir

/-- What is left of a table write that faulted: the page `p` was put at `b` and written to. -/
def Scribbled (b : Uintptr) (p : PhysAddr) (t t' : Machine) : Prop :=
  ∃ j v, t' = (t.afterFault b p).withMem (setWord (t.afterFault b p).mem (frameOf p) j v)

section Foreign
variable {n : Nat} {s t : Machine} {d p : PhysAddr} {free rest : List PhysAddr} {a b : Uintptr}
  {c : MapCall} (h : Spaces s d free) (hnear : Near free s t)
include h hnear

theorem Spaces.closeTables_eq (hasp : c.asp = some d) :
    ∃ t', t.closeTables (mapPage (n + 1)) c = some t' ∧ Near free s t' ∧
      t'.entry s.tempPd = none ∧ t'.entry s.tempPt = none ∧
      ∀ rest, Ready t rest → Ready t' rest := by
  have hpd : s.IsTemp s.tempPd := .inl rfl
  have hpt : s.IsTemp s.tempPt := .inr (.inl rfl)
  obtain ⟨e, he, hcall⟩ := h.unmap_temp (n := n) hnear hpd
  have hnear₁ := h.withEntry hnear hpd e
  obtain ⟨e', he', hcall'⟩ := h.unmap_temp (n := n) hnear₁ hpt
  have hfirst := h.entry_withEntry_none hnear hpd he
  refine ⟨_, ?_, h.withEntry hnear₁ hpt e', ?_, h.entry_withEntry_none hnear₁ hpt he', ?_⟩
  · unfold closeTables
    rw [hasp]
    dsimp only [Option.bind_eq_bind]
    rw [hnear.tempPd, hcall]
    dsimp only [Option.bind_some]
    rw [hnear₁.tempPt]
    exact hcall'
  · rw [h.entry_withEntry_ne hnear₁ hpt h.tempPd.pdIndex_ne h.pd_apart_pt, hfirst]
  · intro rest hready
    have hone := ready_withEntry hready h.tempPd.pdIndex_ne (h.present hnear hpd) e
    exact ready_withEntry hone h.tempPt.pdIndex_ne (h.present hnear₁ hpt) e'

section Table
variable (hready : Ready t (p :: rest))
include hready

theorem Spaces.scribbled {t' : Machine} (hp : p ∈ free) (hs : Scribbled s.tempPt p t t') :
    Near free s t' ∧ Ready t' rest ∧
      ∀ va, pdIndex va ≠ 255 → frameOf va ≠ frameOf s.tempPt → t'.entry va = t.entry va := by
  have hpt : s.IsTemp s.tempPt := .inr (.inl rfl)
  obtain ⟨j, v, rfl⟩ := hs
  have hpage := hnear.withPage hp
  have hfault := h.near_afterFault hnear hpt hp
  have hafter : Ready (t.afterFault s.tempPt p) rest :=
    ready_withEntry (ready_withPage hready) h.tempPt.pdIndex_ne (h.present hpage hpt) _
  have hspare := h.spare_afterFault hnear hpt hready hp
  refine ⟨hfault.setWord hp j v, ready_setWord hafter hspare (fun q hq => frame_ne hready hq) j v,
    fun va hva hne => ?_⟩
  have hwrite : ((t.afterFault s.tempPt p).withMem
      (setWord (t.afterFault s.tempPt p).mem (frameOf p) j v)).entry va =
      (t.afterFault s.tempPt p).entry va := by
    apply walk_congr
    · exact fun i => setWord_of_frame_ne (hspare.ne_dir hafter.self).symm _ _ _
    · exact fun hpres i => setWord_of_frame_ne (hspare _ hpres) _ _ _
  have hentry : (t.afterFault s.tempPt p).entry va = (t.withPage p).entry va :=
    h.entry_withEntry_ne hpage hpt hva hne _
  rw [hwrite, hentry, entry_withPage hready.self (hready.spare p List.mem_cons_self)]

variable (hnone : t.entry s.tempPt = none)
include hnone

theorem Spaces.steady_temp (va : Uintptr) :
    (t.afterFault s.tempPt p).Steady (s.tempPt + ptEnt va * 4) (frameOf p) (ptIndex va) ∧
      t.access (mapPage (n + 1)) (s.tempPt + ptEnt va * 4) =
        some (frameOf p, t.afterFault s.tempPt p) := by
  have hpt : s.IsTemp s.tempPt := .inr (.inl rfl)
  obtain ⟨hframe, hword, -⟩ := word_of_page h.tempPt.aligned va
  have hshown := h.shown_afterFault hnear hpt hready
  refine ⟨⟨hword, ?_, fun v => ?_⟩, h.access_fault hnear hpt hframe hready hnone⟩
  · exact hshown.place (t.afterFault s.tempPt p).mem (fun _ _ _ => rfl) _ hframe
  · exact hshown.place _ (fun f' hf' j => setWord_of_frame_ne hf' _ _ _) _ hframe

/-- The entry is written into the page the fault brought, not into the table. -/
theorem Spaces.setEntry_temp (va : Uintptr) (physaddr : PhysAddr) : ∃ t',
    t.setEntry (mapPage (n + 1)) c (s.tempPt + ptEnt va * 4) physaddr = some t' ∧
      Scribbled s.tempPt p t t' := by
  obtain ⟨hsteady, hacc⟩ := h.steady_temp (n := n) hnear hready hnone va
  rw [setEntry_of_access hacc hsteady.place, hsteady.setEntry]
  exact ⟨_, rfl, _, _, rfl⟩

theorem Spaces.clearPresent_temp (va : Uintptr) : ∃ t',
    t.clearPresent (mapPage (n + 1)) (s.tempPt + ptEnt va * 4) = some t' ∧
      Scribbled s.tempPt p t t' := by
  obtain ⟨hsteady, hacc⟩ := h.steady_temp (n := n) hnear hready hnone va
  rw [clearPresent_of_access hacc hsteady.place, clearPresent_eq hsteady.place hsteady.word]
  exact ⟨_, rfl, _, _, rfl⟩

end Table

theorem Spaces.openDir_eq (hasp : c.asp = some d) : ∃ t', t.openDir (mapPage (n + 1)) c = some t' ∧
    Near free s t' ∧ t'.place s.tempPd = some (frameOf d) ∧
    (∀ va, pdIndex va ≠ 255 → frameOf va ≠ frameOf s.tempPd → t'.entry va = t.entry va) ∧
    t'.stack = t.stack ∧ ∀ rest, Ready t rest → Ready t' rest := by
  have hpd : s.IsTemp s.tempPd := .inl rfl
  have hcall := h.map_temp (n := n) hnear hpd h.ne_zero
  have hword := MapCall.frameOf_entryWord { virtaddr := s.tempPd, physaddr := d } d
  have hpres := MapCall.isPresent_entryWord { virtaddr := s.tempPd, physaddr := d } d
  generalize MapCall.entryWord { virtaddr := s.tempPd, physaddr := d } d = e at hcall hword hpres
  have hnear' := h.withEntry hnear hpd e
  refine ⟨t.withEntry s.tempPd e, ?_, hnear', ?_, ?_, rfl, ?_⟩
  · unfold openDir
    rw [hasp]
    dsimp only
    rw [hnear.tempPd]
    exact hcall
  · rw [← hword]
    apply place_of_entry (h.enabled hnear')
    rw [entry_withEntry (h.self hnear) h.tempPd.pdIndex_ne (h.present hnear hpd), if_pos hpres]
  · exact fun va hva hne => h.entry_withEntry_ne hnear hpd hva hne e
  · exact fun rest hready => ready_withEntry hready h.tempPd.pdIndex_ne (h.present hnear hpd) e

theorem Spaces.read_other {mapPage : MapPageCall} (hasp : c.asp = some d)
    (hplace : t.place s.tempPd = some (frameOf d)) :
    t.read mapPage (c.wrPd t + pdEnt c.virtaddr * 4) =
      some (s.mem (frameOf d) (pdIndex c.virtaddr), t) := by
  obtain ⟨-, -, hframe, hword⟩ := word_of_page h.tempPd.aligned c.virtaddr
  have hsame : t.place (s.tempPd + pdEnt c.virtaddr * 4) = t.place s.tempPd := place_page hframe
  unfold MapCall.wrPd
  rw [hasp]
  dsimp only
  rw [hnear.tempPd, read_eq (hsame.trans hplace) hword, h.otherWord hnear]

theorem Spaces.createTable_found {mapPage : MapPageCall} (hasp : c.asp = some d)
    (hplace : t.place s.tempPd = some (frameOf d))
    (hpres : isPresent (s.mem (frameOf d) (pdIndex c.virtaddr)) = true) :
    t.createTable mapPage c = some t := by
  have hne : ¬ s.mem (frameOf d) (pdIndex c.virtaddr) &&& pPresent = 0 := of_decide_eq_true hpres
  rw [createTable_def]
  dsimp only
  rw [h.read_other hnear hasp hplace]
  dsimp only [Option.bind_eq_bind, Option.bind_some]
  rw [if_neg hne]

section Phase
variable (hready : Ready t (p :: rest)) (hp : p ∈ free) (hnone : t.entry s.tempPt = none)
  (hasp : c.asp = some d)
include hready hp hnone hasp

omit h hready hp hnone in
theorem Spaces.wrPt_eq : c.wrPt t = s.tempPt := by
  unfold MapCall.wrPt
  rw [hasp]
  exact hnear.tempPt

/-- With a page to be taken the call takes it twice: for the fault, and for itself. -/
theorem Spaces.entryPhase_fresh (hmap : c.unmap = false) (hnew : c.physaddr = 0) :
    ∃ t', t.entryPhase (mapPage (n + 1)) c = some t' ∧ Near free s t' := by
  have hP : s.IsTemp s.tempP := .inr (.inr rfl)
  have hpne : p ≠ 0 := hready.links.2.1
  have hword := MapCall.frameOf_entryWord { virtaddr := s.tempP, physaddr := p } p
  have hpres := MapCall.isPresent_entryWord { virtaddr := s.tempP, physaddr := p } p
  have hcall := h.map_temp (n := n) hnear hP hpne
  generalize MapCall.entryWord { virtaddr := s.tempP, physaddr := p } p = w at hword hpres hcall
  have hnear₂ := h.withEntry hnear hP w
  have hready₂ : Ready (t.withEntry s.tempP w) (p :: rest) :=
    ready_withEntry hready h.tempP.pdIndex_ne (h.present hnear hP) w
  have hnone₂ : (t.withEntry s.tempP w).entry s.tempPt = none :=
    (h.entry_withEntry_ne hnear hP h.tempPt.pdIndex_ne h.pt_apart_p w).trans hnone
  obtain ⟨t₃, hset, hscribbled⟩ :=
    h.setEntry_temp (n := n) (c := c) hnear₂ hready₂ hnone₂ c.virtaddr p
  obtain ⟨hnear₃, -, hentry₃⟩ := h.scribbled hnear₂ hready₂ hp hscribbled
  have hplace₃ : t₃.place s.tempP = some (frameOf p) := by
    rw [← hword]
    apply place_of_entry (h.enabled hnear₃)
    rw [hentry₃ _ h.tempP.pdIndex_ne h.pt_apart_p.symm,
      entry_withEntry (h.self hnear) h.tempP.pdIndex_ne (h.present hnear hP), if_pos hpres]
  have hend : endAlloc (mapPage (n + 1)) s.tempP t₃ = _ :=
    endAlloc_eq hplace₃ (wordIndex_of_aligned h.tempP.aligned)
  have hnear₄ : Near free s ((t₃.withTop (t₃.mem (frameOf p) 0)).withMem
      (setFrame t₃.mem (frameOf p) 0)) := (hnear₃.withTop _).setFrame hp
  obtain ⟨e, -, hunmap⟩ := h.unmap_temp (n := n) hnear₄ hP
  refine ⟨_, ?_, h.withEntry hnear₄ hP e⟩
  unfold entryPhase completeAlloc
  rw [createPage_def, hmap, if_neg Bool.false_ne_true, if_pos hnew, beginAlloc_eq hready, hasp]
  dsimp only [Option.bind_eq_bind, Option.bind_some]
  rw [hnear.tempP, hcall]
  dsimp only [Option.bind_some]
  rw [Spaces.wrPt_eq hnear₂ hasp, hset]
  dsimp only [Option.bind_some]
  rw [if_pos hnew, hnear₃.tempP, hend]
  dsimp only [Option.bind_some]
  rw [hnear₄.tempP]
  exact hunmap

theorem Spaces.entryPhase_eq : ∃ t', t.entryPhase (mapPage (n + 1)) c = some t' ∧ Near free s t' ∧
    (c.unmap = true ∨ c.physaddr ≠ 0 → Ready t' rest) := by
  cases hunmap : c.unmap with
  | true =>
    obtain ⟨t', hclear, hscribbled⟩ :=
      h.clearPresent_temp (n := n) hnear hready hnone c.virtaddr
    obtain ⟨hnear', hready', -⟩ := h.scribbled hnear hready hp hscribbled
    refine ⟨t', ?_, hnear', fun _ => hready'⟩
    unfold entryPhase
    rw [if_pos hunmap, Spaces.wrPt_eq hnear hasp, hclear]
  | false =>
    by_cases hnew : c.physaddr = 0
    · obtain ⟨t', hphase, hnear'⟩ :=
        h.entryPhase_fresh (n := n) hnear hready hp hnone hasp hunmap hnew
      refine ⟨t', hphase, hnear', fun hor => ?_⟩
      exact absurd hnew (hor.resolve_left Bool.false_ne_true)
    · obtain ⟨t', hset, hscribbled⟩ :=
        h.setEntry_temp (n := n) (c := c) hnear hready hnone c.virtaddr c.physaddr
      obtain ⟨hnear', hready', -⟩ := h.scribbled hnear hready hp hscribbled
      refine ⟨t', ?_, hnear', fun _ => hready'⟩
      unfold entryPhase completeAlloc
      rw [createPage_def, hunmap, if_neg Bool.false_ne_true, if_neg hnew]
      dsimp only [Option.bind_eq_bind, Option.bind_some]
      rw [Spaces.wrPt_eq hnear hasp, hset]
      exact if_neg hnew

/-- With the table there the call returns, and has not touched the other address space. -/
theorem Spaces.foreign_found
    (hpres : isPresent (s.mem (frameOf d) (pdIndex c.virtaddr)) = true) :
    ∃ t', mapPage (n + 2) c t = some t' ∧ Near free s t' ∧ t'.entry s.tempPd = none ∧
      t'.entry s.tempPt = none ∧ (c.unmap = true ∨ c.physaddr ≠ 0 → Ready t' rest) := by
  obtain ⟨t₁, hopen, hnear₁, hplace, hentry, -, hkeep⟩ := h.openDir_eq (n := n) hnear hasp
  have hnone₁ : t₁.entry s.tempPt = none :=
    (hentry _ h.tempPt.pdIndex_ne h.pd_apart_pt.symm).trans hnone
  have htable : createTable (mapPage (n + 1)) c t₁ = some t₁ :=
    h.createTable_found hnear₁ hasp hplace hpres
  obtain ⟨t₂, hphase, hnear₂, hready₂⟩ :=
    h.entryPhase_eq (n := n) hnear₁ (hkeep _ hready) hp hnone₁ hasp
  obtain ⟨t', hclose, hnear', hpd, hpt, hkeep'⟩ := h.closeTables_eq (n := n) hnear₂ hasp
  refine ⟨t', ?_, hnear', hpd, hpt, fun hor => hkeep' _ (hready₂ hor)⟩
  show t.mapPageBody (mapPage (n + 1)) c = some t'
  rw [mapPageBody_phases (h.enabled hnear), hopen, Option.bind_some, htable, Option.bind_some,
    hphase, Option.bind_some, hclose]

end Phase

section Lost
variable (hready : Ready t (p :: rest)) (hp : p ∈ free) (hnone : t.entry s.tempPt = none)
include hready hp hnone

/-- `EndAlloc` at the temporary page table takes its link from a page just cleared: the stack is
lost. -/
theorem Spaces.endAlloc_temp : ∃ t', t.endAlloc (mapPage (n + 1)) s.tempPt = some t' ∧
    Near free s t' ∧ t'.stack.top = 0 ∧ t'.entry s.tempPd = t.entry s.tempPd := by
  have hpt : s.IsTemp s.tempPt := .inr (.inl rfl)
  have hacc := h.access_fault (n := n) hnear hpt rfl hready hnone
  have hplace := (h.shown_afterFault hnear hpt hready).place (t.afterFault s.tempPt p).mem
    (fun _ _ _ => rfl) s.tempPt rfl
  have hpage := hnear.withPage hp
  have hfault := h.near_afterFault hnear hpt hp
  have htable : (t.withPage p).tableOf s.tempPt ≠ frameOf p := by
    rw [h.tableOf_near hpage]
    exact h.tableOf_spare hpt p hp
  have hcleared : (t.afterFault s.tempPt p).mem (frameOf p) 0 = 0 :=
    (setWord_of_frame_ne htable.symm _ _ _).trans (setFrame_self _ _ _ _)
  refine ⟨_, ?_, (hfault.withTop _).setFrame hp, hcleared, ?_⟩
  · rw [endAlloc_of_access hacc hplace]
    exact endAlloc_eq hplace (wordIndex_of_aligned h.tempPt.aligned)
  · have hentry : (t.afterFault s.tempPt p).entry s.tempPd = (t.withPage p).entry s.tempPd :=
      h.entry_withEntry_ne hpage hpt h.tempPd.pdIndex_ne h.pd_apart_pt _
    have hfill : (((t.afterFault s.tempPt p).withTop
        ((t.afterFault s.tempPt p).mem (frameOf p) 0)).withMem
        (setFrame (t.afterFault s.tempPt p).mem (frameOf p) 0)).entry s.tempPd =
        (t.afterFault s.tempPt p).entry s.tempPd :=
      walk_setFrame (h.self hfault) (h.spare_afterFault hnear hpt hready hp) 0 _ _
    rw [← entry_withPage hready.self (hready.spare p List.mem_cons_self), ← hentry]
    exact hfill

end Lost

/-- A table that is missing is never made. -/
theorem Spaces.createTable_missing (hready : Ready t (p :: rest))
    (hfree : ∀ q ∈ p :: rest, q ∈ free) (hnone : t.entry s.tempPt = none) (hasp : c.asp = some d)
    (hplace : t.place s.tempPd = some (frameOf d))
    (habs : isPresent (s.mem (frameOf d) (pdIndex c.virtaddr)) = false) :
    t.createTable (mapPage (n + 1)) c = none := by
  have hzero : s.mem (frameOf d) (pdIndex c.virtaddr) &&& pPresent = 0 := by
    simpa [isPresent] using habs
  rw [createTable_def]
  dsimp only
  rw [h.read_other hnear hasp hplace]
  dsimp only [Option.bind_eq_bind, Option.bind_some]
  rw [if_pos hzero, beginAlloc_eq hready, Spaces.wrPt_eq hnear hasp, hasp]
  dsimp only [Option.bind_some]
  cases n with
  | zero =>
    have hcall : mapPage 1 { virtaddr := s.tempPt, asp := some d, physaddr := p, user := true } t =
        none := by
      show t.mapPageBody (mapPage 0) _ = none
      rw [mapPageBody_phases (h.enabled hnear)]
      rfl
    rw [hcall]
    rfl
  | succ n =>
    obtain ⟨t₁, hcall, hnear₁, hpd₁, hpt₁, hready₁⟩ := h.foreign_found (n := n)
      (c := { virtaddr := s.tempPt, asp := some d, physaddr := p, user := true }) hnear hready
      (hfree p List.mem_cons_self) hnone rfl (h.other.kernel _ h.tempPt.pdIndex_lt)
    rw [hcall]
    dsimp only [Option.bind_some]
    have hrest := hready₁ (.inr hready.links.2.1)
    cases rest with
    | nil =>
      have hacc := h.access_nil (n := n + 2) hnear₁ (.inr (.inl rfl)) rfl hrest.links hpt₁
      have hend : t₁.endAlloc (mapPage (n + 2)) s.tempPt = none := by
        unfold endAlloc read
        rw [hacc]
        rfl
      rw [hend]
      rfl
    | cons q rest =>
      have hq : q ∈ free := hfree q (List.mem_cons_of_mem p List.mem_cons_self)
      obtain ⟨t₂, hend, hnear₂, htop, hpd₂⟩ :=
        h.endAlloc_temp (n := n + 1) hnear₁ hrest hq hpt₁
      have hframe := (word_of_page h.tempPd.aligned c.virtaddr).2.2.1
      have hacc := h.access_nil (n := n + 2) hnear₂ (.inl rfl) hframe htop (hpd₂.trans hpd₁)
      have haddr : c.wrPd t = s.tempPd := by
        unfold MapCall.wrPd
        rw [hasp]
        exact hnear.tempPd
      have hwrite : ∀ v, t₂.write (mapPage (n + 2)) (s.tempPd + pdEnt c.virtaddr * 4) v = none := by
        intro v
        unfold write
        rw [hacc]
        rfl
      rw [hend, haddr]
      dsimp only [Option.bind_some]
      rw [hwrite]
      rfl

end Foreign

/-- The entry of an address in the address space with its directory at `d`. -/
def entryIn (s : Machine) (d : PhysAddr) (va : Uintptr) : Option (BitVec 32) :=
  walk i386 s.mem (frameOf d) (pdIndex va) (ptIndex va)

/-- The call returns and does to the user pages of the other address space what the same call
does with that address space loaded, and to the loaded one nothing. -/
def Agrees (n : Nat) (c : MapCall) (d : PhysAddr) (s : Machine) : Prop :=
  ∃ s' s'', mapPage n c s = some s' ∧
    mapPage n { c with asp := none } { s with cr3 := d } = some s'' ∧
    (∀ va, 256 ≤ (pdIndex va).toNat → s'.entryIn d va = s''.entryIn d va) ∧
    ∀ va, (∀ b, s.IsTemp b → frameOf va ≠ frameOf b) → s'.entry va = s.entry va

/-- The entry a call is to leave, where `top` is the next page of the stack. -/
def wanted (c : MapCall) (top : PhysAddr) : Option (BitVec 32) :=
  if c.unmap then none else some (c.entryWord (if c.physaddr = 0 then top else c.physaddr))

section Agreement
variable {n : Nat} {s : Machine} {d : PhysAddr} {free : List PhysAddr} {c : MapCall}
  (h : Spaces s d free) (hfree : 2 ≤ free.length) (hasp : c.asp = some d)
  (huser : 256 ≤ (pdIndex c.virtaddr).toNat)
include h hfree hasp huser

omit hasp in
/-- With the other address space loaded and its table there, the entry becomes as wanted. -/
theorem Spaces.loaded_call
    (hpres : isPresent (s.mem (frameOf d) (pdIndex c.virtaddr)) = true) :
    ∃ s'', mapPage (n + 2) { c with asp := none } { s with cr3 := d } = some s'' ∧
      s''.entryIn d c.virtaddr = wanted c s.stack.top ∧
      ∀ va, pdIndex va ≠ 255 → frameOf va ≠ frameOf c.virtaddr →
        s''.entryIn d va = s.entryIn d va := by
  have hva : pdIndex c.virtaddr ≠ 255 := index_ne_of_user huser
  obtain ⟨tables, pages, rest, s₁, s'', hsplit, hcall, hopen, hready₁, henter⟩ :=
    mapPage_outcome (n := n) (c := { c with asp := none }) h.other hfree rfl hva
  have hother : Ready { s with cr3 := d } (tables ++ (pages ++ rest)) := hsplit ▸ h.other
  have heffect := effect_of_outcome hopen henter hother hready₁ hva
  have hin : ∀ va, s''.entryIn d va = s''.entry va := by
    intro va
    unfold entryIn entry dir
    rw [heffect.cr3]
  refine ⟨s'', hcall, ?_, fun va hva' hne => (hin va).trans (heffect.others va hva' hne)⟩
  rw [hin, heffect.target]
  unfold wanted
  cases hunmap : c.unmap with
  | true => rfl
  | false =>
    have htable : tables = [] := (if_pos hpres).mp heffect.table
    have hpage := heffect.page
    dsimp only at hpage
    by_cases hnew : c.physaddr = 0
    · rw [if_neg (by simp [hunmap, hnew])] at hpage
      obtain ⟨p, hp, -⟩ := hpage
      have htop : s.stack.top = p := by
        have hlinks := h.ready.links
        rw [hsplit, htable, hp] at hlinks
        exact hlinks.1
      rw [hp, htop, if_pos hnew]
      rfl
    · rw [if_pos (.inr hnew)] at hpage
      rw [hpage, if_neg hnew]
      rfl

theorem Spaces.agrees_of_found
    (hpres : isPresent (s.mem (frameOf d) (pdIndex c.virtaddr)) = true) :
    Agrees (n + 2) c d s ↔ s.entryIn d c.virtaddr = wanted c s.stack.top := by
  obtain ⟨s'', hloaded, htarget, hothers⟩ := h.loaded_call (n := n) hfree huser hpres
  cases free with
  | nil => exact absurd hfree (by decide)
  | cons p rest =>
    obtain ⟨s', hcall, hnear, -⟩ := h.foreign_found (n := n) (Near.refl _ s) h.ready
      List.mem_cons_self h.tempPt.unmapped hasp hpres
    have hkept : ∀ va, 256 ≤ (pdIndex va).toNat → s'.entryIn d va = s.entryIn d va :=
      fun va hva => h.walk_other hnear hva (ptIndex va)
    constructor
    · rintro ⟨t', t'', hcall', hloaded', hsame, -⟩
      obtain rfl : s' = t' := Option.some.inj (hcall.symm.trans hcall')
      obtain rfl : s'' = t'' := Option.some.inj (hloaded.symm.trans hloaded')
      rw [← htarget, ← hsame _ huser, hkept _ huser]
    · intro hdone
      refine ⟨s', s'', hcall, hloaded, fun va hva => ?_, fun va hnot => h.entry_near hnear hnot⟩
      rw [hkept va hva]
      by_cases heq : frameOf va = frameOf c.virtaddr
      · have hpage : ∀ t : Machine, t.entryIn d va = t.entryIn d c.virtaddr := by
          intro t
          unfold entryIn
          rw [pdIndex_congr heq, ptIndex_congr heq]
        rw [hpage s, hpage s'', hdone, htarget]
      · exact (hothers va (index_ne_of_user hva) heq).symm

omit huser in
theorem Spaces.not_agrees_of_missing
    (habs : isPresent (s.mem (frameOf d) (pdIndex c.virtaddr)) = false) :
    ¬ Agrees (n + 2) c d s := by
  rintro ⟨s', -, hcall, -⟩
  cases free with
  | nil => exact absurd hfree (by decide)
  | cons p rest =>
    have hnear := Near.refl (p :: rest) s
    obtain ⟨t₁, hopen, hnear₁, hplace, hentry, -, hkeep⟩ := h.openDir_eq (n := n) hnear hasp
    have hnone₁ : t₁.entry s.tempPt = none :=
      (hentry _ h.tempPt.pdIndex_ne h.pd_apart_pt.symm).trans h.tempPt.unmapped
    have htable := h.createTable_missing (n := n) hnear₁ (hkeep _ h.ready) (fun q hq => hq) hnone₁
      hasp hplace habs
    have hbody : s.mapPageBody (mapPage (n + 1)) c = some s' := hcall
    rw [mapPageBody_phases h.ready.enabled, hopen, Option.bind_some, htable] at hbody
    exact absurd hbody (Option.some_ne_none s').symm

end Agreement

/-- Mapping in another address space agrees with mapping in the loaded one exactly when there is
nothing to do: the page table is there, and the entry is already as it is to be. -/
theorem foreign_agrees_iff (n : Nat) (c : MapCall) (d : PhysAddr) (s : Machine)
    (free : List PhysAddr) (h : Spaces s d free) (hfree : 2 ≤ free.length)
    (hasp : c.asp = some d) (huser : 256 ≤ (pdIndex c.virtaddr).toNat) :
    Agrees (n + 2) c d s ↔
      isPresent (s.mem (frameOf d) (pdIndex c.virtaddr)) = true ∧
        s.entryIn d c.virtaddr = wanted c s.stack.top := by
  cases hpres : isPresent (s.mem (frameOf d) (pdIndex c.virtaddr)) with
  | true =>
    rw [h.agrees_of_found hfree hasp huser hpres]
    exact ⟨fun hdone => ⟨rfl, hdone⟩, fun hboth => hboth.2⟩
  | false =>
    exact iff_of_false (h.not_agrees_of_missing hfree hasp hpres)
      fun hboth => Bool.false_ne_true hboth.1

section Sample

/-- Entry `i` of a second directory, in frame 8, with one page table for the user. -/
def otherEntry (i : Index) : BitVec 32 :=
  if i = 255 then 0x8003 else if i = 256 then 0x12c003 else sampleEntry i

/-- The sample with a second address space, and sections for the temporary pages. -/
def twoSpaces : Machine :=
  { sample with
    mem := fun f i => if f = 8 then otherEntry i else sample.mem f i
    sections := ⟨[tempAt 0x200000, tempAt 0x201000, tempAt 0x202000], []⟩ }

theorem otherEntry_of_kernel {i : Index} (h : i.toNat < 255) : otherEntry i = sampleEntry i := by
  unfold otherEntry
  rw [if_neg, if_neg]
  · rintro rfl
    exact absurd h (by decide)
  · rintro rfl
    exact absurd h (by decide)

theorem otherEntry_frame {i : Index} (h : isPresent (otherEntry i) = true) (hi : i ≠ 255) :
    (frameOf (otherEntry i)).toNat = 300 ∧ i.toNat = 256 ∨
      (frameOf (otherEntry i)).toNat = i.toNat + 16 ∧ i.toNat < 255 := by
  unfold otherEntry at h ⊢
  rw [if_neg hi] at h ⊢
  by_cases huser : i = 256
  · rw [if_pos huser]
    exact .inl ⟨rfl, congrArg BitVec.toNat huser⟩
  · rw [if_neg huser] at h ⊢
    exact .inr ⟨sample_frame h hi, ((sampleEntry_present i).mp h).resolve_left hi⟩

theorem twoSpaces_mem (f : Frame) (i : Index) :
    twoSpaces.mem f i = if f = 8 then otherEntry i else sample.mem f i := rfl

theorem twoSpaces_other (i : Index) : twoSpaces.mem 8 i = otherEntry i := by
  rw [twoSpaces_mem, if_pos rfl]

theorem twoSpaces_same {f : Frame} (hf : f ≠ 8) (i : Index) :
    twoSpaces.mem f i = sample.mem f i := by
  rw [twoSpaces_mem, if_neg hf]

theorem twoSpaces_links : FreeList twoSpaces.mem twoSpaces.stack.top sampleFree := by
  refine FreeList.congr sample_links fun p hp => twoSpaces_same ?_ 0
  intro heq
  have h8 : (frameOf p).toNat = 8 := congrArg BitVec.toNat heq
  have hframes : ∀ p ∈ sampleFree, (frameOf p).toNat ≠ 8 := by
    simp [sampleFree, frameOf_toNat]
  exact hframes p hp h8

theorem twoSpaces_ready : Ready twoSpaces sampleFree := by
  have hdir : ∀ i, twoSpaces.mem sample.dir i = sample.mem sample.dir i := by
    intro i
    exact twoSpaces_same (by rw [sample_dir]; decide) i
  refine ⟨rfl, sample_self.congr hdir, ?_, twoSpaces_links, sample_ready.nodup, ?_⟩
  · intro i hi
    have hword : twoSpaces.mem twoSpaces.dir i = sample.mem sample.dir i := hdir i
    rw [hword]
    exact sample_ready.kernel i hi
  · exact fun p hp => (sample_ready.spare p hp).congr hdir

theorem twoSpaces_other_dir : ({ twoSpaces with cr3 := 0x8000 } : Machine).dir = 8 := rfl

theorem twoSpaces_other_self : SelfMapped i386 twoSpaces.mem 8 255 := by
  refine ⟨?_, ?_, ?_, ?_⟩
  · rw [twoSpaces_other]
    rfl
  · rw [twoSpaces_other]
    rfl
  · intro a ha hpres heq
    have h8 : (frameOf (twoSpaces.mem 8 a)).toNat = 8 := congrArg BitVec.toNat heq
    have hpres' : isPresent (twoSpaces.mem 8 a) = true := hpres
    rw [twoSpaces_other] at h8 hpres'
    have hframe := otherEntry_frame hpres' ha
    omega
  · intro a b ha hb hpa hpb heq
    have hpa' : isPresent (twoSpaces.mem 8 a) = true := hpa
    have hpb' : isPresent (twoSpaces.mem 8 b) = true := hpb
    have hsame : (frameOf (twoSpaces.mem 8 a)).toNat = (frameOf (twoSpaces.mem 8 b)).toNat :=
      congrArg BitVec.toNat heq
    rw [twoSpaces_other] at hpa' hpb'
    rw [twoSpaces_other, twoSpaces_other] at hsame
    have hfa := otherEntry_frame hpa' ha
    have hfb := otherEntry_frame hpb' hb
    apply BitVec.eq_of_toNat_eq
    omega

theorem twoSpaces_other_ready : Ready { twoSpaces with cr3 := 0x8000 } sampleFree := by
  refine ⟨rfl, ?_, ?_, twoSpaces_links, sample_ready.nodup, ?_⟩
  · rw [twoSpaces_other_dir]
    exact twoSpaces_other_self
  · intro i hi
    rw [twoSpaces_other_dir]
    show isPresent (twoSpaces.mem 8 i) = true
    rw [twoSpaces_other, otherEntry_of_kernel hi]
    exact (sampleEntry_present i).mpr (.inr hi)
  · intro p hp
    rw [twoSpaces_other_dir]
    intro a hpres heq
    have hpres' : isPresent (twoSpaces.mem 8 a) = true := hpres
    have hframe : (frameOf (twoSpaces.mem 8 a)).toNat = (frameOf p).toNat :=
      congrArg BitVec.toNat heq
    have hlow : ∀ p ∈ sampleFree, (frameOf p).toNat < 8 := by
      simp [sampleFree, frameOf_toNat]
    have hp8 := hlow p hp
    rw [twoSpaces_other] at hpres' hframe
    by_cases ha : a = 255
    · have h8 : (frameOf (otherEntry 255)).toNat = 8 := rfl
      rw [ha, h8] at hframe
      omega
    · have htable := otherEntry_frame hpres' ha
      omega

theorem twoSpaces_zero {f : Frame} (hf : 9 ≤ f.toNat) (i : Index) : twoSpaces.mem f i = 0 := by
  have h8 : f ≠ 8 := by
    rintro rfl
    exact absurd hf (by decide)
  have h1 : f ≠ 1 := by
    rintro rfl
    exact absurd hf (by decide)
  rw [twoSpaces_same h8, sample_mem, if_neg h1, if_neg (by omega)]

theorem twoSpaces_entry {va : Uintptr} (hva : pdIndex va ≠ 255) : twoSpaces.entry va = none := by
  have hdir : twoSpaces.dir = 1 := rfl
  unfold entry walk
  rw [hdir, twoSpaces_same (by decide), sample_mem_dir]
  by_cases hpres : isPresent (sampleEntry (pdIndex va)) = true
  · have hframe := sample_frame hpres hva
    have hpres' : i386.present (sampleEntry (pdIndex va)) = true := hpres
    have hzero : twoSpaces.mem (i386.frame (sampleEntry (pdIndex va))) (ptIndex va) = 0 :=
      twoSpaces_zero (f := frameOf (sampleEntry (pdIndex va))) (by omega) _
    rw [if_pos hpres', hzero]
    rfl
  · exact if_neg hpres

theorem twoSpaces_disjoint : twoSpaces.sections.Disjoint := by
  refine List.Pairwise.cons ?_ (List.Pairwise.cons ?_ (List.pairwise_singleton _ _))
  · intro t ht _ _
    have hcases : t = tempAt 0x201000 ∨ t = tempAt 0x202000 := by simpa [twoSpaces] using ht
    rcases hcases with rfl | rfl <;> decide
  · intro t ht _ _
    obtain rfl := List.mem_singleton.mp ht
    decide

theorem twoSpaces_spaces : Spaces twoSpaces 0x8000 sampleFree where
  ready := twoSpaces_ready
  other := twoSpaces_other_ready
  ne_zero := by decide
  shared := by
    intro i hi
    show frameOf (twoSpaces.mem 8 i) = frameOf (twoSpaces.mem 1 i)
    rw [twoSpaces_other, twoSpaces_same (by decide), sample_mem_dir, otherEntry_of_kernel hi]
  disjoint := twoSpaces_disjoint
  tempPd := ⟨by decide, by simp [twoSpaces, sample], by decide, twoSpaces_entry (by decide)⟩
  tempPt := ⟨by decide, by simp [twoSpaces, sample], by decide, twoSpaces_entry (by decide)⟩
  tempP := ⟨by decide, by simp [twoSpaces, sample], by decide, twoSpaces_entry (by decide)⟩
  pd_ne_pt := by decide
  pt_ne_p := by decide

theorem twoSpaces_table : isPresent (twoSpaces.mem (frameOf 0x8000) 256) = true := by
  show isPresent (twoSpaces.mem 8 256) = true
  rw [twoSpaces_other]
  rfl

theorem twoSpaces_entryIn : twoSpaces.entryIn 0x8000 0x40000000 = none := by
  have h8 : frameOf 0x8000 = 8 := rfl
  have hword : otherEntry 256 = 0x12c003 := rfl
  have hzero : twoSpaces.mem (i386.frame 0x12c003) (ptIndex 0x40000000) = 0 :=
    twoSpaces_zero (f := frameOf 0x12c003) (by simp [frameOf_toNat]) _
  have hpd : pdIndex 0x40000000 = 256 := rfl
  unfold entryIn walk
  rw [h8, hpd, twoSpaces_other, hword, hzero]
  rfl

theorem foreign_agrees_unmap :
    Agrees 2 { virtaddr := 0x40000000, asp := some 0x8000, unmap := true } 0x8000 twoSpaces :=
  (foreign_agrees_iff 0 { virtaddr := 0x40000000, asp := some 0x8000, unmap := true } 0x8000
    twoSpaces sampleFree twoSpaces_spaces (by decide) rfl (by decide)).mpr
    ⟨twoSpaces_table, twoSpaces_entryIn⟩

/-- A page that is to be mapped where the table is there is not mapped. -/
theorem foreign_map_not_agrees :
    ¬ Agrees 2 { virtaddr := 0x40000000, asp := some 0x8000, physaddr := 0x9000 } 0x8000
      twoSpaces := by
  intro hagrees
  have hdone := (twoSpaces_spaces.agrees_of_found (n := 0)
    (c := { virtaddr := 0x40000000, asp := some 0x8000, physaddr := 0x9000 })
    (by decide) rfl (by decide) twoSpaces_table).mp hagrees
  rw [twoSpaces_entryIn] at hdone
  exact absurd hdone (by decide)

end Sample

end Machine
end Tysos
