import Tysos.Paging.CurrentSpace
import Mathlib.Data.List.Nodup

/-!
# The frames behind faults

Which frame a fault is resolved with. `ResolvePageFault` hands the address of the section's
source to `MapPage` for every section, and `MapPage` takes a page off the stack only where this
address is 0.
-/

namespace Tysos
open PageTables
set_option autoImplicit false

theorem FreeList.unique {mem : FrameMemory} {top : PhysAddr} {ps qs : List PhysAddr}
    (hp : FreeList mem top ps) (hq : FreeList mem top qs) : ps = qs := by
  induction ps generalizing top qs with
  | nil =>
    cases qs with
    | nil => rfl
    | cons q qs => exact absurd (hq.1.symm.trans hp) hq.2.1
  | cons p ps ih =>
    cases qs with
    | nil => exact absurd (hp.1.symm.trans hq) hp.2.1
    | cons q qs =>
      obtain rfl : p = q := hp.1.symm.trans hq.1
      rw [ih hp.2.2.2 hq.2.2.2]

namespace Section

/-- The source of the byte at `a`. Where the section grows down to `a` it then begins there. -/
def sourceAt (s : Section) (a : Uintptr) : PhysAddr :=
  if a < s.base then s.memSource else s.memSource + (a - s.base)

/-- The section has `Bits` exactly if its source at `a` is not in frame 0. -/
def SourceFits (s : Section) (a : Uintptr) : Prop :=
  s.has flagBits = true ↔ frameOf (s.sourceAt a) ≠ 0

instance (s : Section) (a : Uintptr) : Decidable (s.SourceFits a) :=
  inferInstanceAs (Decidable (_ ↔ _))

/-- Neither the source nor the flags depend on whether the section has grown yet. -/
theorem sourceAt_of_takeFault {s s' : Section} {a : Uintptr} (h : s.takeFault a = some s') :
    s'.memSource + (a - s'.base) = s.sourceAt a ∧ s'.has flagBits = s.has flagBits := by
  have hkept : s.base.toNat ≤ a.toNat → s.memSource + (a - s.base) = s.sourceAt a := by
    intro hle
    unfold sourceAt
    rw [if_neg (BitVec.not_lt.mpr hle)]
  obtain ⟨-, -, ⟨hlive, rfl⟩ | ⟨-, hbelow, rfl⟩ | ⟨-, habove, rfl⟩⟩ :=
    takeFault_eq_some_iff.mp h
  · exact ⟨hkept hlive.1, rfl⟩
  · have hsource : s.memSource + (a - a) = s.sourceAt a := by
      unfold sourceAt
      rw [if_pos (BitVec.lt_def.mpr hbelow.1), BitVec.sub_self, BitVec.add_zero]
    split
    · exact ⟨hsource, rfl⟩
    · exact ⟨hsource, rfl⟩
  · exact ⟨hkept (Nat.le_trans (Nat.le_add_right _ _) habove.1), rfl⟩

theorem mapRequest_eq_zero_iff (s : Section) (a : Uintptr) :
    (s.mapRequest a).physaddr = 0 ↔ frameOf (s.memSource + (a - s.base)) = 0 := by
  have hsource : (s.mapRequest a).physaddr = (s.memSource + (a - s.base)) &&& pageMask := by
    rw [BitVec.add_comm]
    rfl
  rw [hsource, ← frameOf_and_pageMask]
  constructor
  · intro hzero
    rw [hzero]
    rfl
  · intro hframe
    exact frameOf_inj (by rw [BitVec.and_assoc, BitVec.and_self]) rfl hframe

theorem pdIndex_of_takeFault {s s' : Section} {a : Uintptr} (h : s.takeFault a = some s') :
    pdIndex a ≠ 255 := by
  have hlegal := exists_takeFault_iff.mp ⟨s', h⟩
  have hacc : s.Accepted := hlegal.elim (·.1) (·.1)
  have hin := hlegal.elim Legal.inside FirstGuard.inside
  have habove := hacc.above
  have hbelow := hacc.below
  intro hpd
  have hval := congrArg BitVec.toNat hpd
  rw [pdIndex_toNat] at hval
  have h255 : (255 : Index).toNat = 255 := rfl
  rw [h255] at hval
  unfold rangeMin at habove
  unfold rangeMax at hbelow
  have hks : kernelStart.toNat = 0x100000 := rfl
  have hke : kernelEnd.toNat = 0x3fbfffff := rfl
  have hus : userStart.toNat = 0x40000000 := rfl
  have hue : userEnd.toNat = 0xffffffff := rfl
  split at habove
  · rw [if_pos ‹_›] at hbelow
    omega
  · omega

end Section

namespace Machine
variable {n : Nat} {s s' : Machine} {free : List PhysAddr} {a : Uintptr}

/-- What resolving a fault at `a` in the section is to come to: the page is where the source of
the section is or, without `Bits`, in a page taken off the stack that is no page table. -/
def Backed (sec : Section) (a : Uintptr) (free : List PhysAddr) (s' : Machine) : Prop :=
  if sec.has Section.flagBits then s'.place a = some (frameOf (sec.memSource + (a - sec.base)))
  else ∃ taken rest p, free = taken ++ rest ∧ FreeList s'.mem s'.stack.top rest ∧ p ∈ taken ∧
    s'.place a = some (frameOf p) ∧ Spare i386 s'.mem s'.dir (frameOf p)

theorem ready_withSections (h : Ready s free) (l : SectionList) :
    Ready { s with sections := l } free :=
  ⟨h.enabled, h.self, h.kernel, h.links, h.nodup, h.spare⟩

/-- What a resolved fault did, with the pages it took off the stack. -/
structure Resolved (s : Machine) (a : Uintptr) (source : PhysAddr) (s' : Machine)
    (tables pages rest : List PhysAddr) : Prop where
  ready : Ready s' rest
  cr3 : s'.cr3 = s.cr3
  taken : if source ≠ 0 then pages = [] else ∃ p, pages = [p]
  place : s'.place a = some (frameOf (pages.headD source))
  others : ∀ va, pdIndex va ≠ 255 → frameOf va ≠ frameOf a → s'.place va = s.place va
  tables : ∀ p ∈ tables, ¬ Spare i386 s'.mem s'.dir (frameOf p)
  pages : ∀ p ∈ pages, Spare i386 s'.mem s'.dir (frameOf p)

theorem Effect.table_used {c : MapCall} {tables pages rest : List PhysAddr}
    (h : Effect c s s' tables pages rest) :
    ∀ p ∈ tables, ¬ Spare i386 s'.mem s'.dir (frameOf p) := by
  intro p hp hspare
  have htable := h.table
  split at htable
  · rw [htable] at hp
    exact absurd hp List.not_mem_nil
  · obtain ⟨p', hp', hword⟩ := htable
    obtain rfl : p = p' := by
      rw [hp'] at hp
      exact List.mem_singleton.mp hp
    have hdir : s'.dir = s.dir := congrArg frameOf h.cr3
    rw [← hdir] at hword
    have hpresent : isPresent (s'.mem s'.dir (pdIndex c.virtaddr)) = true := by
      rw [hword]
      exact isPresent_tableWord p
    have hframe : frameOf (s'.mem s'.dir (pdIndex c.virtaddr)) = frameOf p := by
      rw [hword]
      exact frameOf_tableWord p
    exact hspare _ hpresent hframe

theorem fault_resolved {l : SectionList} {sec : Section} {req : MapRequest} (h : Ready s free)
    (hsec : s.sections.resolvePageFault a false = some (.mapped l sec req))
    (hfault : s.fault (mapPage (n + 2)) a = some s') :
    ∃ tables pages rest, free = tables ++ (pages ++ rest) ∧
      Resolved s a req.physaddr s' tables pages rest := by
  obtain ⟨j, sec₀, hj, htake, -, hreq⟩ := SectionList.resolvePageFault_mapped hsec
  have hpage : frameOf (faultCall req).virtaddr = frameOf a := by
    rw [hreq]
    exact frameOf_faultCall sec a
  have hva : pdIndex (faultCall req).virtaddr ≠ 255 := by
    rw [pdIndex_congr hpage]
    exact Section.pdIndex_of_takeFault htake
  have hready := ready_withSections h l
  rw [fault_eq hsec] at hfault
  obtain ⟨tables, pages, rest, s₁, hsplit, hopen, h₁, henter⟩ :=
    mapPage_returned hready rfl hva hfault
  have hpres := hopen.present
  have hready' := henter.ready h₁ hpres hva
  have heffect : Effect (faultCall req) { s with sections := l } s' tables pages rest := by
    rw [hsplit] at hready
    exact effect_of_outcome hopen henter hready h₁ hva
  refine ⟨tables, pages, rest, hsplit, hready', heffect.cr3, ?_, ?_, ?_, heffect.table_used, ?_⟩
  · have htaken := heffect.page
    by_cases hsource : req.physaddr = 0
    · rw [if_neg (by simp [faultCall, hsource])] at htaken
      rw [if_neg (not_not.mpr hsource)]
      obtain ⟨p, hp, -⟩ := htaken
      exact ⟨p, hp⟩
    · rw [if_pos (.inr hsource)] at htaken
      rwa [if_pos hsource]
  · have htarget := (entry_congr hpage).symm.trans heffect.target
    rw [place_of_entry hready'.enabled htarget, MapCall.frameOf_entryWord]
    rfl
  · intro va hva' hne
    have hother := heffect.others va hva' (hpage ▸ hne)
    exact place_congr (s := s) hready'.enabled h.enabled hother
  · intro p hp
    have hspare := h₁.spare p (List.mem_append_left _ hp)
    have hdir₁ : s'.dir = s₁.dir := congrArg frameOf henter.cr3
    rw [hdir₁]
    exact hspare.congr (henter.dir_word h₁ hpres hva)

/-- A fault is backed as it should be exactly if an address was handed on for `Bits` only. -/
theorem Resolved.backed_iff {sec : Section} {tables pages rest : List PhysAddr}
    (hres : Resolved s a (sec.mapRequest a).physaddr s' tables pages rest) (h : Ready s free)
    (hsplit : free = tables ++ (pages ++ rest)) :
    Backed sec a free s' ↔
      (sec.has Section.flagBits = true ↔ (sec.mapRequest a).physaddr ≠ 0) := by
  have hsource : frameOf (sec.mapRequest a).physaddr =
      frameOf (sec.memSource + (a - sec.base)) := by
    rw [BitVec.add_comm]
    exact frameOf_and_pageMask _
  have hlinks := hres.ready.links
  have htaken := hres.taken
  have hplace := hres.place
  unfold Backed
  generalize (sec.mapRequest a).physaddr = source at hsource htaken hplace
  by_cases hzero : source = 0
  · rw [if_neg (not_not.mpr hzero)] at htaken
    obtain ⟨p, rfl⟩ := htaken
    have hp : p ∈ free := by
      rw [hsplit]
      exact List.mem_append_right _ List.mem_cons_self
    cases hbits : sec.has Section.flagBits with
    | true =>
      have hne : frameOf p ≠ frameOf 0 := by
        intro heq
        exact h.links.ne_zero hp (frameOf_inj (h.links.aligned hp) rfl heq)
      rw [if_pos rfl, hplace, ← hsource, hzero]
      exact iff_of_false (fun heq => hne (Option.some.inj heq)) fun hfit => hfit.mp rfl rfl
    | false =>
      rw [if_neg Bool.false_ne_true]
      refine iff_of_true ⟨tables ++ [p], rest, p, ?_, hlinks, ?_, hplace, ?_⟩ ?_
      · rw [hsplit, List.append_assoc]
      · exact List.mem_append_right _ List.mem_cons_self
      · exact hres.pages p List.mem_cons_self
      · exact ⟨fun hbit => absurd hbit Bool.false_ne_true, fun hne => absurd hzero hne⟩
  · rw [if_pos hzero] at htaken
    subst htaken
    cases hbits : sec.has Section.flagBits with
    | true =>
      rw [if_pos rfl, hplace, ← hsource]
      exact iff_of_true rfl ⟨fun _ => hzero, fun _ => rfl⟩
    | false =>
      rw [if_neg Bool.false_ne_true]
      refine iff_of_false ?_ fun hfit => absurd (hfit.mpr hzero) Bool.false_ne_true
      rintro ⟨taken, rest', p, hsplit', hlinks', hp, -, hspare⟩
      obtain rfl := hlinks'.unique hlinks
      have htables : taken = tables := List.append_cancel_right (hsplit'.symm.trans hsplit)
      exact hres.tables p (htables ▸ hp) hspare

end Machine

/-- The machine, and the pages whose last fault was in a section without `Bits`. -/
structure Faulting where
  machine : Machine
  anon : Frame → Bool

namespace Faulting
open Machine

/-- One fault that is resolved. -/
def step (n : Nat) (t : Faulting) (a : Uintptr) : Option Faulting :=
  match t.machine.sections.resolvePageFault a false with
  | some (.mapped _ sec _) => do
    let s ← t.machine.fault (mapPage (n + 2)) a
    some { machine := s
           anon := fun page => if page = frameOf a then !sec.has Section.flagBits
             else t.anon page }
  | _ => none

/-- The fault at `a` is resolved as it should be. -/
def Right (n : Nat) (t : Faulting) (a : Uintptr) : Prop :=
  ∀ l sec req t', t.machine.sections.resolvePageFault a false = some (.mapped l sec req) →
    step n t a = some t' → ∃ free, FreeList t.machine.mem t.machine.stack.top free ∧
      Backed sec a free t'.machine

/-- The source fits the section that takes the fault. -/
def Fits (t : Faulting) (a : Uintptr) : Prop :=
  ∀ s, t.machine.sections.taker a = some s → s.SourceFits a

instance (t : Faulting) (a : Uintptr) : Decidable (Fits t a) :=
  match h : t.machine.sections.taker a with
  | none => isTrue fun s hs => absurd (h.symm.trans hs) (Option.some_ne_none s).symm
  | some s =>
    decidable_of_iff (s.SourceFits a)
      ⟨fun hfit _ hs => Option.some.inj (h.symm.trans hs) ▸ hfit, fun hfits => hfits s h⟩

/-- The pages of sections without `Bits` are in frames that were handed out from `free₀`, and
no two in the same. -/
structure OwnFrames (free₀ : List PhysAddr) (t : Faulting) : Prop where
  handed : ∃ taken rest, free₀ = taken ++ rest ∧
    FreeList t.machine.mem t.machine.stack.top rest ∧
    ∀ va, t.anon (frameOf va) = true → ∃ p ∈ taken, t.machine.place va = some (frameOf p)
  apart : ∀ va va', t.anon (frameOf va) = true → t.anon (frameOf va') = true →
    frameOf va ≠ frameOf va' → t.machine.place va ≠ t.machine.place va'

variable {n : Nat} {t t' : Faulting} {a : Uintptr} {free₀ : List PhysAddr}

/-- The pages left of `free₀` are on the stack, and the machine is in order. -/
def Stocked (free₀ : List PhysAddr) (t : Faulting) : Prop :=
  ∃ taken rest, free₀ = taken ++ rest ∧ Ready t.machine rest

theorem step_resolved {free : List PhysAddr} (h : Ready t.machine free)
    (hstep : step n t a = some t') : ∃ l sec,
      t.machine.sections.resolvePageFault a false =
        some (.mapped l sec (sec.mapRequest a)) ∧
      pdIndex a ≠ 255 ∧
      t'.anon = (fun page => if page = frameOf a then !sec.has Section.flagBits
        else t.anon page) ∧
      ∃ tables pages rest, free = tables ++ (pages ++ rest) ∧
        Resolved t.machine a (sec.mapRequest a).physaddr t'.machine tables pages rest := by
  unfold step at hstep
  split at hstep
  · rename_i l sec req hsec
    obtain ⟨s', hfault, hnew⟩ := Option.bind_eq_some_iff.mp hstep
    obtain rfl := Option.some.inj hnew
    obtain ⟨j, sec₀, -, htake, -, rfl⟩ := SectionList.resolvePageFault_mapped hsec
    exact ⟨l, sec, hsec, Section.pdIndex_of_takeFault htake, rfl, fault_resolved h hsec hfault⟩
  · exact absurd hstep (Option.some_ne_none t').symm

theorem step_returns {free : List PhysAddr} (h : Ready t.machine free) (hfree : 2 ≤ free.length)
    {l : SectionList} {sec : Section} {req : MapRequest}
    (hsec : t.machine.sections.resolvePageFault a false = some (.mapped l sec req)) :
    ∃ t', step n t a = some t' := by
  obtain ⟨j, sec₀, -, htake, -, rfl⟩ := SectionList.resolvePageFault_mapped hsec
  have hva : pdIndex (faultCall (sec.mapRequest a)).virtaddr ≠ 255 := by
    rw [pdIndex_congr (frameOf_faultCall sec a)]
    exact Section.pdIndex_of_takeFault htake
  obtain ⟨-, -, -, -, s', -, hcall, -⟩ :=
    mapPage_outcome (n := n) (ready_withSections h l) hfree rfl hva
  unfold step
  rw [hsec]
  dsimp only [Option.bind_eq_bind]
  rw [fault_eq hsec, hcall]
  exact ⟨_, rfl⟩

theorem Stocked.step (h : Stocked free₀ t) (hstep : step n t a = some t') :
    Stocked free₀ t' := by
  obtain ⟨taken, rest, hsplit, hready⟩ := h
  obtain ⟨l, sec, -, -, -, tables, pages, rest', hrest, hres⟩ := step_resolved hready hstep
  refine ⟨taken ++ (tables ++ pages), rest', ?_, hres.ready⟩
  rw [hsplit, hrest, List.append_assoc, List.append_assoc]

theorem fits_iff {l : SectionList} {sec : Section} {req : MapRequest}
    (hsec : t.machine.sections.resolvePageFault a false = some (.mapped l sec req)) :
    t.Fits a ↔ (sec.has Section.flagBits = true ↔ (sec.mapRequest a).physaddr ≠ 0) := by
  obtain ⟨s, htaker, htake⟩ := SectionList.resolvePageFault_taker hsec
  obtain ⟨hsource, hbits⟩ := Section.sourceAt_of_takeFault htake
  have hone : (sec.has Section.flagBits = true ↔ (sec.mapRequest a).physaddr ≠ 0) ↔
      s.SourceFits a := by
    unfold Section.SourceFits
    rw [hbits, Ne, sec.mapRequest_eq_zero_iff, hsource]
  rw [hone]
  constructor
  · exact fun hfits => hfits s htaker
  · intro hfit s' htaker'
    obtain rfl : s = s' := Option.some.inj (htaker.symm.trans htaker')
    exact hfit

theorem right_iff_fits (h : Stocked free₀ t) (hstep : Faulting.step n t a = some t') :
    Right n t a ↔ t.Fits a := by
  obtain ⟨taken, rest, -, hready⟩ := h
  obtain ⟨l, sec, hsec, -, -, tables, pages, rest', hrest, hres⟩ := step_resolved hready hstep
  have hone := hres.backed_iff hready hrest
  rw [fits_iff hsec, ← hone]
  constructor
  · intro hright
    obtain ⟨free, hlinks, hback⟩ := hright l sec _ t' hsec hstep
    obtain rfl := hlinks.unique hready.links
    exact hback
  · intro hback l' sec' req' t'' hsec' hstep'
    obtain ⟨rfl, rfl, rfl⟩ : l = l' ∧ sec = sec' ∧ sec.mapRequest a = req' := by
      simpa using hsec.symm.trans hsec'
    obtain rfl : t' = t'' := Option.some.inj (hstep.symm.trans hstep')
    exact ⟨rest, hready.links, hback⟩

/-- `OwnFrames` as it is kept by the steps. -/
structure Owned (free₀ taken rest : List PhysAddr) (t : Faulting) : Prop where
  split : free₀ = taken ++ rest
  ready : Ready t.machine rest
  outside : ∀ va, t.anon (frameOf va) = true → pdIndex va ≠ 255
  handed : ∀ va, t.anon (frameOf va) = true →
    ∃ p ∈ taken, t.machine.place va = some (frameOf p)
  apart : ∀ va va', t.anon (frameOf va) = true → t.anon (frameOf va') = true →
    frameOf va ≠ frameOf va' → t.machine.place va ≠ t.machine.place va'

theorem Owned.ownFrames {taken rest : List PhysAddr} (h : Owned free₀ taken rest t) :
    OwnFrames free₀ t :=
  ⟨⟨taken, rest, h.split, h.ready.links, h.handed⟩, h.apart⟩

theorem Resolved.fresh {s s' : Machine} {sec : Section} {tables pages rest : List PhysAddr}
    (hres : Resolved s a (sec.mapRequest a).physaddr s' tables pages rest)
    (hfit : sec.has Section.flagBits = true ↔ (sec.mapRequest a).physaddr ≠ 0)
    (hbits : sec.has Section.flagBits = false) :
    ∃ p ∈ pages, s'.place a = some (frameOf p) := by
  have hzero : (sec.mapRequest a).physaddr = 0 := by
    by_contra hne
    rw [hfit.mpr hne] at hbits
    exact Bool.false_ne_true hbits.symm
  have htaken := hres.taken
  rw [if_neg (not_not.mpr hzero)] at htaken
  obtain ⟨p, hp⟩ := htaken
  have hplace := hres.place
  rw [hp] at hplace
  exact ⟨p, hp ▸ List.mem_cons_self, hplace⟩

theorem Owned.step {taken rest : List PhysAddr} (h : Owned free₀ taken rest t)
    (hnodup : free₀.Nodup) (hal : ∀ p ∈ free₀, p &&& pageMask = p) (hfits : t.Fits a)
    (hstep : Faulting.step n t a = some t') :
    ∃ taken' rest', Owned free₀ taken' rest' t' := by
  obtain ⟨l, sec, hsec, hva, hanon, tables, pages, rest', hrest, hres⟩ :=
    step_resolved h.ready hstep
  have hfit := (fits_iff hsec).mp hfits
  have hold : ∀ va, t'.anon (frameOf va) = true → frameOf va ≠ frameOf a →
      t.anon (frameOf va) = true ∧ t'.machine.place va = t.machine.place va := by
    intro va hown hne
    rw [hanon] at hown
    dsimp only at hown
    rw [if_neg hne] at hown
    exact ⟨hown, hres.others va (h.outside va hown) hne⟩
  have hnew : ∀ va, t'.anon (frameOf va) = true → frameOf va = frameOf a →
      ∃ p ∈ pages, t'.machine.place va = some (frameOf p) := by
    intro va hown heq
    rw [hanon] at hown
    dsimp only at hown
    rw [if_pos heq] at hown
    obtain ⟨p, hp, hplace⟩ := Resolved.fresh hres hfit (by simpa using hown)
    exact ⟨p, hp, (place_page heq).trans hplace⟩
  -- a page just taken is in no frame taken before
  have hdiff : ∀ va va', t'.anon (frameOf va) = true → t'.anon (frameOf va') = true →
      frameOf va = frameOf a → frameOf va' ≠ frameOf a →
      t'.machine.place va ≠ t'.machine.place va' := by
    intro va va' hown hown' heq hne hsame
    obtain ⟨p, hp, hplace⟩ := hnew va hown heq
    obtain ⟨hown₀, hkept⟩ := hold va' hown' hne
    obtain ⟨q, hq, hplace'⟩ := h.handed va' hown₀
    rw [hplace, hkept, hplace', Option.some.injEq] at hsame
    have hprest : p ∈ rest := by
      rw [hrest]
      exact List.mem_append_right _ (List.mem_append_left _ hp)
    have hpfree : p ∈ free₀ := h.split ▸ List.mem_append_right taken hprest
    have hqfree : q ∈ free₀ := h.split ▸ List.mem_append_left rest hq
    have hpq : q = p := (frameOf_inj (hal p hpfree) (hal q hqfree) hsame).symm
    rw [h.split] at hnodup
    exact (List.disjoint_of_nodup_append hnodup) hq (hpq ▸ hprest)
  refine ⟨taken ++ (tables ++ pages), rest', ?_, hres.ready, ?_, ?_, ?_⟩
  · rw [h.split, hrest, List.append_assoc, List.append_assoc]
  · intro va hown
    by_cases heq : frameOf va = frameOf a
    · rw [pdIndex_congr heq]
      exact hva
    · exact h.outside va (hold va hown heq).1
  · intro va hown
    by_cases heq : frameOf va = frameOf a
    · obtain ⟨p, hp, hplace⟩ := hnew va hown heq
      exact ⟨p, List.mem_append_right _ (List.mem_append_right _ hp), hplace⟩
    · obtain ⟨hown₀, hkept⟩ := hold va hown heq
      obtain ⟨q, hq, hplace⟩ := h.handed va hown₀
      exact ⟨q, List.mem_append_left _ hq, hkept.trans hplace⟩
  · intro va va' hown hown' hne
    by_cases heq : frameOf va = frameOf a
    · exact hdiff va va' hown hown' heq fun heq' => hne (heq.trans heq'.symm)
    · by_cases heq' : frameOf va' = frameOf a
      · exact (hdiff va' va hown' hown heq' heq).symm
      · obtain ⟨hown₀, hkept⟩ := hold va hown heq
        obtain ⟨hown₀', hkept'⟩ := hold va' hown' heq'
        rw [hkept, hkept']
        exact h.apart va va' hown₀ hown₀' hne

/-- In a run of resolved faults every fault is backed as it should be exactly if every source
fits its section; and then the pages of sections without `Bits` have frames of their own, all
handed out by the allocator. -/
theorem run_backed (n : Nat) (t t' : Faulting) (as : List Uintptr) (free₀ : List PhysAddr)
    (hready : Ready t.machine free₀) (hanon : ∀ page, t.anon page = false)
    (hrun : Transition.run (step n) t as = some t') :
    (Transition.EachStep (step n) (Right n) t as ↔ Transition.EachStep (step n) Fits t as) ∧
      (Transition.EachStep (step n) Fits t as → OwnFrames free₀ t') := by
  have hstocked : Stocked free₀ t := ⟨[], free₀, rfl, hready⟩
  have hal : ∀ p ∈ free₀, p &&& pageMask = p := fun p hp => hready.links.aligned hp
  constructor
  · refine Transition.EachStep.iff ?_ ?_ hstocked hrun
    · exact fun t a t' h _ hstep => h.step hstep
    · exact fun t a t' h hstep => right_iff_fits h hstep
  · intro hfits
    have hnone : ∀ va, ¬ t.anon (frameOf va) = true := by
      intro va
      rw [hanon]
      exact Bool.false_ne_true
    have hstart : ∃ taken rest, Owned free₀ taken rest t := by
      refine ⟨[], free₀, rfl, hready, ?_, ?_, ?_⟩
      · exact fun va hown => absurd hown (hnone va)
      · exact fun va hown => absurd hown (hnone va)
      · exact fun va va' hown => absurd hown (hnone va)
    have hkeep : ∀ t a t', (∃ taken rest, Owned free₀ taken rest t) → Fits t a →
        step n t a = some t' → ∃ taken rest, Owned free₀ taken rest t' := by
      rintro t a t' ⟨taken, rest, h⟩ hfit hstep
      exact h.step hready.nodup hal hfit hstep
    obtain ⟨taken, rest, h⟩ := Transition.EachStep.run_invariant hkeep hstart hfits hrun
    exact h.ownFrames

/-- A stack, to be taken page by page as it grows down, behind which the kernel's code lies where
it was loaded. -/
def stackAndCode : Faulting where
  machine := { Machine.sample with
    sections :=
      ⟨[⟨0x4067, 0x00203000, 0x1000, 0x2000, 0, 0x1000, 0, 0⟩,
        ⟨0x4087, 0x00300000, 0x2000, 0, 0, 0, 0, 0x00100000⟩], []⟩ }
  anon := fun _ => false

def stackAndCodeFaults : List Uintptr :=
  [0x00203ffc, 0x00301000, 0x00202800, 0x00300ff0, 0x00201400]

theorem run_backed_stackAndCode :
    ∃ t', Transition.run (step 0) stackAndCode stackAndCodeFaults = some t' ∧
      Transition.EachStep (step 0) (Right 0) stackAndCode stackAndCodeFaults ∧
      OwnFrames Machine.sampleFree t' := by
  have hready : Ready stackAndCode.machine Machine.sampleFree :=
    ready_withSections Machine.sample_ready _
  have hreturns :
      (Transition.run (step 0) stackAndCode stackAndCodeFaults).isSome = true := by
    decide +kernel
  have hfits : Transition.EachStep (step 0) Fits stackAndCode stackAndCodeFaults := by
    decide +kernel
  obtain ⟨t', hrun⟩ := Option.isSome_iff_exists.mp hreturns
  obtain ⟨hiff, hown⟩ := run_backed 0 stackAndCode t' stackAndCodeFaults Machine.sampleFree
    hready (fun _ => rfl) hrun
  exact ⟨t', hrun, hiff.mpr hfits, hown hfits⟩

/-- Two pages of the kernel's memory to be taken as they are used. -/
def heap : Section := ⟨0x4007, 0x00200000, 0x2000, 0, 0, 0, 0, 0⟩

def heapSample : Faulting where
  machine := { Machine.sample with sections := ⟨[heap], []⟩ }
  anon := fun _ => false

theorem heapSample_ready : Ready heapSample.machine Machine.sampleFree :=
  ready_withSections Machine.sample_ready _

theorem heapSample_fault {a : Uintptr} (ha : heap.takeFault a = some heap) :
    heapSample.machine.sections.resolvePageFault a false =
      some (.mapped ⟨[heap], []⟩ heap (heap.mapRequest a)) := by
  have hget : (⟨[heap], []⟩ : SectionList).getItem 0 = some heap := rfl
  have hloop : heapSample.machine.sections.resolvePageFault a false =
      SectionList.resolveLoop ⟨[heap], []⟩ a 0 1 := rfl
  rw [hloop]
  unfold SectionList.resolveLoop
  rw [hget]
  dsimp only [Option.bind_eq_bind, Option.bind_some]
  rw [ha]
  rfl

/-- The second page of the heap is given the frame with the number 1, which here is the
page directory. -/
theorem heap_second_page : ¬ Right 0 heapSample 0x00201000 ∧
    ∃ t', step 0 heapSample 0x00201000 = some t' ∧
      t'.machine.place 0x00201000 = some t'.machine.dir := by
  have hsec := heapSample_fault (a := 0x00201000) (by decide)
  obtain ⟨t', hstep⟩ := step_returns (n := 0) heapSample_ready (by decide) hsec
  constructor
  · intro hright
    have hstocked : Stocked Machine.sampleFree heapSample := ⟨[], _, rfl, heapSample_ready⟩
    have hfits := (right_iff_fits hstocked hstep).mp hright
    exact absurd (((fits_iff hsec).mp hfits).mpr (by decide)) (by decide)
  · obtain ⟨l, sec, hsec', -, -, tables, pages, rest, -, hres⟩ :=
      step_resolved heapSample_ready hstep
    obtain rfl : heap = sec := by
      have hsame := hsec.symm.trans hsec'
      simp only [Option.some.injEq, FaultResult.mapped.injEq] at hsame
      exact hsame.2.1
    refine ⟨t', hstep, ?_⟩
    have htaken := hres.taken
    rw [if_pos (by decide)] at htaken
    have hdir : t'.machine.dir = heapSample.machine.dir := congrArg frameOf hres.cr3
    rw [hres.place, htaken, hdir]
    rfl

end Faulting
end Tysos
