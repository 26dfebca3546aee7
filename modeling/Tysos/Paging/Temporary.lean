import Tysos.Paging.AddressSpace
import Tysos.Paging.KernelTables

/-!
# Temporary pages

Two address spaces and the three temporary pages of the kernel. A fault at one of these takes a
page off the stack, and what is done by way of them leaves both address spaces as they are.
-/

namespace Tysos
open PageTables
set_option autoImplicit false

/-- The section of a temporary page. -/
def tempAt (base : Uintptr) : Section := { VirtMemManager.tempSection with base := base }

theorem tempAt_kernel (b : Uintptr) : (tempAt b).has Section.flagKernelSection = true := by
  show decide (VirtMemManager.tempSection.flags &&& Section.flagKernelSection ≠ 0) = true
  decide

theorem tempAt_write (b : Uintptr) : (tempAt b).has Section.flagWrite = true := by
  show decide (VirtMemManager.tempSection.flags &&& Section.flagWrite ≠ 0) = true
  decide

theorem tempAt_fixed (b : Uintptr) : (tempAt b).has Section.flagAutoExpand = false := by
  show decide (VirtMemManager.tempSection.flags &&& Section.flagAutoExpand ≠ 0) = false
  decide

namespace Machine

/-- A temporary page that is not in use. -/
structure Temporary (s : Machine) (b : Uintptr) : Prop where
  aligned : b &&& pageMask = b
  listed : tempAt b ∈ s.sections.kernelSections
  accepted : (tempAt b).Accepted
  unmapped : s.entry b = none

/-- The loaded address space and the one with its directory at `d` are in order, share the
kernel's tables, and the temporary pages are not in use. -/
structure Spaces (s : Machine) (d : PhysAddr) (free : List PhysAddr) : Prop where
  ready : Ready s free
  other : Ready { s with cr3 := d } free
  ne_zero : d ≠ 0
  shared : ∀ i : Index, i.toNat < 255 →
    frameOf (s.mem (frameOf d) i) = frameOf (s.mem s.dir i)
  disjoint : s.sections.Disjoint
  tempPd : s.Temporary s.tempPd
  tempPt : s.Temporary s.tempPt
  tempP : s.Temporary s.tempP
  pd_ne_pt : s.tempPd ≠ s.tempPt
  pt_ne_p : s.tempPt ≠ s.tempP

/-- The base of one of the three temporary pages. -/
def IsTemp (s : Machine) (b : Uintptr) : Prop := b = s.tempPd ∨ b = s.tempPt ∨ b = s.tempP

/-- The table of the loaded directory an address is in. -/
def tableOf (s : Machine) (b : Uintptr) : Frame := frameOf (s.mem s.dir (pdIndex b))

/-- Between `s` and `t` only the entries of the temporary pages and the free pages change. -/
structure Near (free : List PhysAddr) (s t : Machine) : Prop where
  cr3 : t.cr3 = s.cr3
  enabled : t.enabled = s.enabled
  sections : t.sections = s.sections
  tempPd : t.tempPd = s.tempPd
  tempPt : t.tempPt = s.tempPt
  tempP : t.tempP = s.tempP
  mem : ∀ f j, (∀ p ∈ free, f ≠ frameOf p) →
    (∀ b, s.IsTemp b → ¬ (f = s.tableOf b ∧ j = ptIndex b)) → t.mem f j = s.mem f j

theorem Near.refl (free : List PhysAddr) (s : Machine) : Near free s s :=
  ⟨rfl, rfl, rfl, rfl, rfl, rfl, fun _ _ _ _ => rfl⟩

section Spaces
variable {s t : Machine} {d : PhysAddr} {free : List PhysAddr} {b : Uintptr}
  (h : Spaces s d free)
include h

theorem Spaces.temporary (hb : s.IsTemp b) : s.Temporary b := by
  rcases hb with rfl | rfl | rfl
  · exact h.tempPd
  · exact h.tempPt
  · exact h.tempP

theorem Spaces.pd_apart_pt : frameOf s.tempPd ≠ frameOf s.tempPt :=
  fun heq => h.pd_ne_pt (frameOf_inj h.tempPd.aligned h.tempPt.aligned heq)

theorem Spaces.pt_apart_p : frameOf s.tempPt ≠ frameOf s.tempP :=
  fun heq => h.pt_ne_p (frameOf_inj h.tempPt.aligned h.tempP.aligned heq)

omit h in
theorem Temporary.pdIndex_lt (hb : s.Temporary b) : (pdIndex b).toNat < 255 := by
  have hbelow := hb.accepted.below
  have hmax : (tempAt b).rangeMax.toNat = 0x3fbfffff := by
    unfold Section.rangeMax
    rw [tempAt_kernel]
    rfl
  have hhi : (tempAt b).hi = b.toNat + 0x1000 := by
    show (b.toNat : Int) + 0x1000 + 0 + 0 = _
    omega
  rw [hmax, hhi] at hbelow
  rw [pdIndex_toNat]
  omega

omit h in
theorem Temporary.pdIndex_ne (hb : s.Temporary b) : pdIndex b ≠ 255 := by
  have hlt := hb.pdIndex_lt
  intro heq
  rw [heq] at hlt
  exact absurd hlt (by decide)

/-- The tables of the temporary pages belong to both address spaces. -/
theorem Spaces.tableOf_eq (hb : s.IsTemp b) :
    s.tableOf b = frameOf (s.mem (frameOf d) (pdIndex b)) :=
  (h.shared _ (h.temporary hb).pdIndex_lt).symm

theorem Spaces.tableOf_spare (hb : s.IsTemp b) : ∀ p ∈ free, s.tableOf b ≠ frameOf p :=
  fun p hp => h.ready.spare p hp _ (h.ready.kernel _ (h.temporary hb).pdIndex_lt)

theorem Spaces.tableOf_ne_dir (hb : s.IsTemp b) : s.tableOf b ≠ s.dir :=
  h.ready.self.tables_ne _ (h.temporary hb).pdIndex_ne
    (h.ready.kernel _ (h.temporary hb).pdIndex_lt)

theorem Spaces.tableOf_ne_other (hb : s.IsTemp b) : s.tableOf b ≠ frameOf d := by
  rw [h.tableOf_eq hb]
  exact h.other.self.tables_ne _ (h.temporary hb).pdIndex_ne
    (h.other.kernel _ (h.temporary hb).pdIndex_lt)

variable (hnear : Near free s t)
include hnear

omit h in
theorem Near.dir : t.dir = s.dir := congrArg frameOf hnear.cr3

theorem Spaces.dirWord (i : Index) : t.mem s.dir i = s.mem s.dir i := by
  apply hnear.mem
  · exact fun p hp => ((h.ready.spare p hp).ne_dir h.ready.self).symm
  · exact fun b hb hc => h.tableOf_ne_dir hb hc.1.symm

theorem Spaces.otherWord (i : Index) : t.mem (frameOf d) i = s.mem (frameOf d) i := by
  apply hnear.mem
  · exact fun p hp => ((h.other.spare p hp).ne_dir h.other.self).symm
  · exact fun b hb hc => h.tableOf_ne_other hb hc.1.symm

theorem Spaces.enabled : t.enabled = true := hnear.enabled.trans h.ready.enabled

theorem Spaces.self : SelfMapped i386 t.mem t.dir 255 := by
  rw [hnear.dir]
  exact h.ready.self.congr (h.dirWord hnear)

theorem Spaces.tableOf_near (b : Uintptr) : t.tableOf b = s.tableOf b := by
  unfold tableOf
  rw [hnear.dir, h.dirWord hnear]

theorem Spaces.present (hb : s.IsTemp b) : isPresent (t.mem t.dir (pdIndex b)) = true := by
  rw [hnear.dir, h.dirWord hnear]
  exact h.ready.kernel _ (h.temporary hb).pdIndex_lt

theorem Spaces.walk_other {a : Index} (ha : 256 ≤ a.toNat) (i : Index) :
    walk i386 t.mem (frameOf d) a i = walk i386 s.mem (frameOf d) a i := by
  apply walk_congr (h.otherWord hnear)
  intro hpres j
  apply hnear.mem
  · exact fun p hp => h.other.spare p hp a hpres
  · rintro b hb ⟨heq, -⟩
    have hlt := (h.temporary hb).pdIndex_lt
    rw [h.tableOf_eq hb] at heq
    have hsame := h.other.self.tables_inj a (pdIndex b) (index_ne_of_user ha)
      (h.temporary hb).pdIndex_ne hpres (h.other.kernel _ hlt) heq
    rw [hsame] at ha
    omega

theorem Spaces.entry_near {va : Uintptr} (hnot : ∀ b, s.IsTemp b → frameOf va ≠ frameOf b) :
    t.entry va = s.entry va := by
  unfold entry walk
  rw [hnear.dir, h.dirWord hnear]
  by_cases hpres : isPresent (s.mem s.dir (pdIndex va)) = true
  · have hpres' : i386.present (s.mem s.dir (pdIndex va)) = true := hpres
    rw [if_pos hpres', if_pos hpres']
    have hword : t.mem (i386.frame (s.mem s.dir (pdIndex va))) (ptIndex va) =
        s.mem (i386.frame (s.mem s.dir (pdIndex va))) (ptIndex va) := by
      apply hnear.mem
      · exact fun p hp => h.ready.spare p hp _ hpres
      · rintro b hb ⟨htable, hpt⟩
        have hva : pdIndex va ≠ 255 := by
          intro heq
          rw [heq] at htable
          exact h.tableOf_ne_dir hb (htable.symm.trans h.ready.self.frame)
        have hpd := h.ready.self.tables_inj _ _ hva (h.temporary hb).pdIndex_ne hpres
          (h.ready.kernel _ (h.temporary hb).pdIndex_lt) htable
        exact hnot b hb (frameOf_congr hpd hpt)
    rw [hword]
  · have hpres' : ¬ i386.present (s.mem s.dir (pdIndex va)) = true := hpres
    rw [if_neg hpres', if_neg hpres']

theorem Spaces.withEntry (hb : s.IsTemp b) (e : BitVec 32) : Near free s (t.withEntry b e) := by
  refine ⟨hnear.cr3, hnear.enabled, hnear.sections, hnear.tempPd, hnear.tempPt, hnear.tempP, ?_⟩
  intro f j hf hj
  have htable := h.tableOf_near hnear b
  rw [← hnear.mem f j hf hj]
  show setWord t.mem (t.tableOf b) (ptIndex b) e f j = t.mem f j
  rw [htable]
  exact if_neg (hj b hb)

omit h in
theorem Near.withFree {m : FrameMemory}
    (hm : ∀ f j, (∀ p ∈ free, f ≠ frameOf p) → m f j = t.mem f j) : Near free s (t.withMem m) := by
  refine ⟨hnear.cr3, hnear.enabled, hnear.sections, hnear.tempPd, hnear.tempPt, hnear.tempP, ?_⟩
  intro f j hf hj
  exact (hm f j hf).trans (hnear.mem f j hf hj)

omit h in
theorem Near.withTop (top : PhysAddr) : Near free s (t.withTop top) :=
  ⟨hnear.cr3, hnear.enabled, hnear.sections, hnear.tempPd, hnear.tempPt, hnear.tempP, hnear.mem⟩

omit h in
theorem Near.setFrame {p : PhysAddr} (hp : p ∈ free) :
    Near free s (t.withMem (setFrame t.mem (frameOf p) 0)) :=
  hnear.withFree fun _ _ hf => setFrame_of_ne (hf p hp) 0 _

omit h in
theorem Near.setWord {p : PhysAddr} (hp : p ∈ free) (j : Index) (v : BitVec 32) :
    Near free s (t.withMem (setWord t.mem (frameOf p) j v)) :=
  hnear.withFree fun _ _ hf => setWord_of_frame_ne (hf p hp) _ _ _

omit h in
theorem Near.withPage {p : PhysAddr} (hp : p ∈ free) : Near free s (t.withPage p) :=
  (hnear.withTop _).withFree fun _ _ hf => setFrame_of_ne (hf p hp) 0 _

end Spaces

section Faults
variable {s t : Machine} {free : List PhysAddr} {a b : Uintptr}

/-- What `MapPage` is called with for a fault at a temporary page. -/
def tempRequest (b : Uintptr) : MapRequest where
  virtaddr := b
  physaddr := 0
  user := false
  writable := true

theorem Temporary.live (hb : s.Temporary b) (ha : frameOf a = frameOf b) :
    (tempAt b).Live a.toNat := by
  have hframe := congrArg BitVec.toNat ha
  have hmask := and_pageMask_toNat b
  rw [hb.aligned] at hmask
  rw [frameOf_toNat, frameOf_toNat] at hframe
  show b.toNat ≤ a.toNat ∧ a.toNat < b.toNat + 0x1000
  omega

theorem Temporary.mapRequest_eq (hb : s.Temporary b) (ha : frameOf a = frameOf b) :
    (tempAt b).mapRequest a = tempRequest b := by
  obtain ⟨hlo, hhi⟩ := hb.live ha
  have hbase : (tempAt b).base.toNat = b.toNat := rfl
  have hlength : (tempAt b).length.toNat = 0x1000 := rfl
  rw [hbase] at hlo hhi
  rw [hlength] at hhi
  have hframe := congrArg BitVec.toNat ha
  have hmask := and_pageMask_toNat b
  rw [hb.aligned] at hmask
  rw [frameOf_toNat, frameOf_toNat] at hframe
  have hpage : a &&& pageMask = b := by
    apply BitVec.eq_of_toNat_eq
    rw [and_pageMask_toNat]
    omega
  have hsource : (a - (tempAt b).base + (tempAt b).memSource) &&& pageMask = 0 := by
    apply BitVec.eq_of_toNat_eq
    rw [and_pageMask_toNat]
    show (a - b + 0).toNat / 4096 * 4096 = 0
    bv_omega
  unfold Section.mapRequest tempRequest
  rw [hpage, hsource, tempAt_kernel, tempAt_write]
  rfl

/-- A fault at a temporary page asks for a fresh page, as its section has no `MemSource`. -/
theorem Temporary.resolve (hb : s.Temporary b) (hdisj : s.sections.Disjoint)
    (ha : frameOf a = frameOf b) : s.sections.resolvePageFault a false =
      some (.mapped s.sections (tempAt b) (tempRequest b)) := by
  have hlegal : (tempAt b).Legal a := ⟨hb.accepted, .inl (hb.live ha)⟩
  obtain ⟨l, sec, req, hfault⟩ :=
    (SectionList.resolves_iff s.sections a).mpr ⟨tempAt b, hb.listed, .inl hlegal⟩
  obtain ⟨j, sec₀, hj, htake, hl, hreq⟩ := SectionList.resolvePageFault_mapped hfault
  have htaken := Section.exists_takeFault_iff.mp ⟨sec, htake⟩
  have hin := htaken.elim Section.Legal.inside Section.FirstGuard.inside
  obtain rfl : sec₀ = tempAt b :=
    hdisj.eq_of_inside (List.mem_of_getElem? hj) (htaken.elim (·.1) (·.1)) hb.listed hb.accepted
      hin hlegal.inside
  have hsame : sec = tempAt b := by
    obtain ⟨-, -, hcase⟩ := Section.takeFault_eq_some_iff.mp htake
    rcases hcase with ⟨-, heq⟩ | ⟨hexpand, -⟩ | ⟨hexpand, -⟩
    · exact heq
    · exact absurd ((tempAt_fixed b).symm.trans hexpand) Bool.false_ne_true
    · exact absurd ((tempAt_fixed b).symm.trans hexpand) Bool.false_ne_true
  have hlist : l = s.sections := by
    obtain ⟨hlt, hget⟩ := List.getElem?_eq_some_iff.mp hj
    rw [hl, hsame, ← hget, List.set_getElem_self]
  rw [hfault, hreq, hsame, hlist, hb.mapRequest_eq ha]

end Faults

/-- The entry a fault makes for a temporary page. -/
def faultWord (b : Uintptr) (p : PhysAddr) : BitVec 32 := (faultCall (tempRequest b)).entryWord p

/-- The machine after a fault at a temporary page, with the page `p` off the stack. -/
def afterFault (t : Machine) (b : Uintptr) (p : PhysAddr) : Machine :=
  (t.withPage p).withEntry b (faultWord b p)

section Calls
variable {n : Nat} {s t : Machine} {d p : PhysAddr} {free rest : List PhysAddr} {a b : Uintptr}
  (h : Spaces s d free) (hnear : Near free s t) (hb : s.IsTemp b)
include h hnear hb

theorem Spaces.createTable_temp {mapPage : MapPageCall} {c : MapCall} (hasp : c.asp = none)
    (hva : c.virtaddr = b) : t.createTable mapPage c = some t := by
  subst hva
  exact createTable_of_present hasp (h.enabled hnear) (h.self hnear) (h.present hnear hb)

theorem Spaces.steady_entry : t.Steady (window (pdIndex b) (ptIndex b))
    (frameOf (t.mem t.dir (pdIndex b))) (ptIndex b) :=
  Machine.steady_entry (h.enabled hnear) (h.self hnear) (h.temporary hb).pdIndex_ne
    (h.present hnear hb)

theorem Spaces.map_temp (hp : p ≠ 0) :
    mapPage (n + 1) { virtaddr := b, physaddr := p } t =
      some (t.withEntry b (MapCall.entryWord { virtaddr := b, physaddr := p } p)) :=
  mapPageBody_given rfl (h.enabled hnear) (h.createTable_temp hnear hb rfl rfl) rfl hp
    (h.steady_entry hnear hb)

theorem Spaces.unmap_temp : ∃ e, isPresent e = false ∧
    mapPage (n + 1) { virtaddr := b, unmap := true } t = some (t.withEntry b e) := by
  have hcall : mapPageBody (mapPage n) { virtaddr := b, unmap := true } t = _ :=
    mapPageBody_unmap rfl (h.enabled hnear) (h.createTable_temp hnear hb rfl rfl) rfl
      (h.steady_entry hnear hb)
  exact ⟨_, isPresent_clear _, hcall⟩

theorem Spaces.entry_withEntry_none {e : BitVec 32} (he : isPresent e = false) :
    (t.withEntry b e).entry b = none := by
  rw [entry_withEntry (h.self hnear) (h.temporary hb).pdIndex_ne (h.present hnear hb), he]
  rfl

theorem Spaces.entry_withEntry_ne {va : Uintptr} (hva : pdIndex va ≠ 255)
    (hne : frameOf va ≠ frameOf b) (e : BitVec 32) : (t.withEntry b e).entry va = t.entry va :=
  entry_withEntry_of_ne (h.self hnear) (h.temporary hb).pdIndex_ne (h.present hnear hb) e hva hne

variable (ha : frameOf a = frameOf b)
include ha

theorem Spaces.fault_eq (mapPage : MapPageCall) :
    t.fault mapPage a = mapPage (faultCall (tempRequest b)) t := by
  have hresolve : t.sections.resolvePageFault a false =
      some (.mapped t.sections (tempAt b) (tempRequest b)) := by
    rw [hnear.sections]
    exact (h.temporary hb).resolve h.disjoint ha
  exact Machine.fault_eq hresolve

theorem Spaces.access_nil (htop : t.stack.top = 0) (hnone : t.entry b = none) :
    t.access (mapPage n) a = none := by
  have hready : Ready t [] := by
    refine ⟨h.enabled hnear, h.self hnear, ?_, htop, List.nodup_nil, ?_⟩
    · intro i hi
      rw [hnear.dir, h.dirWord hnear]
      exact h.ready.kernel i hi
    · exact fun p hp => absurd hp List.not_mem_nil
  have hplace : t.place a = none :=
    place_eq_none (h.enabled hnear) ((entry_congr ha).trans hnone)
  have hcall : mapPage n (faultCall (tempRequest b)) t = none := by
    cases n with
    | zero => rfl
    | succ n =>
      exact mapPageBody_nil rfl (h.enabled hnear) (h.createTable_temp hnear hb rfl rfl) hready
        rfl rfl
  unfold access
  rw [hplace, h.fault_eq hnear hb ha, hcall]
  rfl

variable (hready : Ready t (p :: rest))
include hready

omit ha hready in
theorem Spaces.near_afterFault (hp : p ∈ free) : Near free s (t.afterFault b p) :=
  h.withEntry (hnear.withPage hp) hb _

omit ha in
theorem Spaces.spare_afterFault (hp : p ∈ free) :
    Spare i386 (t.afterFault b p).mem (t.afterFault b p).dir (frameOf p) := by
  refine (hready.spare p List.mem_cons_self).congr fun i => ?_
  show (t.afterFault b p).mem t.dir i = t.mem t.dir i
  rw [hnear.dir, h.dirWord (h.near_afterFault hnear hb hp), h.dirWord hnear]

omit ha in
theorem Spaces.shown_afterFault : AddressSpace.Shown (t.afterFault b p) b (frameOf p) :=
  AddressSpace.shown_withEntry hready (h.temporary hb).aligned (h.temporary hb).pdIndex_ne
    (h.present hnear hb) (MapCall.isPresent_entryWord _ p) (MapCall.frameOf_entryWord _ p)

theorem Spaces.access_fault (hnone : t.entry b = none) :
    t.access (mapPage (n + 1)) a = some (frameOf p, t.afterFault b p) := by
  have hplace : t.place a = none :=
    place_eq_none (h.enabled hnear) ((entry_congr ha).trans hnone)
  have hcall : mapPage (n + 1) (faultCall (tempRequest b)) t = some (t.afterFault b p) :=
    mapPageBody_fresh rfl (h.enabled hnear) (h.createTable_temp hnear hb rfl rfl) hready
      (h.temporary hb).pdIndex_ne (h.present hnear hb) rfl rfl
  have hshown := (h.shown_afterFault hnear hb hready).place (t.afterFault b p).mem
    (fun _ _ _ => rfl) a ha
  have hagain : (t.afterFault b p).place a = some (frameOf p) := hshown
  unfold access
  rw [hplace, h.fault_eq hnear hb ha, hcall]
  dsimp only [Option.bind_eq_bind, Option.bind_some]
  rw [hagain]
  rfl

end Calls

end Machine
end Tysos
