import Tysos.Paging.Backing
import Tysos.Paging.ForeignSpace

/-!
# The memory of an address space

What code in ring 0 sees through the page tables over any run of `MapPage`, loads and stores in
the loaded address space, faults included. It knows pages, the frames behind them and the words
in these, but neither page tables nor the stack of free pages. `Enable` sets no bit of `CR0` but
`PG`; with `WP` clear neither `P_USER` nor `P_WRITABLE` keeps ring 0 from a page that is present,
and there are no faults but those of missing pages. What code in ring 3 may use is not said here.
-/

namespace Tysos
open PageTables
set_option autoImplicit false

/-- A page at or above `USER_START`. -/
def IsUser (page : Frame) : Prop := 0x40000 ≤ page.toNat

instance (page : Frame) : Decidable (IsUser page) := inferInstanceAs (Decidable (_ ≤ _))

theorem pdIndex_ne_of_user {va : Uintptr} (h : IsUser (frameOf va)) : pdIndex va ≠ 255 := by
  intro hpd
  have hval := congrArg BitVec.toNat hpd
  have h255 : (255 : Index).toNat = 255 := rfl
  unfold IsUser at h
  rw [frameOf_toNat] at h
  rw [pdIndex_toNat, h255] at hval
  omega

/-- The first byte of a page. -/
def pageStart (page : Frame) : Uintptr := page ++ (0 : BitVec 12)

theorem frameOf_pageStart (page : Frame) : frameOf (pageStart page) = page :=
  BitVec.extractLsb'_append_eq_left

/-- An address space as the kernel is to see it: the frame of each page, the frames that the
clients of the allocator have, and what is in these. -/
structure ProcessView where
  mapped : Frame → Option Frame
  held : Frame → Prop
  data : FrameMemory
  user_held : ∀ page, IsUser page → ∀ f, mapped page = some f → held f

namespace ProcessView

def unmap (v : ProcessView) (page : Frame) : ProcessView where
  mapped := Function.update v.mapped page none
  held := v.held
  data := v.data
  user_held := by
    intro page' huser f hf
    by_cases hpage : page' = page
    · subst hpage
      rw [Function.update_self] at hf
      cases hf
    · rw [Function.update_of_ne hpage] at hf
      exact v.user_held page' huser f hf

/-- The page is put where the caller says. -/
def grant (v : ProcessView) (page f : Frame) (h : IsUser page → v.held f) : ProcessView where
  mapped := Function.update v.mapped page (some f)
  held := v.held
  data := v.data
  user_held := by
    intro page' huser f' hf
    by_cases hpage : page' = page
    · subst hpage
      rw [Function.update_self] at hf
      cases hf
      exact h huser
    · rw [Function.update_of_ne hpage] at hf
      exact v.user_held page' huser f' hf

/-- A frame that nobody has had is handed out, filled with zeros. -/
def take (v : ProcessView) (f : Frame) : ProcessView where
  mapped := v.mapped
  held := fun f' => v.held f' ∨ f' = f
  data := setFrame v.data f 0
  user_held := fun page huser f' hf => Or.inl (v.user_held page huser f' hf)

def store (v : ProcessView) (f : Frame) (i : Index) (w : BitVec 32) : ProcessView :=
  { v with data := setWord v.data f i w }

/-- What `MapPage` is to do. -/
inductive Maps (c : MapCall) (v : ProcessView) : ProcessView → Prop
  | unmap (hunmap : c.unmap = true) : Maps c v (v.unmap (frameOf c.virtaddr))
  | grant (hmap : c.unmap = false) (hgiven : c.physaddr ≠ 0)
    (hheld : IsUser (frameOf c.virtaddr) → v.held (frameOf c.physaddr)) :
    Maps c v (v.grant (frameOf c.virtaddr) (frameOf c.physaddr) hheld)
  | fresh (f : Frame) (hmap : c.unmap = false) (hnew : c.physaddr = 0) (hf : ¬ v.held f) :
    Maps c v ((v.take f).grant (frameOf c.virtaddr) f fun _ => Or.inr rfl)

/-- The page of an address is there, or is put there when it is used. -/
inductive Touches (va : Uintptr) (f : Frame) (v : ProcessView) : ProcessView → Prop
  | found (h : v.mapped (frameOf va) = some f) : Touches va f v v
  | faulted (c : MapCall) {v' : ProcessView} (hnone : v.mapped (frameOf va) = none)
    (hpage : frameOf c.virtaddr = frameOf va) (hmap : c.unmap = false) (h : v.Maps c v')
    (hf : v'.mapped (frameOf va) = some f) : Touches va f v v'

end ProcessView

/-- What happens in the loaded address space, in ring 0. -/
inductive SpaceOp where
  | map (c : MapCall)
  | load (va : Uintptr)
  | store (va : Uintptr) (w : BitVec 32)

namespace ProcessView

inductive Step : ProcessView → SpaceOp → ProcessView → Prop
  | map {v v' : ProcessView} {c : MapCall} (h : v.Maps c v') : Step v (.map c) v'
  | load {v v' : ProcessView} {va : Uintptr} {f : Frame} (h : v.Touches va f v') :
    Step v (.load va) v'
  | store {v v' : ProcessView} {va : Uintptr} {f : Frame} (h : v.Touches va f v') (w : BitVec 32) :
    Step v (.store va w) (v'.store f (wordIndex va) w)

theorem Maps.page {c : MapCall} {v v' : ProcessView} (h : v.Maps c v') (hmap : c.unmap = false) :
    ∃ f, v'.mapped (frameOf c.virtaddr) = some f := by
  cases h with
  | unmap hunmap =>
    rw [hmap] at hunmap
    cases hunmap
  | grant hmap hgiven hheld => exact ⟨_, Function.update_self _ _ _⟩
  | fresh f hmap hnew hf => exact ⟨f, Function.update_self _ _ _⟩

end ProcessView

namespace Machine

/-- A frame that is neither the directory nor a table nor on the stack. -/
structure Client (s : Machine) (free : List PhysAddr) (f : Frame) : Prop where
  spare : Spare i386 s.mem s.dir f
  taken : ∀ p ∈ free, frameOf p ≠ f

/-- The machine shows the view to code in ring 0. -/
structure Shows (s : Machine) (free : List PhysAddr) (v : ProcessView) : Prop where
  ready : Ready s free
  place : ∀ va, pdIndex va ≠ 255 → s.place va = v.mapped (frameOf va)
  held : ∀ f, v.held f ↔ s.Client free f
  data : ∀ f, v.held f → ∀ i, s.mem f i = v.data f i

section Parts
variable {s : Machine} {free : List PhysAddr} {p : PhysAddr} {va : Uintptr} {v : ProcessView}
  {f : Frame}

theorem client_congr {s' : Machine} (hcr3 : s'.cr3 = s.cr3)
    (hdir : ∀ i, s'.mem s.dir i = s.mem s.dir i) : s'.Client free f ↔ s.Client free f := by
  have hframe : s'.dir = s.dir := congrArg frameOf hcr3
  constructor
  · intro h
    have hspare := h.spare
    rw [hframe] at hspare
    exact ⟨hspare.congr fun i => (hdir i).symm, h.taken⟩
  · intro h
    refine ⟨?_, h.taken⟩
    rw [hframe]
    exact h.spare.congr hdir

theorem client_withPage (h : Ready s (p :: free)) :
    (s.withPage p).Client free f ↔ s.Client (p :: free) f ∨ f = frameOf p := by
  have hsame : (s.withPage p).Client free f ↔ s.Client free f :=
    client_congr rfl (dir_withPage h)
  rw [hsame]
  constructor
  · intro hf
    by_cases hfp : f = frameOf p
    · exact Or.inr hfp
    · refine Or.inl ⟨hf.spare, fun q hq => ?_⟩
      rcases List.mem_cons.mp hq with rfl | hq
      · exact Ne.symm hfp
      · exact hf.taken q hq
  · intro hf
    rcases hf with hf | rfl
    · exact ⟨hf.spare, fun q hq => hf.taken q (List.mem_cons_of_mem p hq)⟩
    · exact ⟨h.spare p List.mem_cons_self, fun q hq => frame_ne h hq⟩

theorem client_withTable (h : Ready s (p :: free)) {a : Index}
    (habs : isPresent (s.mem s.dir a) = false) :
    (s.withTable a p).Client free f ↔ s.Client (p :: free) f := by
  have hp : Spare i386 s.mem s.dir (frameOf p) := h.spare p List.mem_cons_self
  have hframe : i386.frame (tableWord p) = frameOf p := frameOf_tableWord p
  constructor
  · intro hf
    have hentry : (s.withTable a p).mem s.dir a = tableWord p := setWord_self _ _ _ _
    have hfp : frameOf p ≠ f := by
      have hspare := hf.spare a
      rw [show (s.withTable a p).dir = s.dir from rfl, hentry, hframe] at hspare
      exact hspare (isPresent_tableWord p)
    refine ⟨fun b hb => ?_, fun q hq => ?_⟩
    · have hba : b ≠ a := by
        rintro rfl
        exact Bool.false_ne_true (habs.symm.trans hb)
      have hword : (s.withTable a p).mem s.dir b = s.mem s.dir b :=
        (setWord_of_index_ne hba _ _ _).trans (setFrame_of_ne (hp.ne_dir h.self).symm _ _)
      have hspare := hf.spare b
      rw [show (s.withTable a p).dir = s.dir from rfl, hword] at hspare
      exact hspare hb
    · rcases List.mem_cons.mp hq with rfl | hq
      · exact hfp
      · exact hf.taken q hq
  · intro hf
    refine ⟨?_, fun q hq => hf.taken q (List.mem_cons_of_mem p hq)⟩
    exact Spare.newTable h.self hp hframe hf.spare (hf.taken p List.mem_cons_self).symm

theorem Client.withEntry_mem (hf : s.Client free f)
    (hpres : isPresent (s.mem s.dir (pdIndex va)) = true) (e : BitVec 32) (i : Index) :
    (s.withEntry va e).mem f i = s.mem f i :=
  setWord_of_frame_ne (hf.spare _ hpres).symm _ _ _

/-- A new page table is nothing that the view knows of. -/
theorem Shows.withTable (h : s.Shows (p :: free) v) {a : Index} (ha : a ≠ 255)
    (habs : isPresent (s.mem s.dir a) = false) : (s.withTable a p).Shows free v := by
  refine ⟨ready_withTable h.ready ha habs, ?_, ?_, ?_⟩
  · intro va hva
    rw [← h.place va hva]
    exact place_congr h.ready.enabled h.ready.enabled (entry_withTable h.ready habs hva)
  · intro f
    rw [h.held, client_withTable h.ready habs]
  · intro f hf i
    have hclient := (h.held f).mp hf
    have hdir := hclient.spare.ne_dir h.ready.self
    have hp := (hclient.taken p List.mem_cons_self).symm
    rw [← h.data f hf i]
    exact (setWord_of_frame_ne hdir _ _ _).trans (setFrame_of_ne hp _ _)

theorem Shows.withPage (h : s.Shows (p :: free) v) :
    ¬ v.held (frameOf p) ∧ (s.withPage p).Shows free (v.take (frameOf p)) := by
  have hnew : ¬ v.held (frameOf p) := fun hp =>
    ((h.held (frameOf p)).mp hp).taken p List.mem_cons_self rfl
  refine ⟨hnew, ready_withPage h.ready, ?_, ?_, ?_⟩
  · intro va hva
    have hspare := h.ready.spare p List.mem_cons_self
    have hentry := entry_withPage h.ready.self hspare va
    have hplace : (s.withPage p).place va = s.place va :=
      place_congr h.ready.enabled h.ready.enabled hentry
    exact hplace.trans (h.place va hva)
  · intro f
    rw [client_withPage h.ready, ← h.held]
    rfl
  · intro f hf i
    by_cases hfp : f = frameOf p
    · rw [hfp]
      exact (setFrame_self _ _ _ _).trans (setFrame_self _ _ _ _).symm
    · have hdata := h.data f (hf.resolve_right hfp) i
      exact (setFrame_of_ne hfp _ _).trans (hdata.trans (setFrame_of_ne hfp _ _).symm)

/-- An entry is written; `v'` differs from `v` in its page only. -/
theorem Shows.withEntry (h : s.Shows free v) (hva : pdIndex va ≠ 255)
    (hpres : isPresent (s.mem s.dir (pdIndex va)) = true) {e : BitVec 32} {v' : ProcessView}
    (hmapped : v'.mapped = Function.update v.mapped (frameOf va)
      (if isPresent e then some (frameOf e) else none))
    (hheld : v'.held = v.held) (hdata : v'.data = v.data) : (s.withEntry va e).Shows free v' := by
  have hready := ready_withEntry h.ready hva hpres e
  refine ⟨hready, ?_, ?_, ?_⟩
  · intro va' hva'
    rw [hmapped]
    by_cases hpage : frameOf va' = frameOf va
    · have hentry := entry_withEntry h.ready.self hva hpres e
      rw [hpage, Function.update_self, place_page hpage]
      split
      · rename_i he
        rw [if_pos he] at hentry
        exact place_of_entry hready.enabled hentry
      · rename_i he
        rw [if_neg he] at hentry
        exact place_eq_none hready.enabled hentry
    · have hentry := entry_withEntry_of_ne h.ready.self hva hpres e hva' hpage
      rw [Function.update_of_ne hpage, ← h.place va' hva']
      exact place_congr hready.enabled h.ready.enabled hentry
  · intro f
    have hsame : (s.withEntry va e).Client free f ↔ s.Client free f :=
      client_congr rfl (dir_withEntry h.ready.self hva hpres e)
    rw [hheld, h.held, hsame]
  · intro f hf i
    rw [hheld] at hf
    rw [hdata, ← h.data f hf i]
    exact ((h.held f).mp hf).withEntry_mem hpres e i

end Parts

section Calls
variable {s s₁ s' : Machine} {free tables pages rest : List PhysAddr} {c : MapCall}
  {v : ProcessView}

theorem Shows.opened {a : Index} (h : s.Shows (tables ++ free) v) (ha : a ≠ 255)
    (hopen : s.Opened a tables s₁) : s₁.Shows free v := by
  cases hopen with
  | found hpres => exact h
  | made p habs => exact h.withTable ha habs

theorem Shows.entered (h : s₁.Shows (pages ++ rest) v) (hva : pdIndex c.virtaddr ≠ 255)
    (hpres : isPresent (s₁.mem s₁.dir (pdIndex c.virtaddr)) = true)
    (hheld : c.unmap = false → c.physaddr ≠ 0 → IsUser (frameOf c.virtaddr) →
      v.held (frameOf c.physaddr))
    (henter : s₁.Entered c pages s') : ∃ v', v.Maps c v' ∧ s'.Shows rest v' := by
  cases henter with
  | cleared e he hunmap =>
    refine ⟨_, .unmap hunmap, h.withEntry hva hpres ?_ rfl rfl⟩
    rw [he]
    rfl
  | given hmap hgiven =>
    refine ⟨_, .grant hmap hgiven (hheld hmap hgiven), h.withEntry hva hpres ?_ rfl rfl⟩
    rw [c.isPresent_entryWord, c.frameOf_entryWord]
    rfl
  | fresh p hmap hnew =>
    obtain ⟨hfresh, hpage⟩ := h.withPage
    rw [← dir_withPage h.ready] at hpres
    refine ⟨_, .fresh (frameOf p) hmap hnew hfresh, hpage.withEntry hva hpres ?_ rfl rfl⟩
    rw [c.isPresent_entryWord, c.frameOf_entryWord]
    rfl

/-- `MapPage` does to the view what it is to do. -/
theorem Shows.mapPage (h : s.Shows free v) (n : Nat) (hfree : 2 ≤ free.length)
    (hasp : c.asp = none) (hva : pdIndex c.virtaddr ≠ 255)
    (hheld : c.unmap = false → c.physaddr ≠ 0 → IsUser (frameOf c.virtaddr) →
      v.held (frameOf c.physaddr)) :
    ∃ s' free' v', Tysos.mapPage (n + 2) c s = some s' ∧ v.Maps c v' ∧ s'.Shows free' v' := by
  obtain ⟨tables, pages, rest, s₁, s', rfl, hcall, hopen, -, henter⟩ :=
    mapPage_outcome (n := n) h.ready hfree hasp hva
  have h₁ := h.opened hva hopen
  obtain ⟨v', hmaps, hv'⟩ := h₁.entered hva hopen.present hheld henter
  exact ⟨s', rest, v', hcall, hmaps, hv'⟩

end Calls

section Accesses
variable {s : Machine} {free : List PhysAddr} {v : ProcessView} {va : Uintptr} {f : Frame}

/-- What a client does with its frame does not concern the tables. -/
theorem Client.entry_setWord (h : s.Client free f) (hself : SelfMapped i386 s.mem s.dir 255)
    (i : Index) (w : BitVec 32) (va : Uintptr) :
    (s.withMem (setWord s.mem f i w)).entry va = s.entry va := by
  apply walk_congr fun j => setWord_of_frame_ne (h.spare.ne_dir hself).symm _ _ _
  intro hpres j
  exact setWord_of_frame_ne (h.spare _ hpres) _ _ _

theorem Shows.store (h : s.Shows free v) (hf : v.held f) (i : Index) (w : BitVec 32) :
    (s.withMem (setWord s.mem f i w)).Shows free (v.store f i w) := by
  have hclient := (h.held f).mp hf
  have hdir : ∀ j, setWord s.mem f i w s.dir j = s.mem s.dir j :=
    fun j => setWord_of_frame_ne (hclient.spare.ne_dir h.ready.self).symm _ _ _
  obtain ⟨p, rfl⟩ : ∃ p : PhysAddr, frameOf p = f :=
    ⟨f ++ (0 : BitVec 12), BitVec.extractLsb'_append_eq_left⟩
  refine ⟨ready_setWord h.ready hclient.spare hclient.taken i w, ?_, ?_, ?_⟩
  · intro va hva
    have hentry := hclient.entry_setWord h.ready.self i w va
    have hplace : (s.withMem (setWord s.mem (frameOf p) i w)).place va = s.place va :=
      place_congr h.ready.enabled h.ready.enabled hentry
    exact hplace.trans (h.place va hva)
  · intro f'
    have hsame : (s.withMem (setWord s.mem (frameOf p) i w)).Client free f' ↔ s.Client free f' :=
      client_congr rfl hdir
    rw [hsame]
    exact h.held f'
  · intro f' hf' j
    show setWord s.mem (frameOf p) i w f' j = setWord v.data (frameOf p) i w f' j
    unfold setWord
    rw [h.data f' hf' j]

/-- A load finds the word of the view. -/
theorem Shows.read (h : s.Shows free v) (huser : IsUser (frameOf va))
    (hf : v.mapped (frameOf va) = some f) (m : MapPageCall) :
    s.read m va = some (v.data f (wordIndex va), s) := by
  have hplace := (h.place va (pdIndex_ne_of_user huser)).trans hf
  have hdata := h.data f (v.user_held _ huser f hf) (wordIndex va)
  unfold Machine.read Machine.access
  rw [hplace]
  simp only [Option.bind_eq_bind, Option.bind_some, hdata]

/-- A client has the frame. -/
def Grantable (s : Machine) (f : Frame) : Prop :=
  ∃ free, FreeList s.mem s.stack.top free ∧ s.Client free f

/-- There are free pages for a table and a page. -/
def Stocked (s : Machine) : Prop := ∃ free, FreeList s.mem s.stack.top free ∧ 2 ≤ free.length

theorem Shows.grantable (h : s.Shows free v) (hf : s.Grantable f) : v.held f := by
  obtain ⟨free', hlinks, hclient⟩ := hf
  obtain rfl := hlinks.unique h.ready.links
  exact (h.held f).mpr hclient

theorem Shows.stocked (h : s.Shows free v) (hs : s.Stocked) : 2 ≤ free.length := by
  obtain ⟨free', hlinks, hlen⟩ := hs
  obtain rfl := hlinks.unique h.ready.links
  exact hlen

/-- The page is there, or there is a section that gives it one. -/
def Backs (s : Machine) (va : Uintptr) : Prop :=
  s.place va = none → s.Stocked ∧ ∃ l sec req,
    s.sections.resolvePageFault va false = some (.mapped l sec req) ∧
      (req.physaddr ≠ 0 → s.Grantable (frameOf req.physaddr))

theorem Shows.withSections (h : s.Shows free v) (l : SectionList) :
    ({ s with sections := l } : Machine).Shows free v := by
  refine ⟨ready_withSections h.ready l, h.place, fun f => ?_, h.data⟩
  rw [h.held]
  exact ⟨fun hf => ⟨hf.spare, hf.taken⟩, fun hf => ⟨hf.spare, hf.taken⟩⟩

theorem Shows.access (h : s.Shows free v) (n : Nat) (huser : IsUser (frameOf va))
    (hback : s.Backs va) : ∃ f s' free' v', s.access (Tysos.mapPage (n + 2)) va = some (f, s') ∧
      v.Touches va f v' ∧ v'.mapped (frameOf va) = some f ∧ s'.Shows free' v' := by
  have hva := pdIndex_ne_of_user huser
  have hplace := h.place va hva
  unfold Machine.access
  cases hmapped : v.mapped (frameOf va) with
  | some f =>
    rw [hplace, hmapped]
    exact ⟨f, s, free, v, rfl, .found hmapped, hmapped, h⟩
  | none =>
    rw [hmapped] at hplace
    obtain ⟨hstock, l, sec, req, hres, hgrant⟩ := hback hplace
    obtain ⟨-, sec₀, -, -, -, hreq⟩ := SectionList.resolvePageFault_mapped hres
    have hpage : frameOf (faultCall req).virtaddr = frameOf va := by
      rw [hreq]
      exact frameOf_faultCall sec va
    have hsections := h.withSections l
    obtain ⟨s', free', v', hcall, hmaps, hv'⟩ :=
      hsections.mapPage (c := faultCall req) n (h.stocked hstock) rfl
        (by rw [pdIndex_congr hpage]; exact hva) fun _ hne _ => h.grantable (hgrant hne)
    obtain ⟨f, hf⟩ := hmaps.page rfl
    rw [hpage] at hf
    have hplace' := (hv'.place va hva).trans hf
    refine ⟨f, s', free', v', ?_, .faulted (faultCall req) hmapped hpage rfl hmaps hf, hf, hv'⟩
    rw [hplace, fault_eq hres, hcall]
    simp only [Option.bind_eq_bind, Option.bind_some, hplace']

end Accesses

/-- What is done next in ring 0, with the page fault if the page is missing. -/
def spaceStep (n : Nat) (s : Machine) : SpaceOp → Option Machine
  | .map c => Tysos.mapPage (n + 2) c s
  | .load va => (s.read (Tysos.mapPage (n + 2)) va).map Prod.snd
  | .store va w => s.write (Tysos.mapPage (n + 2)) va w

/-- Pages are mapped outside the tables, and user pages to frames that clients have. What is
loaded and stored is on user pages. -/
def Allows (s : Machine) : SpaceOp → Prop
  | .map c => c.asp = none ∧ pdIndex c.virtaddr ≠ 255 ∧ s.Stocked ∧
    (c.unmap = false → c.physaddr ≠ 0 → IsUser (frameOf c.virtaddr) →
      s.Grantable (frameOf c.physaddr))
  | .load va => IsUser (frameOf va) ∧ s.Backs va
  | .store va _ => IsUser (frameOf va) ∧ s.Backs va

section Run
variable {s : Machine} {free : List PhysAddr} {v : ProcessView} {op : SpaceOp}

theorem Shows.step (h : s.Shows free v) (n : Nat) (hop : s.Allows op) :
    ∃ s' free' v', s.spaceStep n op = some s' ∧ v.Step op v' ∧ s'.Shows free' v' := by
  cases op with
  | map c =>
    obtain ⟨hasp, hva, hstock, hgrant⟩ := hop
    obtain ⟨s', free', v', hcall, hmaps, hv'⟩ := h.mapPage n (h.stocked hstock) hasp hva
      fun hmap hne huser => h.grantable (hgrant hmap hne huser)
    exact ⟨s', free', v', hcall, .map hmaps, hv'⟩
  | load va =>
    obtain ⟨f, s', free', v', hacc, htouch, hf, hv'⟩ := h.access n hop.1 hop.2
    refine ⟨s', free', v', ?_, .load htouch, hv'⟩
    simp only [spaceStep, Machine.read, hacc, Option.bind_eq_bind, Option.bind_some,
      Option.map_some]
  | store va w =>
    obtain ⟨f, s', free', v', hacc, htouch, hf, hv'⟩ := h.access n hop.1 hop.2
    have hheld := v'.user_held (frameOf va) hop.1 f hf
    refine ⟨_, free', _, ?_, .store htouch w, hv'.store hheld (wordIndex va) w⟩
    simp only [spaceStep, Machine.write, hacc, Option.bind_eq_bind, Option.bind_some]

/-- Over any run in ring 0 the machine does to every user page what the view says: what was
stored last is there, a new page is all zeros and in a frame that nobody has had, and no page
is moved by anything but `MapPage` for it. -/
theorem Shows.run_view (h : s.Shows free v) (n : Nat) {ops : List SpaceOp}
    (hops : Transition.EachStep (spaceStep n) Allows s ops) :
    ∃ s' free' v', Transition.run (spaceStep n) s ops = some s' ∧
      Transition.Steps ProcessView.Step v ops v' ∧ s'.Shows free' v' ∧
      ∀ va f, IsUser (frameOf va) → v'.mapped (frameOf va) = some f →
        s'.read (Tysos.mapPage (n + 2)) va = some (v'.data f (wordIndex va), s') := by
  have hsim := Transition.EachStep.simulates (R := fun s v => ∃ free, s.Shows free v)
    (r := ProcessView.Step) ?_ ⟨free, h⟩ hops
  · obtain ⟨s', v', hrun, hsteps, free', hv'⟩ := hsim
    exact ⟨s', free', v', hrun, hsteps, hv', fun va f huser hf => hv'.read huser hf _⟩
  · rintro s v op ⟨free, hv⟩ hop
    obtain ⟨s', free', v', hstep, hview, hv'⟩ := hv.step n hop
    exact ⟨s', v', hstep, hview, free', hv'⟩

end Run

section Sample

/-- The view of the sample machine, which maps nothing. -/
def sampleView : ProcessView where
  mapped := fun _ => none
  held := sample.Client sampleFree
  data := sample.mem
  user_held := fun _ _ _ hf => absurd hf (Option.some_ne_none _).symm

theorem sample_entry {va : Uintptr} (hva : pdIndex va ≠ 255) : sample.entry va = none := by
  have htable : isPresent (sample.mem sample.dir (pdIndex va)) = true →
      isPresent (sample.mem (frameOf (sample.mem sample.dir (pdIndex va))) (ptIndex va)) =
        false := by
    intro hpres
    rw [sample_dir, sample_mem_dir] at hpres ⊢
    have hframe := sample_frame hpres hva
    have hne : frameOf (sampleEntry (pdIndex va)) ≠ 1 := by
      intro hone
      have hval : (frameOf (sampleEntry (pdIndex va))).toNat = 1 := congrArg BitVec.toNat hone
      omega
    rw [sample_mem, if_neg hne, if_neg (by omega)]
    rfl
  show walk i386 sample.mem sample.dir (pdIndex va) (ptIndex va) = none
  unfold walk
  split
  · rename_i hpres
    exact if_neg (Bool.eq_false_iff.mp (htable hpres))
  · rfl

theorem sample_shows : sample.Shows sampleFree sampleView :=
  ⟨sample_ready, fun _ hva => place_eq_none rfl (sample_entry hva), fun _ => Iff.rfl,
    fun _ _ _ => rfl⟩

/-- A page is mapped, and a word stored in it. -/
theorem run_view_sample : ∃ s' free' v',
    Transition.run (spaceStep 0) sample
      [.map { virtaddr := 0x40000000 }, .store 0x40000004 5] = some s' ∧
    Transition.Steps ProcessView.Step sampleView
      [.map { virtaddr := 0x40000000 }, .store 0x40000004 5] v' ∧ s'.Shows free' v' ∧
    ∀ va f, IsUser (frameOf va) → v'.mapped (frameOf va) = some f →
      s'.read (Tysos.mapPage 2) va = some (v'.data f (wordIndex va), s') := by
  have hmap : sample.Allows (.map { virtaddr := 0x40000000 }) :=
    ⟨rfl, by decide, ⟨sampleFree, sample_links, by decide⟩, fun _ hne => absurd rfl hne⟩
  refine sample_shows.run_view 0 ⟨hmap, fun s hs => ⟨⟨by decide, ?_⟩, fun _ _ => trivial⟩⟩
  obtain ⟨s', free', v', hstep, hview, hv'⟩ := sample_shows.step 0 hmap
  obtain rfl : s' = s := Option.some.inj (hstep.symm.trans hs)
  cases hview with
  | map hmaps =>
    obtain ⟨f, hf⟩ := hmaps.page rfl
    have hplace : s'.place 0x40000004 = some f := (hv'.place _ (by decide)).trans hf
    intro hnone
    rw [hplace] at hnone
    cases hnone

end Sample

end Machine
end Tysos
