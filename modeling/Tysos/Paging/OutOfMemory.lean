import Tysos.Paging.CurrentSpace

/-!
# MapPage without a free page

With the stack empty and the bitmap returning 0, `BeginAlloc` returns 0, which `MapPage` takes
for a page: it maps frame 0, and `EndAlloc` fills it with zeros.
-/

namespace Tysos
open PageTables
set_option autoImplicit false

namespace Machine

/-- Paging is on, the directory is its own table 255 and not in frame 0, and the stack is empty. -/
structure Exhausted (s : Machine) : Prop where
  enabled : s.enabled = true
  self : SelfMapped i386 s.mem s.dir 255
  dir_ne : s.dir ≠ 0
  empty : s.stack.top = 0

/-- The call takes a page for the page table or for the page itself. -/
def NeedsPage (c : MapCall) (s : Machine) : Prop :=
  isPresent (s.mem s.dir (pdIndex c.virtaddr)) = false ∨ c.unmap = false ∧ c.physaddr = 0

/-- Nothing is lost in the call from `s` to `s'`. -/
structure Harmless (s s' : Machine) : Prop where
  directory : ∀ a, isPresent (s'.mem s.dir a) = true → frameOf (s'.mem s.dir a) = 0 →
    isPresent (s.mem s.dir a) = true ∧ frameOf (s.mem s.dir a) = 0
  tables : ∀ va, s'.entry va = s.entry va
  frameZero : ∀ j, s'.mem 0 j = s.mem 0 j
  empty : s'.stack.top = 0

theorem Harmless.refl {s : Machine} (h : s.stack.top = 0) : Harmless s s :=
  ⟨fun _ hpres hframe => ⟨hpres, hframe⟩, fun _ => rfl, fun _ => rfl, h⟩

/-- The table of an address, which is the directory for the window of the tables. -/
def tableFrame (s : Machine) (va : Uintptr) : Frame := frameOf (s.mem s.dir (pdIndex va))

/-- The machine after frame 0 has been mapped at an address and taken as a page. -/
def withFrameZero (s : Machine) (va : Uintptr) (e : BitVec 32) : Machine :=
  (s.withTop (setWord s.mem (s.tableFrame va) (ptIndex va) e 0 0)).withMem
    (setFrame (setWord s.mem (s.tableFrame va) (ptIndex va) e) 0 0)

section Fields
variable (s : Machine) (va : Uintptr) (e : BitVec 32)

theorem withFrameZero_mem : (s.withFrameZero va e).mem =
    setFrame (setWord s.mem (s.tableFrame va) (ptIndex va) e) 0 0 := rfl

theorem withFrameZero_top : (s.withFrameZero va e).stack.top =
    setWord s.mem (s.tableFrame va) (ptIndex va) e 0 0 := rfl

end Fields

section Call
variable {mapPage : MapPageCall} {c : MapCall} {s : Machine} {va : Uintptr}

theorem Exhausted.beginAlloc (h : s.Exhausted) : s.beginAllocWith (some 0) = some 0 := by
  unfold beginAllocWith PhysMemStack.beginPop
  rw [h.empty, if_pos rfl, if_pos rfl]

theorem Exhausted.steady (h : s.Exhausted) (hva : pdIndex va = 255 → ptIndex va ≠ 255)
    (hpres : isPresent (s.mem s.dir (pdIndex va)) = true) :
    s.Steady (window (pdIndex va) (ptIndex va)) (s.tableFrame va) (ptIndex va) := by
  have hframe : frameOf (s.mem s.dir 255) = s.dir := h.self.frame
  unfold tableFrame
  by_cases hwindow : pdIndex va = 255
  · rw [hwindow, hframe]
    exact steady_dir h.enabled h.self (hva hwindow)
  · exact steady_window h.enabled h.self hwindow rfl hpres (ptIndex va)

theorem Exhausted.dir_written (h : s.Exhausted) (hva : pdIndex va = 255 → ptIndex va ≠ 255)
    (hpres : isPresent (s.mem s.dir (pdIndex va)) = true) (e : BitVec 32) :
    setWord s.mem (s.tableFrame va) (ptIndex va) e s.dir (pdIndex va) =
      s.mem s.dir (pdIndex va) := by
  by_cases hwindow : pdIndex va = 255
  · rw [hwindow]
    exact setWord_of_index_ne (hva hwindow).symm _ _ _
  · exact setWord_of_frame_ne (h.self.tables_ne (pdIndex va) hwindow hpres).symm _ _ _

theorem Exhausted.entry_written (h : s.Exhausted) (hva : pdIndex va = 255 → ptIndex va ≠ 255)
    (hpres : isPresent (s.mem s.dir (pdIndex va)) = true) {e : BitVec 32}
    (he : isPresent e = true) :
    (s.withMem (setWord s.mem (s.tableFrame va) (ptIndex va) e)).entry va = some e := by
  apply entry_of_words (h.dir_written hva hpres e) hpres _ he
  exact setWord_self s.mem (s.tableFrame va) (ptIndex va) e

/-- Filling frame 0 changes nothing for an address whose table is not in it. -/
theorem Exhausted.entry_withFrameZero (h : s.Exhausted)
    (hva : pdIndex va = 255 → ptIndex va ≠ 255)
    (hpres : isPresent (s.mem s.dir (pdIndex va)) = true) {e : BitVec 32}
    (he : isPresent e = true) (htable : s.tableFrame va ≠ 0) :
    (s.withFrameZero va e).entry va = some e := by
  rw [← h.entry_written hva hpres he]
  have hdir := h.dir_written hva hpres e
  refine walk_congr (fun a => setFrame_of_ne h.dir_ne _ _) (fun _ b => setFrame_of_ne ?_ _ _) _
  rw [hdir]
  exact htable

theorem Exhausted.body_fresh (h : s.Exhausted) (hasp : c.asp = none)
    (hva : pdIndex c.virtaddr = 255 → ptIndex c.virtaddr ≠ 255)
    (hpres : isPresent (s.mem s.dir (pdIndex c.virtaddr)) = true) (hmap : c.unmap = false)
    (hnew : c.physaddr = 0) :
    s.mapPageBodyWith (some 0) mapPage c =
      some (s.withFrameZero c.virtaddr (c.entryWord 0)) := by
  have hent := h.entry_written hva hpres (c.isPresent_entryWord 0)
  have hplace := place_of_entry (s := s.withMem
      (setWord s.mem (s.tableFrame c.virtaddr) (ptIndex c.virtaddr) (c.entryWord 0))) h.enabled
    ((entry_congr (frameOf_and_pageMask c.virtaddr)).trans hent)
  rw [c.frameOf_entryWord] at hplace
  rw [mapPageBodyWith_eq hasp h.enabled,
    createTableWith_of_present hasp h.enabled h.self (some 0) hpres]
  unfold createPageWith completeAlloc
  simp only [Option.bind_eq_bind, Option.bind_some, hmap, Bool.false_eq_true, if_false, hnew,
    if_true, h.beginAlloc, hasp, (h.steady hva hpres).setEntry c 0]
  exact endAlloc_eq hplace (wordIndex_and_pageMask c.virtaddr)

theorem entry_of_present (hpres : isPresent (s.mem s.dir (pdIndex va)) = true) : s.entry va =
    if isPresent (s.mem (s.tableFrame va) (ptIndex va)) then
      some (s.mem (s.tableFrame va) (ptIndex va)) else none := by
  have hpres' : i386.present (s.mem s.dir (pdIndex va)) = true := hpres
  unfold entry walk
  rw [if_pos hpres']
  rfl

/-- Frame 0 holds zeros, and the page is in frame 0 already, with the flags of the call, or frame
0 is the page table. -/
def AlreadyZero (c : MapCall) (s : Machine) : Prop :=
  (∀ j, s.mem 0 j = 0) ∧ (s.entry c.virtaddr = some (c.entryWord 0) ∨
    s.tableFrame c.virtaddr = 0 ∧ ptIndex c.virtaddr ≠ 0)

/-- Where no harm is done, nothing is done. -/
theorem Exhausted.unchanged (h : s.Exhausted)
    (hpres : isPresent (s.mem s.dir (pdIndex c.virtaddr)) = true) (hzero : AlreadyZero c s) :
    s.withFrameZero c.virtaddr (c.entryWord 0) = s := by
  obtain ⟨hframe, hplace⟩ := hzero
  have hmem : setFrame (setWord s.mem (s.tableFrame c.virtaddr) (ptIndex c.virtaddr)
      (c.entryWord 0)) 0 0 = s.mem ∧
      setWord s.mem (s.tableFrame c.virtaddr) (ptIndex c.virtaddr) (c.entryWord 0) 0 0 = 0 := by
    rcases hplace with hentry | ⟨htable, hfirst⟩
    · rw [entry_of_present hpres] at hentry
      have hword : s.mem (s.tableFrame c.virtaddr) (ptIndex c.virtaddr) = c.entryWord 0 := by
        split at hentry
        · exact Option.some.inj hentry
        · exact absurd hentry (by simp)
      rw [setWord_eq_self hword]
      exact ⟨setFrame_eq_self hframe, hframe 0⟩
    · rw [htable, setFrame_setWord_self, setWord_of_index_ne hfirst.symm]
      exact ⟨setFrame_eq_self hframe, hframe 0⟩
  have htop : s.stack = ⟨0⟩ := by
    have hempty := h.empty
    cases hs : s.stack
    rw [hs] at hempty
    rw [← hempty]
  unfold withFrameZero
  rw [hmem.1, hmem.2]
  unfold withTop withMem
  rw [← htop]

theorem Exhausted.alreadyZero (h : s.Exhausted)
    (hva : pdIndex c.virtaddr = 255 → ptIndex c.virtaddr ≠ 255)
    (hpres : isPresent (s.mem s.dir (pdIndex c.virtaddr)) = true)
    (hharm : Harmless s (s.withFrameZero c.virtaddr (c.entryWord 0))) : AlreadyZero c s := by
  have hlink := hharm.empty
  have hframe : ∀ j, s.mem 0 j = 0 := by
    intro j
    rw [← hharm.frameZero j, withFrameZero_mem, setFrame_self]
  have hpresent := c.isPresent_entryWord 0
  refine ⟨hframe, ?_⟩
  by_cases htable : s.tableFrame c.virtaddr = 0
  · refine Or.inr ⟨htable, fun hfirst => ?_⟩
    -- the entry is the link that is taken for the next page
    rw [withFrameZero_top, htable, hfirst, setWord_self] at hlink
    rw [hlink] at hpresent
    exact absurd hpresent (by decide)
  · refine Or.inl ?_
    rw [← hharm.tables c.virtaddr, h.entry_withFrameZero hva hpres hpresent htable]

/-- The machine after frame 0 has been filled and has become table `a` by the entry `e`. -/
def withZeroTable (s : Machine) (top : PhysAddr) (a : Index) (e : BitVec 32) : Machine :=
  (s.withTop top).withMem (setWord (setFrame s.mem 0 0) s.dir a e)

section NewTable
variable (h : s.Exhausted) (hasp : c.asp = none)
  (habs : isPresent (s.mem s.dir (pdIndex c.virtaddr)) = false)
include h habs

theorem Exhausted.window_ne : pdIndex c.virtaddr ≠ 255 := by
  intro hwindow
  have hpres : isPresent (s.mem s.dir 255) = true := h.self.present
  rw [hwindow, hpres] at habs
  exact absurd habs (by simp)

/-- The directory still leads to itself, and to the new table; other frames may change. -/
theorem Exhausted.zeroTable_place (top : PhysAddr) {e : BitVec 32} (he : isPresent e = true)
    {m : FrameMemory}
    (hm : ∀ i, m s.dir i = (s.withZeroTable top (pdIndex c.virtaddr) e).mem s.dir i) (j : Index) :
    ((s.withZeroTable top (pdIndex c.virtaddr) e).withMem m).place
        (window (pdIndex c.virtaddr) j) = some (frameOf e) ∧
      ((s.withZeroTable top (pdIndex c.virtaddr) e).withMem m).place (window 255 j) =
        some s.dir := by
  have hne := h.window_ne habs
  generalize pdIndex c.virtaddr = a at hne hm
  have hloop : m s.dir 255 = s.mem s.dir 255 :=
    (hm 255).trans ((setWord_of_index_ne hne.symm _ _ _).trans (setFrame_of_ne h.dir_ne _ _))
  have hword : m s.dir a = e := (hm a).trans (setWord_self _ _ _ _)
  have hself : isPresent (s.mem s.dir 255) = true := h.self.present
  have hframe : frameOf (s.mem s.dir 255) = s.dir := h.self.frame
  have hself' : isPresent (m s.dir 255) = true := hloop ▸ hself
  have hframe' : frameOf (m s.dir 255) = s.dir := hloop ▸ hframe
  have hshown := fun b e' => place_loop (i := b) (e := e')
    (s := (s.withZeroTable top a e).withMem m) h.enabled hself' hframe'
  constructor
  · exact hshown a e hword he j
  · rw [hshown 255 _ hloop hself j, hframe]

theorem Exhausted.mapPage_window (n : Nat) : ∃ e, isPresent e = true ∧ frameOf e = 0 ∧
    mapPageWith (some 0) (n + 1)
        { virtaddr := window (pdIndex c.virtaddr) 0, physaddr := 0, user := true } s =
      some (s.withZeroTable (s.mem 0 0) (pdIndex c.virtaddr) e) := by
  have hne := h.window_ne habs
  generalize pdIndex c.virtaddr = a at hne
  have hframe : frameOf (s.mem s.dir 255) = s.dir := h.self.frame
  have hfresh : s.mapPageBodyWith (some 0) (mapPageWith (some 0) n) _ = _ := h.body_fresh
    (c := { virtaddr := window a 0, physaddr := 0, user := true }) rfl
    (fun _ => by rw [ptIndex_window]; exact hne)
    (by rw [pdIndex_window]; exact h.self.present) rfl rfl
  refine ⟨_, MapCall.isPresent_entryWord { virtaddr := window a 0, physaddr := 0, user := true } 0,
    MapCall.frameOf_entryWord _ 0, hfresh.trans ?_⟩
  unfold withFrameZero tableFrame withZeroTable
  rw [pdIndex_window, ptIndex_window, hframe, setWord_of_frame_ne h.dir_ne.symm,
    setFrame_setWord _ h.dir_ne]

/-- The page table is frame 0 as well, and the directory leads to it. -/
theorem Exhausted.createTable_zero (hasp : c.asp = none) (n : Nat) :
    s.createTableWith (some 0) (mapPageWith (some 0) (n + 1)) c =
      some (s.withZeroTable 0 (pdIndex c.virtaddr) (tableWord 0)) := by
  obtain ⟨e, he, hframe, hcall⟩ := h.mapPage_window habs n
  have hplace : (s.withZeroTable (s.mem 0 0) (pdIndex c.virtaddr) e).place
      (window (pdIndex c.virtaddr) 0) = some (frameOf e) :=
    (h.zeroTable_place habs (s.mem 0 0) he (fun _ => rfl) 0).1
  have hplace' : (s.withZeroTable 0 (pdIndex c.virtaddr) e).place
      (window 255 (pdIndex c.virtaddr)) = some s.dir :=
    (h.zeroTable_place habs 0 he (fun _ => rfl) (pdIndex c.virtaddr)).2
  have hlink : (s.withZeroTable (s.mem 0 0) (pdIndex c.virtaddr) e).mem 0 0 = 0 :=
    (setWord_of_frame_ne h.dir_ne.symm _ _ _).trans (setFrame_self _ _ _ _)
  have hfilled : setFrame (s.withZeroTable (s.mem 0 0) (pdIndex c.virtaddr) e).mem 0 0 =
      setWord (setFrame s.mem 0 0) s.dir (pdIndex c.virtaddr) e := by
    unfold withZeroTable
    rw [withMem_mem, setFrame_setWord _ h.dir_ne, setFrame_setFrame]
  rw [hframe] at hplace
  rw [createTableWith_absent hasp h.enabled h.self (some 0) habs, h.beginAlloc]
  dsimp only [Option.bind_eq_bind, Option.bind_some]
  rw [hcall]
  dsimp only [Option.bind_some]
  rw [endAlloc_eq hplace (wordIndex_window _ 0), hlink, hfilled]
  dsimp only [Option.bind_some]
  have hwrite : Machine.write (mapPageWith (some 0) (n + 1)) (window 255 (pdIndex c.virtaddr))
      (tableWord 0) (s.withZeroTable 0 (pdIndex c.virtaddr) e) = _ :=
    write_eq hplace' (wordIndex_window 255 _) (tableWord 0)
  refine hwrite.trans ?_
  unfold withZeroTable
  rw [withMem_mem, setWord_setWord, withMem_withMem]

theorem Exhausted.zeroTable_steady :
    (s.withZeroTable 0 (pdIndex c.virtaddr) (tableWord 0)).Steady
      (window (pdIndex c.virtaddr) (ptIndex c.virtaddr)) 0 (ptIndex c.virtaddr) := by
  have hpres := isPresent_tableWord 0
  have hframe : frameOf (tableWord 0) = 0 := frameOf_tableWord 0
  refine ⟨wordIndex_window _ _, ?_, fun v => ?_⟩
  · rw [← hframe]
    exact (h.zeroTable_place habs 0 hpres (fun _ => rfl) (ptIndex c.virtaddr)).1
  · rw [(h.zeroTable_place habs 0 hpres (fun i => setWord_of_frame_ne h.dir_ne _ _ _)
      (ptIndex c.virtaddr)).1, hframe]

omit habs in
/-- The page that is taken then is frame 0 again, and its table too. -/
theorem Exhausted.zeroTable_page {e : BitVec 32} (he : isPresent e = true)
    (hframe : frameOf e = 0) :
    ((s.withZeroTable 0 (pdIndex c.virtaddr) (tableWord 0)).withMem
      (setWord (s.withZeroTable 0 (pdIndex c.virtaddr) (tableWord 0)).mem 0
        (ptIndex c.virtaddr) e)).place (c.virtaddr &&& pageMask) = some 0 := by
  have hdir : setWord (s.withZeroTable 0 (pdIndex c.virtaddr) (tableWord 0)).mem 0
      (ptIndex c.virtaddr) e s.dir (pdIndex c.virtaddr) = tableWord 0 :=
    (setWord_of_frame_ne h.dir_ne _ _ _).trans (setWord_self _ _ _ _)
  have htable : frameOf (tableWord 0) = 0 := frameOf_tableWord 0
  have hentry : ((s.withZeroTable 0 (pdIndex c.virtaddr) (tableWord 0)).withMem
      (setWord (s.withZeroTable 0 (pdIndex c.virtaddr) (tableWord 0)).mem 0
        (ptIndex c.virtaddr) e)).entry c.virtaddr = some e := by
    apply entry_of_words hdir (isPresent_tableWord 0) _ he
    rw [htable]
    exact setWord_self _ _ _ _
  have hon : ((s.withZeroTable 0 (pdIndex c.virtaddr) (tableWord 0)).withMem
      (setWord (s.withZeroTable 0 (pdIndex c.virtaddr) (tableWord 0)).mem 0
        (ptIndex c.virtaddr) e)).enabled = true := h.enabled
  rw [place_page (frameOf_and_pageMask c.virtaddr), place_of_entry hon hentry, hframe]

/-- The call returns, and the directory leads to frame 0. -/
theorem Exhausted.leads_to_zero (hasp : c.asp = none) (n : Nat) : ∃ s',
    mapPageWith (some 0) (n + 2) c s = some s' ∧
      s'.mem s.dir (pdIndex c.virtaddr) = tableWord 0 := by
  have hsteady := h.zeroTable_steady habs
  have hpage := h.zeroTable_page (c := c) (c.isPresent_entryWord 0) (c.frameOf_entryWord 0)
  show ∃ s', s.mapPageBodyWith (some 0) (mapPageWith (some 0) (n + 1)) c = some s' ∧ _
  rw [mapPageBodyWith_eq hasp h.enabled, h.createTable_zero habs hasp n]
  have hword : (s.withZeroTable 0 (pdIndex c.virtaddr) (tableWord 0)).mem s.dir
      (pdIndex c.virtaddr) = tableWord 0 := setWord_self _ _ _ _
  have halloc : (s.withZeroTable 0 (pdIndex c.virtaddr) (tableWord 0)).beginAllocWith (some 0) =
      some 0 := rfl
  generalize s.withZeroTable 0 (pdIndex c.virtaddr) (tableWord 0) = t at *
  dsimp only [Option.bind_eq_bind, Option.bind_some]
  cases hunmap : c.unmap with
  | true =>
    rw [if_pos rfl, clearPresent_eq hsteady.place hsteady.word]
    exact ⟨_, rfl, (setWord_of_frame_ne h.dir_ne _ _ _).trans hword⟩
  | false =>
    unfold createPageWith completeAlloc
    by_cases hnew : c.physaddr = 0
    · simp only [Bool.false_eq_true, if_false, hnew, if_true, halloc, hasp,
        Option.bind_some, hsteady.setEntry c 0, Option.bind_eq_bind,
        endAlloc_eq hpage (wordIndex_and_pageMask c.virtaddr)]
      exact ⟨_, rfl, (setFrame_of_ne h.dir_ne _ _).trans
        ((setWord_of_frame_ne h.dir_ne _ _ _).trans hword)⟩
    · simp only [Bool.false_eq_true, if_false, hnew,
        Option.bind_some, hsteady.setEntry c c.physaddr]
      exact ⟨_, rfl, (setWord_of_frame_ne h.dir_ne _ _ _).trans hword⟩

/-- A depth of one is not enough for the call for the page table. -/
theorem Exhausted.too_deep (hasp : c.asp = none) :
    mapPageWith (some 0) 1 c s = none := by
  show s.mapPageBodyWith (some 0) (mapPageWith (some 0) 0) c = none
  rw [mapPageBodyWith_eq hasp h.enabled]
  rw [createTableWith_absent hasp h.enabled h.self (some 0) habs, h.beginAlloc]
  rfl

theorem Exhausted.not_harmless (hasp : c.asp = none) {n : Nat} {s' : Machine}
    (hcall : mapPageWith (some 0) n c s = some s') : ¬ Harmless s s' := by
  intro hharm
  have hword : s'.mem s.dir (pdIndex c.virtaddr) = tableWord 0 := by
    match n with
    | 0 => exact absurd hcall (Option.some_ne_none s').symm
    | 1 => exact absurd (h.too_deep habs hasp ▸ hcall) (Option.some_ne_none s').symm
    | n + 2 =>
      obtain ⟨t, ht, hdir⟩ := h.leads_to_zero habs hasp n
      obtain rfl := Option.some.inj (ht.symm.trans hcall)
      exact hdir
  have hdir := hharm.directory (pdIndex c.virtaddr)
    (by rw [hword]; exact isPresent_tableWord 0) (by rw [hword]; exact frameOf_tableWord 0)
  rw [habs] at hdir
  exact Bool.false_ne_true hdir.1

end NewTable

/-- The directory no longer leads to itself, and its windows lead nowhere. -/
structure Cut (s : Machine) : Prop where
  enabled : s.enabled = true
  entry : ∀ va, pdIndex va = 255 → ptIndex va = 255 → s.entry va = none

section Cut
theorem Cut.access (h : s.Cut) (hcalls : ∀ c s, c.asp = none → Cut s → mapPage c s = none)
    (hpd : pdIndex va = 255) (hpt : ptIndex va = 255) : s.access mapPage va = none := by
  unfold Machine.access fault
  rw [place_eq_none h.enabled (h.entry va hpd hpt)]
  dsimp only [Option.bind_eq_bind]
  split
  · rename_i l sec request hres
    have hcall := hcalls (faultCall request) { s with sections := l } rfl ⟨h.enabled, h.entry⟩
    exact congrArg (Option.bind · _) hcall
  · rfl

theorem Cut.endAlloc (h : s.Cut) (hcalls : ∀ c s, c.asp = none → Cut s → mapPage c s = none)
    (hpd : pdIndex va = 255) (hpt : ptIndex va = 255) : s.endAlloc mapPage va = none := by
  unfold Machine.endAlloc read
  rw [h.access hcalls hpd hpt]
  rfl

/-- A flag is not set there either, and what comes after it is not reached. -/
theorem Cut.addFlag_bind (h : s.Cut) (hcalls : ∀ c s, c.asp = none → Cut s → mapPage c s = none)
    (hpd : pdIndex va = 255) (hpt : ptIndex va = 255) (asked : Bool) (flag : BitVec 32)
    {k : Machine → Option Machine} (hk : k s = none) :
    (s.addFlag mapPage va asked flag).bind k = none := by
  unfold addFlag read
  cases asked with
  | false => exact hk
  | true =>
    rw [if_pos rfl, h.access hcalls hpd hpt]
    rfl

/-- Each call faults on the directory, and the fault calls `MapPage`. -/
theorem Cut.mapPage_eq_none (bitmap : Option PhysAddr) (n : Nat) : ∀ c s, c.asp = none → Cut s →
    mapPageWith bitmap n c s = none := by
  induction n with
  | zero => exact fun c s _ _ => rfl
  | succ n ih =>
    intro c s hasp h
    show s.mapPageBodyWith bitmap (mapPageWith bitmap n) c = none
    rw [mapPageBodyWith_eq hasp h.enabled]
    unfold createTableWith read
    dsimp only
    rw [wrPd_eq hasp, h.access ih (pdIndex_window _ _) (ptIndex_window _ _)]
    rfl

end Cut

/-- The directory leads to frame 0 in place of itself, and frame 0 leads to `f`. -/
structure Strayed (s : Machine) (f : Frame) : Prop where
  enabled : s.enabled = true
  present : isPresent (s.mem s.dir 255) = true
  frame : frameOf (s.mem s.dir 255) = 0
  presentZero : isPresent (s.mem 0 255) = true
  frameZero : frameOf (s.mem 0 255) = f

theorem Strayed.place {f : Frame} (h : s.Strayed f) (hpd : pdIndex va = 255)
    (hpt : ptIndex va = 255) : s.place va = some f := by
  have hentry : s.entry va = some (s.mem 0 255) := by
    apply entry_of_words (e := s.mem s.dir 255) _ h.present _ h.presentZero
    · rw [hpd]
    · rw [h.frame, hpt]
  rw [place_of_entry h.enabled hentry, h.frameZero]

/-- A flag that is set in the word the window shows, be it that of the directory or of frame 0. -/
theorem Strayed.addFlag {f : Frame} (h : s.Strayed f) (asked : Bool) (flag : BitVec 32)
    (hflag : frameOf flag = 0) : ∃ s', s.addFlag mapPage (window 255 255) asked flag = some s' ∧
      s'.Strayed f ∧ s'.dir = s.dir := by
  unfold Machine.addFlag
  cases asked with
  | false => exact ⟨s, rfl, h, rfl⟩
  | true =>
    have hplace := h.place (pdIndex_window 255 255) (ptIndex_window 255 255)
    rw [if_pos rfl, read_eq hplace (wordIndex_window _ _)]
    have hkept : ∀ d, isPresent (s.mem d 255) = true →
        isPresent (setWord s.mem f 255 (s.mem f 255 ||| flag) d 255) = true ∧
          frameOf (setWord s.mem f 255 (s.mem f 255 ||| flag) d 255) = frameOf (s.mem d 255) := by
      intro d hd
      by_cases heq : d = f
      · subst heq
        rw [setWord_self, isPresent_or, hd, frameOf_or _ hflag]
        exact ⟨rfl, rfl⟩
      · rw [setWord_of_frame_ne heq]
        exact ⟨hd, rfl⟩
    have hdir := hkept s.dir h.present
    have hzero := hkept 0 h.presentZero
    exact ⟨_, write_eq hplace (wordIndex_window _ _) _, ⟨h.enabled, hdir.1, hdir.2.trans h.frame,
      hzero.1, hzero.2.trans h.frameZero⟩, rfl⟩

section OwnPage
variable (h : s.Exhausted)
include h

/-- The entry that is written first leads the directory to frame 0. -/
theorem Exhausted.strayed (hzero : isPresent (s.mem 0 255) = true) :
    (s.withMem (setWord s.mem s.dir 255 pPresent)).Strayed (frameOf (s.mem 0 255)) := by
  have hdir : setWord s.mem s.dir 255 pPresent s.dir 255 = pPresent := setWord_self _ _ _ _
  have hkept : setWord s.mem s.dir 255 pPresent 0 255 = s.mem 0 255 :=
    setWord_of_frame_ne h.dir_ne.symm _ _ _
  generalize setWord s.mem s.dir 255 pPresent = m at hdir hkept
  refine ⟨h.enabled, ?_, ?_, ?_, ?_⟩
  · show isPresent (m s.dir 255) = true
    rw [hdir]
    rfl
  · show frameOf (m s.dir 255) = 0
    rw [hdir]
    rfl
  · show isPresent (m 0 255) = true
    rw [hkept, hzero]
  · show frameOf (m 0 255) = _
    rw [hkept]

theorem Exhausted.cut (hzero : isPresent (s.mem 0 255) = false) :
    (s.withMem (setWord s.mem s.dir 255 pPresent)).Cut := by
  refine ⟨h.enabled, fun va hpd hpt => ?_⟩
  have hpres : i386.present pPresent = true := rfl
  have hframe : i386.frame pPresent = 0 := rfl
  have habs : i386.present (s.mem 0 255) = false := hzero
  unfold entry walk
  rw [withMem_mem, withMem_dir, hpd, hpt, setWord_self, hframe,
    setWord_of_frame_ne h.dir_ne.symm, habs, if_pos hpres, if_neg (by simp)]

/-- A call that takes a page for the page the directory shows itself in. -/
theorem Exhausted.body_own_page (hasp : c.asp = none) (hmap : c.unmap = false)
    (hnew : c.physaddr = 0) (hpd : pdIndex c.virtaddr = 255) (hpt : ptIndex c.virtaddr = 255) :
    s.mapPageBodyWith (some 0) mapPage c =
      ((s.withMem (setWord s.mem s.dir 255 pPresent)).addFlag mapPage (window 255 255)
        c.user pUser).bind fun s =>
      (s.addFlag mapPage (window 255 255) c.writable pWritable).bind fun s =>
      (s.addFlag mapPage (window 255 255) c.cacheDisabled pCacheDisabled).bind fun s =>
      (s.addFlag mapPage (window 255 255) c.writeThrough pWriteThrough).bind fun s =>
      s.endAlloc mapPage (c.virtaddr &&& pageMask) := by
  have hpres : isPresent (s.mem s.dir (pdIndex c.virtaddr)) = true := by
    rw [hpd]
    exact h.self.present
  have hword : (0 : PhysAddr) &&& pageMask ||| pPresent = pPresent := by decide
  rw [mapPageBodyWith_eq hasp h.enabled,
    createTableWith_of_present hasp h.enabled h.self (some 0) hpres, hpd, hpt]
  unfold createPageWith completeAlloc setEntry
  simp only [Option.bind_eq_bind, Option.bind_some, hmap, Bool.false_eq_true, if_false, hnew,
    if_true, h.beginAlloc, hasp, Option.bind_assoc, hword,
    write_eq (place_dir h.enabled h.self 255) (wordIndex_window 255 255)]

/-- The directory is lost: its entry for itself leads to frame 0, or it has been filled, or
frame 0 has. -/
theorem Strayed.not_harmless {t : Machine} {f : Frame} (ht : t.Strayed f) (hdir : t.dir = s.dir)
    (hzero : isPresent (s.mem 0 255) = true) (top : PhysAddr) :
    ¬ Harmless s ((t.withTop top).withMem (setFrame t.mem f 0)) := by
  intro hharm
  by_cases hown : s.dir = f
  · have hentry := hharm.tables (window 255 255)
    have hpres : i386.present (s.mem s.dir 255) = true := h.self.present
    have hframe : i386.frame (s.mem s.dir 255) = s.dir := h.self.frame
    have habs : i386.present 0 = false := rfl
    unfold entry walk at hentry
    rw [pdIndex_window, ptIndex_window, withMem_mem, withMem_dir, withTop_dir, hdir, hown,
      setFrame_self, ← hown, hpres, hframe, if_neg (by rw [habs]; simp), if_pos rfl,
      if_pos hpres] at hentry
    exact absurd hentry.symm (Option.some_ne_none _)
  by_cases hfirst : (0 : Frame) = f
  · have hword := hharm.frameZero 255
    rw [withMem_mem, ← hfirst, setFrame_self] at hword
    rw [← hword] at hzero
    exact absurd hzero (by decide)
  · have hkept : setFrame t.mem f 0 s.dir 255 = t.mem t.dir 255 := by
      rw [setFrame_of_ne hown, hdir]
    have hlost := hharm.directory 255
      (by rw [withMem_mem, hkept]; exact ht.present) (by rw [withMem_mem, hkept]; exact ht.frame)
    have hframe : frameOf (s.mem s.dir 255) = s.dir := h.self.frame
    exact h.dir_ne (hframe.symm.trans hlost.2)

theorem Exhausted.own_page_not_harmless (hasp : c.asp = none) (hmap : c.unmap = false)
    (hnew : c.physaddr = 0) (hpd : pdIndex c.virtaddr = 255) (hpt : ptIndex c.virtaddr = 255)
    {n : Nat} {s' : Machine} (hcall : mapPageWith (some 0) (n + 1) c s = some s') :
    ¬ Harmless s s' := by
  have hbody : s.mapPageBodyWith (some 0) (mapPageWith (some 0) n) c = some s' := hcall
  rw [h.body_own_page hasp hmap hnew hpd hpt] at hbody
  have hpd' := (pdIndex_and_pageMask c.virtaddr).trans hpd
  have hpt' := (ptIndex_and_pageMask c.virtaddr).trans hpt
  cases hzero : isPresent (s.mem 0 255) with
  | false =>
    have hcut := h.cut hzero
    have hflag := fun asked flag k => hcut.addFlag_bind (Cut.mapPage_eq_none (some 0) n)
      (pdIndex_window 255 255) (ptIndex_window 255 255) asked flag (k := k)
    have hlast := hcut.endAlloc (Cut.mapPage_eq_none (some 0) n) hpd' hpt'
    rw [hflag _ _ _ (hflag _ _ _ (hflag _ _ _ (hflag _ _ _ hlast)))] at hbody
    exact absurd hbody.symm (Option.some_ne_none s')
  | true =>
    obtain ⟨t₁, hrun₁, ht₁, hdir₁⟩ := (h.strayed hzero).addFlag c.user pUser rfl
    obtain ⟨t₂, hrun₂, ht₂, hdir₂⟩ := ht₁.addFlag c.writable pWritable rfl
    obtain ⟨t₃, hrun₃, ht₃, hdir₃⟩ := ht₂.addFlag c.cacheDisabled pCacheDisabled rfl
    obtain ⟨t₄, hrun₄, ht₄, hdir₄⟩ := ht₃.addFlag c.writeThrough pWriteThrough rfl
    rw [hrun₁, Option.bind_some, hrun₂, Option.bind_some, hrun₃, Option.bind_some, hrun₄,
      Option.bind_some, endAlloc_eq (ht₄.place hpd' hpt') (wordIndex_and_pageMask _)] at hbody
    obtain rfl := Option.some.inj hbody
    exact ht₄.not_harmless h (hdir₄.trans (hdir₃.trans (hdir₂.trans hdir₁))) hzero _

theorem Exhausted.own_page_not_zero (hpd : pdIndex c.virtaddr = 255)
    (hpt : ptIndex c.virtaddr = 255) : ¬ AlreadyZero c s := by
  have hframe : frameOf (s.mem s.dir 255) = s.dir := h.self.frame
  have htable : s.tableFrame c.virtaddr = s.dir := by
    unfold tableFrame
    rw [hpd, hframe]
  rintro ⟨-, hentry | ⟨hzero, -⟩⟩
  · have hpres : isPresent (s.mem s.dir 255) = true := h.self.present
    rw [entry_of_present (by rw [hpd]; exact hpres), htable, hpt, if_pos hpres] at hentry
    have hword := congrArg frameOf (Option.some.inj hentry)
    rw [hframe, c.frameOf_entryWord] at hword
    exact h.dir_ne hword
  · exact h.dir_ne (htable.symm.trans hzero)

end OwnPage

/-- Without a free page the call does no harm only where it has nothing to do: there is a page
table, frame 0 holds zeros, and the page is in frame 0 already or frame 0 is the table. -/
theorem Exhausted.harmless_iff (h : s.Exhausted) (hasp : c.asp = none) (hneeds : NeedsPage c s) :
    (∃ n s', mapPageWith (some 0) n c s = some s' ∧ Harmless s s') ↔
      isPresent (s.mem s.dir (pdIndex c.virtaddr)) = true ∧ AlreadyZero c s := by
  cases hpres : isPresent (s.mem s.dir (pdIndex c.virtaddr)) with
  | false =>
    refine iff_of_false ?_ fun hboth => Bool.false_ne_true hboth.1
    rintro ⟨n, s', hcall, hharm⟩
    exact h.not_harmless hpres hasp hcall hharm
  | true =>
    obtain ⟨hmap, hnew⟩ := hneeds.resolve_left (by rw [hpres]; simp)
    by_cases hown : pdIndex c.virtaddr = 255 ∧ ptIndex c.virtaddr = 255
    · obtain ⟨hpd, hpt⟩ := hown
      refine iff_of_false ?_ fun hboth => h.own_page_not_zero hpd hpt hboth.2
      rintro ⟨n, s', hcall, hharm⟩
      cases n with
      | zero => exact absurd hcall (Option.some_ne_none s').symm
      | succ n => exact h.own_page_not_harmless hasp hmap hnew hpd hpt hcall hharm
    have hva : pdIndex c.virtaddr = 255 → ptIndex c.virtaddr ≠ 255 :=
      fun hpd hpt => hown ⟨hpd, hpt⟩
    have hbody : ∀ n, mapPageWith (some 0) (n + 1) c s =
        some (s.withFrameZero c.virtaddr (c.entryWord 0)) :=
      fun n => h.body_fresh hasp hva hpres hmap hnew
    constructor
    · rintro ⟨n, s', hcall, hharm⟩
      cases n with
      | zero => exact absurd hcall (Option.some_ne_none s').symm
      | succ n =>
        obtain rfl := Option.some.inj ((hbody n).symm.trans hcall)
        exact ⟨rfl, h.alreadyZero hva hpres hharm⟩
    · rintro ⟨-, hzero⟩
      have hsame := h.unchanged hpres hzero
      exact ⟨1, s, by rw [hbody 0, hsame], Harmless.refl h.empty⟩

end Call

section Sample

/-- The sample machine after its free pages have been used up. -/
def usedUp : Machine := { sample with stack := { top := 0 } }

theorem usedUp_exhausted : Exhausted usedUp := ⟨rfl, sample_self, by decide, rfl⟩

/-- A machine that has its first page in frame 0. -/
def zeroPage : Machine := usedUp.withMem (setWord sample.mem 16 0 0x3)

theorem zeroPage_mem {f : Frame} (hf : f ≠ 16) (j : Index) : zeroPage.mem f j = sample.mem f j :=
  setWord_of_frame_ne hf _ _ _

theorem zeroPage_exhausted : Exhausted zeroPage :=
  ⟨rfl, sample_self.congr (zeroPage_mem (f := 1) (by decide)), by decide, rfl⟩

theorem zeroPage_harmless : ∃ n s', mapPageWith (some 0) n { virtaddr := 0 } zeroPage = some s' ∧
    Harmless zeroPage s' := by
  have hpres : isPresent (zeroPage.mem zeroPage.dir (pdIndex 0)) = true := by decide
  have hentry : zeroPage.entry 0 = some (MapCall.entryWord { virtaddr := 0 } 0) := by decide
  have hzero : ∀ j, zeroPage.mem 0 j = 0 := by
    intro j
    rw [zeroPage_mem (by decide), sample_mem, if_neg (by decide)]
    exact if_neg fun hlink => absurd hlink.2.1 (by decide)
  exact (zeroPage_exhausted.harmless_iff (c := { virtaddr := 0 }) rfl (.inr ⟨rfl, rfl⟩)).mpr
    ⟨hpres, hzero, .inl hentry⟩

/-- The first page of a user program needs a page table: the directory comes to lead to frame 0. -/
theorem usedUp_harmed : Exhausted usedUp ∧ NeedsPage { virtaddr := 0x40000000 } usedUp ∧
    (∃ s', mapPageWith (some 0) 2 { virtaddr := 0x40000000 } usedUp = some s' ∧
      s'.mem usedUp.dir 256 = tableWord 0) ∧
    ¬ ∃ n s', mapPageWith (some 0) n { virtaddr := 0x40000000 } usedUp = some s' ∧
      Harmless usedUp s' := by
  have habs : isPresent (usedUp.mem usedUp.dir (pdIndex 0x40000000)) = false := by decide
  have hindex : pdIndex 0x40000000 = 256 := by decide
  have hcall := usedUp_exhausted.leads_to_zero (c := { virtaddr := 0x40000000 }) habs rfl 0
  dsimp only at hcall
  rw [hindex] at hcall
  refine ⟨usedUp_exhausted, .inl habs, hcall, ?_⟩
  rintro ⟨n, s', hrun, hharm⟩
  exact usedUp_exhausted.not_harmless (c := { virtaddr := 0x40000000 }) habs rfl hrun hharm

end Sample

end Machine
end Tysos
