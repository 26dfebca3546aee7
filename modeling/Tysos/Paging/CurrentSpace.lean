import Tysos.Paging.Windows

/-!
# Mapping in the current address space

What `MapPage` does with the loaded page directory, when the directory is its own table 255
and the pages on the stack are no tables: it changes the page asked for, and takes off the
stack the pages it uses.
-/

namespace Tysos
open PageTables
set_option autoImplicit false

/-- The pages linked through their first words from `top` on. -/
def FreeList (mem : FrameMemory) : PhysAddr → List PhysAddr → Prop
  | top, [] => top = 0
  | top, p :: ps =>
    top = p ∧ p ≠ 0 ∧ p &&& pageMask = p ∧ FreeList mem (mem (frameOf p) 0) ps

/-- Paging is on, the directory is its own table 255, the kernel's page tables are there, and
the stack has the pages `free`, none of which is the directory or a table. -/
structure Ready (s : Machine) (free : List PhysAddr) : Prop where
  enabled : s.enabled = true
  self : SelfMapped i386 s.mem s.dir 255
  kernel : ∀ i : Index, i.toNat < 255 → isPresent (s.mem s.dir i) = true
  links : FreeList s.mem s.stack.top free
  nodup : free.Nodup
  spare : ∀ p ∈ free, Spare i386 s.mem s.dir (frameOf p)

theorem FreeList.congr {mem mem' : FrameMemory} {top : PhysAddr} {ps : List PhysAddr}
    (h : FreeList mem top ps) (hsame : ∀ p ∈ ps, mem' (frameOf p) 0 = mem (frameOf p) 0) :
    FreeList mem' top ps := by
  induction ps generalizing top with
  | nil => exact h
  | cons p ps ih =>
    obtain ⟨htop, hne, hal, hrest⟩ := h
    refine ⟨htop, hne, hal, ?_⟩
    rw [hsame p List.mem_cons_self]
    exact ih hrest fun q hq => hsame q (List.mem_cons_of_mem p hq)

theorem FreeList.ne_zero {mem : FrameMemory} {top : PhysAddr} {ps : List PhysAddr}
    (h : FreeList mem top ps) {p : PhysAddr} (hp : p ∈ ps) : p ≠ 0 := by
  induction ps generalizing top with
  | nil => exact absurd hp List.not_mem_nil
  | cons q ps ih =>
    rcases List.mem_cons.mp hp with rfl | hp
    · exact h.2.1
    · exact ih h.2.2.2 hp

theorem FreeList.aligned {mem : FrameMemory} {top : PhysAddr} {ps : List PhysAddr}
    (h : FreeList mem top ps) {p : PhysAddr} (hp : p ∈ ps) : p &&& pageMask = p := by
  induction ps generalizing top with
  | nil => exact absurd hp List.not_mem_nil
  | cons q ps ih =>
    rcases List.mem_cons.mp hp with rfl | hp
    · exact h.2.2.1
    · exact ih h.2.2.2 hp

namespace Machine
variable {s : Machine} {va : Uintptr}

/-- The directory's entry for a new table. -/
def tableWord (newPt : PhysAddr) : BitVec 32 := newPt ||| pPresent ||| pUser ||| pWritable

theorem frameOf_tableWord (newPt : PhysAddr) : frameOf (tableWord newPt) = frameOf newPt :=
  frameOf_flags newPt rfl rfl

theorem isPresent_tableWord (newPt : PhysAddr) : isPresent (tableWord newPt) = true :=
  isPresent_flags newPt pUser pWritable

/-- The machine after the page `p` has been taken from the stack to be the table `a`. -/
def withTable (s : Machine) (a : Index) (p : PhysAddr) : Machine :=
  (s.withTop (s.mem (frameOf p) 0)).withMem
    (setWord (setFrame s.mem (frameOf p) 0) s.dir a (tableWord p))

/-- The machine after the entry of an address has been written. -/
def withEntry (s : Machine) (va : Uintptr) (e : BitVec 32) : Machine :=
  s.withMem (setWord s.mem (frameOf (s.mem s.dir (pdIndex va))) (ptIndex va) e)

/-- The machine after the page `p` has been taken from the stack and filled with zeros. -/
def withPage (s : Machine) (p : PhysAddr) : Machine :=
  (s.withTop (s.mem (frameOf p) 0)).withMem (setFrame s.mem (frameOf p) 0)

@[simp] theorem withPage_dir (p : PhysAddr) : (s.withPage p).dir = s.dir := rfl

section Tables
variable {c : MapCall} {free : List PhysAddr} {p : PhysAddr}

theorem beginAlloc_eq (h : Ready s (p :: free)) : s.beginAlloc = some p := by
  obtain ⟨htop, hne, -, -⟩ := h.links
  unfold beginAlloc beginAllocWith PhysMemStack.beginPop
  rw [htop, if_neg hne, if_neg hne]

/-- The page of the window for table `a` is the table itself. -/
theorem mapPage_window {n : Nat} (hon : s.enabled = true)
    (hself : SelfMapped i386 s.mem s.dir 255) {a : Index} (ha : a ≠ 255) (hp : p ≠ 0) :
    mapPage (n + 1) { virtaddr := window a 0, physaddr := p, user := true } s =
      some (s.withMem (setWord s.mem s.dir a
        (MapCall.entryWord { virtaddr := window a 0, physaddr := p, user := true } p))) := by
  have hdirPres : isPresent (s.mem s.dir (pdIndex (window a 0))) = true := by
    rw [pdIndex_window]
    exact hself.present
  have hsteady : s.Steady (window (pdIndex (window a 0)) (ptIndex (window a 0))) s.dir a := by
    rw [pdIndex_window, ptIndex_window]
    exact steady_dir hon hself ha
  exact mapPageBody_given rfl hon (createTable_of_present rfl hon hself hdirPres) rfl hp hsteady

theorem createTable_of_absent {n : Nat} (h : Ready s (p :: free)) (hasp : c.asp = none)
    (ha : pdIndex c.virtaddr ≠ 255)
    (habs : isPresent (s.mem s.dir (pdIndex c.virtaddr)) = false) :
    s.createTable (mapPage (n + 1)) c = some (s.withTable (pdIndex c.virtaddr) p) := by
  have hp : Spare i386 s.mem s.dir (frameOf p) := h.spare p List.mem_cons_self
  have hdir : frameOf p ≠ s.dir := hp.ne_dir h.self
  have halloc : s.beginAllocWith none = some p := beginAlloc_eq h
  unfold createTable
  rw [createTableWith_absent hasp h.enabled h.self none habs, halloc]
  generalize pdIndex c.virtaddr = a at ha habs
  dsimp only [Option.bind_eq_bind, Option.bind_some]
  rw [mapPage_window h.enabled h.self ha h.links.2.1]
  -- the window now shows the new page
  have hent := MapCall.frameOf_entryWord
    { virtaddr := window a 0, physaddr := p, user := true } p
  have hpres := MapCall.isPresent_entryWord
    { virtaddr := window a 0, physaddr := p, user := true } p
  generalize MapCall.entryWord { virtaddr := window a 0, physaddr := p, user := true } p = e
    at hent hpres
  have hself : SelfMapped i386 (setWord (setFrame s.mem (frameOf p) 0) s.dir a e) s.dir 255 :=
    h.self.newTable hp ha hent
  have hshown : SelfMapped i386 (setWord s.mem s.dir a e) s.dir 255 := by
    refine hself.congr fun i => ?_
    rw [← setFrame_setWord _ hdir.symm, setFrame_of_ne hdir.symm]
  have hplace : (s.withMem (setWord s.mem s.dir a e)).place (window a 0) = some (frameOf p) := by
    rw [← hent]
    exact place_window (s := s.withMem (setWord s.mem s.dir a e)) h.enabled hshown
      (setWord_self s.mem s.dir a e) hpres 0
  dsimp only [Option.bind_some]
  rw [endAlloc_eq hplace (wordIndex_window a 0)]
  dsimp only [Option.bind_some]
  rw [withMem_mem, setWord_of_frame_ne hdir, setFrame_setWord _ hdir.symm]
  -- the directory's word is written once more, with its own flags
  have hword := place_dir (s := (s.withTop (s.mem (frameOf p) 0)).withMem
    (setWord (setFrame s.mem (frameOf p) 0) s.dir a e)) h.enabled hself a
  have hwrite : Machine.write (mapPage (n + 1)) (window 255 a) (tableWord p) _ = _ :=
    write_eq hword (wordIndex_window 255 a) (tableWord p)
  rw [withMem_mem, withMem_dir, withTop_dir, setWord_setWord, withMem_withMem] at hwrite
  rw [withTop_withMem, withMem_withMem]
  exact hwrite

theorem steady_entry (hon : s.enabled = true) (hself : SelfMapped i386 s.mem s.dir 255)
    (hva : pdIndex va ≠ 255) (hpres : isPresent (s.mem s.dir (pdIndex va)) = true) :
    s.Steady (window (pdIndex va) (ptIndex va)) (frameOf (s.mem s.dir (pdIndex va)))
      (ptIndex va) :=
  steady_window hon hself hva rfl hpres (ptIndex va)

theorem entry_withEntry (hself : SelfMapped i386 s.mem s.dir 255) (hva : pdIndex va ≠ 255)
    (hpres : isPresent (s.mem s.dir (pdIndex va)) = true) (e : BitVec 32) :
    (s.withEntry va e).entry va = if isPresent e then some e else none := by
  have hwalk := walk_setEntry hself hva hpres (ptIndex va) e hva (ptIndex va)
  rw [if_pos ⟨rfl, rfl⟩] at hwalk
  exact hwalk

theorem entry_withEntry_of_ne (hself : SelfMapped i386 s.mem s.dir 255) (hva : pdIndex va ≠ 255)
    (hpres : isPresent (s.mem s.dir (pdIndex va)) = true) (e : BitVec 32) {va' : Uintptr}
    (hva' : pdIndex va' ≠ 255) (hne : frameOf va' ≠ frameOf va) :
    (s.withEntry va e).entry va' = s.entry va' := by
  have hwalk := walk_setEntry hself hva hpres (ptIndex va) e hva' (ptIndex va')
  rw [if_neg fun hc => hne (frameOf_congr hc.1 hc.2)] at hwalk
  exact hwalk

theorem entry_withPage (hself : SelfMapped i386 s.mem s.dir 255)
    (hp : Spare i386 s.mem s.dir (frameOf p)) (va : Uintptr) :
    (s.withPage p).entry va = s.entry va :=
  walk_setFrame hself hp 0 (pdIndex va) (ptIndex va)

theorem withPage_withEntry (hdir : frameOf p ≠ s.dir)
    (htable : frameOf (s.mem s.dir (pdIndex va)) ≠ frameOf p) (e : BitVec 32) :
    (s.withEntry va e).withPage p = (s.withPage p).withEntry va e := by
  have hlink : (s.withEntry va e).mem (frameOf p) 0 = s.mem (frameOf p) 0 :=
    setWord_of_frame_ne htable.symm _ _ _
  have hsame : (s.withPage p).mem s.dir (pdIndex va) = s.mem s.dir (pdIndex va) :=
    setFrame_of_ne hdir.symm _ _
  have hmem : setFrame (s.withEntry va e).mem (frameOf p) 0 =
      setWord (s.withPage p).mem (frameOf (s.mem s.dir (pdIndex va))) (ptIndex va) e :=
    setFrame_setWord s.mem htable _ _ _
  show ((s.withEntry va e).withTop _).withMem _ = (s.withPage p).withMem _
  rw [hlink, hmem, withPage_dir, hsame]
  rfl

theorem entry_withTable (h : Ready s (p :: free)) {a : Index}
    (habs : isPresent (s.mem s.dir a) = false) (hva : pdIndex va ≠ 255) :
    (s.withTable a p).entry va = s.entry va :=
  walk_newTable h.self (h.spare p List.mem_cons_self) habs (frameOf_tableWord p) rfl hva
    (ptIndex va)

theorem frame_ne (h : Ready s (p :: free)) {q : PhysAddr} (hq : q ∈ free) :
    frameOf q ≠ frameOf p := by
  intro heq
  have hqal := h.links.aligned (List.mem_cons_of_mem p hq)
  have hpal := h.links.aligned List.mem_cons_self
  have hsame : q = p := frameOf_inj hqal hpal heq
  exact (List.nodup_cons.mp h.nodup).1 (hsame ▸ hq)

theorem ready_withTable (h : Ready s (p :: free)) {a : Index} (ha : a ≠ 255)
    (habs : isPresent (s.mem s.dir a) = false) : Ready (s.withTable a p) free := by
  have hp : Spare i386 s.mem s.dir (frameOf p) := h.spare p List.mem_cons_self
  have hent : i386.frame (tableWord p) = frameOf p := frameOf_tableWord p
  have hdir := hp.ne_dir h.self
  refine ⟨h.enabled, h.self.newTable hp ha hent, ?_, ?_, (List.nodup_cons.mp h.nodup).2, ?_⟩
  · intro i hi
    have hold := h.kernel i hi
    have hne : i ≠ a := by
      rintro rfl
      rw [habs] at hold
      exact Bool.false_ne_true hold
    show isPresent (setWord (setFrame s.mem (frameOf p) 0) s.dir a (tableWord p) s.dir i) = true
    rw [setWord_of_index_ne hne, setFrame_of_ne hdir.symm]
    exact hold
  · apply h.links.2.2.2.congr
    intro q hq
    have hqdir := (h.spare q (List.mem_cons_of_mem p hq)).ne_dir h.self
    show setWord (setFrame s.mem (frameOf p) 0) s.dir a (tableWord p) (frameOf q) 0 = _
    rw [setWord_of_frame_ne hqdir, setFrame_of_ne (frame_ne h hq)]
  · intro q hq
    exact Spare.newTable h.self hp hent (h.spare q (List.mem_cons_of_mem p hq)) (frame_ne h hq)

theorem ready_withPage (h : Ready s (p :: free)) : Ready (s.withPage p) free := by
  have hp : Spare i386 s.mem s.dir (frameOf p) := h.spare p List.mem_cons_self
  refine ⟨h.enabled, h.self.setFrame hp 0, ?_, ?_, (List.nodup_cons.mp h.nodup).2, ?_⟩
  · intro i hi
    show isPresent (setFrame s.mem (frameOf p) 0 s.dir i) = true
    rw [setFrame_of_ne (hp.ne_dir h.self).symm]
    exact h.kernel i hi
  · apply h.links.2.2.2.congr
    exact fun q hq => setFrame_of_ne (frame_ne h hq) 0 0
  · intro q hq
    refine (h.spare q (List.mem_cons_of_mem p hq)).congr fun i => ?_
    exact setFrame_of_ne (hp.ne_dir h.self).symm 0 i

theorem links_withEntry (h : Ready s free)
    (hpres : isPresent (s.mem s.dir (pdIndex va)) = true) (e : BitVec 32) :
    FreeList (s.withEntry va e).mem (s.withEntry va e).stack.top free := by
  apply h.links.congr
  intro q hq
  exact setWord_of_frame_ne ((h.spare q hq) _ hpres).symm _ _ _

theorem ready_withEntry (h : Ready s free) (hva : pdIndex va ≠ 255)
    (hpres : isPresent (s.mem s.dir (pdIndex va)) = true) (e : BitVec 32) :
    Ready (s.withEntry va e) free := by
  have hdir : s.dir ≠ frameOf (s.mem s.dir (pdIndex va)) :=
    (h.self.tables_ne (pdIndex va) hva hpres).symm
  refine ⟨h.enabled, h.self.setEntry hva hpres (ptIndex va) e, ?_, ?_, h.nodup, ?_⟩
  · intro i hi
    show isPresent (setWord s.mem _ (ptIndex va) e s.dir i) = true
    rw [setWord_of_frame_ne hdir]
    exact h.kernel i hi
  · exact links_withEntry h hpres e
  · exact fun q hq => (h.spare q hq).congr fun i => setWord_of_frame_ne hdir _ _ _

/-- The page taken for a call is reached through the entry just written. -/
theorem mapPageBody_fresh {mapPage : MapPageCall} {s₁ : Machine} (hasp : c.asp = none)
    (hon : s.enabled = true) (htable : s.createTable mapPage c = some s₁)
    (h : Ready s₁ (p :: free)) (hva : pdIndex c.virtaddr ≠ 255)
    (hpres : isPresent (s₁.mem s₁.dir (pdIndex c.virtaddr)) = true) (hmap : c.unmap = false)
    (hnew : c.physaddr = 0) :
    s.mapPageBody mapPage c =
      some ((s₁.withPage p).withEntry c.virtaddr (c.entryWord p)) := by
  have hp : Spare i386 s₁.mem s₁.dir (frameOf p) := h.spare p List.mem_cons_self
  have hent := entry_withEntry h.self hva hpres (c.entryWord p)
  rw [c.isPresent_entryWord, if_pos rfl] at hent
  have hplace := place_of_entry (s := s₁.withEntry c.virtaddr (c.entryWord p)) h.enabled
    ((entry_congr (frameOf_and_pageMask c.virtaddr)).trans hent)
  rw [c.frameOf_entryWord] at hplace
  rw [mapPageBody_eq hasp hon, htable]
  unfold completeAlloc
  simp only [createPage_def, Option.bind_eq_bind, Option.bind_some, hmap, Bool.false_eq_true,
    if_false, hnew, if_true, beginAlloc_eq h, hasp,
    (steady_entry h.enabled h.self hva hpres).setEntry c p]
  have hend : endAlloc mapPage (c.virtaddr &&& pageMask) _ = _ :=
    endAlloc_eq hplace (wordIndex_and_pageMask c.virtaddr)
  have hswap : (s₁.withEntry c.virtaddr (c.entryWord p)).withPage p =
      (s₁.withPage p).withEntry c.virtaddr (c.entryWord p) :=
    withPage_withEntry (hp.ne_dir h.self) (hp _ hpres) (c.entryWord p)
  rw [← hswap]
  exact hend

/-- Table `a` is there, or is made of a free page. -/
inductive Opened (s : Machine) (a : Index) : List PhysAddr → Machine → Prop
  | found (h : isPresent (s.mem s.dir a) = true) : Opened s a [] s
  | made (p : PhysAddr) (h : isPresent (s.mem s.dir a) = false) : Opened s a [p] (s.withTable a p)

/-- What a call does to an entry of a table that is there, with the pages it takes. -/
inductive Entered (c : MapCall) (s : Machine) : List PhysAddr → Machine → Prop
  | cleared (e : BitVec 32) (he : isPresent e = false) (hunmap : c.unmap = true) :
    Entered c s [] (s.withEntry c.virtaddr e)
  | given (hmap : c.unmap = false) (hgiven : c.physaddr ≠ 0) :
    Entered c s [] (s.withEntry c.virtaddr (c.entryWord c.physaddr))
  | fresh (p : PhysAddr) (hmap : c.unmap = false) (hnew : c.physaddr = 0) :
    Entered c s [p] ((s.withPage p).withEntry c.virtaddr (c.entryWord p))

theorem beginAlloc_nil (h : Ready s []) : s.beginAlloc = none := by
  have htop : s.stack.top = 0 := h.links
  unfold beginAlloc beginAllocWith PhysMemStack.beginPop
  rw [htop, if_pos rfl, if_pos rfl]

theorem createTable_nil {n : Nat} (h : Ready s []) (hasp : c.asp = none)
    (habs : isPresent (s.mem s.dir (pdIndex c.virtaddr)) = false) :
    s.createTable (mapPage n) c = none := by
  have halloc : s.beginAllocWith none = none := beginAlloc_nil h
  unfold createTable
  rw [createTableWith_absent hasp h.enabled h.self none habs, halloc]
  rfl

theorem createTable_opens {n : Nat} (h : Ready s free) (hasp : c.asp = none)
    (hva : pdIndex c.virtaddr ≠ 255)
    (hfree : isPresent (s.mem s.dir (pdIndex c.virtaddr)) = false → free ≠ []) :
    ∃ tables rest s₁, free = tables ++ rest ∧
      s.createTable (mapPage (n + 1)) c = some s₁ ∧ Ready s₁ rest ∧
      s.Opened (pdIndex c.virtaddr) tables s₁ := by
  cases hpres : isPresent (s.mem s.dir (pdIndex c.virtaddr)) with
  | true =>
    exact ⟨[], free, s, rfl, createTable_of_present hasp h.enabled h.self hpres, h, .found hpres⟩
  | false =>
    cases free with
    | nil => exact absurd rfl (hfree hpres)
    | cons p rest =>
      exact ⟨[p], rest, _, rfl, createTable_of_absent h hasp hva hpres,
        ready_withTable h hva hpres, .made p hpres⟩

theorem Opened.present {a : Index} {tables : List PhysAddr} {s₁ : Machine}
    (h : s.Opened a tables s₁) : isPresent (s₁.mem s₁.dir a) = true := by
  cases h with
  | found h => exact h
  | made p h =>
    show isPresent (setWord (setFrame s.mem (frameOf p) 0) s.dir a (tableWord p) s.dir a) = true
    rw [setWord_self]
    exact isPresent_tableWord p

theorem mapPage_enters {n : Nat} {tables : List PhysAddr} {s₁ : Machine} (hasp : c.asp = none)
    (hon : s.enabled = true) (hva : pdIndex c.virtaddr ≠ 255)
    (htable : s.createTable (mapPage n) c = some s₁) (h : Ready s₁ free)
    (hopen : s.Opened (pdIndex c.virtaddr) tables s₁)
    (hfree : c.unmap = false → c.physaddr = 0 → free ≠ []) :
    ∃ pages rest s', free = pages ++ rest ∧ mapPage (n + 1) c s = some s' ∧
      s₁.Entered c pages s' := by
  have hpres := hopen.present
  have hsteady := steady_entry h.enabled h.self hva hpres
  show ∃ pages rest s', _ ∧ s.mapPageBody (mapPage n) c = some s' ∧ _
  cases hunmap : c.unmap with
  | true =>
    exact ⟨[], free, _, rfl, mapPageBody_unmap hasp hon htable hunmap hsteady,
      .cleared _ (isPresent_clear _) hunmap⟩
  | false =>
    by_cases hgiven : c.physaddr = 0
    · cases free with
      | nil => exact absurd rfl (hfree hunmap hgiven)
      | cons p rest =>
        exact ⟨[p], rest, _, rfl, mapPageBody_fresh hasp hon htable h hva hpres hunmap hgiven,
          .fresh p hunmap hgiven⟩
    · exact ⟨[], free, _, rfl, mapPageBody_given hasp hon htable hunmap hgiven hsteady,
        .given hunmap hgiven⟩

theorem mapPageBody_nil {mapPage : MapPageCall} {s₁ : Machine} (hasp : c.asp = none)
    (hon : s.enabled = true) (htable : s.createTable mapPage c = some s₁) (h : Ready s₁ [])
    (hmap : c.unmap = false) (hnew : c.physaddr = 0) : s.mapPageBody mapPage c = none := by
  rw [mapPageBody_eq hasp hon, htable]
  simp only [createPage_def, Option.bind_eq_bind, Option.bind_some, hmap, Bool.false_eq_true,
    if_false, hnew, if_true, beginAlloc_nil h, Option.bind_none]

/-- Every call in the current address space returns, with two free pages at hand. -/
theorem mapPage_outcome {n : Nat} (h : Ready s free) (hfree : 2 ≤ free.length)
    (hasp : c.asp = none) (hva : pdIndex c.virtaddr ≠ 255) :
    ∃ tables pages rest s₁ s', free = tables ++ (pages ++ rest) ∧
      mapPage (n + 2) c s = some s' ∧ s.Opened (pdIndex c.virtaddr) tables s₁ ∧
      Ready s₁ (pages ++ rest) ∧ s₁.Entered c pages s' := by
  obtain ⟨tables, rest₁, s₁, hsplit, htable, hready, hopen⟩ :=
    createTable_opens (n := n) h hasp hva fun _ => List.ne_nil_of_length_pos (by omega)
  have hlen : free.length = tables.length + rest₁.length := by
    rw [hsplit, List.length_append]
  have hone : tables.length ≤ 1 := by
    cases hopen with
    | found => exact Nat.zero_le 1
    | made => exact Nat.le_refl 1
  obtain ⟨pages, rest, s', hpages, hcall, henter⟩ :=
    mapPage_enters hasp h.enabled hva htable hready hopen
      fun _ _ => List.ne_nil_of_length_pos (by omega)
  rw [hpages] at hsplit hready
  exact ⟨tables, pages, rest, s₁, s', hsplit, hcall, hopen, hready, henter⟩

theorem mapPage_returned {n : Nat} {s' : Machine} (h : Ready s free) (hasp : c.asp = none)
    (hva : pdIndex c.virtaddr ≠ 255) (hcall : mapPage (n + 2) c s = some s') :
    ∃ tables pages rest s₁, free = tables ++ (pages ++ rest) ∧
      s.Opened (pdIndex c.virtaddr) tables s₁ ∧ Ready s₁ (pages ++ rest) ∧
      s₁.Entered c pages s' := by
  have hbody : s.mapPageBody (mapPage (n + 1)) c = some s' := hcall
  have hneed : isPresent (s.mem s.dir (pdIndex c.virtaddr)) = false → free ≠ [] := by
    rintro habs rfl
    rw [mapPageBody_eq hasp h.enabled, createTable_nil h hasp habs] at hbody
    exact absurd hbody (Option.some_ne_none s').symm
  obtain ⟨tables, rest₁, s₁, hsplit, htable, hready, hopen⟩ :=
    createTable_opens (n := n) h hasp hva hneed
  have hneed₁ : c.unmap = false → c.physaddr = 0 → rest₁ ≠ [] := by
    rintro hmap hnew rfl
    rw [mapPageBody_nil hasp h.enabled htable hready hmap hnew] at hbody
    exact absurd hbody (Option.some_ne_none s').symm
  obtain ⟨pages, rest, s'', hpages, hcall', henter⟩ :=
    mapPage_enters hasp h.enabled hva htable hready hopen hneed₁
  obtain rfl : s'' = s' := Option.some.inj (hcall'.symm.trans hcall)
  rw [hpages] at hsplit hready
  exact ⟨tables, pages, rest, s₁, hsplit, hopen, hready, henter⟩

theorem dir_withEntry (hself : SelfMapped i386 s.mem s.dir 255) (hva : pdIndex va ≠ 255)
    (hpres : isPresent (s.mem s.dir (pdIndex va)) = true) (e : BitVec 32) (i : Index) :
    (s.withEntry va e).mem s.dir i = s.mem s.dir i :=
  setWord_of_frame_ne (hself.tables_ne (pdIndex va) hva hpres).symm _ _ _

section Outcome
variable {s₁ s' : Machine} {tables pages rest : List PhysAddr}

theorem Opened.entry (hopen : s.Opened (pdIndex c.virtaddr) tables s₁)
    (h : Ready s (tables ++ free)) (hva : pdIndex va ≠ 255) : s₁.entry va = s.entry va := by
  cases hopen with
  | found => rfl
  | made p habs => exact entry_withTable h habs hva

theorem dir_withPage (h : Ready s (p :: free)) (i : Index) :
    (s.withPage p).mem s.dir i = s.mem s.dir i :=
  setFrame_of_ne ((h.spare p List.mem_cons_self).ne_dir h.self).symm _ _

theorem Opened.dir_self (hopen : s.Opened (pdIndex c.virtaddr) tables s₁)
    (h : Ready s (tables ++ free)) (hva : pdIndex c.virtaddr ≠ 255) :
    s₁.mem s.dir 255 = s.mem s.dir 255 := by
  cases hopen with
  | found => rfl
  | made p habs =>
    have hdir := ((h.spare p List.mem_cons_self).ne_dir h.self).symm
    show setWord (setFrame s.mem (frameOf p) 0) s.dir _ (tableWord p) s.dir 255 = _
    rw [setWord_of_index_ne hva.symm, setFrame_of_ne hdir]

theorem Opened.cr3 {a : Index} (hopen : s.Opened a tables s₁) : s₁.cr3 = s.cr3 := by
  cases hopen <;> rfl

theorem Entered.cr3 (henter : s₁.Entered c pages s') : s'.cr3 = s₁.cr3 := by
  cases henter <;> rfl

section Entered
variable (henter : s₁.Entered c pages s') (h : Ready s₁ (pages ++ rest))
  (hpres : isPresent (s₁.mem s₁.dir (pdIndex c.virtaddr)) = true)
include henter h hpres

theorem Entered.zero {p : PhysAddr} (hp : p ∈ pages) (j : Index) : s'.mem (frameOf p) j = 0 := by
  cases henter with
  | cleared => exact absurd hp List.not_mem_nil
  | given => exact absurd hp List.not_mem_nil
  | fresh q hmap hnew =>
    obtain rfl := List.mem_singleton.mp hp
    have htable := (h.spare p List.mem_cons_self) _ hpres
    rw [← dir_withPage h] at htable
    show setWord (setFrame s₁.mem (frameOf p) 0) _ _ _ (frameOf p) j = 0
    refine (setWord_of_frame_ne htable.symm _ _ _).trans ?_
    exact setFrame_self _ _ _ _

variable (hva : pdIndex c.virtaddr ≠ 255)
include hva

theorem Entered.dir_word (i : Index) : s'.mem s₁.dir i = s₁.mem s₁.dir i := by
  cases henter with
  | cleared e he hunmap => exact dir_withEntry h.self hva hpres e i
  | given hmap hgiven => exact dir_withEntry h.self hva hpres _ i
  | fresh p hmap hnew =>
    have hdir := dir_withPage h
    rw [← hdir] at hpres
    exact (dir_withEntry (ready_withPage h).self hva hpres _ i).trans (hdir i)

theorem Entered.entry_self : s'.entry c.virtaddr =
    if c.unmap then none else some (c.entryWord (pages.headD c.physaddr)) := by
  cases henter with
  | cleared e he hunmap =>
    rw [entry_withEntry h.self hva hpres, he, hunmap]
    rfl
  | given hmap hgiven =>
    rw [entry_withEntry h.self hva hpres, c.isPresent_entryWord, hmap]
    rfl
  | fresh p hmap hnew =>
    rw [← dir_withPage h] at hpres
    rw [entry_withEntry (ready_withPage h).self hva hpres, c.isPresent_entryWord, hmap]
    rfl

theorem Entered.entry_other (hva' : pdIndex va ≠ 255) (hne : frameOf va ≠ frameOf c.virtaddr) :
    s'.entry va = s₁.entry va := by
  cases henter with
  | cleared e he hunmap => exact entry_withEntry_of_ne h.self hva hpres e hva' hne
  | given hmap hgiven => exact entry_withEntry_of_ne h.self hva hpres _ hva' hne
  | fresh p hmap hnew =>
    have hold := entry_withPage h.self (h.spare p List.mem_cons_self) va
    rw [← dir_withPage h] at hpres
    rw [entry_withEntry_of_ne (ready_withPage h).self hva hpres _ hva' hne, hold]

theorem Entered.ready : Ready s' rest := by
  cases henter with
  | cleared e he hunmap => exact ready_withEntry h hva hpres e
  | given hmap hgiven => exact ready_withEntry h hva hpres _
  | fresh p hmap hnew =>
    rw [← dir_withPage h] at hpres
    exact ready_withEntry (ready_withPage h) hva hpres _

end Entered

end Outcome

/-- What `MapPage` is to do in the current address space: `tables` and `pages` are taken off the
stack for the page table and for the page, where these are needed. -/
structure Effect (c : MapCall) (s s' : Machine) (tables pages rest : List PhysAddr) : Prop where
  table : if isPresent (s.mem s.dir (pdIndex c.virtaddr)) then tables = []
    else ∃ p, tables = [p] ∧ s'.mem s.dir (pdIndex c.virtaddr) = tableWord p
  page : if c.unmap ∨ c.physaddr ≠ 0 then pages = []
    else ∃ p, pages = [p] ∧ ∀ j, s'.mem (frameOf p) j = 0
  target : s'.entry c.virtaddr =
    if c.unmap then none else some (c.entryWord (pages.headD c.physaddr))
  others : ∀ va, pdIndex va ≠ 255 → frameOf va ≠ frameOf c.virtaddr → s'.entry va = s.entry va
  recursive : s'.mem s.dir 255 = s.mem s.dir 255
  cr3 : s'.cr3 = s.cr3
  stack : FreeList s'.mem s'.stack.top rest

section Outcome
variable {s₁ s' : Machine} {tables pages rest : List PhysAddr}

theorem Opened.taken {a : Index} (hopen : s.Opened a tables s₁) :
    if isPresent (s.mem s.dir a) then tables = []
    else ∃ p, tables = [p] ∧ s₁.mem s₁.dir a = tableWord p := by
  cases hopen with
  | found h =>
    rw [h]
    rfl
  | made p h =>
    rw [h]
    exact ⟨p, rfl, setWord_self _ _ _ _⟩

theorem Entered.taken (henter : s₁.Entered c pages s') :
    if c.unmap ∨ c.physaddr ≠ 0 then pages = [] else ∃ p, pages = [p] := by
  cases henter with
  | cleared e he hunmap =>
    rw [if_pos (.inl hunmap)]
  | given hmap hgiven =>
    rw [if_pos (.inr hgiven)]
  | fresh p hmap hnew =>
    rw [if_neg (by simp [hmap, hnew])]
    exact ⟨p, rfl⟩

theorem effect_of_outcome (hopen : s.Opened (pdIndex c.virtaddr) tables s₁)
    (henter : s₁.Entered c pages s') (h : Ready s (tables ++ (pages ++ rest)))
    (h₁ : Ready s₁ (pages ++ rest)) (hva : pdIndex c.virtaddr ≠ 255) :
    Effect c s s' tables pages rest := by
  have hpres := hopen.present
  have hcr3 := hopen.cr3
  have hdir : s₁.dir = s.dir := congrArg frameOf hcr3
  have hword := henter.dir_word h₁ hpres hva
  rw [hdir] at hword
  refine ⟨?_, ?_, henter.entry_self h₁ hpres hva, ?_, ?_, henter.cr3.trans hcr3,
    (henter.ready h₁ hpres hva).links⟩
  · rw [hword, ← hdir]
    have htaken := hopen.taken
    rw [hdir] at htaken ⊢
    exact htaken
  · have htaken := henter.taken
    split
    · rwa [if_pos ‹_›] at htaken
    · rw [if_neg ‹_›] at htaken
      obtain ⟨p, hp⟩ := htaken
      exact ⟨p, hp, henter.zero h₁ hpres (hp ▸ List.mem_singleton.mpr rfl)⟩
  · intro va hva' hne
    rw [henter.entry_other h₁ hpres hva hva' hne, hopen.entry h hva']
  · rw [hword, hopen.dir_self h hva]

end Outcome

section Sample

/-- Entry `i` of the sample directory: table 255 is the directory, in frame 1, and the kernel's
tables start at frame 16. -/
def sampleEntry (i : Index) : BitVec 32 :=
  if i = 255 then 0x1003 else if i.toNat < 255 then (i.setWidth 32 <<< 12) + 0x10003 else 0

/-- A machine that maps nothing yet, with free pages in frames 2 to 7. -/
def sample : Machine where
  mem f i :=
    if f = 1 then sampleEntry i
    else if i = 0 ∧ 2 ≤ f.toNat ∧ f.toNat < 7 then (f.setWidth 32 <<< 12) + 0x1000 else 0
  cr3 := 0x1000
  stack := { top := 0x2000 }
  enabled := true
  sections := { kernelSections := [], processSections := [] }
  tempPd := 0x200000
  tempPt := 0x201000
  tempP := 0x202000
  kernelPts := 0x10000

def sampleFree : List PhysAddr := [0x2000, 0x3000, 0x4000, 0x5000, 0x6000, 0x7000]

theorem sampleEntry_kernel {i : Index} (h : i.toNat < 255) :
    (sampleEntry i).toNat = (i.toNat + 16) * 4096 + 3 := by
  have hne : i ≠ 255 := by
    rintro rfl
    exact absurd h (by decide)
  have hc : (0x10003 : BitVec 32).toNat = 0x10003 := rfl
  unfold sampleEntry
  rw [if_neg hne, if_pos h, BitVec.toNat_add, BitVec.toNat_shiftLeft, BitVec.toNat_setWidth,
    Nat.shiftLeft_eq, hc]
  omega

theorem sampleEntry_present (i : Index) :
    isPresent (sampleEntry i) = true ↔ i = 255 ∨ i.toNat < 255 := by
  constructor
  · intro h
    unfold sampleEntry at h
    split at h
    · exact .inl ‹_›
    · split at h
      · exact .inr ‹_›
      · exact absurd h (by decide)
  · intro h
    rcases h with rfl | h
    · rfl
    · rw [isPresent_eq, BitVec.getLsbD, sampleEntry_kernel h, Nat.testBit_zero]
      exact decide_eq_true (by omega)

theorem sample_frame {i : Index} (h : isPresent (sampleEntry i) = true) (hi : i ≠ 255) :
    (frameOf (sampleEntry i)).toNat = i.toNat + 16 := by
  rw [frameOf_toNat, sampleEntry_kernel (((sampleEntry_present i).mp h).resolve_left hi)]
  omega

theorem sample_dir : sample.dir = 1 := rfl

theorem sample_mem (f : Frame) (i : Index) : sample.mem f i =
    if f = 1 then sampleEntry i
    else if i = 0 ∧ 2 ≤ f.toNat ∧ f.toNat < 7 then (f.setWidth 32 <<< 12) + 0x1000 else 0 := rfl

theorem sample_mem_dir (i : Index) : sample.mem 1 i = sampleEntry i := by
  rw [sample_mem, if_pos rfl]

theorem sample_self : SelfMapped i386 sample.mem sample.dir 255 := by
  rw [sample_dir]
  refine ⟨?_, ?_, ?_, ?_⟩
  · rw [sample_mem_dir]
    rfl
  · rw [sample_mem_dir]
    rfl
  · intro a ha hpres
    rw [sample_mem_dir] at hpres ⊢
    intro heq
    have hframe := sample_frame hpres ha
    have hone : (frameOf (sampleEntry a)).toNat = 1 := congrArg BitVec.toNat heq
    omega
  · intro a b ha hb
    rw [sample_mem_dir, sample_mem_dir]
    intro hpa hpb heq
    have hfa := sample_frame hpa ha
    have hfb := sample_frame hpb hb
    have hsame : (frameOf (sampleEntry a)).toNat = (frameOf (sampleEntry b)).toNat :=
      congrArg BitVec.toNat heq
    apply BitVec.eq_of_toNat_eq
    omega

theorem sample_spare {p : Frame} (hp : 2 ≤ p.toNat) (hp' : p.toNat < 16) :
    Spare i386 sample.mem sample.dir p := by
  rw [sample_dir]
  intro a hpres heq
  have hframe : (frameOf (sample.mem 1 a)).toNat = p.toNat := congrArg BitVec.toNat heq
  have hpres' : isPresent (sample.mem 1 a) = true := hpres
  rw [sample_mem_dir] at hframe hpres'
  by_cases ha : a = 255
  · have hone : (frameOf (sampleEntry 255)).toNat = 1 := rfl
    rw [ha, hone] at hframe
    omega
  · have htable := sample_frame hpres' ha
    omega

theorem sample_links : FreeList sample.mem sample.stack.top sampleFree := by
  have hlink : ∀ p : PhysAddr, 2 ≤ (frameOf p).toNat → (frameOf p).toNat < 7 →
      p &&& pageMask = p → sample.mem (frameOf p) 0 = p + 0x1000 := by
    intro p hlo hhi hal
    have hne : frameOf p ≠ 1 := by
      intro hone
      have : (frameOf p).toNat = 1 := congrArg BitVec.toNat hone
      omega
    have hp := and_pageMask_toNat p
    have hframe := frameOf_toNat p
    rw [hal] at hp
    rw [sample_mem, if_neg hne, if_pos ⟨rfl, hlo, hhi⟩]
    apply BitVec.eq_of_toNat_eq
    rw [BitVec.toNat_add, BitVec.toNat_add, BitVec.toNat_shiftLeft, BitVec.toNat_setWidth,
      Nat.shiftLeft_eq]
    omega
  have hlast : sample.mem (frameOf 0x7000) 0 = 0 := by
    rw [sample_mem]
    rfl
  have htop : sample.stack.top = 0x2000 := rfl
  simp only [sampleFree, FreeList, htop]
  simp only [pageMask, ne_eq, BitVec.reduceEq, BitVec.reduceAnd, not_false_eq_true, true_and]
  refine ⟨?_, ?_, ?_, ?_, ?_, hlast⟩ <;>
    exact hlink _ (by simp [frameOf_toNat]) (by simp [frameOf_toNat]) (by decide)

theorem sample_frames : ∀ p ∈ sampleFree, 2 ≤ (frameOf p).toNat ∧ (frameOf p).toNat < 16 := by
  simp [sampleFree, frameOf_toNat]

theorem sample_ready : Ready sample sampleFree := by
  refine ⟨rfl, sample_self, ?_, ?_, ?_, ?_⟩
  · intro i hi
    rw [sample_dir, sample_mem_dir]
    exact (sampleEntry_present i).mpr (.inr hi)
  · exact sample_links
  · decide
  · intro p hp
    exact sample_spare (sample_frames p hp).1 (sample_frames p hp).2

end Sample

end Tables

end Machine
end Tysos
