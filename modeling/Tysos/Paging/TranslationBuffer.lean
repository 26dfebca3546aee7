import Tysos.Paging.VirtualMemory
import Tysos.Support.LookupCache

/-!
# MapPage and the translation buffer

The processor with its buffer of translations, which it drops and loads by itself, and `MapPage`
for the loaded address space with its `invlpg`. A translation in the buffer is used without a look
at the page tables. As without the buffer, the code that loads and stores is in ring 0 with `WP`
clear, where a page that is present can be read and written whatever its rights.
-/

namespace Tysos
open PageTables LookupCache
set_option autoImplicit false

/-- The entry that a page is translated by. -/
def Machine.pageEntry (s : Machine) (page : Frame) : Option (BitVec 32) :=
  s.entry (pageStart page)

theorem Machine.pageEntry_frameOf (s : Machine) (va : Uintptr) :
    s.pageEntry (frameOf va) = s.entry va := entry_congr (frameOf_pageStart (frameOf va))

/-- If a call makes a table, of the free page on top, nothing in this page looks like an entry but
perhaps what is where the entry is to be. -/
def Machine.CleanFor (s : Machine) (c : MapCall) : Prop :=
  isPresent (s.mem s.dir (pdIndex c.virtaddr)) = false → ∀ k, k ≠ ptIndex c.virtaddr →
    isPresent (s.mem (frameOf s.stack.top) k) = false

/-- The machine with its translation buffer; `time` counts the accesses to memory. -/
structure Buffered where
  machine : Machine
  buffer : Frame → Option (BitVec 32)
  time : Nat

namespace Buffered

section Code
variable (whim : Nat → Frame → Whim)

/-- The frame of an address, or `none` for a page fault. -/
def access (va : Uintptr) (b : Buffered) : Option (Frame × Buffered) := do
  let buffer := settle (whim b.time) b.machine.pageEntry b.buffer
  let (e, buffer) ← fetch b.machine.pageEntry buffer (frameOf va)
  some (frameOf e, { b with buffer := buffer, time := b.time + 1 })

def read (va : Uintptr) (b : Buffered) : Option (BitVec 32 × Buffered) := do
  let (f, b) ← b.access whim va
  some (b.machine.mem f (wordIndex va), b)

def withMachine (b : Buffered) (s : Machine) : Buffered := { b with machine := s }

def write (va : Uintptr) (v : BitVec 32) (b : Buffered) : Option Buffered := do
  let (f, b) ← b.access whim va
  some (b.withMachine (b.machine.withMem (setWord b.machine.mem f (wordIndex va) v)))

def invlpg (va : Uintptr) (b : Buffered) : Buffered :=
  { b with buffer := Function.update b.buffer (frameOf va) none }

def endAlloc (va : Uintptr) (b : Buffered) : Option Buffered := do
  let (link, b) ← b.read whim va
  let b := b.withMachine (b.machine.withTop link)
  let (f, b) ← b.access whim va
  some (b.withMachine (b.machine.withMem (setFrame b.machine.mem f 0)))

def clearPresent (va : Uintptr) (b : Buffered) : Option Buffered := do
  let (e, b) ← b.read whim va
  b.write whim va (e &&& 0xfffffffe)

def addFlag (va : Uintptr) (asked : Bool) (flag : BitVec 32) (b : Buffered) : Option Buffered :=
  if asked then do
    let (e, b) ← b.read whim va
    b.write whim va (e ||| flag)
  else some b

def setEntry (c : MapCall) (va : Uintptr) (physaddr : PhysAddr) (b : Buffered) :
    Option Buffered := do
  let b ← b.write whim va ((physaddr &&& pageMask) ||| pPresent)
  let b ← b.addFlag whim va c.user pUser
  let b ← b.addFlag whim va c.writable pWritable
  let b ← b.addFlag whim va c.cacheDisabled pCacheDisabled
  b.addFlag whim va c.writeThrough pWriteThrough

section Body
variable (mapPage : MapCall → Buffered → Option Buffered)

def createTable (c : MapCall) (b : Buffered) : Option Buffered := do
  let wrPd := pageDir
  let wrPt := pageTables + pdEnt c.virtaddr * 0x1000
  let (e, b) ← b.read whim (wrPd + pdEnt c.virtaddr * 4)
  if e &&& pPresent = 0 then do
    let newPt ← b.machine.beginAlloc
    let b ← mapPage { virtaddr := wrPt, physaddr := newPt, user := true } b
    let b ← b.endAlloc whim wrPt
    let b ← b.write whim (wrPd + pdEnt c.virtaddr * 4) (newPt ||| pPresent ||| pUser ||| pWritable)
    some (b.invlpg wrPt)
  else some b

/-- `MapPage` with no address space given. -/
def mapPageBody (c : MapCall) (b : Buffered) : Option Buffered :=
  if b.machine.enabled = false then some b
  else do
    let wrPt := pageTables + pdEnt c.virtaddr * 0x1000
    let b ← b.createTable whim mapPage c
    if c.unmap then do
      let b ← b.clearPresent whim (wrPt + ptEnt c.virtaddr * 4)
      some (b.invlpg c.virtaddr)
    else do
      let physaddr ← if c.physaddr = 0 then b.machine.beginAlloc else some c.physaddr
      let b ← b.setEntry whim c (wrPt + ptEnt c.virtaddr * 4) physaddr
      let b := b.invlpg c.virtaddr
      if c.physaddr = 0 then b.endAlloc whim (c.virtaddr &&& pageMask) else some b

end Body

def mapPage : Nat → MapCall → Buffered → Option Buffered
  | 0, _, _ => none
  | n + 1, c, b => b.mapPageBody whim (mapPage n) c

/-- An address is used in ring 0, if need be after a page fault. -/
def touch (n : Nat) (va : Uintptr) (b : Buffered) : Option (Frame × Buffered) :=
  match b.access whim va with
  | some r => some r
  | none =>
    match b.machine.sections.resolvePageFault va false with
    | some (.mapped sections _ request) => do
      let b ← mapPage whim n (Machine.faultCall request)
        (b.withMachine { b.machine with sections := sections })
      b.access whim va
    | _ => none

def spaceStep (n : Nat) (b : Buffered) : SpaceOp → Option Buffered
  | .map c => mapPage whim (n + 2) c b
  | .load va => (b.touch whim (n + 2) va).map Prod.snd
  | .store va w => do
    let (f, b) ← b.touch whim (n + 2) va
    some (b.withMachine (b.machine.withMem (setWord b.machine.mem f (wordIndex va) w)))

end Code

/-- The translations in the buffer are those of the tables. -/
def Coherent (still : Prop) (stale bare : Frame → Prop) (b : Buffered) : Prop :=
  LookupCache.Coherent still stale bare b.machine.pageEntry b.buffer

theorem Coherent.withMachine {still : Prop} {stale stale' bare : Frame → Prop} {b : Buffered}
    {s : Machine} (h : b.Coherent still stale bare) (hstale : ∀ page, stale page → stale' page)
    (hsame : ∀ page, ¬ stale' page → ¬ bare page →
      s.pageEntry page = b.machine.pageEntry page)
    (habsent : ∀ page, bare page → still ∨ s.pageEntry page = none) :
    (b.withMachine s).Coherent still stale' bare := h.relookup hstale hsame habsent

section Access
variable {whim : Nat → Frame → Whim} {still : Prop} {stale bare : Frame → Prop} {b : Buffered}
  {va : Uintptr} {e : BitVec 32} (hstill : still → ∀ t page, whim t page ≠ .load)
  (h : b.Coherent still stale bare) (hstale : ¬ stale (frameOf va)) (hbare : ¬ bare (frameOf va))
  (he : b.machine.entry va = some e)
include hstill h hstale hbare he

theorem access_eq : ∃ b', b.access whim va = some (frameOf e, b') ∧ b'.machine = b.machine ∧
    b'.Coherent still stale bare := by
  have hpage := (b.machine.pageEntry_frameOf va).trans he
  have hsettle := LookupCache.Coherent.settle h (hstill · b.time)
  obtain ⟨cache, hfetch, hcache⟩ := hsettle.fetch hstale hbare hpage
  refine ⟨{ b with buffer := cache, time := b.time + 1 }, ?_, rfl, hcache⟩
  unfold access
  simp only [hfetch, Option.bind_eq_bind, Option.bind_some]

theorem read_eq : ∃ b', b.read whim va = some (b.machine.mem (frameOf e) (wordIndex va), b') ∧
    b'.machine = b.machine ∧ b'.Coherent still stale bare := by
  obtain ⟨b', hacc, hsame, h'⟩ := access_eq hstill h hstale hbare he
  refine ⟨b', ?_, hsame, h'⟩
  unfold read
  simp only [hacc, hsame, Option.bind_eq_bind, Option.bind_some]

/-- A page is filled with zeros, which changes stale translations only, and those that the buffer
does not have. -/
theorem endAlloc_eq (hj : wordIndex va = 0) {t : Machine}
    (ht : t = (b.machine.withTop (b.machine.mem (frameOf e) 0)).withMem
      (setFrame b.machine.mem (frameOf e) 0))
    (hsame : ∀ page, ¬ stale page → ¬ bare page → t.pageEntry page = b.machine.pageEntry page)
    (habsent : ∀ page, bare page → still ∨ t.pageEntry page = none) :
    ∃ b', b.endAlloc whim va = some b' ∧ b'.machine = t ∧ b'.Coherent still stale bare := by
  obtain ⟨b₁, hread, hs₁, h₁⟩ := read_eq hstill h hstale hbare he
  have htop : (b₁.withMachine (b₁.machine.withTop (b.machine.mem (frameOf e) 0))).Coherent
      still stale bare := h₁
  obtain ⟨b₂, hacc, hs₂, h₂⟩ := access_eq hstill htop hstale hbare (hs₁ ▸ he)
  refine ⟨b₂.withMachine t, ?_, rfl, h₂.withMachine (fun _ => id) ?_ habsent⟩
  · unfold endAlloc
    rw [hj] at hread
    simp only [hread, hacc, Option.bind_eq_bind, Option.bind_some, hs₂, ht]
    rw [← hs₁]
    rfl
  · intro page hst hba
    rw [hs₂, hsame page hst hba, ← hs₁]
    rfl

end Access

/-- Word `j` of frame `f` may be written through `va`, with values in `V`: this changes stale
translations only, and those that the buffer does not have. -/
structure Slot (still : Prop) (stale bare : Frame → Prop) (V : BitVec 32 → Prop) (s : Machine)
    (va : Uintptr) (f : Frame) (j : Index) : Prop where
  word : wordIndex va = j
  fresh : ¬ stale (frameOf va)
  held : ¬ bare (frameOf va)
  entry : ∃ e, s.entry va = some e ∧ frameOf e = f
  same : ∀ v, V v → ∀ page, ¬ stale page → ¬ bare page →
    (s.withMem (setWord s.mem f j v)).pageEntry page = s.pageEntry page
  absent : ∀ v, V v → ∀ page, bare page →
    still ∨ (s.withMem (setWord s.mem f j v)).pageEntry page = none

section Slots
variable {whim : Nat → Frame → Whim} {still : Prop} {stale bare : Frame → Prop}
  {V : BitVec 32 → Prop} {s : Machine} {va : Uintptr} {f : Frame} {j : Index} {b : Buffered}
  {v : BitVec 32} (hstill : still → ∀ t page, whim t page ≠ .load)

theorem Slot.written (h : Slot still stale bare V s va f j) (hv : V v) :
    Slot still stale bare V (s.withMem (setWord s.mem f j v)) va f j := by
  obtain ⟨e, he, hf⟩ := h.entry
  have hpage := h.same v hv (frameOf va) h.fresh h.held
  rw [Machine.pageEntry_frameOf, Machine.pageEntry_frameOf, he] at hpage
  refine ⟨h.word, h.fresh, h.held, ⟨e, hpage, hf⟩, ?_, ?_⟩
  · intro v' hv' page hstale hbare
    rw [Machine.withMem_mem, setWord_setWord, Machine.withMem_withMem,
      h.same v' hv' page hstale hbare, h.same v hv page hstale hbare]
  · intro v' hv' page hbare
    rw [Machine.withMem_mem, setWord_setWord, Machine.withMem_withMem]
    exact h.absent v' hv' page hbare

include hstill

theorem Slot.read (h : Slot still stale bare V s va f j) (hs : b.machine = s)
    (hb : b.Coherent still stale bare) : ∃ b', b.read whim va = some (s.mem f j, b') ∧
      b'.machine = s ∧ b'.Coherent still stale bare := by
  subst hs
  obtain ⟨e, he, rfl⟩ := h.entry
  rw [← h.word]
  exact read_eq hstill hb h.fresh h.held he

theorem Slot.write (h : Slot still stale bare V s va f j) (hs : b.machine = s)
    (hb : b.Coherent still stale bare) (hv : V v) : ∃ b', b.write whim va v = some b' ∧
      b'.machine = s.withMem (setWord s.mem f j v) ∧ b'.Coherent still stale bare := by
  subst hs
  obtain ⟨e, he, rfl⟩ := h.entry
  obtain ⟨b', hacc, hmachine, hb'⟩ := access_eq hstill hb h.fresh h.held he
  refine ⟨b'.withMachine (b.machine.withMem (setWord b.machine.mem (frameOf e) j v)), ?_, rfl,
    hb'.withMachine (fun _ => id) ?_ (h.absent v hv)⟩
  · unfold Buffered.write
    simp only [hacc, hmachine, h.word, Option.bind_eq_bind, Option.bind_some]
  · rw [hmachine]
    exact h.same v hv

theorem Slot.clearPresent (h : Slot still stale bare V s va f j) (hs : b.machine = s)
    (hb : b.Coherent still stale bare) (hv : V (s.mem f j &&& 0xfffffffe)) :
    ∃ b', b.clearPresent whim va = some b' ∧
      b'.machine = s.withMem (setWord s.mem f j (s.mem f j &&& 0xfffffffe)) ∧
      b'.Coherent still stale bare := by
  obtain ⟨b₁, hread, hs₁, hb₁⟩ := h.read hstill hs hb
  obtain ⟨b₂, hwrite, hs₂, hb₂⟩ := h.write hstill hs₁ hb₁ hv
  refine ⟨b₂, ?_, hs₂, hb₂⟩
  unfold Buffered.clearPresent
  simp only [hread, hwrite, Option.bind_eq_bind, Option.bind_some]

/-- The word has been written, and gets a flag. -/
theorem Slot.addFlag (h : Slot still stale bare V s va f j)
    (hs : b.machine = s.withMem (setWord s.mem f j v)) (hb : b.Coherent still stale bare)
    (hv : V v) (asked : Bool) (flag : BitVec 32) (hflag : V (v ||| flag)) :
    ∃ b', b.addFlag whim va asked flag = some b' ∧
      b'.machine = s.withMem (setWord s.mem f j (if asked then v ||| flag else v)) ∧
      V (if asked then v ||| flag else v) ∧ b'.Coherent still stale bare := by
  cases asked with
  | false => exact ⟨b, rfl, hs, hv, hb⟩
  | true =>
    have hslot := h.written hv
    obtain ⟨b₁, hread, hs₁, hb₁⟩ := hslot.read hstill hs hb
    obtain ⟨b₂, hwrite, hs₂, hb₂⟩ := hslot.write hstill hs₁ hb₁ hflag
    rw [Machine.withMem_mem, setWord_self] at hread
    rw [Machine.withMem_mem, setWord_setWord, Machine.withMem_withMem] at hs₂
    refine ⟨b₂, ?_, hs₂, hflag, hb₂⟩
    unfold Buffered.addFlag
    simp only [if_true, hread, hwrite, Option.bind_eq_bind, Option.bind_some]

theorem Slot.setEntry (h : Slot still stale bare V s va f j) (hs : b.machine = s)
    (hb : b.Coherent still stale bare) (c : MapCall) (physaddr : PhysAddr)
    (hv : V ((physaddr &&& pageMask) ||| pPresent))
    (hflag : ∀ e flag, frameOf flag = 0 → V e → V (e ||| flag)) :
    ∃ b', b.setEntry whim c va physaddr = some b' ∧
      b'.machine = s.withMem (setWord s.mem f j (c.entryWord physaddr)) ∧
      b'.Coherent still stale bare := by
  obtain ⟨b₀, hwrite, hs₀, hb₀⟩ := h.write hstill hs hb hv
  obtain ⟨b₁, hfirst, hs₁, hv₁, hb₁⟩ :=
    h.addFlag hstill hs₀ hb₀ hv c.user pUser (hflag _ _ rfl hv)
  obtain ⟨b₂, hsecond, hs₂, hv₂, hb₂⟩ :=
    h.addFlag hstill hs₁ hb₁ hv₁ c.writable pWritable (hflag _ _ rfl hv₁)
  obtain ⟨b₃, hthird, hs₃, hv₃, hb₃⟩ :=
    h.addFlag hstill hs₂ hb₂ hv₂ c.cacheDisabled pCacheDisabled (hflag _ _ rfl hv₂)
  obtain ⟨b₄, hfourth, hs₄, -, hb₄⟩ :=
    h.addFlag hstill hs₃ hb₃ hv₃ c.writeThrough pWriteThrough (hflag _ _ rfl hv₃)
  refine ⟨b₄, ?_, hs₄, hb₄⟩
  unfold Buffered.setEntry
  simp only [hwrite, hfirst, hsecond, hthird, hfourth, Option.bind_eq_bind, Option.bind_some]

end Slots

/-! Which words of the tables translate which pages. -/

section Tables
open Machine (window pdIndex_window ptIndex_window wordIndex_window)
variable {s : Machine} {a : Index} {va va' : Uintptr}

theorem entry_dir (hself : SelfMapped i386 s.mem s.dir 255) (hva : pdIndex va = 255) :
    s.entry va = if isPresent (s.mem s.dir (ptIndex va)) then some (s.mem s.dir (ptIndex va))
      else none := by
  unfold Machine.entry
  rw [hva]
  exact walk_self hself.present hself.frame (ptIndex va)

theorem entry_window (hself : SelfMapped i386 s.mem s.dir 255) {i : Index}
    (hpres : isPresent (s.mem s.dir i) = true) (j : Index) :
    s.entry (window i j) = some (s.mem s.dir i) := by
  rw [entry_dir hself (pdIndex_window i j), ptIndex_window, if_pos hpres]

theorem window_page (i j : Index) : frameOf (window i j) = frameOf (window i 0) := by
  apply frameOf_congr
  · rw [pdIndex_window, pdIndex_window]
  · rw [ptIndex_window, ptIndex_window]

theorem window_page_ne (hva : pdIndex va ≠ 255) (i j : Index) :
    frameOf (window i j) ≠ frameOf va := by
  intro heq
  have hpd := pdIndex_congr heq
  rw [pdIndex_window] at hpd
  exact hva hpd.symm

/-- A word of the directory is for the pages of its table and for the window of the table. -/
theorem entry_setDir (hself : SelfMapped i386 s.mem s.dir 255) (ha : pdIndex va ≠ a)
    (hwin : ¬ (pdIndex va = 255 ∧ ptIndex va = a)) (v : BitVec 32) :
    (s.withMem (setWord s.mem s.dir a v)).entry va = s.entry va := by
  apply walk_congr_at
  · exact setWord_of_index_ne ha _ _ _
  · intro hpres
    by_cases hpd : pdIndex va = 255
    · exact setWord_of_index_ne (fun hpt => hwin ⟨hpd, hpt⟩) _ _ _
    · exact setWord_of_frame_ne (hself.tables_ne _ hpd hpres) _ _ _

/-- The pages of table `a` but for one. -/
def Beside (va : Uintptr) (page : Frame) : Prop :=
  pdIndex (pageStart page) = pdIndex va ∧ page ≠ frameOf va

theorem Beside.index_ne {page : Frame} (h : Beside va page) :
    ptIndex (pageStart page) ≠ ptIndex va := by
  intro heq
  have hpage := frameOf_congr h.1 heq
  rw [frameOf_pageStart] at hpage
  exact h.2 hpage

theorem not_beside_window (hva : pdIndex va ≠ 255) (i j : Index) :
    ¬ Beside va (frameOf (window i j)) := by
  intro h
  have hpd := pdIndex_congr (frameOf_pageStart (frameOf (window i j)))
  rw [pdIndex_window] at hpd
  exact hva (h.1.symm.trans hpd)

/-- The page of `va`, and the window of its table. -/
def PageOrWindow (va : Uintptr) (page : Frame) : Prop :=
  page = frameOf va ∨ page = frameOf (window (pdIndex va) 0)

/-- A page of no concern to the word of the directory for `va`. -/
theorem pageEntry_setDir (hself : SelfMapped i386 s.mem s.dir 255) {page : Frame}
    (hstale : ¬ PageOrWindow va page) (hbare : ¬ Beside va page) (v : BitVec 32) :
    (s.withMem (setWord s.mem s.dir (pdIndex va) v)).pageEntry page = s.pageEntry page := by
  have hpd : pdIndex (pageStart page) ≠ pdIndex va := by
    intro hpd
    exact hbare ⟨hpd, fun hpage => hstale (Or.inl hpage)⟩
  refine entry_setDir hself hpd ?_ v
  rintro ⟨h255, hpt⟩
  apply hstale
  refine Or.inr ?_
  rw [← frameOf_pageStart page]
  apply frameOf_congr
  · rw [h255, pdIndex_window]
  · rw [hpt, ptIndex_window]

/-- The new table has no entries but perhaps for the page of `va`. -/
theorem pageEntry_beside {page : Frame} (h : Beside va page) {v : BitVec 32} {m : FrameMemory}
    (hv : m s.dir (pdIndex va) = v)
    (hclean : ∀ k, k ≠ ptIndex va → isPresent (m (frameOf v) k) = false) :
    (s.withMem m).pageEntry page = none := by
  show walk i386 m s.dir (pdIndex (pageStart page)) (ptIndex (pageStart page)) = none
  unfold walk
  rw [h.1, hv]
  split
  · exact if_neg (Bool.eq_false_iff.mp (hclean _ h.index_ne))
  · rfl

theorem pageEntry_absent {page : Frame}
    (habs : isPresent (s.mem s.dir (pdIndex (pageStart page))) = false) :
    s.pageEntry page = none := if_neg (Bool.eq_false_iff.mp habs)

/-- What is in the frame of a table is for the pages of this table only. -/
theorem entry_setFrame {q : Frame} (hq : q ≠ s.dir) (ha : pdIndex va ≠ a)
    (hother : ∀ i, i ≠ a → isPresent (s.mem s.dir i) = true → frameOf (s.mem s.dir i) ≠ q) :
    (s.withMem (setFrame s.mem q 0)).entry va = s.entry va := by
  apply walk_congr_at
  · exact setFrame_of_ne hq.symm _ _
  · exact fun hpres => setFrame_of_ne (hother _ ha hpres) _ _

variable (still : Prop)

/-- The word of the directory for a table that is being made. -/
theorem slot_dir (hself : SelfMapped i386 s.mem s.dir 255) (hva : pdIndex va ≠ 255) {q : Frame}
    (hq : q ≠ s.dir)
    (hclean : still ∨ ∀ k, k ≠ ptIndex va → isPresent (s.mem q k) = false) :
    Slot still (PageOrWindow va) (Beside va) (fun v => frameOf v = q) s
      (window 255 (pdIndex va)) s.dir (pdIndex va) := by
  refine ⟨wordIndex_window _ _, ?_, not_beside_window hva _ _,
    ⟨_, entry_window hself hself.present _, hself.frame⟩, ?_, ?_⟩
  · intro h
    rcases h with hpage | hwin
    · exact window_page_ne hva _ _ hpage
    · have hpt := ptIndex_congr hwin
      rw [ptIndex_window, ptIndex_window] at hpt
      exact hva hpt.symm
  · exact fun v _ page hstale hbare => pageEntry_setDir hself hstale hbare v
  · intro v hv page hpage
    rcases hclean with hstill | hclean
    · exact Or.inl hstill
    · refine Or.inr (pageEntry_beside hpage (setWord_self _ _ _ _) fun k hk => ?_)
      rw [hv, setWord_of_frame_ne hq]
      exact hclean k hk

/-- The word of a table that is there. -/
theorem slot_table (hself : SelfMapped i386 s.mem s.dir 255) (hva : pdIndex va ≠ 255)
    (hpres : isPresent (s.mem s.dir (pdIndex va)) = true) :
    Slot still (fun page => page = frameOf va) (fun _ => False) (fun _ => True) s
      (window (pdIndex va) (ptIndex va)) (frameOf (s.mem s.dir (pdIndex va))) (ptIndex va) := by
  refine ⟨wordIndex_window _ _, window_page_ne hva _ _, not_false,
    ⟨_, entry_window hself hpres _, rfl⟩, ?_, fun _ _ _ hpage => hpage.elim⟩
  intro v _ page hpage _
  by_cases h255 : pdIndex (pageStart page) = 255
  · have hdir : ∀ i, (s.withEntry va v).mem s.dir i = s.mem s.dir i :=
      Machine.dir_withEntry hself hva hpres v
    have hself' : SelfMapped i386 (s.withEntry va v).mem (s.withEntry va v).dir 255 :=
      hself.congr hdir
    have hnew := entry_dir hself' h255
    have hold := entry_dir hself h255
    have hword : (s.withEntry va v).mem (s.withEntry va v).dir (ptIndex (pageStart page)) =
        s.mem s.dir (ptIndex (pageStart page)) := hdir _
    rw [hword] at hnew
    exact hnew.trans hold.symm
  · have hne : frameOf (pageStart page) ≠ frameOf va := by
      rw [frameOf_pageStart]
      exact hpage
    exact Machine.entry_withEntry_of_ne hself hva hpres v h255 hne

end Tables

/-- The buffer holds nothing but what the tables say. -/
def InStep (still : Prop) (b : Buffered) : Prop :=
  b.Coherent still (fun _ => False) (fun _ => False)

section Calls
open Machine (window pdIndex_window ptIndex_window wordIndex_window)
variable {whim : Nat → Frame → Whim} {still : Prop} {stale bare : Frame → Prop} {b : Buffered}
  {s : Machine} {c : MapCall} {p : PhysAddr} {free : List PhysAddr} {n : Nat} {va : Uintptr}
  (hstill : still → ∀ t page, whim t page ≠ .load)
include hstill

theorem read_dir (hself : SelfMapped i386 s.mem s.dir 255) (hs : b.machine = s)
    (h : b.Coherent still stale bare) (hstale : ¬ stale (frameOf (window 255 0)))
    (hbare : ¬ bare (frameOf (window 255 0))) (va : Uintptr) :
    ∃ b', b.read whim (pageDir + pdEnt va * 4) = some (s.mem s.dir (pdIndex va), b') ∧
      b'.machine = s ∧ b'.Coherent still stale bare := by
  subst hs
  rw [← window_page 255 (pdIndex va)] at hstale hbare
  obtain ⟨b', hread, hs', h'⟩ :=
    read_eq hstill h hstale hbare (entry_window hself hself.present (pdIndex va))
  have hframe : frameOf (b.machine.mem b.machine.dir 255) = b.machine.dir := hself.frame
  rw [hframe, wordIndex_window, ← Machine.pageDir_eq] at hread
  exact ⟨b', hread, hs', h'⟩

theorem createTable_present {m : MapCall → Buffered → Option Buffered}
    (hself : SelfMapped i386 s.mem s.dir 255) (hs : b.machine = s)
    (h : b.Coherent still stale bare) (hstale : ¬ stale (frameOf (window 255 0)))
    (hbare : ¬ bare (frameOf (window 255 0)))
    (hpres : isPresent (s.mem s.dir (pdIndex c.virtaddr)) = true) :
    ∃ b', b.createTable whim m c = some b' ∧ b'.machine = s ∧ b'.Coherent still stale bare := by
  obtain ⟨b', hread, hs', h'⟩ := read_dir hstill hself hs h hstale hbare c.virtaddr
  have hne : ¬ s.mem s.dir (pdIndex c.virtaddr) &&& pPresent = 0 := of_decide_eq_true hpres
  refine ⟨b', ?_, hs', h'⟩
  unfold createTable
  simp only [hread, Option.bind_eq_bind, Option.bind_some, hne, if_false]

/-- The call for the window of a table: the buffer is told of the window, but not of the pages
of the table. -/
theorem mapPage_window (hon : s.enabled = true) (hself : SelfMapped i386 s.mem s.dir 255)
    (hs : b.machine = s) (hva : pdIndex va ≠ 255)
    (habs : isPresent (s.mem s.dir (pdIndex va)) = false) (hp : p ≠ 0)
    (hdir : frameOf p ≠ s.dir)
    (hclean : still ∨ ∀ k, k ≠ ptIndex va → isPresent (s.mem (frameOf p) k) = false)
    (h : b.InStep still) : ∃ e b', frameOf e = frameOf p ∧ isPresent e = true ∧
      mapPage whim (n + 1) { virtaddr := window (pdIndex va) 0, physaddr := p, user := true } b =
        some b' ∧
      b'.machine = s.withMem (setWord s.mem s.dir (pdIndex va) e) ∧
      b'.Coherent still (fun page => page = frameOf va) (Beside va) := by
  have h255 : pdIndex (window (pdIndex va) 0) = 255 := pdIndex_window _ _
  have hword : pageTables + pdEnt (window (pdIndex va) 0) * 0x1000 +
      ptEnt (window (pdIndex va) 0) * 4 = window 255 (pdIndex va) := by
    rw [Machine.tableWord_eq, pdIndex_window, ptIndex_window]
  have hslot := slot_dir still hself hva hdir hclean
  have hpage₀ : frameOf (window 255 (pdIndex va)) = frameOf (window 255 0) := window_page _ _
  have hfresh := hslot.fresh
  have hheld := hslot.held
  rw [hpage₀] at hfresh hheld
  have h₀ : b.Coherent still (PageOrWindow va) (Beside va) := by
    refine h.rebare (fun _ hf => hf.elim) fun page hpage => Or.inr ⟨not_false, ?_⟩
    rw [hs]
    apply pageEntry_absent
    rw [hpage.1]
    exact habs
  generalize hc : ({ virtaddr := window (pdIndex va) 0, physaddr := p, user := true } : MapCall) = c
  have hvirt : c.virtaddr = window (pdIndex va) 0 := by rw [← hc]
  have hpres : isPresent (s.mem s.dir (pdIndex c.virtaddr)) = true := by
    rw [hvirt, h255]
    exact hself.present
  obtain ⟨b₁, htable, hs₁, h₁⟩ :=
    createTable_present (m := mapPage whim n) hstill hself hs h₀ hfresh hheld hpres
  have hfirst : frameOf ((p &&& pageMask) ||| pPresent) = frameOf p := by
    rw [frameOf_or _ rfl, frameOf_and_pageMask]
  obtain ⟨b₂, hset, hs₂, h₂⟩ := hslot.setEntry hstill hs₁ h₁ c p hfirst
    fun e flag hflag he => (frameOf_or e hflag).trans he
  refine ⟨c.entryWord p, b₂.invlpg c.virtaddr, c.frameOf_entryWord p, c.isPresent_entryWord p,
    ?_, hs₂, ?_⟩
  · have hmap : c.unmap = false := by rw [← hc]
    have hgiven : c.physaddr = p := by rw [← hc]
    show mapPageBody whim (mapPage whim n) c b = _
    unfold mapPageBody
    rw [← hvirt] at hword
    simp only [hs, hon, htable, hword, hmap, hgiven, hp, hset, Bool.true_eq_false, if_false,
      Bool.false_eq_true, Option.bind_eq_bind, Option.bind_some]
  · rw [hvirt]
    exact h₂.invalidate _ fun page hpage => hpage

section NewTable
variable (hself : SelfMapped i386 s.mem s.dir 255) (hp : Spare i386 s.mem s.dir (frameOf p))
  (hva : pdIndex va ≠ 255) {e : BitVec 32} (hframe : frameOf e = frameOf p)
include hself hp hva hframe

/-- The new table is filled with zeros through its window. -/
theorem endAlloc_window (hpres : isPresent e = true)
    (hs : b.machine = s.withMem (setWord s.mem s.dir (pdIndex va) e))
    (h : b.Coherent still (fun page => page = frameOf va) (Beside va)) :
    ∃ b', b.endAlloc whim (window (pdIndex va) 0) = some b' ∧
      b'.machine = (s.withTop (s.mem (frameOf p) 0)).withMem
        (setWord (setFrame s.mem (frameOf p) 0) s.dir (pdIndex va) e) ∧
      b'.Coherent still (fun page => page = frameOf va) (Beside va) := by
  have hdir : frameOf p ≠ s.dir := hp.ne_dir hself
  have hnew : SelfMapped i386 (setWord (setFrame s.mem (frameOf p) 0) s.dir (pdIndex va) e)
      s.dir 255 := hself.newTable hp hva hframe
  generalize hs₁ : s.withMem (setWord s.mem s.dir (pdIndex va) e) = s₁ at hs
  have hmem₁ : s₁.mem = setWord s.mem s.dir (pdIndex va) e := by rw [← hs₁]; rfl
  have hdir₁ : s₁.dir = s.dir := by rw [← hs₁]; rfl
  have hword : s₁.mem s₁.dir (pdIndex va) = e := by
    rw [hmem₁, hdir₁]
    exact setWord_self _ _ _ _
  -- the window shows the new page before it is a table
  have hshown : SelfMapped i386 s₁.mem s₁.dir 255 := by
    rw [hmem₁, hdir₁]
    refine hnew.congr fun i => ?_
    rw [← setFrame_setWord _ hdir.symm, setFrame_of_ne hdir.symm]
  have hentry : b.machine.entry (window (pdIndex va) 0) = some e := by
    have hwin := entry_window hshown (by rw [hword]; exact hpres) 0
    rw [hword] at hwin
    rw [hs]
    exact hwin
  refine endAlloc_eq hstill h (window_page_ne hva _ _) (not_beside_window hva _ _) hentry
    (wordIndex_window _ 0) ?_ ?_ ?_
  · rw [hs, hframe, hmem₁, ← setFrame_setWord _ hdir.symm, ← hs₁,
      setWord_of_frame_ne hdir]
    rfl
  · intro page hstale hbare
    have hpd : pdIndex (pageStart page) ≠ pdIndex va := fun hpd => hbare ⟨hpd, hstale⟩
    rw [hs, ← setFrame_setWord _ hdir.symm, ← hmem₁]
    have hsame : (s₁.withMem (setFrame s₁.mem (frameOf p) 0)).pageEntry page =
        s₁.pageEntry page := by
      refine entry_setFrame (hdir₁ ▸ hdir) hpd fun i hi hpres => ?_
      rw [hmem₁, hdir₁, setWord_of_index_ne hi] at hpres ⊢
      exact hp i hpres
    rw [← hsame, ← hs₁]
    rfl
  · intro page hpage
    refine Or.inr (pageEntry_beside (s := s.withTop _) hpage (setWord_self _ _ _ _) fun k _ => ?_)
    rw [hframe, setWord_of_frame_ne hdir, setFrame_self]
    rfl

/-- The word of the directory is written once more, and the window thrown out again. -/
theorem write_tableWord
    (hs : b.machine = (s.withTop (s.mem (frameOf p) 0)).withMem
      (setWord (setFrame s.mem (frameOf p) 0) s.dir (pdIndex va) e))
    (h : b.Coherent still (fun page => page = frameOf va) (Beside va)) :
    ∃ b', b.write whim (window 255 (pdIndex va)) (Machine.tableWord p) = some b' ∧
      b'.machine = s.withTable (pdIndex va) p ∧
      (b'.invlpg (window (pdIndex va) 0)).Coherent still (fun page => page = frameOf va)
        (fun _ => False) := by
  have hdir : frameOf p ≠ s.dir := hp.ne_dir hself
  have hnew : SelfMapped i386 (setWord (setFrame s.mem (frameOf p) 0) s.dir (pdIndex va) e)
      s.dir 255 := hself.newTable hp hva hframe
  have hself' : SelfMapped i386 b.machine.mem b.machine.dir 255 := by
    rw [hs]
    exact hnew
  have hne : frameOf p ≠ b.machine.dir := by
    rw [hs]
    exact hdir
  have hempty : ∀ k, isPresent (b.machine.mem (frameOf p) k) = false := by
    intro k
    rw [hs, Machine.withMem_mem, setWord_of_frame_ne hdir, setFrame_self]
    rfl
  have hslot := slot_dir still hself' hva hne (Or.inr fun k _ => hempty k)
  obtain ⟨b', hwrite, hs', hb'⟩ := hslot.write (v := Machine.tableWord p) hstill rfl
    (h.rebare (fun page hpage => Or.inl hpage) fun page hpage => Or.inl hpage)
    (Machine.frameOf_tableWord p)
  refine ⟨b', hwrite, ?_, ?_⟩
  · rw [hs', hs, Machine.withMem_mem]
    show (s.withTop (s.mem (frameOf p) 0)).withMem (setWord _ s.dir _ _) = _
    rw [setWord_setWord]
    rfl
  · refine Coherent.rebare (hb'.invalidate _ fun page hpage => hpage) (fun _ => id) ?_
    exact fun page hpage => hpage.elim

end NewTable

/-- A page is made a table. The buffer then holds nothing of the table's pages, but perhaps what
was in the page before for `va` itself. -/
theorem createTable_absent (h : Ready s (p :: free)) (hs : b.machine = s)
    (hva : pdIndex c.virtaddr ≠ 255)
    (habs : isPresent (s.mem s.dir (pdIndex c.virtaddr)) = false)
    (hclean : still ∨ ∀ k, k ≠ ptIndex c.virtaddr → isPresent (s.mem (frameOf p) k) = false)
    (hb : b.InStep still) :
    ∃ b', b.createTable whim (mapPage whim (n + 1)) c = some b' ∧
      b'.machine = s.withTable (pdIndex c.virtaddr) p ∧
      b'.Coherent still (fun page => page = frameOf c.virtaddr) (fun _ => False) := by
  have hp : Spare i386 s.mem s.dir (frameOf p) := h.spare p List.mem_cons_self
  obtain ⟨b₀, hread, hs₀, hb₀⟩ :=
    read_dir hstill h.self hs hb not_false not_false c.virtaddr
  obtain ⟨e, b₁, hframe, hpres, hcall, hs₁, hb₁⟩ := mapPage_window (n := n) hstill h.enabled h.self
    hs₀ hva habs h.links.2.1 (hp.ne_dir h.self) hclean hb₀
  obtain ⟨b₂, hend, hs₂, hb₂⟩ := endAlloc_window hstill h.self hp hva hframe hpres hs₁ hb₁
  obtain ⟨b₃, hwrite, hs₃, hb₃⟩ := write_tableWord hstill h.self hp hva hframe hs₂ hb₂
  refine ⟨b₃.invlpg (window (pdIndex c.virtaddr) 0), ?_, hs₃, hb₃⟩
  have hnone : s.mem s.dir (pdIndex c.virtaddr) &&& pPresent = 0 := by
    simpa [isPresent] using habs
  have halloc : b₀.machine.beginAlloc = some p := hs₀ ▸ Machine.beginAlloc_eq h
  rw [Machine.pageDir_eq] at hread
  unfold Machine.tableWord at hwrite
  unfold createTable
  simp only [hread, hnone, if_true, Machine.tableStart_eq, Machine.pageDir_eq, halloc, hcall,
    hend, hwrite, Option.bind_eq_bind, Option.bind_some]

/-- The entry of an address is written, and its translation thrown out. -/
theorem setEntry_present (h : Ready s free) (hs : b.machine = s) (hva : pdIndex c.virtaddr ≠ 255)
    (hpres : isPresent (s.mem s.dir (pdIndex c.virtaddr)) = true)
    (hb : b.Coherent still (fun page => page = frameOf c.virtaddr) (fun _ => False))
    (physaddr : PhysAddr) :
    ∃ b', b.setEntry whim c (window (pdIndex c.virtaddr) (ptIndex c.virtaddr)) physaddr =
        some b' ∧
      b'.machine = s.withEntry c.virtaddr (c.entryWord physaddr) ∧
      (b'.invlpg c.virtaddr).InStep still := by
  have hslot := slot_table still h.self hva hpres
  obtain ⟨b', hset, hs', hb'⟩ :=
    hslot.setEntry hstill hs hb c physaddr trivial fun _ _ _ _ => trivial
  exact ⟨b', hset, hs', hb'.invalidate _ fun page hpage => Or.inr hpage⟩

/-- A page that is mapped where it is filled with zeros. -/
theorem endAlloc_page (h : Ready s (p :: free)) (hs : b.machine = s) (hb : b.InStep still)
    {e : BitVec 32} (he : s.entry va = some e) (hframe : frameOf e = frameOf p) :
    ∃ b', b.endAlloc whim (va &&& pageMask) = some b' ∧ b'.machine = s.withPage p ∧
      b'.InStep still := by
  subst hs
  have hpage : b.machine.entry (va &&& pageMask) = some e :=
    (Machine.entry_congr (frameOf_and_pageMask va)).trans he
  have hpages : ∀ page, (b.machine.withPage p).pageEntry page = b.machine.pageEntry page :=
    fun page => Machine.entry_withPage h.self (h.spare p List.mem_cons_self) _
  refine endAlloc_eq hstill hb not_false not_false hpage (wordIndex_and_pageMask va) ?_
    (fun page _ _ => hpages page) fun page hf => hf.elim
  rw [hframe]
  rfl

theorem createTable_inStep (h : Ready s free) (hs : b.machine = s) (hfree : free ≠ [])
    (hasp : c.asp = none) (hva : pdIndex c.virtaddr ≠ 255)
    (hclean : still ∨ s.CleanFor c) (hb : b.InStep still) :
    ∃ b₁ rest, b.createTable whim (mapPage whim (n + 1)) c = some b₁ ∧
      s.createTable (Tysos.mapPage (n + 1)) c = some b₁.machine ∧ Ready b₁.machine rest ∧
      free.length ≤ rest.length + 1 ∧
      isPresent (b₁.machine.mem b₁.machine.dir (pdIndex c.virtaddr)) = true ∧
      b₁.Coherent still (fun page => page = frameOf c.virtaddr) (fun _ => False) := by
  cases hpres : isPresent (s.mem s.dir (pdIndex c.virtaddr)) with
  | true =>
    obtain ⟨b₁, htable, hs₁, hb₁⟩ := createTable_present (c := c) (m := mapPage whim (n + 1))
      hstill h.self hs hb not_false not_false hpres
    refine ⟨b₁, free, htable, ?_, ?_, Nat.le_succ _, ?_, hb₁.rebare (fun _ hf => hf.elim) ?_⟩
    · rw [hs₁]
      exact Machine.createTable_of_present hasp h.enabled h.self hpres
    · rw [hs₁]
      exact h
    · rw [hs₁]
      exact hpres
    · exact fun _ hf => hf.elim
  | false =>
    cases free with
    | nil => exact absurd rfl hfree
    | cons p rest =>
      have hpage : still ∨ ∀ k, k ≠ ptIndex c.virtaddr →
          isPresent (s.mem (frameOf p) k) = false := by
        rcases hclean with hquiet | hclean
        · exact Or.inl hquiet
        · have htop : s.stack.top = p := h.links.1
          rw [← htop]
          exact Or.inr (hclean hpres)
      obtain ⟨b₁, htable, hs₁, hb₁⟩ :=
        createTable_absent (n := n) hstill h hs hva hpres hpage hb
      refine ⟨b₁, rest, htable, ?_, ?_, Nat.le_refl _, ?_, hb₁⟩
      · rw [hs₁]
        exact Machine.createTable_of_absent h hasp hva hpres
      · rw [hs₁]
        exact Machine.ready_withTable h hva hpres
      · rw [hs₁]
        exact Machine.Opened.present (.made p hpres)

/-- With its `invlpg` `MapPage` does what it does without a buffer, and leaves nothing in the buffer
that the tables do not say. -/
theorem InStep.mapPage (hb : b.InStep still) (h : Ready s free) (hs : b.machine = s)
    (hfree : 2 ≤ free.length) (hasp : c.asp = none) (hva : pdIndex c.virtaddr ≠ 255)
    (hclean : still ∨ s.CleanFor c) :
    ∃ b', Buffered.mapPage whim (n + 2) c b = some b' ∧
      Tysos.mapPage (n + 2) c s = some b'.machine ∧ b'.InStep still := by
  obtain ⟨b₁, rest, htable, hplain, h₁, hlen, hpres, hb₁⟩ := createTable_inStep (n := n) hstill h
    hs (List.ne_nil_of_length_pos (by omega)) hasp hva hclean hb
  generalize hs₁ : b₁.machine = s₁ at hplain h₁ hpres
  have hsteady := Machine.steady_entry h₁.enabled h₁.self hva hpres
  show ∃ b', mapPageBody whim (Buffered.mapPage whim (n + 1)) c b = some b' ∧
    s.mapPageBody (Tysos.mapPage (n + 1)) c = some b'.machine ∧ _
  unfold mapPageBody
  simp only [hs, h.enabled, Bool.true_eq_false, if_false, htable, Machine.tableWord_eq,
    Option.bind_eq_bind, Option.bind_some]
  cases hunmap : c.unmap with
  | true =>
    have hslot := slot_table still h₁.self hva hpres
    obtain ⟨b₂, hclear, hs₂, hb₂⟩ := hslot.clearPresent hstill hs₁ hb₁ trivial
    refine ⟨b₂.invlpg c.virtaddr, ?_, ?_, hb₂.invalidate _ fun page hpage => Or.inr hpage⟩
    · simp only [if_true, hclear, Option.bind_some]
    · rw [Machine.mapPageBody_unmap hasp h.enabled hplain hunmap hsteady]
      exact congrArg some hs₂.symm
  | false =>
    by_cases hnew : c.physaddr = 0
    · cases rest with
      | nil => exact absurd hlen (by simp; omega)
      | cons p rest =>
        obtain ⟨b₂, hset, hs₂, hb₂⟩ := setEntry_present (c := c) hstill h₁ hs₁ hva hpres hb₁ p
        have hspare := h₁.spare p List.mem_cons_self
        have hent := Machine.entry_withEntry h₁.self hva hpres (c.entryWord p)
        rw [c.isPresent_entryWord, if_pos rfl] at hent
        have h₂ := Machine.ready_withEntry h₁ hva hpres (c.entryWord p)
        obtain ⟨b₃, hend, hs₃, hb₃⟩ :=
          endAlloc_page (b := b₂.invlpg c.virtaddr) hstill h₂ hs₂ hb₂ hent (c.frameOf_entryWord p)
        rw [Machine.withPage_withEntry (hspare.ne_dir h₁.self) (hspare _ hpres)] at hs₃
        refine ⟨b₃, ?_, ?_, hb₃⟩
        · have halloc : b₁.machine.beginAlloc = some p := hs₁ ▸ Machine.beginAlloc_eq h₁
          simp only [Bool.false_eq_true, if_false, hnew, if_true, halloc, hset, hend,
            Option.bind_some]
        · rw [Machine.mapPageBody_fresh hasp h.enabled hplain h₁ hva hpres hunmap hnew, hs₃]
    · obtain ⟨b₂, hset, hs₂, hb₂⟩ :=
        setEntry_present (c := c) hstill h₁ hs₁ hva hpres hb₁ c.physaddr
      refine ⟨b₂.invlpg c.virtaddr, ?_, ?_, hb₂⟩
      · simp only [Bool.false_eq_true, if_false, hnew, hset, Option.bind_some]
      · rw [Machine.mapPageBody_given hasp h.enabled hplain hunmap hnew hsteady]
        exact congrArg some hs₂.symm

end Calls

/-- What is in the buffer is what the tables say. -/
def Agrees (b : Buffered) : Prop :=
  ∀ page e, b.buffer page = some e → b.machine.pageEntry page = some e

theorem inStep_iff (still : Prop) (b : Buffered) : b.InStep still ↔ b.Agrees := by
  constructor
  · intro h page e he
    exact h.agree page not_false e he
  · intro h
    exact ⟨fun page _ => h page, fun _ hf => hf.elim, fun _ hf => hf.elim⟩

/-- The processor drops translations by itself, but loads none that are not asked for. -/
def Quiet (whim : Nat → Frame → Whim) : Prop := ∀ t page, whim t page ≠ .load

/-- Nothing looks like an entry in a page that is going to be a table. -/
def CleanAt (s : Machine) : SpaceOp → Prop
  | .map c => s.CleanFor c
  | .load va | .store va _ => s.place va = none → ∀ l sec req,
    s.sections.resolvePageFault va false = some (.mapped l sec req) →
      s.CleanFor (Machine.faultCall req)

section Steps
variable {whim : Nat → Frame → Whim} {b : Buffered} {s : Machine} {free : List PhysAddr}
  {v : ProcessView} {va : Uintptr} {n : Nat}

theorem access_none {still : Prop} (hstill : still → ∀ t page, whim t page ≠ .load)
    (hb : b.InStep still) (he : b.machine.entry va = none) : b.access whim va = none := by
  have hsettle := LookupCache.Coherent.settle hb (hstill · b.time)
  have hpage := (b.machine.pageEntry_frameOf va).trans he
  unfold access
  simp only [hsettle.fetch_none not_false hpage, Option.bind_eq_bind, Option.bind_none]

/-- After the page fault the address is where the entry of `MapPage` puts it. -/
theorem faulted_entry {m : MapPageCall} {l : SectionList} {sec : Section} {req : MapRequest}
    {s' t : Machine} {f : Frame} (hplace : s.place va = none)
    (hres : s.sections.resolvePageFault va false = some (.mapped l sec req))
    (hmap : m (Machine.faultCall req) { s with sections := l } = some t)
    (haccess : s.access m va = some (f, s')) (hon : s'.enabled = true) :
    s' = t ∧ ∃ e, t.entry va = some e ∧ frameOf e = f := by
  unfold Machine.access at haccess
  rw [hplace, Machine.fault_eq hres, hmap] at haccess
  dsimp only [Option.bind_eq_bind, Option.bind_some] at haccess
  obtain ⟨f', hf, hpair⟩ := Option.bind_eq_some_iff.mp haccess
  obtain ⟨rfl, rfl⟩ := Prod.mk.inj (Option.some.inj hpair)
  unfold Machine.place at hf
  rw [if_pos hon] at hf
  exact ⟨rfl, Option.map_eq_some_iff.mp hf⟩

theorem touch_eq (hb : b.InStep (Quiet whim)) (hs : b.machine = s) (hv : s.Shows free v)
    (huser : IsUser (frameOf va)) (hback : s.Backs va)
    (hclean : Quiet whim ∨ (s.place va = none → ∀ l sec req,
      s.sections.resolvePageFault va false = some (.mapped l sec req) →
        s.CleanFor (Machine.faultCall req))) :
    ∃ f b', b.touch whim (n + 2) va = some (f, b') ∧
      s.access (Tysos.mapPage (n + 2)) va = some (f, b'.machine) ∧ b'.InStep (Quiet whim) := by
  obtain ⟨f, s', free', v', hplain, -, -, hv'⟩ := hv.access n huser hback
  unfold touch
  cases hentry : s.entry va with
  | some e =>
    obtain ⟨b', hacc, hs', hb'⟩ := access_eq id hb not_false not_false (hs ▸ hentry)
    rw [hacc]
    refine ⟨frameOf e, b', rfl, ?_, hb'⟩
    rw [hs', hs]
    exact Machine.access_eq (Machine.place_of_entry hv.ready.enabled hentry)
  | none =>
    have hplace := Machine.place_eq_none hv.ready.enabled hentry
    rw [access_none id hb (hs ▸ hentry)]
    obtain ⟨hstock, l, sec, req, hres, -⟩ := hback hplace
    obtain ⟨-, sec₀, -, -, -, hreq⟩ := SectionList.resolvePageFault_mapped hres
    have hpage : frameOf (Machine.faultCall req).virtaddr = frameOf va := by
      rw [hreq]
      exact Machine.frameOf_faultCall sec va
    have hva : pdIndex (Machine.faultCall req).virtaddr ≠ 255 := by
      rw [pdIndex_congr hpage]
      exact pdIndex_ne_of_user huser
    have hcall : Quiet whim ∨ ({ s with sections := l } : Machine).CleanFor
        (Machine.faultCall req) := hclean.imp_right fun hc => hc hplace l sec req hres
    have hl : (b.withMachine { s with sections := l }).InStep (Quiet whim) := by
      rw [inStep_iff] at hb ⊢
      rw [← hs]
      exact hb
    obtain ⟨b₁, hmap, hmap', hb₁⟩ := hl.mapPage (n := n) id (Machine.ready_withSections hv.ready l)
      rfl (hv.stocked hstock) rfl hva hcall
    obtain ⟨rfl, e, he, rfl⟩ := faulted_entry hplace hres hmap' hplain hv'.ready.enabled
    obtain ⟨b₂, hacc, hs₂, hb₂⟩ := access_eq id hb₁ not_false not_false he
    refine ⟨frameOf e, b₂, ?_, hs₂ ▸ hplain, hb₂⟩
    simp only [hs, hres, hmap, hacc, Option.bind_eq_bind, Option.bind_some]

theorem step_inStep {op : SpaceOp} (hb : b.InStep (Quiet whim)) (hs : b.machine = s)
    (hv : s.Shows free v) (hop : s.Allows op) (hclean : Quiet whim ∨ CleanAt s op) :
    ∃ b', b.spaceStep whim n op = some b' ∧ s.spaceStep n op = some b'.machine ∧
      b'.InStep (Quiet whim) := by
  cases op with
  | map c =>
    obtain ⟨hasp, hva, hstock, -⟩ := hop
    exact hb.mapPage id hv.ready hs (hv.stocked hstock) hasp hva hclean
  | load va =>
    obtain ⟨f, b', htouch, hplain, hb'⟩ := touch_eq (n := n) hb hs hv hop.1 hop.2 hclean
    refine ⟨b', ?_, ?_, hb'⟩
    · simp only [spaceStep, htouch, Option.map_some]
    · simp only [Machine.spaceStep, Machine.read, hplain, Option.bind_eq_bind, Option.bind_some,
        Option.map_some]
  | store va w =>
    obtain ⟨f, b', htouch, hplain, hb'⟩ := touch_eq (n := n) hb hs hv hop.1 hop.2 hclean
    obtain ⟨f', s', free', v', hplain', -, hf, hv'⟩ := hv.access n hop.1 hop.2
    obtain ⟨rfl, rfl⟩ : f' = f ∧ s' = b'.machine := by
      simpa using hplain'.symm.trans hplain
    have hclient := (hv'.held f').mp (v'.user_held _ hop.1 f' hf)
    refine ⟨b'.withMachine (b'.machine.withMem (setWord b'.machine.mem f' (wordIndex va) w)),
      ?_, ?_, ?_⟩
    · simp only [spaceStep, htouch, Option.bind_eq_bind, Option.bind_some]
    · simp only [Machine.spaceStep, Machine.write, hplain, Option.bind_eq_bind, Option.bind_some]
      rfl
    · exact hb'.withMachine (fun _ => id)
        (fun page _ _ => hclient.entry_setWord hv'.ready.self _ w _) fun _ hf => hf.elim

/-- The buffer is never seen. Over any run, whatever the processor drops and loads by itself, it
does what it would do with a look at the tables for each access, if it loads no translations that
are not asked for, or else if no page that is made a table looks like one. -/
theorem run_agrees (hb : b.Agrees) (hv : b.machine.Shows free v) (n : Nat) {ops : List SpaceOp}
    (hops : Transition.EachStep (Machine.spaceStep n)
      (fun s op => s.Allows op ∧ (Quiet whim ∨ CleanAt s op)) b.machine ops) :
    ∃ b', Transition.run (spaceStep whim n) b ops = some b' ∧
      Transition.run (Machine.spaceStep n) b.machine ops = some b'.machine ∧ b'.Agrees := by
  have hsim := Transition.EachStep.simulates
    (R := fun s b => b.machine = s ∧ b.InStep (Quiet whim) ∧ ∃ free v, s.Shows free v)
    (r := fun b op b' => spaceStep whim n b op = some b') ?_
    ⟨rfl, (inStep_iff _ b).mpr hb, free, v, hv⟩ hops
  · obtain ⟨s', b', hrun, hsteps, rfl, hb', -⟩ := hsim
    exact ⟨b', Transition.run_of_steps hsteps, hrun, (inStep_iff _ b').mp hb'⟩
  · rintro s b op ⟨hs, hb, free, v, hv⟩ ⟨hop, hclean⟩
    obtain ⟨b', hstep, hplain, hb'⟩ := step_inStep (n := n) hb hs hv hop hclean
    obtain ⟨s', free', v', hplain', -, hv'⟩ := hv.step n hop
    obtain rfl : s' = b'.machine := Option.some.inj (hplain'.symm.trans hplain)
    exact ⟨b'.machine, b', hplain, hstep, rfl, hb', free', v', hv'⟩

end Steps

section Sample

def sample : Buffered := ⟨Machine.sample, fun _ => none, 0⟩

theorem sample_clean : Machine.sample.CleanFor { virtaddr := 0x40000000 } := by
  intro _ k hk
  have hframe : frameOf Machine.sample.stack.top ≠ 1 := by decide
  have hzero : k ≠ 0 := hk
  rw [Machine.sample_mem, if_neg hframe, if_neg fun hc => hzero hc.1]
  rfl

/-- A page is mapped and a word stored in it, with all translations loaded at every access. -/
theorem run_agrees_sample : ∃ b', Transition.run (spaceStep (fun _ _ => .load) 0) sample
      [.map { virtaddr := 0x40000000 }, .store 0x40000004 5] = some b' ∧
    Transition.run (Machine.spaceStep 0) sample.machine
      [.map { virtaddr := 0x40000000 }, .store 0x40000004 5] = some b'.machine ∧ b'.Agrees := by
  have hmap : Machine.sample.Allows (.map { virtaddr := 0x40000000 }) :=
    ⟨rfl, by decide, ⟨Machine.sampleFree, Machine.sample_links, by decide⟩,
      fun _ hne => absurd rfl hne⟩
  refine run_agrees (b := sample) (fun _ _ he => by cases he) Machine.sample_shows 0
    ⟨⟨hmap, Or.inr sample_clean⟩, fun s hs => ⟨?_, fun _ _ => trivial⟩⟩
  obtain ⟨s', free', v', hstep, hview, hv'⟩ := Machine.sample_shows.step 0 hmap
  obtain rfl : s' = s := Option.some.inj (hstep.symm.trans hs)
  cases hview with
  | map hmaps =>
    obtain ⟨f, hf⟩ := hmaps.page rfl
    have hsome : s'.place 0x40000004 = some f := (hv'.place _ (by decide)).trans hf
    have hplace : s'.place 0x40000004 ≠ none := by
      rw [hsome]
      exact Option.some_ne_none f
    exact ⟨⟨by decide, fun hnone => absurd hnone hplace⟩,
      Or.inr fun hnone => absurd hnone hplace⟩

end Sample

end Buffered
end Tysos
