import Tysos.Paging.MapPage

/-!
# Calls in the current address space

The loaded page directory is its own table 255, so that the tables are pages of a window, and
a call of `MapPage` writes the entry it is for in this window.
-/

namespace Tysos
open PageTables
set_option autoImplicit false

namespace MapCall

/-- The entry with the flags of the call. -/
def entryWord (c : MapCall) (physaddr : PhysAddr) : BitVec 32 :=
  let e := (physaddr &&& pageMask) ||| pPresent
  let e := if c.user then e ||| pUser else e
  let e := if c.writable then e ||| pWritable else e
  let e := if c.cacheDisabled then e ||| pCacheDisabled else e
  if c.writeThrough then e ||| pWriteThrough else e

variable (c : MapCall) (physaddr : PhysAddr)

theorem frameOf_entryWord : frameOf (c.entryWord physaddr) = frameOf physaddr := by
  have hP : frameOf pPresent = 0 := rfl
  have hU : frameOf pUser = 0 := rfl
  have hW : frameOf pWritable = 0 := rfl
  have hC : frameOf pCacheDisabled = 0 := rfl
  have hT : frameOf pWriteThrough = 0 := rfl
  unfold entryWord
  dsimp only
  rw [frameOf_asked _ _ hT, frameOf_asked _ _ hC, frameOf_asked _ _ hW, frameOf_asked _ _ hU,
    frameOf_or _ hP, frameOf_and_pageMask]

theorem isPresent_entryWord : isPresent (c.entryWord physaddr) = true := by
  have hP : isPresent pPresent = true := rfl
  unfold entryWord
  dsimp only
  apply isPresent_asked
  apply isPresent_asked
  apply isPresent_asked
  apply isPresent_asked
  rw [isPresent_or, hP, Bool.or_true]

end MapCall

namespace Machine
variable {mapPage : MapPageCall} {s : Machine} {va : Uintptr} {f : Frame} {j : Index}

section Access
variable (h : s.place va = some f)
include h

theorem access_eq : s.access mapPage va = some (f, s) := by
  unfold access
  rw [h]

theorem read_eq (hj : wordIndex va = j) : s.read mapPage va = some (s.mem f j, s) := by
  unfold read
  rw [access_eq h, ← hj]
  rfl

theorem write_eq (hj : wordIndex va = j) (v : BitVec 32) :
    s.write mapPage va v = some (s.withMem (setWord s.mem f j v)) := by
  unfold write
  rw [access_eq h, ← hj]
  rfl

theorem clearPresent_eq (hj : wordIndex va = j) : s.clearPresent mapPage va =
    some (s.withMem (setWord s.mem f j (s.mem f j &&& 0xfffffffe))) := by
  unfold clearPresent
  rw [read_eq h hj]
  exact write_eq h hj _

theorem endAlloc_eq (hj : wordIndex va = 0) : s.endAlloc mapPage va =
    some ((s.withTop (s.mem f 0)).withMem (setFrame s.mem f 0)) := by
  have hagain : (s.withTop (s.mem f 0)).place va = some f := h
  unfold endAlloc
  rw [read_eq h hj]
  dsimp only [Option.bind_eq_bind, Option.bind_some]
  rw [access_eq hagain]
  rfl

end Access

/-- The address is word `j` of frame `f`, and stays there when this word is written. -/
structure Steady (s : Machine) (va : Uintptr) (f : Frame) (j : Index) : Prop where
  word : wordIndex va = j
  place : s.place va = some f
  written : ∀ v, (s.withMem (setWord s.mem f j v)).place va = some f

theorem Steady.addFlag (h : s.Steady va f j) (e : BitVec 32) (asked : Bool) (flag : BitVec 32) :
    (s.withMem (setWord s.mem f j e)).addFlag mapPage va asked flag =
      some (s.withMem (setWord s.mem f j (if asked then e ||| flag else e))) := by
  unfold Machine.addFlag
  cases asked with
  | false => rfl
  | true =>
    rw [if_pos rfl, if_pos rfl, read_eq (h.written e) h.word, withMem_mem, setWord_self]
    have hwrite : Machine.write mapPage va (e ||| flag) (s.withMem (setWord s.mem f j e)) = _ :=
      write_eq (h.written e) h.word (e ||| flag)
    rw [withMem_mem, setWord_setWord, withMem_withMem] at hwrite
    exact hwrite

theorem Steady.setEntry (h : s.Steady va f j) (c : MapCall) (physaddr : PhysAddr) :
    s.setEntry mapPage c va physaddr =
      some (s.withMem (setWord s.mem f j (c.entryWord physaddr))) := by
  unfold Machine.setEntry
  rw [write_eq h.place h.word]
  simp only [Option.bind_eq_bind, Option.bind_some, h.addFlag]
  rfl

/-- An address is translated by two words, of the directory and of a table. -/
theorem entry_of_words {e e' : BitVec 32} (hdir : s.mem s.dir (pdIndex va) = e)
    (hpres : isPresent e = true) (hword : s.mem (frameOf e) (ptIndex va) = e')
    (hpres' : isPresent e' = true) : s.entry va = some e' := by
  subst hdir hword
  exact (if_pos hpres).trans (if_pos hpres')

section Windows
variable (hon : s.enabled = true) (hself : SelfMapped i386 s.mem s.dir 255)
include hon

theorem place_of_entry {e : BitVec 32} (h : s.entry va = some e) :
    s.place va = some (frameOf e) := by
  unfold place
  rw [if_pos hon, h]
  rfl

theorem place_eq_none (h : s.entry va = none) : s.place va = none := by
  unfold place
  rw [if_pos hon, h]
  rfl

/-- It is enough that the directory leads to itself. -/
theorem place_loop {i : Index} {e : BitVec 32} (hpres : isPresent (s.mem s.dir 255) = true)
    (hframe : frameOf (s.mem s.dir 255) = s.dir) (he : s.mem s.dir i = e)
    (hpres' : isPresent e = true) (j : Index) : s.place (window i j) = some (frameOf e) := by
  apply place_of_entry hon
  unfold entry
  rw [pdIndex_window, ptIndex_window, walk_self hpres hframe, he]
  exact if_pos hpres'

include hself

theorem place_window {i : Index} {e : BitVec 32} (he : s.mem s.dir i = e)
    (hpres : isPresent e = true) (j : Index) : s.place (window i j) = some (frameOf e) :=
  place_loop hon hself.present hself.frame he hpres j

theorem place_dir (a : Index) : s.place (window 255 a) = some s.dir := by
  have hframe : frameOf (s.mem s.dir 255) = s.dir := hself.frame
  rw [place_window hon hself rfl hself.present a, hframe]

theorem steady_window {i : Index} {e : BitVec 32} (hi : i ≠ 255) (he : s.mem s.dir i = e)
    (hpres : isPresent e = true) (j : Index) : s.Steady (window i j) (frameOf e) j := by
  refine ⟨wordIndex_window i j, place_window hon hself he hpres j, fun v => ?_⟩
  have hne : s.dir ≠ frameOf e := by
    have htable := hself.tables_ne i hi
    rw [he] at htable
    exact (htable hpres).symm
  have hkept : ∀ k, setWord s.mem (frameOf e) j v s.dir k = s.mem s.dir k :=
    fun k => setWord_of_frame_ne hne _ _ _
  generalize setWord s.mem (frameOf e) j v = m at hkept
  exact place_window (s := s.withMem m) hon (hself.congr hkept) ((hkept i).trans he) hpres j

/-- A word of the directory other than its own entry may be written through the window. -/
theorem steady_dir {a : Index} (ha : a ≠ 255) : s.Steady (window 255 a) s.dir a := by
  have hframe : frameOf (s.mem s.dir 255) = s.dir := hself.frame
  refine ⟨wordIndex_window 255 a, place_dir hon hself a, fun v => ?_⟩
  have hkept : setWord s.mem s.dir a v s.dir 255 = s.mem s.dir 255 :=
    setWord_of_index_ne ha.symm _ _ _
  generalize setWord s.mem s.dir a v = m at hkept
  have hpres : isPresent (s.mem s.dir 255) = true := hself.present
  have hnew : (s.withMem m).place (window 255 a) = some (frameOf (s.mem s.dir 255)) := by
    apply place_loop (s := s.withMem m) hon _ _ hkept hpres
    · rw [withMem_mem, withMem_dir, hkept, hpres]
    · rw [withMem_mem, withMem_dir, hkept, hframe]
  rw [hnew, hframe]

end Windows

section Calls
variable {c : MapCall} (hasp : c.asp = none)
include hasp

theorem wrPt_eq : c.wrPt s + ptEnt c.virtaddr * 4 =
    window (pdIndex c.virtaddr) (ptIndex c.virtaddr) := by
  unfold MapCall.wrPt
  rw [hasp]
  exact tableWord_eq c.virtaddr

theorem wrPd_eq : c.wrPd s + pdEnt c.virtaddr * 4 = window 255 (pdIndex c.virtaddr) := by
  unfold MapCall.wrPd
  rw [hasp]
  exact pageDir_eq c.virtaddr

theorem wrPt_start : c.wrPt s = window (pdIndex c.virtaddr) 0 := by
  unfold MapCall.wrPt
  rw [hasp]
  exact tableStart_eq c.virtaddr

variable (hon : s.enabled = true)
include hon

theorem mapPageBodyWith_eq (bitmap : Option PhysAddr) : s.mapPageBodyWith bitmap mapPage c = (do
    let s ← s.createTableWith bitmap mapPage c
    if c.unmap then s.clearPresent mapPage (window (pdIndex c.virtaddr) (ptIndex c.virtaddr))
    else do
      let (physaddr, s) ← s.createPageWith bitmap mapPage c
      let s ← s.setEntry mapPage c (window (pdIndex c.virtaddr) (ptIndex c.virtaddr)) physaddr
      s.completeAlloc mapPage c) := by
  unfold mapPageBodyWith openDir closeTables
  rw [hon, if_neg (by simp)]
  simp only [hasp, Option.bind_eq_bind, Option.bind_some, wrPt_eq hasp, Option.bind_fun_some]

theorem mapPageBody_eq : s.mapPageBody mapPage c = (do
    let s ← s.createTable mapPage c
    if c.unmap then s.clearPresent mapPage (window (pdIndex c.virtaddr) (ptIndex c.virtaddr))
    else do
      let (physaddr, s) ← s.createPage mapPage c
      let s ← s.setEntry mapPage c (window (pdIndex c.virtaddr) (ptIndex c.virtaddr)) physaddr
      s.completeAlloc mapPage c) := mapPageBodyWith_eq hasp hon none

/-- With the table there and a page given, the call writes the entry. -/
theorem mapPageBody_given {s₁ : Machine} (htable : s.createTable mapPage c = some s₁)
    (hmap : c.unmap = false) (hgiven : c.physaddr ≠ 0)
    (h : s₁.Steady (window (pdIndex c.virtaddr) (ptIndex c.virtaddr)) f j) :
    s.mapPageBody mapPage c =
      some (s₁.withMem (setWord s₁.mem f j (c.entryWord c.physaddr))) := by
  rw [mapPageBody_eq hasp hon, htable]
  unfold completeAlloc
  simp only [createPage_def, Option.bind_eq_bind, Option.bind_some, hmap, Bool.false_eq_true,
    hgiven, if_false, h.setEntry]

theorem mapPageBody_unmap {s₁ : Machine} (htable : s.createTable mapPage c = some s₁)
    (hunmap : c.unmap = true)
    (h : s₁.Steady (window (pdIndex c.virtaddr) (ptIndex c.virtaddr)) f j) :
    s.mapPageBody mapPage c =
      some (s₁.withMem (setWord s₁.mem f j (s₁.mem f j &&& 0xfffffffe))) := by
  rw [mapPageBody_eq hasp hon, htable]
  dsimp only [Option.bind_eq_bind, Option.bind_some]
  rw [if_pos hunmap, clearPresent_eq h.place h.word]

variable (hself : SelfMapped i386 s.mem s.dir 255)
include hself

theorem read_dir : s.read mapPage (c.wrPd s + pdEnt c.virtaddr * 4) =
    some (s.mem s.dir (pdIndex c.virtaddr), s) := by
  rw [wrPd_eq hasp, read_eq (place_dir hon hself _) (wordIndex_window _ _)]

theorem createTableWith_of_present (bitmap : Option PhysAddr)
    (hpres : isPresent (s.mem s.dir (pdIndex c.virtaddr)) = true) :
    s.createTableWith bitmap mapPage c = some s := by
  have hne : ¬ s.mem s.dir (pdIndex c.virtaddr) &&& pPresent = 0 := of_decide_eq_true hpres
  unfold createTableWith
  dsimp only
  rw [read_dir hasp hon hself]
  dsimp only [Option.bind_eq_bind, Option.bind_some]
  rw [if_neg hne]

/-- A page is taken for the table, mapped in its window and entered in the directory. -/
theorem createTableWith_absent (bitmap : Option PhysAddr)
    (habs : isPresent (s.mem s.dir (pdIndex c.virtaddr)) = false) :
    s.createTableWith bitmap mapPage c = (do
      let newPt ← s.beginAllocWith bitmap
      let s ← mapPage
        { virtaddr := window (pdIndex c.virtaddr) 0, physaddr := newPt, user := true } s
      let s ← s.endAlloc mapPage (window (pdIndex c.virtaddr) 0)
      s.write mapPage (window 255 (pdIndex c.virtaddr))
        (newPt ||| pPresent ||| pUser ||| pWritable)) := by
  have hzero : s.mem s.dir (pdIndex c.virtaddr) &&& pPresent = 0 := by
    simpa [isPresent] using habs
  unfold createTableWith
  dsimp only
  rw [read_dir hasp hon hself]
  dsimp only [Option.bind_eq_bind, Option.bind_some]
  rw [if_pos hzero, wrPt_start hasp, wrPd_eq hasp, hasp]
  simp only [Option.bind_fun_some]

theorem createTable_of_present (hpres : isPresent (s.mem s.dir (pdIndex c.virtaddr)) = true) :
    s.createTable mapPage c = some s := createTableWith_of_present hasp hon hself none hpres

end Calls

section Faults
variable {s s' : Machine} {a : Uintptr}

theorem entry_congr {va va' : Uintptr} (h : frameOf va = frameOf va') :
    s.entry va = s.entry va' := by
  unfold entry
  rw [pdIndex_congr h, ptIndex_congr h]

theorem place_page {va va' : Uintptr} (h : frameOf va = frameOf va') :
    s.place va = s.place va' := by
  unfold place
  rw [entry_congr h, h]

theorem place_congr {va : Uintptr} (hon' : s'.enabled = true) (hon : s.enabled = true)
    (h : s'.entry va = s.entry va) : s'.place va = s.place va := by
  unfold place
  rw [if_pos hon', if_pos hon, h]

/-- The call of `MapPage` for a fault. -/
def faultCall (request : MapRequest) : MapCall :=
  { virtaddr := request.virtaddr, physaddr := request.physaddr, user := request.user,
    writable := request.writable }

theorem frameOf_faultCall (sec : Section) (a : Uintptr) :
    frameOf (faultCall (sec.mapRequest a)).virtaddr = frameOf a := frameOf_and_pageMask a

theorem fault_eq {mapPage : MapPageCall} {l : SectionList} {sec : Section} {req : MapRequest}
    (h : s.sections.resolvePageFault a false = some (.mapped l sec req)) :
    s.fault mapPage a = mapPage (faultCall req) { s with sections := l } := by
  unfold fault
  rw [h]
  rfl

end Faults

end Machine

end Tysos
