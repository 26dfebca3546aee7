import Tysos.Paging.ForeignSpace

/-!
# MapPage for a range

A length that is not that of a page makes `MapPage` call itself for one page after the other.
The loop ends when what is left is 0, and all its pages are mapped writable.
-/

namespace Tysos
open PageTables
set_option autoImplicit false

namespace MapCall

/-- The same call for the next page. -/
def next (c : MapCall) : MapCall :=
  { c with
    virtaddr := c.virtaddr + 0x1000
    physaddr := if c.physaddr ≠ 0 then c.physaddr + 0x1000 else c.physaddr }

def asWritable (c : MapCall) : MapCall := { c with writable := true }

@[simp] theorem next_asp (c : MapCall) : c.next.asp = c.asp := by cases c; rfl
@[simp] theorem next_unmap (c : MapCall) : c.next.unmap = c.unmap := by cases c; rfl
@[simp] theorem next_writable (c : MapCall) : c.next.writable = c.writable := by cases c; rfl

end MapCall

/-- The `while` loop of `MapPage`, to a number of rounds; it returns the physical address. -/
def mapPageLoop (mapPage : MapPageCall) :
    Nat → MapCall → BitVec 32 → Machine → Option (Machine × PhysAddr)
  | 0, _, _, _ => none
  | k + 1, c, length, s =>
    if length > 0 then do
      let s ← mapPage { c with writable := true } s
      mapPageLoop mapPage k c.next (length - 0x1000) s
    else some (s, c.physaddr)

/-- `MapPage` with a length; the calls for one page go to a depth of `n`. -/
def mapPageRange (n k : Nat) (c : MapCall) (length : BitVec 32) (s : Machine) :
    Option (Machine × PhysAddr) :=
  if length ≠ 0 ∧ length ≠ 0x1000 then mapPageLoop (mapPage n) k c length s
  else do
    let s ← mapPage n c s
    some (s, 0)

/-- One page after the other. -/
def mapPages (mapPage : MapPageCall) : Nat → MapCall → Machine → Option Machine
  | 0, _, s => some s
  | pages + 1, c, s => do
    let s ← mapPage c s
    mapPages mapPage pages c.next s

/-- The pages of a range. -/
def pagesIn (length : BitVec 32) : Nat := (length.toNat + 4095) / 4096

namespace Machine

/-- The address space that is loaded and the one of the call are the same in both. -/
structure SameTables (asp : Option PhysAddr) (s t : Machine) : Prop where
  cr3 : s.cr3 = t.cr3
  loaded : ∀ va, s.entry va = t.entry va
  other : ∀ d, asp = some d → ∀ va, s.entryIn d va = t.entryIn d va

theorem SameTables.refl (asp : Option PhysAddr) (s : Machine) : SameTables asp s s :=
  ⟨rfl, fun _ => rfl, fun _ _ _ => rfl⟩

/-- Where mapping the pages one after the other returns, so does mapping the range, and leaves
the same page tables. -/
def RangeAgrees (n : Nat) (c : MapCall) (length : BitVec 32) (s : Machine) : Prop :=
  ∀ s', mapPages (mapPage n) (pagesIn length) c s = some s' →
    ∃ k t r, mapPageRange n k c length s = some (t, r) ∧ SameTables c.asp t s'

section Loop
variable {n : Nat} {c : MapCall} {length : BitVec 32} {s : Machine}

/-- What is left is never 0, so the loop never ends. -/
theorem mapPageLoop_endless {mapPage : MapPageCall} (h : length.toNat % 4096 ≠ 0) (k : Nat)
    (c : MapCall) (s : Machine) : mapPageLoop mapPage k c length s = none := by
  induction k generalizing length c s with
  | zero => rfl
  | succ k ih =>
    have hpos : length > 0 := by
      rw [gt_iff_lt, BitVec.lt_def]
      exact Nat.pos_of_ne_zero fun hzero => h (by rw [hzero])
    have hleft : (length - 0x1000).toNat % 4096 ≠ 0 := by bv_omega
    unfold mapPageLoop
    rw [if_pos hpos]
    cases mapPage { c with writable := true } s with
    | none => rfl
    | some t => exact ih hleft c.next t

/-- One round: with a page or more left there is a call for the page, and a page less is left. -/
theorem mapPageLoop_round (mapPage : MapPageCall) {pages : Nat}
    (h : length.toNat = (pages + 1) * 4096) (k : Nat) (c : MapCall) (s : Machine) :
    mapPageLoop mapPage (k + 1) c length s =
        ((mapPage c.asWritable s).bind fun t => mapPageLoop mapPage k c.next (length - 0x1000) t) ∧
      (length - 0x1000).toNat = pages * 4096 := by
  have hlt := length.isLt
  have hpos : length > 0 := by
    rw [gt_iff_lt, BitVec.lt_def, h]
    show 0 < _
    omega
  refine ⟨?_, by bv_omega⟩
  rw [mapPageLoop, if_pos hpos]
  rfl

/-- The rounds of the loop are the calls for the pages, all of them writable. -/
theorem mapPageLoop_pages {mapPage : MapPageCall} (pages : Nat)
    (h : length.toNat = pages * 4096) (c : MapCall) (s : Machine) :
    (mapPageLoop mapPage (pages + 1) c length s).map Prod.fst =
      mapPages mapPage pages c.asWritable s := by
  induction pages generalizing length c s with
  | zero =>
    have hzero : length = 0 := BitVec.eq_of_toNat_eq (by rw [h]; rfl)
    rw [hzero]
    rfl
  | succ pages ih =>
    obtain ⟨hround, hleft⟩ := mapPageLoop_round mapPage h (pages + 1) c s
    rw [hround]
    unfold mapPages
    cases mapPage c.asWritable s with
    | none => rfl
    | some t => exact ih hleft c.next t

/-- However many rounds are allowed, the loop has mapped the pages when it ends. -/
theorem mapPageLoop_returned {mapPage : MapPageCall} {k pages : Nat} {t : Machine} {r : PhysAddr}
    (h : length.toNat = pages * 4096) (hloop : mapPageLoop mapPage k c length s = some (t, r)) :
    mapPages mapPage pages c.asWritable s = some t := by
  induction k generalizing length c s pages with
  | zero => simp [mapPageLoop] at hloop
  | succ k ih =>
    cases pages with
    | zero =>
      have hzero : length = 0 := BitVec.eq_of_toNat_eq (by rw [h]; rfl)
      unfold mapPageLoop at hloop
      rw [hzero, if_neg (by decide)] at hloop
      obtain ⟨rfl, -⟩ : s = t ∧ _ = r := by simpa using hloop
      rfl
    | succ pages =>
      obtain ⟨hround, hleft⟩ := mapPageLoop_round mapPage h k c s
      rw [hround] at hloop
      obtain ⟨t₁, hcall, hrest⟩ := Option.bind_eq_some_iff.mp hloop
      unfold mapPages
      rw [hcall]
      exact ih (c := c.next) (s := t₁) hleft hrest

theorem pagesIn_of_dvd {pages : Nat} (h : length.toNat = pages * 4096) :
    pagesIn length = pages := by
  unfold pagesIn
  omega

/-- Where it makes no difference to one page, it makes none to the pages of a range. -/
theorem mapPages_asWritable {mapPage : MapPageCall} {P : MapCall → Machine → Prop}
    (hsame : ∀ c s, P c s → mapPage c.asWritable s = mapPage c s)
    (hnext : ∀ c s s', P c s → mapPage c s = some s' → P c.next s') (pages : Nat) (h : P c s) :
    mapPages mapPage pages c.asWritable s = mapPages mapPage pages c s := by
  induction pages generalizing c s with
  | zero => rfl
  | succ pages ih =>
    unfold mapPages
    rw [hsame c s h]
    cases hcall : mapPage c s with
    | none => rfl
    | some t => exact ih (c := c.next) (s := t) (hnext c s t h hcall)

theorem mapPage_disabled (hoff : s.enabled = false) : mapPage (n + 1) c s = some s := by
  show s.mapPageBody (mapPage n) c = some s
  rw [mapPageBody_def, if_pos hoff]

theorem mapPage_unmap (hunmap : c.unmap = true) : mapPage n c.asWritable s = mapPage n c s := by
  cases n with
  | zero => rfl
  | succ n =>
    have hunmap' : c.asWritable.unmap = true := hunmap
    show s.mapPageBody (mapPage n) c.asWritable = s.mapPageBody (mapPage n) c
    simp only [mapPageBody_def, hunmap, hunmap', if_true]
    rfl

theorem mapPages_writable (h : c.writable = true ∨ c.unmap = true ∨ s.enabled = false)
    (pages : Nat) : mapPages (mapPage n) pages c.asWritable s = mapPages (mapPage n) pages c s := by
  rcases h with hwrite | hunmap | hoff
  · have hsame : c.asWritable = c := by
      unfold MapCall.asWritable
      rw [← hwrite]
    rw [hsame]
  · refine mapPages_asWritable (P := fun c _ => c.unmap = true) (fun c s h => mapPage_unmap h)
      (fun c s s' h _ => (c.next_unmap).trans h) pages hunmap
  · refine mapPages_asWritable (P := fun _ s => s.enabled = false) (fun c s h => ?_)
      (fun c s s' h hcall => ?_) pages hoff
    · cases n with
      | zero => rfl
      | succ n => rw [mapPage_disabled h, mapPage_disabled h]
    · cases n with
      | zero => exact absurd hcall (Option.some_ne_none s').symm
      | succ n =>
        rw [mapPage_disabled h] at hcall
        obtain rfl := Option.some.inj hcall
        exact h

/-- The condition on the arguments, and on paging. -/
def RangeWorks (c : MapCall) (length : BitVec 32) (s : Machine) : Prop :=
  4096 ∣ length.toNat ∧
    (length = 0x1000 ∨ c.writable = true ∨ c.unmap = true ∨ s.enabled = false)

theorem rangeAgrees_of_works (hlen : length ≠ 0) (h : RangeWorks c length s) :
    RangeAgrees n c length s := by
  obtain ⟨⟨pages, hpages⟩, hflag⟩ := h
  rw [Nat.mul_comm] at hpages
  intro s' hsteps
  rw [pagesIn_of_dvd hpages] at hsteps
  unfold mapPageRange
  by_cases hone : length = 0x1000
  · have honePage : pages = 1 := by
      rw [hone] at hpages
      have h4096 : (0x1000 : BitVec 32).toNat = 4096 := rfl
      omega
    rw [honePage] at hsteps
    have hcall : mapPage n c s = some s' := (Option.bind_fun_some _).symm.trans hsteps
    refine ⟨0, s', 0, ?_, SameTables.refl _ _⟩
    rw [if_neg fun hc => hc.2 hone, hcall]
    rfl
  · have hloop : (mapPageLoop (mapPage n) (pages + 1) c length s).map Prod.fst = _ :=
      mapPageLoop_pages pages hpages c s
    rw [mapPages_writable (hflag.resolve_left hone), hsteps] at hloop
    obtain ⟨⟨t, r⟩, hrun, ht⟩ := Option.map_eq_some_iff.mp hloop
    obtain rfl : t = s' := ht
    refine ⟨pages + 1, t, r, ?_, SameTables.refl _ _⟩
    rw [if_pos ⟨hlen, hone⟩, hrun]

theorem dvd_of_rangeAgrees {s' : Machine} (hlen : length ≠ 0)
    (hsteps : mapPages (mapPage n) (pagesIn length) c s = some s')
    (h : RangeAgrees n c length s) : 4096 ∣ length.toNat := by
  obtain ⟨k, t, r, hrange, -⟩ := h s' hsteps
  apply Nat.dvd_of_mod_eq_zero
  by_contra hmod
  have hone : length ≠ 0x1000 := by
    rintro rfl
    exact hmod rfl
  unfold mapPageRange at hrange
  rw [if_pos ⟨hlen, hone⟩, mapPageLoop_endless hmod] at hrange
  exact absurd hrange (by simp)

end Loop

section LastPage
variable {n : Nat} {c : MapCall} {s s' : Machine} {free : List PhysAddr}

theorem writable_entryWord (c : MapCall) (p : PhysAddr) :
    (c.entryWord p).getLsbD 1 = c.writable := by
  have hmask : pageMask.getLsbD 1 = false := by decide
  have hP : pPresent.getLsbD 1 = false := by decide
  have hU : pUser.getLsbD 1 = false := by decide
  have hW : pWritable.getLsbD 1 = true := by decide
  have hC : pCacheDisabled.getLsbD 1 = false := by decide
  have hT : pWriteThrough.getLsbD 1 = false := by decide
  have hasked : ∀ (e flag : BitVec 32) (asked : Bool),
      (if asked then e ||| flag else e).getLsbD 1 =
        (e.getLsbD 1 || asked && flag.getLsbD 1) := by
    intro e flag asked
    cases asked with
    | false => simp
    | true => simp
  unfold MapCall.entryWord
  dsimp only
  rw [hasked, hasked, hasked, hasked, BitVec.getLsbD_or, BitVec.getLsbD_and, hmask, hP, hU, hW,
    hC, hT]
  simp

theorem mapPage_step (h : Ready s free) (hasp : c.asp = none) (hva : pdIndex c.virtaddr ≠ 255)
    (hcall : mapPage (n + 2) c s = some s') :
    s'.cr3 = s.cr3 ∧ (∃ rest, Ready s' rest) ∧
      (c.unmap = false → ∃ e, s'.entry c.virtaddr = some e ∧ e.getLsbD 1 = c.writable) := by
  obtain ⟨tables, pages, rest, s₁, -, hopen, h₁, henter⟩ := mapPage_returned h hasp hva hcall
  refine ⟨henter.cr3.trans hopen.cr3, ⟨rest, henter.ready h₁ hopen.present hva⟩, fun hmap => ?_⟩
  refine ⟨_, ?_, writable_entryWord c (pages.headD c.physaddr)⟩
  rw [henter.entry_self h₁ hopen.present hva, hmap, if_neg Bool.false_ne_true]

theorem next_address (c : MapCall) (k : Nat) :
    c.next.virtaddr + BitVec.ofNat 32 (k * 4096) =
      c.virtaddr + BitVec.ofNat 32 ((k + 1) * 4096) := by
  show c.virtaddr + 0x1000 + _ = _
  bv_omega

theorem mapPages_last (pages : Nat) (h : Ready s free) (hasp : c.asp = none)
    (hva : ∀ k ≤ pages, pdIndex (c.virtaddr + BitVec.ofNat 32 (k * 4096)) ≠ 255)
    (hcalls : mapPages (mapPage (n + 2)) (pages + 1) c s = some s') :
    s'.cr3 = s.cr3 ∧ (c.unmap = false →
      ∃ e, s'.entry (c.virtaddr + BitVec.ofNat 32 (pages * 4096)) = some e ∧
        e.getLsbD 1 = c.writable) := by
  induction pages generalizing c s free with
  | zero =>
    have hfirst := hva 0 (Nat.le_refl 0)
    have hcall : mapPage (n + 2) c s = some s' := (Option.bind_fun_some _).symm.trans hcalls
    rw [Nat.zero_mul, BitVec.add_zero] at hfirst ⊢
    obtain ⟨hcr3, -, hentry⟩ := mapPage_step h hasp hfirst hcall
    exact ⟨hcr3, hentry⟩
  | succ pages ih =>
    have hfirst := hva 0 (Nat.zero_le _)
    rw [Nat.zero_mul, BitVec.add_zero] at hfirst
    unfold mapPages at hcalls
    obtain ⟨t, hcall, hrest⟩ := Option.bind_eq_some_iff.mp hcalls
    obtain ⟨hcr3, ⟨rest, hready⟩, -⟩ := mapPage_step h hasp hfirst hcall
    have hva' : ∀ k ≤ pages, pdIndex (c.next.virtaddr + BitVec.ofNat 32 (k * 4096)) ≠ 255 := by
      intro k hk
      rw [next_address]
      exact hva (k + 1) (by omega)
    obtain ⟨hcr3', hentry⟩ := ih (c := c.next) (s := t) hready ((c.next_asp).trans hasp) hva' hrest
    rw [next_address, MapCall.next_unmap, MapCall.next_writable] at hentry
    exact ⟨hcr3'.trans hcr3, hentry⟩

/-- With two free pages for each page of the range, all calls return. -/
theorem mapPages_returns (pages : Nat) (h : Ready s free) (hfree : 2 * pages ≤ free.length)
    (hasp : c.asp = none)
    (hva : ∀ k < pages, pdIndex (c.virtaddr + BitVec.ofNat 32 (k * 4096)) ≠ 255) :
    ∃ s', mapPages (mapPage (n + 2)) pages c s = some s' := by
  induction pages generalizing c s free with
  | zero => exact ⟨s, rfl⟩
  | succ pages ih =>
    have hfirst := hva 0 (Nat.succ_pos pages)
    rw [Nat.zero_mul, BitVec.add_zero] at hfirst
    obtain ⟨tables, taken, rest, s₁, t, hsplit, hcall, hopen, h₁, henter⟩ :=
      mapPage_outcome (n := n) h (by omega) hasp hfirst
    have htables : tables.length ≤ 1 := by
      cases hopen with
      | found => exact Nat.zero_le 1
      | made => exact Nat.le_refl 1
    have htaken : taken.length ≤ 1 := by
      cases henter with
      | cleared => exact Nat.zero_le 1
      | given => exact Nat.zero_le 1
      | fresh => exact Nat.le_refl 1
    have hlen : free.length = tables.length + (taken.length + rest.length) := by
      rw [hsplit, List.length_append, List.length_append]
    have hva' : ∀ k < pages, pdIndex (c.next.virtaddr + BitVec.ofNat 32 (k * 4096)) ≠ 255 := by
      intro k hk
      rw [next_address]
      exact hva (k + 1) (by omega)
    obtain ⟨s', hrest⟩ := ih (c := c.next) (s := t) (henter.ready h₁ hopen.present hfirst)
      (by omega) ((c.next_asp).trans hasp) hva'
    refine ⟨s', ?_⟩
    unfold mapPages
    rw [hcall]
    exact hrest

/-- Read-only pages in the current address space differ at least in the last one. -/
theorem works_of_rangeAgrees {length : BitVec 32} (hlen : length ≠ 0) (h : Ready s free)
    (hasp : c.asp = none)
    (hva : ∀ k < pagesIn length, pdIndex (c.virtaddr + BitVec.ofNat 32 (k * 4096)) ≠ 255)
    (hsteps : mapPages (mapPage (n + 2)) (pagesIn length) c s = some s')
    (hagrees : RangeAgrees (n + 2) c length s) : RangeWorks c length s := by
  have hdvd := dvd_of_rangeAgrees hlen hsteps hagrees
  refine ⟨hdvd, ?_⟩
  by_contra hnot
  simp only [not_or, Bool.not_eq_true] at hnot
  obtain ⟨hone, hwrite, hunmap, -⟩ := hnot
  obtain ⟨pages, hpages⟩ := hdvd
  rw [Nat.mul_comm] at hpages
  rw [pagesIn_of_dvd hpages] at hva hsteps
  obtain ⟨k, t, r, hrange, hsame⟩ := hagrees s' (by rw [pagesIn_of_dvd hpages]; exact hsteps)
  unfold mapPageRange at hrange
  rw [if_pos ⟨hlen, hone⟩] at hrange
  have hrounds := mapPageLoop_returned hpages hrange
  cases pages with
  | zero => exact hlen (BitVec.eq_of_toNat_eq (by rw [hpages]; rfl))
  | succ pages =>
    have hva' : ∀ k ≤ pages, pdIndex (c.virtaddr + BitVec.ofNat 32 (k * 4096)) ≠ 255 :=
      fun k hk => hva k (by omega)
    obtain ⟨-, hplain⟩ := mapPages_last pages h hasp hva' hsteps
    obtain ⟨-, hloop⟩ := mapPages_last (c := c.asWritable) pages h hasp hva' hrounds
    obtain ⟨e, he, hbit⟩ := hplain hunmap
    obtain ⟨e', he', hbit'⟩ := hloop hunmap
    have hentry : some e' = some e := he'.symm.trans ((hsame.loaded _).trans he)
    obtain rfl := Option.some.inj hentry
    rw [hwrite] at hbit
    exact absurd (hbit.symm.trans hbit') (by simp [MapCall.asWritable])

end LastPage

/-- The range is mapped page by page if its length is a multiple of the page size and the pages
are writable, unmapped or a single one; in the current address space only then. -/
theorem rangeAgrees_iff (n : Nat) (c : MapCall) (length : BitVec 32) (s : Machine)
    (hlen : length ≠ 0) :
    (RangeWorks c length s → RangeAgrees n c length s) ∧
    (∀ s', mapPages (mapPage n) (pagesIn length) c s = some s' → RangeAgrees n c length s →
      4096 ∣ length.toNat) ∧
    (∀ free s', Ready s free → c.asp = none →
      (∀ k < pagesIn length, pdIndex (c.virtaddr + BitVec.ofNat 32 (k * 4096)) ≠ 255) → 2 ≤ n →
      mapPages (mapPage n) (pagesIn length) c s = some s' →
      (RangeAgrees n c length s ↔ RangeWorks c length s)) := by
  refine ⟨rangeAgrees_of_works hlen, fun s' => dvd_of_rangeAgrees hlen,
    fun free s' h hasp hva hn hsteps => ⟨fun hagrees => ?_, rangeAgrees_of_works hlen⟩⟩
  obtain ⟨n, rfl⟩ := Nat.exists_eq_add_of_le' hn
  exact works_of_rangeAgrees hlen h hasp hva hsteps hagrees

theorem rangeAgrees_two_pages : RangeAgrees 2 { virtaddr := 0x40000000 } 0x2000 sample :=
  (rangeAgrees_iff 2 { virtaddr := 0x40000000 } 0x2000 sample (by decide)).1
    ⟨by decide, .inr (.inl rfl)⟩

/-- Two read-only pages become writable. -/
theorem read_only_pages_differ :
    ∃ s', mapPages (mapPage 2) (pagesIn 0x2000) { virtaddr := 0x40000000, writable := false }
        sample = some s' ∧
      ¬ RangeAgrees 2 { virtaddr := 0x40000000, writable := false } 0x2000 sample := by
  have hva : ∀ k < pagesIn 0x2000,
      pdIndex ((0x40000000 : Uintptr) + BitVec.ofNat 32 (k * 4096)) ≠ 255 := by decide
  obtain ⟨s', hsteps⟩ := mapPages_returns (n := 0)
    (c := { virtaddr := 0x40000000, writable := false }) (pagesIn 0x2000) sample_ready (by decide)
    rfl hva
  refine ⟨s', hsteps, fun hagrees => ?_⟩
  obtain ⟨-, hflag⟩ := works_of_rangeAgrees (n := 0)
    (c := { virtaddr := 0x40000000, writable := false }) (by decide) sample_ready rfl hva hsteps
    hagrees
  exact absurd hflag (by decide)

end Machine
end Tysos
