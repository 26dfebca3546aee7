import Tysos.Memory.SectionList

/-!
# Where FindFree places a section

As long as no start it tries makes a 32-bit sum wrap, and the sections that `CheckExtents`
turns down are out of the way, `FindFree` returns a place inside the range and clear of all
sections of the list, and a list filled by it stays pairwise disjoint.
-/

namespace Tysos
set_option autoImplicit false

namespace Section

/-- The section lies inside its range, whose last byte it may use. -/
def Inside (s : Section) : Prop := (s.rangeMin.toNat : Int) ≤ s.lo ∧ s.hi ≤ s.rangeMax.toNat + 1

instance (s : Section) : Decidable s.Inside := inferInstanceAs (Decidable (_ ∧ _))

/-- There is room for the request from address `c` on. -/
structure FitsAt (request : Section) (sections : List Section) (c : Nat) : Prop where
  above : request.rangeMin.toNat ≤ c
  below : c + request.total ≤ request.rangeMax.toNat + 1
  apart : ∀ s ∈ sections, s.hi ≤ c ∨ (c : Int) + request.total ≤ s.lo

instance (request : Section) (sections : List Section) (c : Nat) :
    Decidable (request.FitsAt sections c) :=
  decidable_of_iff (request.rangeMin.toNat ≤ c ∧ c + request.total ≤ request.rangeMax.toNat + 1 ∧
      ∀ s ∈ sections, s.hi ≤ c ∨ (c : Int) + request.total ≤ s.lo)
    ⟨fun h => ⟨h.1, h.2.1, h.2.2⟩, fun h => ⟨h.1, h.2, h.3⟩⟩

/-- The start is turned down, since it lies in a section `CheckExtents` accepts; or nothing
wraps from there, and the sections `CheckExtents` does not accept are not in the way. -/
def SafeAt (request : Section) (sections : List Section) (c : Nat) : Prop :=
  (∃ s ∈ sections, s.Accepted ∧ s.lo ≤ c ∧ c < s.hi) ∨
    c + request.total ≤ 2 ^ 32 ∧
      c + request.lowerPadding.toNat + request.expandDown.toNat < 2 ^ 32 ∧
      ∀ s ∈ sections, ¬ s.Accepted → s.hi ≤ c ∨ (c : Int) + request.total ≤ s.lo

instance (request : Section) (sections : List Section) (c : Nat) :
    Decidable (request.SafeAt sections c) := inferInstanceAs (Decidable (_ ∨ _))

/-- All starts are safe up to the first with room for the request. -/
def ClearFrom (request : Section) (sections : List Section) : List Uintptr → Prop
  | [] => True
  | start :: rest =>
    (request.rangeMin ≤ pageUp start → request.SafeAt sections (pageUp start).toNat) ∧
      (¬ request.FitsAt sections (pageUp start).toNat → request.ClearFrom sections rest)

instance ClearFrom.decidable (request : Section) (sections : List Section) :
    ∀ starts, Decidable (request.ClearFrom sections starts)
  | [] => isTrue trivial
  | _ :: rest =>
    have := ClearFrom.decidable request sections rest
    inferInstanceAs (Decidable (_ ∧ _))

/-- The request is less than 4 GiB in all, and safe at the starts `_findfree` tries. -/
def Clear (request : Section) (sections : List Section) : Prop :=
  request.total < 2 ^ 32 ∧
    request.ClearFrom sections (request.rangeMin :: sections.map Section.limit)

instance (request : Section) (sections : List Section) : Decidable (request.Clear sections) :=
  inferInstanceAs (Decidable (_ ∧ _))

theorem toNat_extentLength (s : Section) : s.extentLength.toNat = s.total % 2 ^ 32 := by
  unfold extentLength total
  simp only [BitVec.toNat_add]
  omega

end Section

namespace SectionList
open Section

theorem isfree_iff (sections : List Section) (re : Extent) :
    isfree sections re = true ↔
      ∀ s ∈ sections, ∀ se, s.checkExtents = some se → re.eq se = false := by
  unfold isfree
  rw [List.all_eq_true]
  constructor
  · intro h s hs se he
    have hone := h s hs
    rw [he] at hone
    simpa using hone
  · intro h s hs
    cases he : s.checkExtents with
    | none => rfl
    | some se => simpa using h s hs se he

theorem isfree_iff_apart {sections : List Section} {re : Extent} (hre : re.lower ≤ re.upper) :
    isfree sections re = true ↔ ∀ s ∈ sections, s.Accepted →
      s.hi ≤ re.lower.toNat ∨ (re.upper.toNat : Int) + 1 ≤ s.lo := by
  rw [isfree_iff]
  have hmeet : ∀ (s : Section) (se : Extent), s.checkExtents = some se → (re.eq se = false ↔
      s.hi ≤ re.lower.toNat ∨ (re.upper.toNat : Int) + 1 ≤ s.lo) := by
    intro s se he
    obtain ⟨hacc, hl, hu⟩ := (checkExtents_eq_some_iff s se).mp he
    have hne := hacc.nonempty
    have hse : se.lower ≤ se.upper := by
      rw [BitVec.le_def]
      omega
    rw [← Bool.not_eq_true, Extent.eq_iff_meets hre hse, Interval.Meets]
    omega
  constructor
  · intro h s hs hacc
    obtain ⟨se, he, -⟩ := hacc.extent
    exact (hmeet s se he).mp (h s hs se he)
  · intro h s hs se he
    exact (hmeet s se he).mpr (h s hs ((checkExtents_eq_some_iff s se).mp he).1)

/-- A start inside an accepted section is never free, even if the interval wraps. -/
theorem not_isfree_of_mem {sections : List Section} {re : Extent} {s : Section}
    (hs : s ∈ sections) (hacc : s.Accepted) (hlo : s.lo ≤ re.lower.toNat)
    (hhi : (re.lower.toNat : Int) < s.hi) : ¬ isfree sections re = true := by
  intro h
  obtain ⟨se, he, hl, hu⟩ := hacc.extent
  have heq : re.eq se = true := by
    rw [Extent.eq_iff]
    refine Or.inl ⟨?_, ?_⟩ <;> rw [BitVec.le_def] <;> omega
  rw [(isfree_iff sections re).mp h s hs se he] at heq
  exact absurd heq (by simp)

variable {request : Section} {sections : List Section}

theorem upper_toNat (request : Section) {c : Uintptr} (hpos : 0 < request.total)
    (hwrap : c.toNat + request.total ≤ 2 ^ 32) :
    (c + request.extentLength - 1).toNat + 1 = c.toNat + request.total := by
  have hlen := toNat_extentLength request
  bv_omega

theorem test_of_fitsAt {c : Uintptr} (hpos : 0 < request.total)
    (h : request.FitsAt sections c.toNat) :
    c ≥ request.rangeMin ∧ c + request.extentLength - 1 ≤ request.rangeMax ∧
      isfree sections ⟨c + request.extentLength - 1, c⟩ = true := by
  have hmax := request.rangeMax_lt
  have hbelow := h.below
  have hwrap : c.toNat + request.total ≤ 2 ^ 32 := by omega
  have hup := upper_toNat request hpos hwrap
  refine ⟨?_, ?_, ?_⟩
  · rw [ge_iff_le, BitVec.le_def]
    exact h.above
  · rw [BitVec.le_def]
    omega
  · rw [isfree_iff_apart (by simp only [BitVec.le_def]; omega)]
    intro s hs _
    rcases h.apart s hs with ha | ha
    · exact Or.inl ha
    · right
      simp only
      omega

theorem fitsAt_of_test {c : Uintptr} (hpos : 0 < request.total)
    (hsafe : request.SafeAt sections c.toNat) (hmin : c ≥ request.rangeMin)
    (hmax : c + request.extentLength - 1 ≤ request.rangeMax)
    (hfree : isfree sections ⟨c + request.extentLength - 1, c⟩ = true) :
    request.FitsAt sections c.toNat ∧
      c.toNat + request.lowerPadding.toNat + request.expandDown.toNat < 2 ^ 32 := by
  rcases hsafe with ⟨s, hs, hacc, hlo, hhi⟩ | ⟨hwrap, hbase, hrej⟩
  · exact absurd hfree (not_isfree_of_mem hs hacc hlo hhi)
  · have hup := upper_toNat request hpos hwrap
    rw [isfree_iff_apart (by simp only [BitVec.le_def]; omega)] at hfree
    rw [BitVec.le_def] at hmax
    refine ⟨⟨hmin, by omega, fun s hs => ?_⟩, hbase⟩
    by_cases hacc : s.Accepted
    · rcases hfree s hs hacc with ha | ha
      · exact Or.inl ha
      · right
        simp only at ha
        omega
    · exact hrej s hs hacc

theorem findfreeLoop_sound {starts : List Uintptr} (hpos : 0 < request.total)
    (hclear : request.ClearFrom sections starts) {r : Section}
    (hr : findfreeLoop sections request starts = some r) :
    ∃ c : Uintptr, request.FitsAt sections c.toNat ∧
      c.toNat + request.lowerPadding.toNat + request.expandDown.toNat < 2 ^ 32 ∧
      r = { request with base := c + request.lowerPadding + request.expandDown } := by
  induction starts with
  | nil => simp [findfreeLoop] at hr
  | cons start rest ih =>
    unfold findfreeLoop at hr
    dsimp only at hr
    split at hr
    · rename_i htest
      obtain ⟨hfit, hbase⟩ :=
        fitsAt_of_test hpos (hclear.1 htest.1) htest.1 htest.2.1 htest.2.2
      exact ⟨pageUp start, hfit, hbase, (Option.some.inj hr).symm⟩
    · rename_i htest
      exact ih (hclear.2 fun hfit => htest (test_of_fitsAt hpos hfit)) hr

end SectionList

namespace Section

/-- The section is inside its range and clear of all of `sections`. -/
def Fits (s : Section) (sections : List Section) : Prop :=
  s.Inside ∧ ∀ t ∈ sections, s.Apart t

instance (s : Section) (sections : List Section) : Decidable (s.Fits sections) :=
  inferInstanceAs (Decidable (_ ∧ _))

theorem FitsAt.fits {request : Section} {sections : List Section} {c : Uintptr}
    (h : request.FitsAt sections c.toNat)
    (hbase : c.toNat + request.lowerPadding.toNat + request.expandDown.toNat < 2 ^ 32) :
    ({ request with base := c + request.lowerPadding + request.expandDown } : Section).Fits
      sections := by
  have hlo : ({ request with
      base := c + request.lowerPadding + request.expandDown } : Section).lo = c.toNat := by
    unfold lo
    dsimp only
    bv_omega
  have hhi : ({ request with
      base := c + request.lowerPadding + request.expandDown } : Section).hi =
      c.toNat + request.total := by
    rw [hi_eq_lo_add_total, hlo]
    rfl
  have habove := h.above
  have hbelow := h.below
  refine ⟨⟨?_, ?_⟩, fun t ht => ?_⟩
  · rw [hlo]
    change (request.rangeMin.toNat : Int) ≤ _
    omega
  · rw [hhi]
    change _ ≤ (request.rangeMax.toNat : Int) + 1
    omega
  · unfold Apart
    rw [hlo, hhi]
    exact (h.apart t ht).symm

end Section

namespace SectionList
open Section

theorem findFree_fits {l : SectionList} {request r : Section} (hpos : 0 < request.total)
    (hclear : request.Clear (l.ofKind request)) (hr : l.findFree request = some r) :
    r.Fits (l.ofKind r) ∧ r.flags = request.flags := by
  obtain ⟨c, hfit, hbase, rfl⟩ := findfreeLoop_sound hpos hclear.2 hr
  exact ⟨hfit.fits hbase, rfl⟩

/-- Both lists are pairwise disjoint and inside their ranges. -/
structure Laid (l : SectionList) : Prop where
  kernel : l.kernelSections.Pairwise Apart
  process : l.processSections.Pairwise Apart
  kernelInside : ∀ s ∈ l.kernelSections, s.Inside
  processInside : ∀ s ∈ l.processSections, s.Inside

theorem pairwise_concat {sections : List Section} {r : Section}
    (h : sections.Pairwise Apart) (hr : ∀ t ∈ sections, r.Apart t) :
    (sections ++ [r]).Pairwise Apart := by
  rw [List.pairwise_append]
  refine ⟨h, List.pairwise_singleton _ _, fun t ht u hu => ?_⟩
  obtain rfl := List.mem_singleton.mp hu
  exact (hr t ht).symm

theorem inside_concat {sections : List Section} {r : Section}
    (h : ∀ s ∈ sections, s.Inside) (hr : r.Inside) : ∀ s ∈ sections ++ [r], s.Inside := by
  intro s hs
  rcases List.mem_append.mp hs with hs | hs
  · exact h s hs
  · rwa [List.mem_singleton.mp hs]

theorem Laid.add {l : SectionList} (h : l.Laid) {r : Section} (hr : r.Fits (l.ofKind r)) :
    (l.add r).Laid := by
  unfold ofKind at hr
  unfold SectionList.add
  by_cases hk : r.has flagKernelSection = true
  · rw [if_pos hk] at hr
    rw [if_pos hk]
    exact ⟨pairwise_concat h.kernel hr.2, h.process, inside_concat h.kernelInside hr.1,
      h.processInside⟩
  · rw [if_neg hk] at hr
    rw [if_neg hk]
    exact ⟨h.kernel, pairwise_concat h.process hr.2, h.kernelInside,
      inside_concat h.processInside hr.1⟩

/-- What `FindFree` promises for one request: whatever it returns fits. -/
def FreePlace (l : SectionList) (request : Section) : Prop :=
  ∀ r, l.findFree request = some r → r.Fits (l.ofKind r)

instance (l : SectionList) (request : Section) : Decidable (l.FreePlace request) :=
  inferInstanceAs (Decidable (∀ r ∈ l.findFree request, r.Fits (l.ofKind r)))

theorem Laid.place {l l' : SectionList} {request : Section} (h : l.Laid)
    (hpos : 0 < request.total) (hclear : request.Clear (l.ofKind request))
    (hp : l.place request = some l') : l'.Laid := by
  obtain ⟨r, hr, rfl⟩ := Option.map_eq_some_iff.mp hp
  exact h.add (findFree_fits hpos hclear hr).1

/-- In a run of `FindFree` and `Add` whose requests are each clear where they are made, every
place handed out is free and inside the range, and the lists stay pairwise disjoint. -/
theorem placed_sections_fit {l₀ : SectionList} (h₀ : l₀.Laid) {requests : List Section}
    (hreq : Transition.EachStep SectionList.place
      (fun l request => 0 < request.total ∧ request.Clear (l.ofKind request)) l₀ requests) :
    Transition.EachStep SectionList.place FreePlace l₀ requests ∧
      ∀ l, Transition.run SectionList.place l₀ requests = some l → l.Laid := by
  have hstep : ∀ (l : SectionList) (request : Section) (l' : SectionList), l.Laid →
      0 < request.total ∧ request.Clear (l.ofKind request) → l.place request = some l' →
      l'.Laid := fun l request l' hl hc hp => hl.place hc.1 hc.2 hp
  constructor
  · exact hreq.imp hstep (fun l request _ hc r hr => (findFree_fits hc.1 hc.2 hr).1) h₀
  · exact fun l hr => hreq.run_invariant hstep h₀ hr

/-- A readable and writable kernel section without paddings. -/
def kernelRequest (length : Uintptr) : Section := ⟨0x4007, 0, length, 0, 0, 0, 0, 0⟩

def noSections : SectionList := ⟨[], []⟩

theorem noSections_laid : noSections.Laid :=
  ⟨List.Pairwise.nil, List.Pairwise.nil, by simp [noSections], by simp [noSections]⟩

theorem two_placed_sections_fit :
    Transition.EachStep SectionList.place FreePlace noSections
        [kernelRequest 0x1800, kernelRequest 0x1000] ∧
      ∀ l, Transition.run SectionList.place noSections
        [kernelRequest 0x1800, kernelRequest 0x1000] = some l → l.Laid :=
  placed_sections_fit noSections_laid (by decide)

/-- A kernel section as long as the whole kernel range is placed, but `CheckExtents` turns it
down afterwards, and the next request is placed on top of it. -/
theorem findFree_overlaps_full_range :
    ¬ ∀ (l₀ : SectionList) (requests : List Section), l₀.Laid →
      (∀ request ∈ requests, request.has flagDefined = true ∧ 0 < request.total) →
      Transition.EachStep SectionList.place FreePlace l₀ requests := by
  intro h
  have hrun := h noSections [kernelRequest 0x3fb00000, kernelRequest 0x1000] noSections_laid
    (by decide)
  revert hrun
  decide

end SectionList
end Tysos
