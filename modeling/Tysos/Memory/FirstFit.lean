import Tysos.Memory.FindFree
import Tysos.Support.Sliding
import Mathlib.Algebra.Order.Group.Int

/-!
# What FindFree finds

`FindFree` tries the start of the range and the pages after the sections only, and still finds
a place whenever there is one. `CheckExtents` then recognises the place unless it has the last
byte of the range, which `FindFree` may give away.
-/

namespace Tysos
set_option autoImplicit false

namespace SectionList
open Section Sliding

section
variable {request : Section} {sections : List Section}

/-- The next page boundary from `a` on. -/
def pageAfter (a : Int) : Int := (a + 4095) / 4096 * 4096

theorem pageUp_eq {c : Uintptr} {x : Nat} (hpage : x % 4096 = 0) (hx : x < 2 ^ 32)
    (hle : c.toNat ≤ x) : ((pageUp c).toNat : Int) = pageAfter c.toNat := by
  rw [pageUp_toNat (by omega)]
  unfold pageAfter
  omega

/-- One start with a free place from it on is enough. -/
theorem findfreeLoop_complete {starts : List Uintptr} {start : Uintptr} (hmem : start ∈ starts)
    (hmin : pageUp start ≥ request.rangeMin)
    (hmax : pageUp start + request.extentLength - 1 ≤ request.rangeMax)
    (hfree : isfree sections ⟨pageUp start + request.extentLength - 1, pageUp start⟩ = true) :
    ∃ r, findfreeLoop sections request starts = some r := by
  induction starts with
  | nil => exact absurd hmem List.not_mem_nil
  | cons first rest ih =>
    unfold findfreeLoop
    dsimp only
    split
    · exact ⟨_, rfl⟩
    · rename_i htest
      rcases List.mem_cons.mp hmem with rfl | hrest
      · exact absurd ⟨hmin, hmax, hfree⟩ htest
      · exact ih hrest

theorem limit_toNat_of_accepted {s : Section} (h : s.Accepted) :
    (s.limit.toNat : Int) = s.hi := by
  have hhi := h.below
  have hmax := s.rangeMax_lt
  unfold hi at hhi ⊢
  unfold Section.limit
  bv_omega

/-- The free place at `x` slides down to a start that is tried. -/
theorem exists_start (hpos : 0 < request.total) {x : Nat} (hpage : x % 4096 = 0)
    (hmin : request.rangeMin.toNat ≤ x) (hmax : x + request.total - 1 ≤ request.rangeMax.toNat)
    (hmiss : ∀ s ∈ sections, s.Accepted → Misses (x : Int) request.total s.lo s.hi) :
    ∃ start ∈ request.rangeMin :: sections.map Section.limit,
      request.rangeMin.toNat ≤ (pageUp start).toNat ∧ (pageUp start).toNat ≤ x ∧
      ∀ s ∈ sections, s.Accepted →
        Misses ((pageUp start).toNat : Int) request.total s.lo s.hi := by
  have hx : x < 2 ^ 32 := by
    have hlt := request.rangeMax_lt
    omega
  have hblocks : ∀ b ∈ (sections.filter (·.Accepted)).map fun s => (s.lo, s.hi),
      Misses (x : Int) request.total b.1 b.2 := by
    intro b hb
    obtain ⟨s, hs, rfl⟩ := List.mem_map.mp hb
    rw [List.mem_filter, decide_eq_true_eq] at hs
    exact hmiss s hs.1 hs.2
  have hup : ∀ a, a ≤ pageAfter a := fun a => by unfold pageAfter; omega
  have hround : ∀ a ≤ (x : Int), pageAfter a ≤ x := fun a ha => by unfold pageAfter; omega
  have hfirst : (request.rangeMin.toNat : Int) ≤ x := by omega
  obtain ⟨y, hy, hstart, hyx, hclear⟩ := exists_window hup hround hfirst hblocks
  have hfound : ∃ start ∈ request.rangeMin :: sections.map Section.limit,
      (start.toNat : Int) = y := by
    rcases List.mem_cons.mp hy with rfl | hend
    · exact ⟨request.rangeMin, List.mem_cons_self, rfl⟩
    · simp only [List.map_map, List.mem_map, List.mem_filter, decide_eq_true_eq,
        Function.comp_apply] at hend
      obtain ⟨s, ⟨hs, hacc⟩, rfl⟩ := hend
      exact ⟨s.limit, List.mem_cons_of_mem _ (List.mem_map_of_mem hs),
        limit_toNat_of_accepted hacc⟩
  obtain ⟨start, hmem, rfl⟩ := hfound
  have hle : start.toNat ≤ x := by
    unfold pageAfter at hyx
    omega
  rw [← pageUp_eq hpage hx hle] at hstart hyx hclear
  refine ⟨start, hmem, by omega, by omega, fun s hs hacc => ?_⟩
  refine hclear (s.lo, s.hi) (List.mem_map.mpr ⟨s, ?_, rfl⟩)
  rw [List.mem_filter, decide_eq_true_eq]
  exact ⟨hs, hacc⟩

end

/-- If there is a free page-aligned place for the request, `FindFree` returns the request. -/
theorem findFree_complete {l : SectionList} {request : Section} (hpos : 0 < request.total)
    (hwrap : request.total < 2 ^ 32) {x : Nat} (hpage : x % 4096 = 0)
    (hmin : request.rangeMin.toNat ≤ x) (hmax : x + request.total - 1 ≤ request.rangeMax.toNat)
    (hfree : ∀ s ∈ l.ofKind request, ∀ e, s.checkExtents = some e →
      e.upper.toNat < x ∨ x + request.total ≤ e.lower.toNat) :
    ∃ base, l.findFree request = some { request with base := base } := by
  have hlt := request.rangeMax_lt
  have hmiss : ∀ s ∈ l.ofKind request, s.Accepted →
      Misses (x : Int) request.total s.lo s.hi := by
    intro s hs hacc
    obtain ⟨e, he, hlo, hhi⟩ := hacc.extent
    have hone := hfree s hs e he
    unfold Misses
    omega
  obtain ⟨start, hmem, habove, hbelow, hclear⟩ := exists_start hpos hpage hmin hmax hmiss
  have hupper := upper_toNat request (c := pageUp start) hpos (by omega)
  have hroom : pageUp start + request.extentLength - 1 ≤ request.rangeMax := by
    rw [BitVec.le_def]
    omega
  have hisfree : isfree (l.ofKind request)
      ⟨pageUp start + request.extentLength - 1, pageUp start⟩ = true := by
    rw [isfree_iff_apart (by simp only [BitVec.le_def]; omega)]
    intro s hs hacc
    have hone := hclear s hs hacc
    unfold Misses at hone
    simp only
    omega
  obtain ⟨r, hr⟩ := findfreeLoop_complete hmem habove hroom hisfree
  obtain ⟨c, -, -, -, rfl⟩ := findfreeLoop_eq_some hr
  exact ⟨_, hr⟩

/-- The only free page of a range with a section on each side of it. -/
theorem findFree_between : ∃ base,
    (⟨[{ kernelRequest 0x100000 with base := 0x100000 },
        { kernelRequest 0x3f9fe000 with base := 0x201000 }], []⟩ : SectionList).findFree
      (kernelRequest 0x1000) = some { kernelRequest 0x1000 with base := base } :=
  findFree_complete (by decide) (by decide) (x := 0x200000) (by decide) (by decide) (by decide)
    (by decide)

end SectionList

namespace Section

/-- The last byte reserved for the section. -/
def last (s : Section) : Int := s.hi - 1

/-- The section is the exact interval it stands for, inside its range, whose last byte it may
use. -/
def WithinRange (s : Section) : Prop :=
  (s.rangeMin.toNat : Int) ≤ s.lo ∧ s.lo ≤ s.last ∧ s.last ≤ s.rangeMax.toNat

/-- No 32-bit sum or difference of `CheckExtents` wraps around. -/
structure Unwrapped (s : Section) : Prop where
  expandDown : ((s.base - s.expandDown).toNat : Int) = s.base.toNat - s.expandDown.toNat
  lower : ((s.base - s.expandDown - s.lowerPadding).toNat : Int) = s.lo
  length : (s.base + s.length).toNat = s.base.toNat + s.length.toNat
  expandUp : (s.base + s.length + s.expandUp).toNat =
    s.base.toNat + s.length.toNat + s.expandUp.toNat
  upper : ((s.base + s.length + s.expandUp + s.upperPadding).toNat : Int) = s.hi

/-- `CheckExtents` accepts the section exactly when it is within its range, with its exact
ends. -/
structure DecidesExactly (s : Section) : Prop where
  accepts_iff : s.checkExtents.isSome = true ↔ s.WithinRange
  extent : ∀ e, s.checkExtents = some e →
    (e.lower.toNat : Int) = s.lo ∧ (e.upper.toNat : Int) = s.last ∧ s.Unwrapped

/-- The section with its reserved bytes from `c` on, as `_findfree` sets its base. -/
def placedAt (s : Section) (c : Uintptr) : Section :=
  { s with base := c + s.lowerPadding + s.expandDown }

/-- The place passes the range test of `_findfree`. -/
def InsideAt (s : Section) (c : Uintptr) : Prop :=
  c ≥ s.rangeMin ∧ c + s.extentLength - 1 ≤ s.rangeMax

theorem isSome_checkExtents_iff (s : Section) : s.checkExtents.isSome = true ↔ s.Accepted := by
  rw [← Option.not_isNone, Bool.not_eq_true', Bool.eq_false_iff, ne_eq, Option.isNone_iff_eq_none,
    checkExtents_eq_none_iff, not_not]

theorem Accepted.unwrapped {s : Section} (h : s.Accepted) : s.Unwrapped := by
  have hmin := h.above
  have hmax := h.below
  have hlt := s.rangeMax_lt
  constructor
  all_goals
    unfold lo hi at *
    bv_omega

/-- A section is accepted at `c` when nothing wraps there and it ends before the last byte. -/
theorem accepted_placedAt_iff {s : Section} (hdef : s.has flagDefined = true) {c : Uintptr}
    (hmin : c ≥ s.rangeMin) :
    (s.placedAt c).Accepted ↔ 0 < s.total ∧ c.toNat + s.total ≤ s.rangeMax.toNat := by
  have hrmin : (s.placedAt c).rangeMin = s.rangeMin := rfl
  have hrmax : (s.placedAt c).rangeMax = s.rangeMax := rfl
  have htotal : (s.placedAt c).total = s.total := rfl
  have hsum := (s.placedAt c).hi_eq_lo_add_total
  have hlt := s.rangeMax_lt
  have hle : s.lowerPadding.toNat + s.expandDown.toNat ≤ s.total := by
    unfold total
    omega
  rw [ge_iff_le, BitVec.le_def] at hmin
  rw [htotal] at hsum
  have hlo : (s.placedAt c).lo = ((c + s.lowerPadding + s.expandDown).toNat : Int) -
      s.expandDown.toNat - s.lowerPadding.toNat := rfl
  rw [accepted_iff, hrmin, hrmax, hsum]
  constructor
  · rintro ⟨-, habove, hbelow, hne⟩
    have hstart : (s.placedAt c).lo = c.toNat := by
      rw [hlo] at habove ⊢
      bv_omega
    omega
  · rintro ⟨hpos, hroom⟩
    have hstart : (s.placedAt c).lo = c.toNat := by
      rw [hlo]
      bv_omega
    rw [hstart]
    exact ⟨hdef, by omega, by omega, by omega⟩

/-- `CheckExtents` is exact but for sections with the last byte of their range; of the places that
`_findfree` accepts it recognises those that end before this byte. -/
theorem checkExtents_exact_iff {s : Section} (hdef : s.has flagDefined = true) :
    (s.DecidesExactly ↔ ¬ (s.WithinRange ∧ s.last = s.rangeMax.toNat)) ∧
      ∀ c, s.InsideAt c → ((s.placedAt c).checkExtents.isSome = true ↔
        0 < s.total ∧ c.toNat + s.total ≤ s.rangeMax.toNat) := by
  have hacc : s.Accepted ↔ s.WithinRange ∧ s.last ≠ s.rangeMax.toNat := by
    rw [accepted_iff]
    unfold WithinRange last
    simp only [hdef, true_and]
    omega
  constructor
  · constructor
    · rintro h ⟨hwithin, hlast⟩
      have haccepted := (isSome_checkExtents_iff s).mp (h.accepts_iff.mpr hwithin)
      exact (hacc.mp haccepted).2 hlast
    · intro hnot
      refine ⟨?_, fun e he => ?_⟩
      · rw [isSome_checkExtents_iff, hacc]
        exact ⟨fun h => h.1, fun h => ⟨h, fun hlast => hnot ⟨h, hlast⟩⟩⟩
      · obtain ⟨haccepted, hlo, hhi⟩ := (checkExtents_eq_some_iff s e).mp he
        exact ⟨hlo, hhi, haccepted.unwrapped⟩
  · rintro c ⟨hmin, -⟩
    rw [isSome_checkExtents_iff]
    exact accepted_placedAt_iff hdef hmin

theorem kernelRequest_exact :
    ((SectionList.kernelRequest 0x1000).DecidesExactly ↔
      ¬ ((SectionList.kernelRequest 0x1000).WithinRange ∧
        (SectionList.kernelRequest 0x1000).last =
          (SectionList.kernelRequest 0x1000).rangeMax.toNat)) ∧
      ∀ c, (SectionList.kernelRequest 0x1000).InsideAt c →
        (((SectionList.kernelRequest 0x1000).placedAt c).checkExtents.isSome = true ↔
          0 < (SectionList.kernelRequest 0x1000).total ∧
            c.toNat + (SectionList.kernelRequest 0x1000).total ≤
              (SectionList.kernelRequest 0x1000).rangeMax.toNat) :=
  checkExtents_exact_iff (by decide)

/-- The last page of the kernel range is within it, but is turned down. -/
theorem last_page_turned_down :
    ¬ ∀ s : Section, s.has flagDefined = true → s.DecidesExactly := by
  intro h
  have hexact := h ((SectionList.kernelRequest 0x1000).placedAt 0x3fbff000) (by decide)
  have hwithin : ((SectionList.kernelRequest 0x1000).placedAt 0x3fbff000).WithinRange := by
    unfold WithinRange
    decide
  have hsome := hexact.accepts_iff.mpr hwithin
  exact absurd hsome (by decide)

end Section
end Tysos
