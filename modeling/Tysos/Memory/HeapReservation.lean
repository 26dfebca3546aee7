import Tysos.Memory.Heap
import Tysos.Memory.Fault
import Tysos.Memory.FindFree

/-!
# The heap among the other sections

`CheckExtents` adds `Length` and `ExpandUp`, while `sbrk` raises `Length` and leaves `ExpandUp`
as it is. So the reserved extent of the heap goes up with the break, over whatever lies above.
-/

namespace Tysos
set_option autoImplicit false

namespace Section

/-- The extent `FindFree` tested for the section at its place. -/
def placedExtent (s : Section) : Extent :=
  let lower := s.base - s.expandDown - s.lowerPadding
  ⟨lower + s.extentLength - 1, lower⟩

theorem checkExtents_eq_placedExtent {s : Section} {e : Extent} (h : s.checkExtents = some e) :
    e = s.placedExtent := by
  obtain ⟨hacc, hl, hu⟩ := (checkExtents_eq_some_iff s e).mp h
  have hb := hacc.bounds
  have hne := hacc.nonempty
  have hbelow := hacc.below
  have hmax := s.rangeMax_lt
  have htotal := hi_eq_lo_add_total s
  have hdown : (s.base - s.expandDown).toNat = s.base.toNat - s.expandDown.toNat :=
    BitVec.toNat_sub_of_le (by rw [BitVec.le_def]; omega)
  have hlower : (s.base - s.expandDown - s.lowerPadding).toNat =
      s.base.toNat - s.expandDown.toNat - s.lowerPadding.toNat := by
    rw [BitVec.toNat_sub_of_le (by rw [BitVec.le_def]; omega), hdown]
  have hlo : (((s.base - s.expandDown - s.lowerPadding).toNat : Nat) : Int) = s.lo := by
    unfold lo
    omega
  have hupper := SectionList.upper_toNat s (c := s.base - s.expandDown - s.lowerPadding) (by omega)
    (by omega)
  have heq : e.lower = s.placedExtent.lower := BitVec.eq_of_toNat_eq (by
    change _ = (s.base - s.expandDown - s.lowerPadding).toNat
    omega)
  have heq' : e.upper = s.placedExtent.upper := BitVec.eq_of_toNat_eq (by
    change _ = (s.base - s.expandDown - s.lowerPadding + s.extentLength - 1).toNat
    omega)
  cases e
  exact (Extent.mk.injEq _ _ _ _).mpr ⟨heq', heq⟩

end Section

/-- A call of `sbrk`, or the placing of another section: `FindFree`, and `Add` if it returns. -/
inductive HeapOp where
  | sbrk (d : BitVec 32)
  | place (request : Section)

namespace HeapSpace
open Section

def add (s : HeapSpace) (item : Section) : HeapSpace :=
  if item.has flagKernelSection then { s with kernelItems := s.kernelItems ++ [some item] }
  else { s with processSections := s.processSections ++ [item] }

def place (s : HeapSpace) (request : Section) : HeapSpace :=
  match s.sections.findFree request with
  | some r => s.add r
  | none => s

def heapStep (s : HeapSpace) : HeapOp → Option HeapSpace
  | .sbrk d => some (s.sbrk d).1
  | .place request => some (s.place request)

def others (s : HeapSpace) : List Section := s.kernelItems.filterMap id ++ s.processSections

/-- The heap keeps the reservation `s₀` placed it with, apart from all other sections, and a
fault below the break is resolved. -/
structure Reserved (s₀ s : HeapSpace) : Prop where
  extent : s.kheap.checkExtents = some s₀.kheap.placedExtent
  apart : ∀ t ∈ s.others, ∀ te, t.checkExtents = some te → s₀.kheap.placedExtent.eq te = false
  found : ∀ a : Uintptr, s.kheap.Live a.toNat → s.sections.Resolves a

/-- The place found lies inside the kernel range without its last byte. -/
def BelowEnd (heap : Section) : Prop :=
  (kernelStart.toNat : Int) ≤ heap.lo ∧ heap.hi ≤ kernelEnd.toNat

/-- The call does not make the heap grow. -/
def NoGrowth (s : HeapSpace) : HeapOp → Prop
  | .sbrk d => 0 < d.toInt → ¬ InReach s.kheap d
  | .place _ => True

/-- `Add` has put no kernel section among those of the process. -/
def Sorted (s : HeapSpace) : Prop := ∀ t ∈ s.processSections, t.has flagKernelSection = false

theorem placeLoop_found {l : SectionList} {k : Nat} {kheap ks : Section}
    (h : placeLoop l k kheap = (ks, true)) :
    ∃ request : Section, l.findFree request = some ks ∧
      request = { kheap with expandUp := request.expandUp } := by
  induction k generalizing kheap with
  | zero => simp [placeLoop] at h
  | succ k ih =>
    unfold placeLoop at h
    split at h
    · cases hf : l.findFree kheap with
      | none =>
        rw [hf] at h
        obtain ⟨request, hr, heq⟩ := ih h
        exact ⟨request, hr, heq⟩
      | some r =>
        rw [hf] at h
        obtain rfl : r = ks := (Prod.ext_iff.mp h).1
        exact ⟨kheap, hf, rfl⟩
    · simp at h

theorem findFree_tested {l : SectionList} {request r : Section} (h : l.findFree request = some r) :
    SectionList.isfree (l.ofKind request) r.placedExtent = true ∧
      r = { request with base := r.base } := by
  obtain ⟨c, -, -, hfree, rfl⟩ := SectionList.findfreeLoop_eq_some h
  have hlower : c + request.lowerPadding + request.expandDown - request.expandDown -
      request.lowerPadding = c := by
    rw [BitVec.add_sub_cancel, BitVec.add_sub_cancel]
  refine ⟨?_, rfl⟩
  unfold placedExtent
  dsimp only
  rw [hlower]
  exact hfree

theorem heapRequest_has (kheap : Section) :
    (heapRequest kheap).has flagDefined = true ∧
      (heapRequest kheap).has flagKernelSection = true :=
  (by decide : decide ((flagDefined ||| flagRead ||| flagWrite ||| flagKernelSection |||
      flagHeap) &&& flagDefined ≠ 0) = true ∧
    decide ((flagDefined ||| flagRead ||| flagWrite ||| flagKernelSection ||| flagHeap) &&&
      flagKernelSection ≠ 0) = true)

theorem has_congr {s t : Section} (h : s.flags = t.flags) (flag : BitVec 32) :
    s.has flag = t.has flag := by
  unfold has
  rw [h]

/-- What `create` has set up, when it has found a place. -/
structure Created (s : HeapSpace) : Prop where
  heap : s.heap = true
  item : none ∈ s.kernelItems
  length : s.kheap.length = 0
  flags : s.kheap.flags = (heapRequest s.kheap).flags
  padding : s.kheap.upperPadding = pageSize
  free : ∀ t ∈ s.kernelItems.filterMap id, ∀ te, t.checkExtents = some te →
    s.kheap.placedExtent.eq te = false

theorem create_created {s : HeapSpace} (hs : s.heap = false) (h : s.create.heap = true) :
    s.create.Created ∧ s.create.processSections = s.processSections := by
  have hno : ¬ s.heap = true := by simp [hs]
  unfold create at h ⊢
  rw [if_neg hno] at h ⊢
  cases hp : placeLoop s.sections 32 (heapRequest s.kheap) with
  | mk ks found =>
    cases found with
    | false =>
      rw [hp] at h
      exact absurd h hno
    | true =>
      obtain ⟨request, hfree, hreq⟩ := placeLoop_found hp
      obtain ⟨htest, hks⟩ := findFree_tested hfree
      have hkind : s.sections.ofKind request = s.sections.kernelSections := by
        refine if_pos ((has_congr ?_ _).trans (heapRequest_has s.kheap).2)
        rw [hreq]
      rw [hkind] at htest
      have hfields : ks.length = 0 ∧ ks.flags = (heapRequest ks).flags ∧
          ks.upperPadding = pageSize := by
        rw [hks, hreq]
        exact ⟨rfl, rfl, rfl⟩
      refine ⟨⟨rfl, by simp, hfields.1, hfields.2.1, hfields.2.2, ?_⟩, rfl⟩
      intro t ht te hte
      have hmem : t ∈ s.sections.kernelSections := by
        have hitem : some t ∈ s.kernelItems := by simpa using ht
        exact List.mem_map.mpr ⟨some t, hitem, rfl⟩
      exact (SectionList.isfree_iff _ _).mp htest t hmem te hte

theorem Created.accepted_iff {s : HeapSpace} (h : s.Created) :
    s.kheap.Accepted ↔ BelowEnd s.kheap := by
  have hkernel : s.kheap.has flagKernelSection = true :=
    (has_congr h.flags _).trans (heapRequest_has s.kheap).2
  have hmin : s.kheap.rangeMin = kernelStart := if_pos hkernel
  have hmax : s.kheap.rangeMax = kernelEnd := if_pos hkernel
  constructor
  · intro hacc
    exact ⟨hmin ▸ hacc.above, hmax ▸ hacc.below⟩
  · rintro ⟨habove, hbelow⟩
    refine ⟨(has_congr h.flags _).trans (heapRequest_has s.kheap).1, hmin ▸ habove,
      hmax ▸ hbelow, ?_⟩
    · have hpad : pageSize.toNat = 4096 := rfl
      unfold lo hi
      rw [h.padding]
      omega

/-- No call has made the heap grow so far. -/
structure Calm (s₀ s : HeapSpace) : Prop where
  heap : s.heap = true
  item : none ∈ s.kernelItems
  kheap : s.kheap = s₀.kheap
  sorted : s.Sorted
  free : ∀ t ∈ s.others, ∀ te, t.checkExtents = some te → s₀.kheap.placedExtent.eq te = false

theorem moveBreak_length (heap : Section) (d : BitVec 32) :
    (moveBreak heap d).1 = { heap with length := (moveBreak heap d).1.length } := by
  unfold moveBreak
  split
  · split <;> rfl
  · dsimp only
    split <;> rfl

theorem sbrk_kheap {s : HeapSpace} (h : s.heap = true) (d : BitVec 32) :
    s.sbrk d = ({ s with kheap := (moveBreak s.kheap d).1 }, (moveBreak s.kheap d).2) := by
  have hcreate := create_of_heap h
  rw [sbrk_of_heap (by rw [hcreate, h]), hcreate]

theorem moveBreak_empty {heap : Section} (hz : heap.length = 0) (d : BitVec 32) :
    MovesBreak heap (moveBreak heap d).1 d (moveBreak heap d).2 := by
  refine moveBreak_spec ?_ d
  rw [hz, BitVec.le_def]
  exact Nat.zero_le _

theorem moveBreak_of_not_grows {heap : Section} (hz : heap.length = 0) {d : BitVec 32}
    (h : 0 < d.toInt → ¬ InReach heap d) : (moveBreak heap d).1 = heap := by
  have hmoves := moveBreak_empty hz d
  cases hret : (moveBreak heap d).2 with
  | none => exact hmoves.unchanged hret
  | some p =>
    have hreach : InReach heap d := by
      by_contra hout
      rw [hmoves.fails.mpr hout] at hret
      exact absurd hret (by simp)
    have hzero : heap.length.toNat = 0 := by rw [hz]; rfl
    have hmin := hreach.1
    have hmoved := hmoves.moved p hret
    have hle : ¬ 0 < d.toInt := fun hpos => h hpos hreach
    have hlen : (moveBreak heap d).1.length = heap.length := BitVec.eq_of_toNat_eq (by omega)
    rw [moveBreak_length, hlen]

theorem Calm.sbrk {s₀ s : HeapSpace} (h : s₀.Calm s) (hz : s₀.kheap.length = 0) {d : BitVec 32}
    (hn : s.NoGrowth (.sbrk d)) : s₀.Calm (s.sbrk d).1 := by
  have hsame := moveBreak_of_not_grows (h.kheap ▸ hz) hn
  rw [sbrk_kheap h.heap, hsame]
  exact h

theorem mem_others_add {s : HeapSpace} {item t : Section} (h : t ∈ (s.add item).others) :
    t ∈ s.others ∨ t = item := by
  unfold add others at h
  split at h
  · simp only [List.filterMap_append, List.mem_append] at h
    rcases h with (h | h) | h
    · exact Or.inl (List.mem_append_left _ h)
    · exact Or.inr (by simpa using h)
    · exact Or.inl (List.mem_append_right _ h)
  · simp only [List.mem_append] at h
    rcases h with h | h | h
    · exact Or.inl (List.mem_append_left _ h)
    · exact Or.inl (List.mem_append_right _ h)
    · exact Or.inr (List.mem_singleton.mp h)

theorem lower_le_upper {s : Section} {e : Extent} (h : s.checkExtents = some e) :
    e.lower ≤ e.upper := by
  obtain ⟨hacc, hl, hu⟩ := (checkExtents_eq_some_iff _ _).mp h
  have hne := hacc.nonempty
  rw [BitVec.le_def]
  omega

theorem eq_comm_of_checkExtents {s t : Section} {e te : Extent} (he : s.checkExtents = some e)
    (hte : t.checkExtents = some te) : e.eq te = te.eq e := by
  have h₁ := lower_le_upper he
  have h₂ := lower_le_upper hte
  rw [Bool.eq_iff_iff, Extent.eq_iff_meets h₁ h₂, Extent.eq_iff_meets h₂ h₁]
  exact and_comm

/-- The kernel and the processes have ranges of their own. -/
theorem kernel_process_apart {s t : Section} (hs : s.has flagKernelSection = true)
    (ht : ¬ t.has flagKernelSection = true) {e te : Extent} (he : s.checkExtents = some e)
    (hte : t.checkExtents = some te) : e.eq te = false := by
  have hmax : s.rangeMax = kernelEnd := if_pos hs
  have hmin : t.rangeMin = userStart := if_neg ht
  obtain ⟨hacc, -, hu⟩ := (checkExtents_eq_some_iff _ _).mp he
  obtain ⟨htacc, htl, -⟩ := (checkExtents_eq_some_iff _ _).mp hte
  have hbelow := hacc.below
  have habove := htacc.above
  have hgap : kernelEnd.toNat < userStart.toNat := by decide
  rw [hmax] at hbelow
  rw [hmin] at habove
  rw [← Bool.not_eq_true, Extent.eq_iff_meets (lower_le_upper he) (lower_le_upper hte),
    Interval.Meets]
  omega

/-- What `FindFree` places as a kernel section was tested against the heap. -/
theorem placed_apart {s : HeapSpace} (hitem : none ∈ s.kernelItems) {e : Extent}
    (hkernel : s.kheap.has flagKernelSection = true) (he : s.kheap.checkExtents = some e)
    {request r : Section} (hr : s.sections.findFree request = some r) {te : Extent}
    (hte : r.checkExtents = some te) : e.eq te = false := by
  by_cases hk : r.has flagKernelSection = true
  · obtain ⟨htest, hreq⟩ := findFree_tested hr
    have hkind : s.sections.ofKind request = s.sections.kernelSections :=
      if_pos ((has_congr (by rw [hreq]) _).trans hk)
    rw [hkind, ← checkExtents_eq_placedExtent hte] at htest
    have hheap : s.kheap ∈ s.sections.kernelSections := List.mem_map.mpr ⟨none, hitem, rfl⟩
    rw [eq_comm_of_checkExtents he hte]
    exact (SectionList.isfree_iff _ _).mp htest s.kheap hheap e he
  · exact kernel_process_apart hkernel hk he hte

theorem Sorted.add {s : HeapSpace} (h : s.Sorted) (item : Section) : (s.add item).Sorted := by
  intro t ht
  unfold HeapSpace.add at ht
  split at ht
  · exact h t ht
  · rename_i hitem
    rcases List.mem_append.mp ht with ht | ht
    · exact h t ht
    · rw [List.mem_singleton.mp ht]
      simpa using hitem

theorem add_fields (s : HeapSpace) (item : Section) :
    (s.add item).heap = s.heap ∧ (s.add item).kheap = s.kheap ∧
      ∀ i ∈ s.kernelItems, i ∈ (s.add item).kernelItems := by
  unfold add
  split
  · exact ⟨rfl, rfl, fun i hi => List.mem_append_left _ hi⟩
  · exact ⟨rfl, rfl, fun i hi => hi⟩

section
variable {s₀ s : HeapSpace}

theorem Created.placedExtent (h : s₀.Created) (hb : BelowEnd s₀.kheap) :
    s₀.kheap.checkExtents = some s₀.kheap.placedExtent ∧
      s₀.kheap.has flagKernelSection = true := by
  obtain ⟨e, he, -⟩ := (h.accepted_iff.mpr hb).extent
  exact ⟨he.trans (congrArg some (checkExtents_eq_placedExtent he)),
    (has_congr h.flags _).trans (heapRequest_has _).2⟩

theorem Calm.place (h : s₀.Calm s) (hc : s₀.Created) (hb : BelowEnd s₀.kheap)
    (request : Section) : s₀.Calm (s.place request) := by
  unfold HeapSpace.place
  cases hr : s.sections.findFree request with
  | none => exact h
  | some r =>
    obtain ⟨hheap, hkheap, hitems⟩ := add_fields s r
    refine ⟨hheap.trans h.heap, hitems none h.item, hkheap.trans h.kheap, h.sorted.add r, ?_⟩
    intro t ht te hte
    rcases mem_others_add ht with ht | rfl
    · exact h.free t ht te hte
    · obtain ⟨he, hk⟩ := hc.placedExtent hb
      rw [← h.kheap] at he hk
      rw [h.kheap] at he
      exact placed_apart h.item hk (h.kheap ▸ he) hr hte

theorem Calm.reserved (h : s₀.Calm s) (hc : s₀.Created) (hb : BelowEnd s₀.kheap) :
    s₀.Reserved s := by
  refine ⟨?_, h.free, fun a hlive => ?_⟩
  · rw [h.kheap]
    exact (hc.placedExtent hb).1
  · -- nothing is below the break yet
    have hzero : s.kheap.length.toNat = 0 := by
      rw [h.kheap, hc.length]
      rfl
    unfold Live at hlive
    omega

theorem Calm.step (h : s₀.Calm s) (hc : s₀.Created) (hb : BelowEnd s₀.kheap) {op : HeapOp}
    (hn : s.NoGrowth op) {s' : HeapSpace} (hs : s.heapStep op = some s') : s₀.Calm s' := by
  cases op with
  | sbrk d =>
    obtain rfl := Option.some.inj hs
    exact h.sbrk hc.length hn
  | place request =>
    obtain rfl := Option.some.inj hs
    exact h.place hc hb request

/-- A call that grows the heap moves its reserved extent, or makes it leave the range. -/
theorem Calm.noGrowth (h : s₀.Calm s) (hc : s₀.Created) (hb : BelowEnd s₀.kheap) {op : HeapOp}
    (hall : ∀ s', s.heapStep op = some s' → s₀.Reserved s') : s.NoGrowth op := by
  cases op with
  | place request => trivial
  | sbrk d =>
    intro hpos hreach
    have hz : s.kheap.length = 0 := h.kheap ▸ hc.length
    have hmoves := moveBreak_empty hz d
    have hres := hall _ rfl
    have hext := hres.extent
    rw [sbrk_kheap h.heap] at hext
    dsimp only at hext
    rw [moveBreak_length] at hext
    obtain ⟨-, -, hu⟩ := (checkExtents_eq_some_iff _ _).mp hext
    obtain ⟨-, -, hu₀⟩ := (checkExtents_eq_some_iff _ _).mp (hc.placedExtent hb).1
    cases hret : (moveBreak s.kheap d).2 with
    | none => exact hmoves.fails.mp hret hreach
    | some p =>
      have hmoved := hmoves.moved p hret
      unfold hi at hu hu₀
      rw [← h.kheap] at hu₀
      dsimp only at hu
      rw [h.kheap] at hu hu₀ hmoved
      omega

/-- From the moment `sbrk` has placed the heap on, the heap keeps its reservation in every state
exactly when the place is inside the range that `CheckExtents` allows and no call grows it. -/
theorem heap_reserved_iff {s : HeapSpace} (hs : s.heap = false) (hsorted : s.Sorted)
    (hheap : s.create.heap = true) (ops : List HeapOp) :
    (∀ before, before <+: ops → ∀ s', Transition.run heapStep s.create before = some s' →
        s.create.Reserved s') ↔
      BelowEnd s.create.kheap ∧ Transition.EachStep heapStep NoGrowth s.create ops := by
  obtain ⟨hc, hproc⟩ := create_created hs hheap
  have hcalm : BelowEnd s.create.kheap → s.create.Calm s.create := by
    intro hb
    obtain ⟨he, hkernel⟩ := hc.placedExtent hb
    have hsorted' : s.create.Sorted := fun t ht => hsorted t (hproc ▸ ht)
    refine ⟨hheap, hc.item, rfl, hsorted', fun t ht te hte => ?_⟩
    rcases List.mem_append.mp ht with ht | ht
    · exact hc.free t ht te hte
    · exact kernel_process_apart hkernel (by rw [hsorted' t ht]; decide) he hte
  have hiff : BelowEnd s.create.kheap →
      ((∀ before, before <+: ops → ∀ s', Transition.run heapStep s.create before = some s' →
        s.create.Reserved s') ↔ Transition.EachStep heapStep NoGrowth s.create ops) := by
    intro hb
    refine Transition.EachStep.reached_iff ?_ ?_ ?_ (hcalm hb)
    · exact fun s₁ op s₂ h hn hstep => h.step hc hb hn hstep
    · exact fun s₁ h => h.reserved hc hb
    · exact fun s₁ op h hall => h.noGrowth hc hb hall
  constructor
  · intro hall
    have hfirst := hall [] List.nil_prefix s.create rfl
    have hacc := ((checkExtents_eq_some_iff _ _).mp hfirst.extent).1
    have hb := hc.accepted_iff.mp hacc
    exact ⟨hb, (hiff hb).mp hall⟩
  · rintro ⟨hb, hrun⟩
    exact (hiff hb).mpr hrun

end

/-- The kernel before the first call, with no sections. -/
def start : HeapSpace := ⟨⟨0, 0, 0, 0, 0, 0, 0, 0⟩, false, [], []⟩

theorem start_create_heap : start.create.heap = true := by decide

theorem start_sorted : start.Sorted := by simp [Sorted, start]

/-- The heap is kept through a call that asks for nothing and the placing of a section. -/
theorem start_reserved :
    ∃ s', Transition.run heapStep start.create
        [.sbrk 0, .place (SectionList.kernelRequest 0x1000)] = some s' ∧
      start.create.Reserved s' := by
  have hkept := (heap_reserved_iff rfl start_sorted start_create_heap
    [.sbrk 0, .place (SectionList.kernelRequest 0x1000)]).mpr (by
      refine ⟨?_, fun h => absurd h (by decide), fun _ _ => ⟨trivial, fun _ _ => trivial⟩⟩
      unfold BelowEnd
      decide)
  exact ⟨_, rfl, hkept _ (List.prefix_refl _) _ rfl⟩

/-- The first page `sbrk` hands out moves the end of the reservation up by a page. -/
theorem first_page_moves_reservation :
    ¬ ∀ (s : HeapSpace) (ops : List HeapOp), s.heap = false → s.Sorted → s.create.heap = true →
      ∀ s', Transition.run heapStep s.create ops = some s' → s.create.Reserved s' := by
  intro h
  have hres := (h start [.sbrk 0x1000] rfl start_sorted start_create_heap _ rfl).extent
  revert hres
  decide

end HeapSpace
end Tysos
