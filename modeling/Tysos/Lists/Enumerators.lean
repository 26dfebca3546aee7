import Tysos.Memory.SectionIndex
import Tysos.Support.Enumeration

/-!
# Enumerators of the lists

`ArrayList::Enumerator`, `LinkedList::Enumerator` and `SectionList::Enumerator`. The one of an
array looks whether its index is below `count` before it goes on, and so comes to the word
after the last item. The one of a linked list is back at its start when it has come to the end.
-/

namespace Tysos
open DoublyLinked Enumeration
set_option autoImplicit false

variable {T : Type}

/-- The enumerator of an array at an index, or of a linked list at a node. -/
inductive IEnumerator where
  | array (i : Int)
  | linked (c : Option Nat)

namespace ArrayList

def enumerator (a : ArrayList T) : Enumerator Int T where
  moveNext i := some (if i < a.count then (i + 1, true) else (i, false))
  current i := some (a.arr i)

/-- The same enumerator, with the slot that `Current` reads in place of what it finds there. -/
def slotEnumerator (a : ArrayList T) : Enumerator Int Int where
  moveNext := a.enumerator.moveNext
  current i := some i

/-- The loop on a fresh enumerator ends, yields the items and reads no slot at `count` or
beyond. -/
def EnumeratesItems (a : ArrayList T) (vs : List T) : Prop :=
  ∃ fuel slots, visit a.enumerator fuel (-1) = some vs ∧
    visit a.slotEnumerator fuel (-1) = some slots ∧ ∀ i ∈ slots, i < a.count

end ArrayList

namespace LinkedList

def enumerator (q : LinkedList T) : Enumerator (Option Nat) T where
  moveNext
    | none => some (q.f, q.f.isSome)
    | some c => (q.nodes c).map fun n => (n.next, n.next.isSome)
  current c := (c.bind q.nodes).map fun n => n.item

end LinkedList

namespace IList

def getEnumerator : IList T → IEnumerator
  | array _ => .array (-1)
  | linked _ => .linked none

def enumerator : IList T → Enumerator IEnumerator T
  | array a =>
    { moveNext := fun
        | .array i => (a.enumerator.moveNext i).map (Prod.map .array id)
        | .linked _ => none
      current := fun
        | .array i => a.enumerator.current i
        | .linked _ => none }
  | linked q =>
    { moveNext := fun
        | .array _ => none
        | .linked c => (q.enumerator.moveNext c).map (Prod.map .linked id)
      current := fun
        | .array _ => none
        | .linked c => q.enumerator.current c }

end IList

namespace SectionTable

def enumerator (l : SectionTable T) : Enumerator (IEnumerator × IEnumerator × Bool) T :=
  chain l.kernelSections.enumerator l.processSections.enumerator

/-- `ke`, `pe` and `proc` of a fresh enumerator. -/
def getEnumerator (l : SectionTable T) : IEnumerator × IEnumerator × Bool :=
  (l.kernelSections.getEnumerator, l.processSections.getEnumerator, false)

/-- The loop of `Serialize` ends, having visited these sections. -/
def Visits (l : SectionTable T) (vs : List T) : Prop :=
  ∃ fuel, visit l.enumerator fuel l.getEnumerator = some vs

end SectionTable

namespace ArrayList
variable {a : ArrayList T} {vs : List T}

/-- From index `i` on, the loop reads all slots up to and with `count`. -/
theorem yields_slots (a : ArrayList T) {k : Nat} {i : Int} (hi : i + k = a.count) :
    Yields a.slotEnumerator i ((List.range k).map fun j => i + 1 + (j : Nat)) a.count ∧
      Yields a.enumerator i ((List.range k).map fun j => a.arr (i + 1 + (j : Nat))) a.count := by
  induction k generalizing i with
  | zero =>
    have hend : i = a.count := by omega
    have hmove : a.enumerator.moveNext i = some (a.count, false) := by
      simp [enumerator, hend]
    exact ⟨.stop hmove, .stop hmove⟩
  | succ k ih =>
    have hmove : a.enumerator.moveNext i = some (i + 1, true) := by
      unfold enumerator
      dsimp only
      rw [if_pos (by omega)]
    obtain ⟨hslots, hitems⟩ := ih (i := i + 1) (by omega)
    have hshift : ∀ j : Nat, i + 1 + 1 + (j : Int) = i + 1 + ((j + 1 : Nat) : Int) := by omega
    simp only [hshift] at hslots hitems
    rw [List.range_succ_eq_map, List.map_cons, List.map_map, List.map_cons, List.map_map]
    exact ⟨.next hmove (by simp [slotEnumerator]) hslots, .next hmove (by simp [enumerator]) hitems⟩

theorem Holds.map_arr (h : a.Holds vs) :
    ((List.range (vs.length + 1)).map fun j : Nat => a.arr j) = vs ++ [a.arr vs.length] := by
  rw [List.range_succ, List.map_append, List.map_singleton]
  congr 1
  apply List.ext_getElem?
  intro j
  by_cases hj : j < vs.length
  · rw [List.getElem?_map, List.getElem?_range hj, h.item j hj, Option.map_some]
  · rw [List.getElem?_eq_none (by simpa using hj), List.getElem?_eq_none (by omega)]

/-- The loop over an array: one slot too many. -/
theorem Holds.yields (h : a.Holds vs) :
    Yields a.slotEnumerator (-1) ((List.range (vs.length + 1)).map fun j : Nat => (j : Int))
        a.count ∧
      Yields a.enumerator (-1) (vs ++ [a.arr vs.length]) a.count := by
  have hcount := h.count
  obtain ⟨hslots, hitems⟩ := a.yields_slots (k := vs.length + 1) (i := -1) (by omega)
  have hstart : ∀ j : Nat, (-1 : Int) + 1 + j = j := by omega
  simp only [hstart] at hslots hitems
  rw [h.map_arr] at hitems
  exact ⟨hslots, hitems⟩

theorem Holds.not_enumeratesItems (h : a.Holds vs) : ¬ a.EnumeratesItems vs := by
  intro hall
  obtain ⟨fuel, slots, hitems, -⟩ := hall
  have heq := congrArg List.length (h.yields.2.visit_unique hitems)
  rw [List.length_append, List.length_singleton] at heq
  omega

/-- Whatever the array holds, the loop ends one item too late, with the slot at `count`. -/
theorem enumerator_reads_count (h : a.Holds vs) :
    ¬ a.EnumeratesItems vs ∧ ∀ fuel, vs.length + 1 < fuel →
      visit a.enumerator fuel (-1) = some (vs ++ [a.arr vs.length]) ∧
        ∃ slots, visit a.slotEnumerator fuel (-1) = some slots ∧ a.count ∈ slots := by
  obtain ⟨hslots, hitems⟩ := h.yields
  refine ⟨h.not_enumeratesItems, fun fuel hfuel => ⟨hitems.visit_eq ?_,
    (List.range (vs.length + 1)).map fun j : Nat => (j : Int), hslots.visit_eq ?_, ?_⟩⟩
  · rw [List.length_append]
    exact hfuel
  · rw [List.length_map, List.length_range]
    exact hfuel
  · rw [h.count]
    exact List.mem_map.mpr ⟨vs.length, List.mem_range.mpr (Nat.lt_succ_self _), rfl⟩

theorem enumerator_reads_count_one :
    ¬ (⟨1, id⟩ : ArrayList Int).EnumeratesItems [0] ∧ ∀ fuel, 2 < fuel →
      visit (⟨1, id⟩ : ArrayList Int).enumerator fuel (-1) = some [0, 1] ∧
        ∃ slots, visit (⟨1, id⟩ : ArrayList Int).slotEnumerator fuel (-1) = some slots ∧
          (1 : Int) ∈ slots :=
  enumerator_reads_count ⟨rfl, fun i hi => by
    obtain rfl : i = 0 := Nat.lt_one_iff.mp hi
    rfl⟩

/-- The empty list has an item. -/
theorem not_enumeratesItems_empty : ¬ (empty id : ArrayList Int).EnumeratesItems [] :=
  (holds_empty id).not_enumeratesItems

end ArrayList

namespace LinkedList
variable {q : LinkedList T} {vs : List T}

/-- From the node before a segment on, the loop goes over the segment and back to the start. -/
theorem yields_seg {pv : Option Nat} {ps : List (Nat × T)} (h : Seg q.nodes pv ps none)
    {c : Option Nat}
    (hc : q.enumerator.moveNext c = some (headOr ps none, (headOr ps none).isSome)) :
    Yields q.enumerator c (payloads ps) none := by
  induction ps generalizing pv c with
  | nil => exact .stop hc
  | cons p ps ih =>
    obtain ⟨hcell, hrest⟩ := h
    refine .next hc ?_ (ih hrest ?_)
    · simp [enumerator, hcell]
    · simp [enumerator, hcell]

theorem Holds.yields (h : q.Holds vs) : Yields q.enumerator none vs none := by
  obtain ⟨ps, hr, rfl⟩ := h
  refine yields_seg hr.seg ?_
  unfold enumerator
  dsimp only
  rw [hr.first]

end LinkedList

theorem IList.linked_yields {l : IList T} (hl : l.isArray = false) {vs : List T} (h : l.Holds vs) :
    Yields l.enumerator l.getEnumerator vs l.getEnumerator := by
  cases l with
  | array a => cases hl
  | linked q =>
    have hq : q.Holds vs := h
    have hmove : ∀ c, (linked q).enumerator.moveNext (.linked c) =
      (q.enumerator.moveNext c).map (Prod.map IEnumerator.linked id) := fun _ => rfl
    have hlift : Yields (linked q).enumerator (.linked none) vs (.linked none) :=
      hq.yields.lift hmove fun _ => rfl
    exact hlift

namespace SectionTable
variable {l : SectionTable T} {ks ps : List T} (h : l.Holds ks ps)
  (hk : l.kernelSections.isArray = false) (hp : l.processSections.isArray = false)
include h hk hp

/-- After each process section the kernel sections are gone over once more, and the process
section is shown instead of each. -/
theorem enumerator_yields :
    Yields l.enumerator l.getEnumerator (ks ++ ps.flatMap (List.replicate (ks.length + 1)))
      (l.kernelSections.getEnumerator, l.processSections.getEnumerator, true) :=
  (IList.linked_yields hk h.kernel).chain (IList.linked_yields hp h.process)

theorem eq_nil_of_visits (hvisits : l.Visits (ks ++ ps)) : ks = [] ∨ ps = [] := by
  obtain ⟨fuel, hvisit⟩ := hvisits
  exact (append_flatMap_replicate_eq_iff ks ps).mp
    ((enumerator_yields h hk hp).visit_unique hvisit).symm

theorem visits_iff : l.Visits (ks ++ ps) ↔ ks = [] ∨ ps = [] := by
  constructor
  · exact eq_nil_of_visits h hk hp
  · intro hnil
    rw [← (append_flatMap_replicate_eq_iff ks ps).mpr hnil]
    exact ⟨_, (enumerator_yields h hk hp).visit_eq (Nat.lt_succ_self _)⟩

omit h hk hp

theorem visits_iff_oneAndOne :
    oneAndOne.Visits ([1] ++ [2]) ↔ [1] = ([] : List Nat) ∨ [2] = ([] : List Nat) :=
  visits_iff oneAndOne_holds rfl rfl

/-- The section of the process is visited twice. -/
theorem not_visits_oneAndOne : ¬ oneAndOne.Visits [1, 2] := by
  intro h
  have hnil := eq_nil_of_visits oneAndOne_holds rfl rfl h
  exact absurd hnil (by decide)

end SectionTable

end Tysos
