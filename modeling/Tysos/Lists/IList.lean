import Tysos.Lists.ArrayList
import Tysos.Lists.LinkedList

/-!
# IList

The interface of the two list classes: the class of the object decides what a call does. The
items are the addresses of objects, and what is at these addresses is given beside the list.
-/

namespace Tysos
set_option autoImplicit false

variable {T V : Type}

inductive IList (T : Type) where
  | array (a : ArrayList T)
  | linked (l : LinkedList T)

namespace IList

def count : IList T → Int
  | array a => a.count
  | linked l => l.count

def isArray : IList T → Bool
  | array _ => true
  | linked _ => false

def getItem : IList T → Int → Option T
  | array a, index => some (a.getItem index)
  | linked l, index => l.getItem index

def removeAt : IList T → Int → Option (IList T)
  | array a, index => some (array (a.removeAt index))
  | linked l, index => do some (linked (← l.removeAt index))

section
variable [DecidableEq T]

def indexOf : IList T → T → Option Int
  | array a, item => some (a.indexOf fun other => decide (item = other))
  | linked l, item => l.indexOf fun other => decide (item = other)

/-- An array takes the address of the new item; in a linked list the new item is copied to
where the old one is. -/
def setItem (objects : T → V) : IList T → Int → T → Option (IList T × (T → V))
  | array a, index, item => some (array (a.setItem index item), objects)
  | linked l, index, item => do
    let old ← l.getItem index
    some (linked l, Function.update objects old (objects item))

end

def Holds : IList T → List T → Prop
  | array a, vs => a.Holds vs
  | linked l, vs => l.Holds vs

/-- What stands at place `j` of the storage; past the items that is a word of an array. -/
def stored : IList T → List T → Nat → Option T
  | array a, _, j => some (a.arr j)
  | linked _, vs, j => vs[j]?

variable {l : IList T} {vs : List T}

theorem Holds.count (h : l.Holds vs) : l.count = vs.length := by
  cases l with
  | array a => exact ArrayList.Holds.count h
  | linked q => exact LinkedList.Holds.count_eq h

theorem Holds.unique (h : l.Holds vs) {ws : List T} (h' : l.Holds ws) : vs = ws := by
  cases l with
  | array a =>
    have hv : a.Holds vs := h
    have hw : a.Holds ws := h'
    have hlen : vs.length = ws.length := Int.ofNat_inj.mp (hv.count.symm.trans hw.count)
    apply List.ext_getElem?
    intro i
    by_cases hi : i < vs.length
    · rw [hv.item i hi, hw.item i (hlen ▸ hi)]
    · rw [List.getElem?_eq_none (Nat.not_lt.mp hi), List.getElem?_eq_none (by omega)]
  | linked q => exact (LinkedList.Holds.items_eq h).symm.trans (LinkedList.Holds.items_eq h')

theorem Holds.stored_eq (h : l.Holds vs) {i : Nat} (hi : i < vs.length) :
    l.stored vs i = vs[i]? := by
  cases l with
  | array a => exact (ArrayList.Holds.item h i hi).symm
  | linked q => rfl

theorem Holds.getItem (h : l.Holds vs) (i : Nat) : l.getItem i = l.stored vs i := by
  cases l with
  | array a => rfl
  | linked q =>
    rcases Nat.lt_or_ge i vs.length with hi | hi
    · obtain ⟨us, v, ws, rfl, rfl⟩ := ListEdit.exists_split hi
      have hat : (us ++ v :: ws)[us.length]? = some v := by simp
      exact (LinkedList.Holds.getItem h).trans hat.symm
    · exact (LinkedList.Holds.getItem_past h hi).trans (List.getElem?_eq_none hi).symm

/-- Past the end there is nothing to remove. -/
theorem Holds.removeAt (h : l.Holds vs) (i : Nat) :
    ∃ l', l.removeAt i = some l' ∧ l'.Holds (vs.eraseIdx i) := by
  cases l with
  | array a => exact ⟨_, rfl, ArrayList.Holds.removeAt_eraseIdx h i⟩
  | linked q =>
    obtain ⟨q', he, hq'⟩ := LinkedList.Holds.removeAt_eraseIdx h i
    exact ⟨linked q', by simp [IList.removeAt, he], hq'⟩

variable [DecidableEq T]

theorem Holds.setItem_array {a : ArrayList T} (h : (array a).Holds vs) (objects : T → V) (i : Nat)
    (item : T) :
    ∃ l', (array a).setItem objects i item = some (l', objects) ∧ l'.Holds (vs.set i item) := by
  have ha : a.Holds vs := h
  refine ⟨_, rfl, ?_, fun j hj => ?_⟩
  · rw [List.length_set]
    exact ha.count
  · rw [List.length_set] at hj
    have hold := ha.item j hj
    change (vs.set i item)[j]? = some (Function.update a.arr i item j)
    by_cases heq : i = j
    · subst heq
      rw [List.getElem?_set_self hj, Function.update_self]
    · rw [List.getElem?_set_ne heq, Function.update_of_ne (by omega)]
      exact hold

theorem Holds.setItem_linked {q : LinkedList T} (h : (linked q).Holds vs) (objects : T → V)
    (i : Nat) (item : T) :
    (linked q).setItem objects i item =
      vs[i]?.map fun old => (linked q, Function.update objects old (objects item)) := by
  have hget : q.getItem i = vs[i]? := Holds.getItem h i
  simp only [setItem, hget]
  cases vs[i]? <;> rfl

/-- The place of the first occurrence, or -1. -/
def position (vs : List T) (item : T) : Int := if item ∈ vs then vs.idxOf item else -1

theorem position_of_first {us ws : List T} {item v : T} (hv : decide (item = v) = true)
    (hus : ∀ u ∈ us, decide (item = u) = false) : position (us ++ v :: ws) item = us.length := by
  obtain rfl : item = v := of_decide_eq_true hv
  have hout : item ∉ us := fun hm => absurd (hus item hm) (by simp)
  unfold position
  rw [if_pos (by simp), List.idxOf_append_of_notMem hout]
  simp

theorem Holds.indexOf (h : l.Holds vs) (item : T) : l.indexOf item = some (position vs item) := by
  have hnone : (∀ v ∈ vs, decide (item = v) = false) → position vs item = -1 := by
    intro hall
    exact if_neg fun hm => absurd (hall item hm) (by simp)
  cases l with
  | array a =>
    rcases ArrayList.Holds.indexOf h fun other => decide (item = other) with
      ⟨he, hall⟩ | ⟨us, v, ws, rfl, hv, hus, he⟩
    · exact congrArg some (he.trans (hnone hall).symm)
    · exact congrArg some (he.trans (position_of_first hv hus).symm)
  | linked q =>
    rcases LinkedList.Holds.indexOf h fun other => decide (item = other) with
      ⟨he, hall⟩ | ⟨us, v, ws, rfl, hv, hus, he⟩
    · exact he.trans (congrArg some (hnone hall).symm)
    · exact he.trans (congrArg some (position_of_first hv hus).symm)

end IList
end Tysos
