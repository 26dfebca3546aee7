import Tysos.Lists.Interchange
import Tysos.Lists.DeltaQueue

/-!
# The links of LinkedList and Queue

Whatever calls are made to a list or a queue, its nodes are linked both ways round, the ends
and the count go with them, and the items in them are those of the list operations called.
-/

namespace Tysos
open DoublyLinked Transition
set_option autoImplicit false

variable {T : Type}

/-- From `f` on, `as` are the addresses of the nodes and `vs` the items in them. -/
structure LinkedList.WellFormed (q : LinkedList T) (as : List Nat) (vs : List T) : Prop where
  forward : Chain Cell.next q.nodes q.f as
  backward : Chain Cell.prev q.nodes q.l as.reverse
  distinct : as.Nodup
  first_prev : ∀ a c, q.f = some a → q.nodes a = some c → c.prev = none
  last_next : ∀ a c, q.l = some a → q.nodes a = some c → c.next = none
  first_null : q.f = none ↔ q.l = none
  last_null : q.l = none ↔ q.count = 0
  count : q.count = as.length
  items : as.map (fun a => (q.nodes a).map Cell.item) = vs.map some

namespace LinkedList

variable {q : LinkedList T} {ps : List (Nat × T)}

theorem Rep.ends (h : Rep q ps) :
    (ps = [] ∧ q.f = none ∧ q.l = none ∧ q.count = 0) ∨
      (q.f ≠ none ∧ q.l ≠ none ∧ q.count ≠ 0) := by
  rcases eq_nil_or_snoc ps with rfl | ⟨qs, a, v, rfl⟩
  · exact Or.inl ⟨rfl, h.first, h.last, h.count⟩
  · refine Or.inr ⟨?_, ?_, ?_⟩
    · rw [h.first, headOr_append]
      cases qs <;> simp
    · rw [h.last, lastOr_append]
      simp
    · rw [h.count, List.length_append]
      simp
      omega

theorem Rep.first_prev (h : Rep q ps) {a : Nat} {c : Node T} (hf : q.f = some a)
    (hc : q.nodes a = some c) : c.prev = none := by
  rw [h.first] at hf
  cases ps with
  | nil => cases hf
  | cons p ps =>
    obtain rfl := Option.some.inj hf
    obtain rfl := Option.some.inj (hc.symm.trans h.seg.1)
    rfl

theorem Rep.last_next (h : Rep q ps) {a : Nat} {c : Node T} (hl : q.l = some a)
    (hc : q.nodes a = some c) : c.next = none := by
  rw [h.last] at hl
  rcases eq_nil_or_snoc ps with rfl | ⟨qs, b, v, rfl⟩
  · cases hl
  · rw [lastOr_append] at hl
    obtain rfl := Option.some.inj hl
    obtain rfl := Option.some.inj (hc.symm.trans h.seg.lookup)
    rfl

theorem seg_items {h : Store T} {pv tl : Option Nat} (hs : Seg h pv ps tl) :
    (addrs ps).map (fun a => (h a).map Cell.item) = (payloads ps).map some := by
  induction ps generalizing pv with
  | nil => rfl
  | cons p ps ih =>
    rw [addrs_cons, payloads_cons, List.map_cons, List.map_cons, hs.1, ih hs.2]
    rfl

theorem Rep.wellFormed (h : Rep q ps) : q.WellFormed (addrs ps) (payloads ps) where
  forward := by
    rw [h.first]
    exact h.seg.forward
  backward := by
    rw [h.last]
    exact h.seg.backward
  distinct := h.nodup
  first_prev _ _ := h.first_prev
  last_next _ _ := h.last_next
  first_null := by
    rcases h.ends with ⟨-, hf, hl, -⟩ | ⟨hf, hl, -⟩
    · exact iff_of_true hf hl
    · exact iff_of_false hf hl
  last_null := by
    rcases h.ends with ⟨-, -, hl, hc⟩ | ⟨-, hl, hc⟩
    · exact iff_of_true hl hc
    · exact iff_of_false hl hc
  count := by
    rw [h.count, addrs, List.length_map]
  items := seg_items h.seg

variable {vs : List T}

theorem Holds.wellFormed (h : q.Holds vs) : ∃ as, q.WellFormed as vs := by
  obtain ⟨ps, hr, rfl⟩ := h
  exact ⟨addrs ps, hr.wellFormed⟩

/-- An index that is no place in the sequence stands for its end. -/
def inserted (item : T) (index : Int) (vs : List T) : List T :=
  if 0 ≤ index ∧ index ≤ vs.length then vs.insertIdx index.toNat item else vs ++ [item]

def removed (index : Int) (vs : List T) : List T :=
  if 0 ≤ index ∧ index < vs.length then vs.eraseIdx index.toNat else vs

theorem Holds.insert_inserted (h : q.Holds vs) (item : T) (index : Int) :
    ∃ q', q.insert item index = some q' ∧ q'.Holds (inserted item index vs) := by
  unfold inserted
  by_cases hin : 0 ≤ index ∧ index ≤ vs.length
  · obtain ⟨us, ws, rfl, rfl⟩ := TwoLists.exists_split hin.1 hin.2
    rw [if_pos hin, Int.toNat_natCast, ListEdit.insertIdx_append]
    exact h.insert item
  · rw [if_neg hin]
    apply h.insert_out item
    omega

theorem Holds.removeAt_removed (h : q.Holds vs) (index : Int) :
    ∃ q', q.removeAt index = some q' ∧ q'.Holds (removed index vs) := by
  unfold removed
  by_cases hin : 0 ≤ index ∧ index < vs.length
  · obtain ⟨i, rfl⟩ := Int.eq_ofNat_of_zero_le hin.1
    rw [if_pos hin, Int.toNat_natCast]
    exact h.removeAt_eraseIdx i
  · rw [if_neg hin]
    exact ⟨q, h.removeAt_out (by omega), h⟩

end LinkedList

/-- The calls of a list, and the one that only a queue has. -/
inductive QueueCall (T : Type) where
  | list (c : ListCall T)
  | getFirst (remove : Bool)

inductive QueueAnswer (T : Type) where
  | list (found : Option Bool)
  | first (item : Option T)
  deriving DecidableEq

section
variable [DecidableEq T]

def Queue.call (q : Queue T) : QueueCall T → Option (Queue T × QueueAnswer T)
  | .list c => do
    let (q, found) ← LinkedList.call q c
    some (q, .list found)
  | .getFirst remove => do
    let (q, item) ← q.getFirst remove
    some (q, .first item)

def Queue.step (q : Queue T) (c : QueueCall T) : Option (Queue T) := do
  let (q, _) ← q.call c
  some q

/-- What the list operation of that name makes of a sequence. -/
def ListCall.apply (c : ListCall T) (vs : List T) : List T :=
  match c with
  | .add item => vs ++ [item]
  | .insert item index => LinkedList.inserted item index vs
  | .remove item => vs.erase item
  | .removeAt index => LinkedList.removed index vs
  | .clear => []

def ListCall.answer (c : ListCall T) (vs : List T) : Option Bool :=
  match c with
  | .remove item => some (decide (item ∈ vs))
  | _ => none

def QueueCall.apply (vs : List T) : QueueCall T → List T
  | .list c => c.apply vs
  | .getFirst remove => if remove then vs.tail else vs

def QueueCall.answer (vs : List T) : QueueCall T → QueueAnswer T
  | .list c => .list (c.answer vs)
  | .getFirst _ => .first vs.head?

variable {q : Queue T} {vs : List T}

theorem any_sameItem (item : T) (vs : List T) :
    vs.any (sameItem item) = decide (item ∈ vs) := by
  rw [Bool.eq_iff_iff]
  simp [sameItem]

theorem eraseP_sameItem (item : T) (vs : List T) : vs.eraseP (sameItem item) = vs.erase item := by
  rw [List.erase_eq_eraseP]
  congr 1

theorem LinkedList.Holds.call (h : LinkedList.Holds q vs) (c : ListCall T) :
    ∃ q', LinkedList.call q c = some (q', c.answer vs) ∧ LinkedList.Holds q' (c.apply vs) := by
  cases c with
  | add item =>
    obtain ⟨q', he, hq'⟩ := h.add item
    exact ⟨q', by simp [LinkedList.call, he, ListCall.answer], hq'⟩
  | insert item index =>
    obtain ⟨q', he, hq'⟩ := h.insert_inserted item index
    exact ⟨q', by simp [LinkedList.call, he, ListCall.answer], hq'⟩
  | remove item =>
    obtain ⟨q', he, hq'⟩ := h.remove (sameItem item)
    rw [any_sameItem] at he
    rw [eraseP_sameItem] at hq'
    exact ⟨q', by simp [LinkedList.call, he, ListCall.answer], hq'⟩
  | removeAt index =>
    obtain ⟨q', he, hq'⟩ := h.removeAt_removed index
    exact ⟨q', by simp [LinkedList.call, he, ListCall.answer], hq'⟩
  | clear =>
    obtain ⟨q', he, hq'⟩ := h.clear
    exact ⟨q', by simp [LinkedList.call, he, ListCall.answer], hq'⟩

theorem Queue.holds_call (h : LinkedList.Holds q vs) (c : QueueCall T) :
    ∃ q', q.call c = some (q', c.answer vs) ∧ LinkedList.Holds q' (c.apply vs) := by
  cases c with
  | list c =>
    obtain ⟨q', he, hq'⟩ := LinkedList.Holds.call h c
    exact ⟨q', by simp [Queue.call, he, QueueCall.answer], hq'⟩
  | getFirst remove =>
    cases remove with
    | false => exact ⟨q, by simp [Queue.call, Queue.getFirst_false h, QueueCall.answer], h⟩
    | true =>
      obtain ⟨q', he, hq'⟩ := Queue.getFirst_true h
      exact ⟨q', by simp [Queue.call, he, QueueCall.answer], hq'⟩

theorem Queue.holds_run (h : LinkedList.Holds q vs) (calls : List (QueueCall T)) :
    ∃ q', run Queue.step q calls = some q' ∧
      LinkedList.Holds q' (calls.foldl QueueCall.apply vs) := by
  refine run_refines ?_ h calls
  intro q vs c h
  obtain ⟨q', he, hq'⟩ := Queue.holds_call h c
  exact ⟨q', by simp [Queue.step, he], hq'⟩

/-- After any calls, made to a list or queue that was empty, the nodes are linked as they should
be and hold what the list operations leave, and the next call keeps it so. -/
theorem Queue.reached_wellFormed (calls : List (QueueCall T)) :
    ∃ q as vs, run Queue.step LinkedList.empty calls = some q ∧
      vs = calls.foldl QueueCall.apply [] ∧ q.WellFormed as vs ∧
      ∀ c : QueueCall T, ∃ q' as', q.call c = some (q', c.answer vs) ∧
        q'.WellFormed as' (c.apply vs) := by
  obtain ⟨q, hrun, hq⟩ := Queue.holds_run LinkedList.holds_empty calls
  obtain ⟨as, hwf⟩ := hq.wellFormed
  refine ⟨q, as, _, hrun, rfl, hwf, ?_⟩
  intro c
  obtain ⟨q', he, hq'⟩ := Queue.holds_call hq c
  obtain ⟨as', hwf'⟩ := hq'.wellFormed
  exact ⟨q', as', he, hwf'⟩

end
end Tysos
