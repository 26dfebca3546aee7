import Tysos.Support.DoublyLinked
import Tysos.Support.ListEdit
import Mathlib.Data.List.Perm.Subperm

/-!
# LinkedList over an explicit node store

The list class of `linkedlist.h`: nodes with forward and backward links, the ends `f`
and `l`, and a separate `count`. A `none` result is an access through a pointer that
names no node. `Rep` ties a list object to the sequence it stands for; every operation
has one specification lemma that says what it does to that sequence.
-/

namespace Tysos
open DoublyLinked
set_option autoImplicit false

variable {N T : Type}

abbrev Node (N : Type) := Cell N

structure LinkedList (N : Type) where
  nodes : Store N
  fresh : Nat
  f : Option Nat
  l : Option Nat
  count : Int

namespace LinkedList

def empty : LinkedList N := ⟨fun _ => none, 0, none, none, 0⟩

/-- `new Node(item)`: a node at an address that was never used before. -/
def newNode (q : LinkedList N) (item : N) : LinkedList N × Nat :=
  ({ q with nodes := Function.update q.nodes q.fresh (some ⟨item, none, none⟩),
            fresh := q.fresh + 1 }, q.fresh)

def modify (q : LinkedList N) (a : Nat) (g : Node N → Node N) : Option (LinkedList N) :=
  (q.nodes a).map fun c => { q with nodes := Function.update q.nodes a (some (g c)) }

def insertbef (q : LinkedList N) (cur n : Nat) : Option (LinkedList N) := do
  let c ← q.nodes cur
  let q ← match c.prev with
    | some p => do
      let q ← q.modify p fun x => { x with next := some n }
      q.modify n fun x => { x with prev := some p }
    | none => do
      let q ← q.modify n fun x => { x with prev := none }
      some { q with f := some n }
  let q ← q.modify cur fun x => { x with prev := some n }
  let q ← q.modify n fun x => { x with next := some cur }
  some { q with count := q.count + 1 }

def insertend (q : LinkedList N) (n : Nat) : Option (LinkedList N) := do
  let q ← match q.l with
    | none => some { q with f := some n, l := some n }
    | some l => do
      let q ← q.modify n fun x => { x with prev := some l }
      let q ← q.modify l fun x => { x with next := some n }
      some { q with l := some n }
  some { q with count := q.count + 1 }

def relinkPrev (q : LinkedList N) (c : Node N) : Option (LinkedList N) :=
  match c.prev with
  | some p => q.modify p fun x => { x with next := c.next }
  | none => some { q with f := c.next }

def relinkNext (merge : N → N → N) (q : LinkedList N) (c : Node N) : Option (LinkedList N) :=
  match c.next with
  | some x => q.modify x fun y => { y with prev := c.prev, item := merge c.item y.item }
  | none => some { q with l := c.prev }

/-- The shape shared by `LinkedList::_remove` and its override in `DeltaQueue`; `merge`
is what the override does to the successor of the node it unlinks. -/
def unlink (merge : N → N → N) (q : LinkedList N) (n : Option Nat) : Option (LinkedList N) :=
  match n with
  | none => some q
  | some n => do
    let c ← q.nodes n
    let q ← q.relinkPrev c
    let q ← relinkNext merge q c
    some { q with nodes := Function.update q.nodes n none, count := q.count - 1 }

def remove_ (q : LinkedList N) (n : Option Nat) : Option (LinkedList N) :=
  unlink (fun _ y => y) q n

def findLoop (q : LinkedList N) (is : N → Bool) : Nat → Option Nat → Int →
    Option (Option (Nat × Int))
  | 0, _, _ => none
  | _ + 1, none, _ => some none
  | k + 1, some c, index => do
    let n ← q.nodes c
    if is n.item then some (some (c, index)) else findLoop q is k n.next (index + 1)

/-- `_find`. A chain visits every node that was ever allocated at most once, which
bounds the walk. -/
def find (q : LinkedList N) (is : N → Bool) : Option (Option (Nat × Int)) :=
  findLoop q is (q.fresh + 1) q.f 0

def add (q : LinkedList N) (item : N) : Option (LinkedList N) :=
  let (q, n) := q.newNode item
  q.insertend n

/-- `Remove`, with the `_remove` that virtual dispatch selects. -/
def removeWith (rm : LinkedList N → Option Nat → Option (LinkedList N)) (q : LinkedList N)
    (is : N → Bool) : Option (LinkedList N × Bool) := do
  match ← q.find is with
  | none => some (q, false)
  | some (n, _) => do
    let q ← rm q (some n)
    some (q, true)

def remove (q : LinkedList N) (is : N → Bool) : Option (LinkedList N × Bool) :=
  q.removeWith remove_ is

/-- `_item`, with the same bound on the walk. -/
def itemLoop (q : LinkedList N) : Nat → Option Nat → Int → Option (Option Nat)
  | 0, _, _ => none
  | _ + 1, none, _ => some none
  | k + 1, some c, index =>
    if index = 0 then some (some c)
    else do
      let n ← q.nodes c
      itemLoop q k n.next (index - 1)

def item_ (q : LinkedList N) (index : Int) : Option (Option Nat) :=
  itemLoop q (q.fresh + 1) q.f index

def insert (q : LinkedList N) (item : N) (index : Int) : Option (LinkedList N) := do
  let next ← q.item_ index
  let (q, n) := q.newNode item
  match next with
  | some next => q.insertbef next n
  | none => q.insertend n

def removeAt (q : LinkedList N) (index : Int) : Option (LinkedList N) := do
  q.remove_ (← q.item_ index)

def clearLoop : Nat → LinkedList N → Option (LinkedList N)
  | 0, _ => none
  | k + 1, q =>
    match q.l with
    | none => some q
    | some l => do clearLoop k (← q.remove_ (some l))

def clear (q : LinkedList N) : Option (LinkedList N) := clearLoop (q.fresh + 1) q

def getItem (q : LinkedList N) (index : Int) : Option N := do
  let c ← q.nodes (← (← q.item_ index))
  some c.item

def indexOf (q : LinkedList N) (is : N → Bool) : Option Int := do
  match ← q.find is with
  | none => some (-1)
  | some (_, index) => some index

def contains (q : LinkedList N) (is : N → Bool) : Option Bool := do
  some (decide (0 ≤ (← q.indexOf is)))

def walk (nodes : Store N) : Nat → Option Nat → List N
  | 0, _ => []
  | _ + 1, none => []
  | k + 1, some a =>
    match nodes a with
    | none => []
    | some c => c.item :: walk nodes k c.next

/-- The items met when following the forward links from `f`. -/
def items (q : LinkedList N) : List N := walk q.nodes q.fresh q.f

def walkBack (nodes : Store N) : Nat → Option Nat → List N
  | 0, _ => []
  | _ + 1, none => []
  | k + 1, some a =>
    match nodes a with
    | none => []
    | some c => c.item :: walkBack nodes k c.prev

/-- The items met when following the backward links from `l`. -/
def itemsBack (q : LinkedList N) : List N := walkBack q.nodes q.fresh q.l

/-- `q` stands for the sequence `ps` of addresses and payloads. -/
structure Rep (q : LinkedList N) (ps : List (Nat × N)) : Prop where
  seg : Seg q.nodes none ps none
  first : q.f = headOr ps none
  last : q.l = lastOr none ps
  nodup : (addrs ps).Nodup
  bound : ∀ a ∈ addrs ps, a < q.fresh
  count : q.count = ps.length

theorem rep_empty : Rep (empty : LinkedList N) [] :=
  ⟨trivial, rfl, rfl, List.nodup_nil, by simp, rfl⟩

theorem length_le_of_bound {ps : List (Nat × N)} {k : Nat} (hn : (addrs ps).Nodup)
    (hb : ∀ a ∈ addrs ps, a < k) : ps.length ≤ k := by
  have hsub : addrs ps ⊆ List.range k := fun a ha => List.mem_range.mpr (hb a ha)
  simpa [addrs] using (hn.subperm hsub).length_le

theorem walk_seg {h : Store N} {pv : Option Nat} {ps : List (Nat × N)}
    (hs : Seg h pv ps none) {k : Nat} (hk : ps.length ≤ k) :
    walk h k (headOr ps none) = payloads ps := by
  induction ps generalizing pv k with
  | nil => cases k <;> rfl
  | cons p ps ih =>
    obtain ⟨k, rfl⟩ : ∃ j, k = j + 1 := ⟨k - 1, by simp at hk; omega⟩
    simp only [headOr_cons, walk, hs.1, payloads_cons]
    rw [ih hs.2 (by simpa using hk)]

theorem Rep.items_eq {q : LinkedList N} {ps : List (Nat × N)} (h : Rep q ps) :
    q.items = payloads ps := by
  rw [items, h.first]
  exact walk_seg h.seg (length_le_of_bound h.nodup h.bound)

theorem walkBack_seg {h : Store N} {tl : Option Nat} {ps : List (Nat × N)}
    (hs : Seg h none ps tl) {k : Nat} (hk : ps.length ≤ k) :
    walkBack h k (lastOr none ps) = (payloads ps).reverse := by
  induction k generalizing tl ps with
  | zero =>
    obtain rfl := List.eq_nil_of_length_eq_zero (Nat.le_zero.mp hk)
    rfl
  | succ k ih =>
    rcases eq_nil_or_snoc ps with rfl | ⟨qs, a, v, rfl⟩
    · rfl
    · have hleft := ((seg_append _ _ _ _ _).mp hs).1
      rw [List.length_append, List.length_singleton] at hk
      simp only [lastOr_append, lastOr_cons, lastOr_nil, walkBack, hs.lookup]
      rw [ih hleft (by omega), payloads_append, List.reverse_append]
      rfl

theorem Rep.itemsBack_eq {q : LinkedList N} {ps : List (Nat × N)} (h : Rep q ps) :
    q.itemsBack = (payloads ps).reverse := by
  rw [itemsBack, h.last]
  exact walkBack_seg h.seg (length_le_of_bound h.nodup h.bound)

theorem Rep.newNode {q : LinkedList N} {ps : List (Nat × N)} (h : Rep q ps) (v : N) :
    Rep (q.newNode v).1 ps ∧ (q.newNode v).1.nodes q.fresh = some ⟨v, none, none⟩ ∧
      q.fresh ∉ addrs ps ∧ q.fresh < (q.newNode v).1.fresh := by
  have hout : q.fresh ∉ addrs ps := fun hm => Nat.lt_irrefl _ (h.bound _ hm)
  refine ⟨⟨h.seg.update hout, h.first, h.last, h.nodup, ?_, h.count⟩, ?_, hout, ?_⟩
  · intro a ha
    exact Nat.lt_succ_of_lt (h.bound a ha)
  · simp [LinkedList.newNode]
  · exact Nat.lt_succ_self _

theorem bound_insert {xs ys : List (Nat × N)} {n k : Nat} {v : N}
    (h : ∀ a ∈ addrs (xs ++ ys), a < k) (hb : n < k) :
    ∀ a ∈ addrs (xs ++ (n, v) :: ys), a < k := by
  intro a ha
  rw [addrs_append, addrs_cons, List.mem_append, List.mem_cons] at ha
  rw [addrs_append] at h
  rcases ha with ha | rfl | ha
  · exact h a (List.mem_append_left _ ha)
  · exact hb
  · exact h a (List.mem_append_right _ ha)

theorem Rep.insertend {q : LinkedList N} {ps : List (Nat × N)} {n : Nat} {v : N} (h : Rep q ps)
    (hn : q.nodes n = some ⟨v, none, none⟩) (hout : n ∉ addrs ps) (hb : n < q.fresh) :
    ∃ q', q.insertend n = some q' ∧ Rep q' (ps ++ [(n, v)]) := by
  have hnd : (addrs (ps ++ [(n, v)])).Nodup := nodup_insert (by simpa using h.nodup) (by simpa)
  have hbd : ∀ a ∈ addrs (ps ++ [(n, v)]), a < q.fresh :=
    bound_insert (by simpa using h.bound) hb
  rcases eq_nil_or_snoc ps with rfl | ⟨qs, a, w, rfl⟩
  · have hl : q.l = none := h.last
    refine ⟨{ q with f := some n, l := some n, count := q.count + 1 }, by
      simp [LinkedList.insertend, hl], ?_⟩
    exact ⟨⟨hn, trivial⟩, rfl, rfl, hnd, hbd, by simp [h.count]⟩
  · have hl : q.l = some a := by rw [h.last, lastOr_append]; rfl
    have hna : a ≠ n := by
      rintro rfl
      exact hout (by simp)
    have haq : a ∉ addrs qs := not_mem_left h.nodup
    have hs₁ := h.seg.update (c := some ⟨v, none, some a⟩) hout
    have hs₂ := hs₁.relink_last haq (some n)
    have hlook : Function.update q.nodes n (some ⟨v, none, some a⟩) a =
        some ⟨w, none, lastOr none qs⟩ := hs₁.lookup
    refine ⟨_, by
      simp only [LinkedList.insertend, modify, hl, hn, hlook, Option.map_some,
        Option.bind_eq_bind, Option.bind_some]
      rfl, ?_⟩
    refine ⟨?_, ?_, ?_, hnd, hbd, ?_⟩
    · rw [seg_append]
      refine ⟨hs₂, ?_, trivial⟩
      simp [Function.update_of_ne hna.symm, lastOr_append]
    · simp only [h.first, headOr_append, headOr_cons]
    · simp [lastOr_append]
    · simp [h.count]
      omega

theorem Rep.insertbef {q : LinkedList N} {xs ys : List (Nat × N)} {c n : Nat} {w v : N}
    (h : Rep q (xs ++ (c, w) :: ys)) (hn : q.nodes n = some ⟨v, none, none⟩)
    (hout : n ∉ addrs (xs ++ (c, w) :: ys)) (hb : n < q.fresh) :
    ∃ q', q.insertbef c n = some q' ∧ Rep q' (xs ++ (n, v) :: (c, w) :: ys) := by
  have hnd : (addrs (xs ++ (n, v) :: (c, w) :: ys)).Nodup := nodup_insert h.nodup hout
  have hbd := bound_insert (v := v) h.bound hb
  have hcn : c ≠ n := by
    rintro rfl
    exact hout (by simp)
  have hcx := not_mem_left h.nodup
  have hcy := not_mem_right h.nodup
  have hlook := h.seg.lookup
  rcases eq_nil_or_snoc xs with rfl | ⟨qs, a, u, rfl⟩
  · have hs₁ := h.seg.update (c := some ⟨v, none, none⟩) hout
    have hs₂ := hs₁.relink_head hcy w (some n)
    have hs₃ := hs₂.update (c := some ⟨v, some c, none⟩) hout
    refine ⟨_, by
      simp only [LinkedList.insertbef, modify, hlook, hn, lastOr_nil, Option.map_some,
        Option.bind_eq_bind, Option.bind_some, Function.update_of_ne hcn,
        Function.update_of_ne hcn.symm, Function.update_self]
      rfl, ?_⟩
    refine ⟨⟨?_, ?_⟩, rfl, ?_, hnd, hbd, ?_⟩
    · simp
    · exact hs₃
    · simpa using h.last
    · simp [h.count]
  · obtain ⟨hleft, hright⟩ := (seg_append _ _ _ _ _).mp h.seg
    simp only [lastOr_append, lastOr_cons, lastOr_nil, headOr_cons] at hleft hright hlook
    have hnd' : (addrs (qs ++ (a, u) :: (c, w) :: ys)).Nodup := by simpa using h.nodup
    have hax := not_mem_left hnd'
    have hal := not_mem_right hnd'
    have hac : a ≠ c := fun heq => hal (by simp [heq])
    have han : a ≠ n := fun heq => hout (by simp [heq])
    simp only [addrs_append, List.mem_append, not_or] at hout hcx
    have hla : q.nodes a = some ⟨u, some c, lastOr none qs⟩ := hleft.lookup
    have hs₁ := (((hleft.relink_last hax (some n)).update
      (c := some ⟨v, none, some a⟩) (by simpa using hout.1)).update
      (c := some ⟨w, headOr ys none, some n⟩) (by simpa using hcx)).update
      (c := some ⟨v, some c, some a⟩) (by simpa using hout.1)
    have hs₂ := (((hright.update (c := some ⟨u, some n, lastOr none qs⟩) hal).update
      (c := some ⟨v, none, some a⟩) hout.2).relink_head hcy w (some n)).update
      (c := some ⟨v, some c, some a⟩) hout.2
    refine ⟨_, by
      simp only [LinkedList.insertbef, modify, hlook, hla, hn, Option.map_some,
        Option.bind_eq_bind, Option.bind_some, Function.update_of_ne hcn,
        Function.update_of_ne hcn.symm, Function.update_of_ne han.symm,
        Function.update_of_ne hac.symm, Function.update_self]
      rfl, ?_⟩
    refine ⟨?_, ?_, ?_, hnd, hbd, ?_⟩
    · rw [seg_append]
      refine ⟨hs₁, ?_, hs₂⟩
      simp [lastOr_append]
    · simp [h.first, headOr_append]
    · simp [h.last, lastOr_append]
    · simp [h.count]
      omega

def mergeHead (merge : N → N → N) (v : N) : List (Nat × N) → List (Nat × N)
  | [] => []
  | (a, w) :: ys => (a, merge v w) :: ys

@[simp] theorem addrs_mergeHead (merge : N → N → N) (v : N) (ys : List (Nat × N)) :
    addrs (mergeHead merge v ys) = addrs ys := by
  cases ys <;> rfl

@[simp] theorem headOr_mergeHead (merge : N → N → N) (v : N) (ys : List (Nat × N))
    (tl : Option Nat) : headOr (mergeHead merge v ys) tl = headOr ys tl := by
  cases ys <;> rfl

@[simp] theorem length_mergeHead (merge : N → N → N) (v : N) (ys : List (Nat × N)) :
    (mergeHead merge v ys).length = ys.length := by
  cases ys <;> rfl

theorem relinkPrev_spec {q : LinkedList N} {xs ys : List (Nat × N)} {n : Nat} {v : N}
    (h : Rep q (xs ++ (n, v) :: ys)) :
    ∃ q', q.relinkPrev ⟨v, headOr ys none, lastOr none xs⟩ = some q' ∧
      q'.fresh = q.fresh ∧ q'.count = q.count ∧ q'.l = q.l ∧ q'.f = headOr (xs ++ ys) none ∧
      Seg q'.nodes none xs (headOr ys none) ∧ Seg q'.nodes (some n) ys none := by
  obtain ⟨hleft, hright⟩ := (seg_append _ _ _ _ _).mp h.seg
  rcases eq_nil_or_snoc xs with rfl | ⟨qs, a, u, rfl⟩
  · exact ⟨_, rfl, rfl, rfl, rfl, rfl, trivial, hright.2⟩
  · have hnd : (addrs (qs ++ (a, u) :: (n, v) :: ys)).Nodup := by simpa using h.nodup
    have hay : a ∉ addrs ys := fun ha => not_mem_right hnd (List.mem_cons_of_mem _ ha)
    have hla : q.nodes a = some ⟨u, some n, lastOr none qs⟩ := hleft.lookup
    refine ⟨{ q with
      nodes := Function.update q.nodes a (some ⟨u, headOr ys none, lastOr none qs⟩) },
      ?_, rfl, rfl, rfl, ?_, ?_, ?_⟩
    · simp [relinkPrev, modify, lastOr_append, hla]
    · simp [h.first, headOr_append]
    · exact hleft.relink_last (not_mem_left hnd) _
    · exact hright.2.update hay

theorem relinkNext_spec (merge : N → N → N) {q : LinkedList N} {xs ys : List (Nat × N)}
    {n : Nat} {v : N} (hnd : (addrs (xs ++ (n, v) :: ys)).Nodup)
    (hlast : q.l = lastOr none (xs ++ (n, v) :: ys))
    (hleft : Seg q.nodes none xs (headOr ys none)) (hright : Seg q.nodes (some n) ys none) :
    ∃ q', relinkNext merge q ⟨v, headOr ys none, lastOr none xs⟩ = some q' ∧
      q'.fresh = q.fresh ∧ q'.count = q.count ∧ q'.f = q.f ∧
      q'.l = lastOr none (xs ++ mergeHead merge v ys) ∧
      Seg q'.nodes none (xs ++ mergeHead merge v ys) none := by
  cases ys with
  | nil => exact ⟨_, rfl, rfl, rfl, rfl, by simp [mergeHead], by simpa [mergeHead] using hleft⟩
  | cons p ys =>
    obtain ⟨c, w⟩ := p
    have hnd' : (addrs (xs ++ (c, w) :: ys)).Nodup := nodup_erase hnd
    have hlc : q.nodes c = some ⟨w, headOr ys none, some n⟩ := hright.1
    refine ⟨{ q with
      nodes := Function.update q.nodes c (some ⟨merge v w, headOr ys none, lastOr none xs⟩) },
      ?_, rfl, rfl, rfl, ?_, ?_⟩
    · simp [relinkNext, modify, hlc]
    · simp [hlast, lastOr_append, mergeHead]
    · rw [seg_append]
      exact ⟨hleft.update (not_mem_left hnd'), hright.relink_head (not_mem_right hnd') _ _⟩

/-- `_remove` takes the node out of the sequence; its successor is merged with it. -/
theorem Rep.unlink (merge : N → N → N) {q : LinkedList N} {xs ys : List (Nat × N)} {n : Nat}
    {v : N} (h : Rep q (xs ++ (n, v) :: ys)) :
    ∃ q', unlink merge q (some n) = some q' ∧ Rep q' (xs ++ mergeHead merge v ys) := by
  obtain ⟨q₁, he₁, hfr₁, hc₁, hl₁, hf₁, hleft, hright⟩ := relinkPrev_spec h
  obtain ⟨q₂, he₂, hfr₂, hc₂, hf₂, hl₂, hseg⟩ :=
    relinkNext_spec merge h.nodup (hl₁.trans h.last) hleft hright
  have hnd : (addrs (xs ++ mergeHead merge v ys)).Nodup := by
    simpa using nodup_erase h.nodup
  have hout : n ∉ addrs (xs ++ mergeHead merge v ys) := by
    simp only [addrs_append, addrs_mergeHead, List.mem_append, not_or]
    exact ⟨not_mem_left h.nodup, not_mem_right h.nodup⟩
  refine ⟨{ q₂ with nodes := Function.update q₂.nodes n none, count := q₂.count - 1 }, ?_, ?_⟩
  · simp only [LinkedList.unlink, h.seg.lookup, Option.bind_eq_bind, Option.bind_some, he₁, he₂]
  · refine ⟨hseg.update hout, ?_, hl₂, hnd, ?_, ?_⟩
    · simp [hf₂, hf₁, headOr_append]
    · intro a ha
      have hb := h.bound a (by
        simp only [addrs_append, addrs_mergeHead, addrs_cons, List.mem_append,
          List.mem_cons] at ha ⊢
        tauto)
      simpa [hfr₂, hfr₁] using hb
    · simp [hc₂, hc₁, h.count]
      omega

theorem Rep.setItem {q : LinkedList N} {xs ys : List (Nat × N)} {a : Nat} {v : N}
    (h : Rep q (xs ++ (a, v) :: ys)) (g : N → N) :
    ∃ q', q.modify a (fun x => { x with item := g x.item }) = some q' ∧
      Rep q' (xs ++ (a, g v) :: ys) := by
  obtain ⟨hleft, hright⟩ := (seg_append _ _ _ _ _).mp h.seg
  refine ⟨{ q with
    nodes := Function.update q.nodes a (some ⟨g v, headOr ys none, lastOr none xs⟩) }, ?_, ?_⟩
  · simp [modify, h.seg.lookup]
  · refine ⟨?_, ?_, ?_, ?_, ?_, ?_⟩
    · rw [seg_append]
      exact ⟨hleft.update (not_mem_left h.nodup), hright.relink_head (not_mem_right h.nodup) _ _⟩
    · simp [h.first, headOr_append]
    · simp [h.last, lastOr_append]
    · simpa using h.nodup
    · simpa using h.bound
    · simpa using h.count

/-- `q` stands for the sequence of items `vs`. -/
def Holds (q : LinkedList N) (vs : List N) : Prop := ∃ ps, Rep q ps ∧ payloads ps = vs

theorem holds_empty : Holds (empty : LinkedList N) [] := ⟨[], rep_empty, rfl⟩

theorem Holds.items_eq {q : LinkedList N} {vs : List N} (h : Holds q vs) : q.items = vs := by
  obtain ⟨ps, hr, rfl⟩ := h
  exact hr.items_eq

theorem Holds.itemsBack_eq {q : LinkedList N} {vs : List N} (h : Holds q vs) :
    q.itemsBack = vs.reverse := by
  obtain ⟨ps, hr, rfl⟩ := h
  exact hr.itemsBack_eq

theorem Holds.count_eq {q : LinkedList N} {vs : List N} (h : Holds q vs) :
    q.count = vs.length := by
  obtain ⟨ps, hr, rfl⟩ := h
  simpa using hr.count

theorem Holds.length_le {q : LinkedList N} {vs : List N} (h : Holds q vs) :
    vs.length ≤ q.fresh := by
  obtain ⟨ps, hr, rfl⟩ := h
  simpa using length_le_of_bound hr.nodup hr.bound

theorem Holds.add {q : LinkedList N} {vs : List N} (h : Holds q vs) (v : N) :
    ∃ q', q.add v = some q' ∧ Holds q' (vs ++ [v]) := by
  obtain ⟨ps, hr, rfl⟩ := h
  obtain ⟨hr', hn, hout, hb⟩ := hr.newNode v
  obtain ⟨q', he, hq'⟩ := hr'.insertend hn hout hb
  exact ⟨q', he, _, hq', by simp⟩

theorem findLoop_spec {q : LinkedList N} (is : N → Bool) {pv : Option Nat}
    {ps : List (Nat × N)} (hs : Seg q.nodes pv ps none) {k : Nat} (hk : ps.length < k)
    (index : Int) :
    (findLoop q is k (headOr ps none) index = some none ∧ ∀ v ∈ payloads ps, is v = false) ∨
    ∃ xs a v ys, ps = xs ++ (a, v) :: ys ∧ is v = true ∧ (∀ w ∈ payloads xs, is w = false) ∧
      findLoop q is k (headOr ps none) index = some (some (a, index + xs.length)) := by
  induction ps generalizing pv k index with
  | nil =>
    obtain ⟨k, rfl⟩ : ∃ j, k = j + 1 := ⟨k - 1, by simp at hk; omega⟩
    exact Or.inl ⟨rfl, by simp⟩
  | cons p ps ih =>
    obtain ⟨k, rfl⟩ : ∃ j, k = j + 1 := ⟨k - 1, by simp at hk; omega⟩
    have hstep : findLoop q is (k + 1) (headOr (p :: ps) none) index =
        if is p.2 then some (some (p.1, index))
        else findLoop q is k (headOr ps none) (index + 1) := by
      simp [findLoop, hs.1]
    rw [hstep]
    cases hp : is p.2 with
    | true => exact Or.inr ⟨[], p.1, p.2, ps, rfl, hp, by simp, by simp⟩
    | false =>
      rcases ih hs.2 (by simpa using hk) (index + 1) with
        ⟨he, hall⟩ | ⟨xs, a, v, ys, rfl, hv, hxs, he⟩
      · exact Or.inl ⟨by simpa using he, by simpa [hp] using hall⟩
      · refine Or.inr ⟨p :: xs, a, v, ys, rfl, hv, by simpa [hp] using hxs, ?_⟩
        simp only [Bool.false_eq_true, if_false, he, List.length_cons]
        congr 3
        push_cast
        omega

theorem Rep.find {q : LinkedList N} {ps : List (Nat × N)} (h : Rep q ps) (is : N → Bool) :
    (q.find is = some none ∧ ∀ v ∈ payloads ps, is v = false) ∨
    ∃ xs a v ys, ps = xs ++ (a, v) :: ys ∧ is v = true ∧ (∀ w ∈ payloads xs, is w = false) ∧
      q.find is = some (some (a, (xs.length : Int))) := by
  have hk : ps.length < q.fresh + 1 := Nat.lt_succ_of_le (length_le_of_bound h.nodup h.bound)
  simpa [LinkedList.find, h.first] using findLoop_spec is h.seg hk 0

/-- What `Remove` does to the sequence: the first matching item goes and is merged into
its successor. -/
def removeFirst (merge : N → N → N) (is : N → Bool) : List N → List N
  | [] => []
  | v :: vs =>
    if is v then
      match vs with
      | [] => []
      | w :: ws => merge v w :: ws
    else v :: removeFirst merge is vs

theorem removeFirst_of_not_mem (merge : N → N → N) {is : N → Bool} {vs : List N}
    (h : ∀ v ∈ vs, is v = false) : removeFirst merge is vs = vs := by
  induction vs with
  | nil => rfl
  | cons v vs ih =>
    have hv := h v List.mem_cons_self
    simp [removeFirst, hv, ih fun w hw => h w (List.mem_cons_of_mem _ hw)]

theorem removeFirst_append (merge : N → N → N) {is : N → Bool} {xs : List (Nat × N)} {v : N}
    (hxs : ∀ w ∈ payloads xs, is w = false) (hv : is v = true) (ys : List (Nat × N)) :
    removeFirst merge is (payloads xs ++ v :: payloads ys) =
      payloads xs ++ payloads (mergeHead merge v ys) := by
  induction xs with
  | nil => cases ys <;> simp [removeFirst, hv, mergeHead]
  | cons p xs ih =>
    have hp := hxs p.2 List.mem_cons_self
    simp only [payloads_cons, List.cons_append, removeFirst, hp, Bool.false_eq_true, if_false]
    rw [ih fun w hw => hxs w (List.mem_cons_of_mem _ hw)]

theorem removeFirst_length_le (merge : N → N → N) (is : N → Bool) (vs : List N) :
    (removeFirst merge is vs).length ≤ vs.length := by
  induction vs with
  | nil => exact Nat.le_refl _
  | cons v vs ih =>
    unfold removeFirst
    split
    · cases vs <;> simp
    · simpa using ih

theorem removeFirst_eq_eraseP (is : N → Bool) (vs : List N) :
    removeFirst (fun _ y => y) is vs = vs.eraseP is := by
  induction vs with
  | nil => rfl
  | cons v vs ih =>
    cases hv : is v
    · simp [removeFirst, hv, ih]
    · cases vs <;> simp [removeFirst, hv]

theorem Holds.removeWith (merge : N → N → N) {q : LinkedList N} {vs : List N} (h : Holds q vs)
    (is : N → Bool) :
    ∃ q', q.removeWith (LinkedList.unlink merge) is = some (q', vs.any is) ∧
      Holds q' (removeFirst merge is vs) := by
  obtain ⟨ps, hr, rfl⟩ := h
  rcases hr.find is with ⟨he, hall⟩ | ⟨xs, a, v, ys, rfl, hv, hxs, he⟩
  · refine ⟨q, ?_, ps, hr, (removeFirst_of_not_mem merge hall).symm⟩
    have hany : (payloads ps).any is = false := by simpa using hall
    simp [LinkedList.removeWith, he, hany]
  · obtain ⟨q', hu, hr'⟩ := hr.unlink merge
    refine ⟨q', ?_, _, hr', ?_⟩
    · simp [LinkedList.removeWith, he, hu, hv]
    · simp [removeFirst_append merge hxs hv]

theorem Holds.remove {q : LinkedList N} {vs : List N} (h : Holds q vs) (is : N → Bool) :
    ∃ q', q.remove is = some (q', vs.any is) ∧ Holds q' (vs.eraseP is) := by
  rw [← removeFirst_eq_eraseP]
  exact h.removeWith _ is

theorem itemLoop_mid {q : LinkedList N} {pv tl : Option Nat} {xs ys : List (Nat × N)} {a : Nat}
    {v : N} (hs : Seg q.nodes pv (xs ++ (a, v) :: ys) tl) {k : Nat} (hk : xs.length < k) :
    q.itemLoop k (headOr (xs ++ (a, v) :: ys) tl) xs.length = some (some a) := by
  induction xs generalizing pv k with
  | nil =>
    obtain ⟨k, rfl⟩ := Nat.exists_eq_succ_of_ne_zero (Nat.ne_zero_of_lt hk)
    rfl
  | cons p xs ih =>
    obtain ⟨k, rfl⟩ := Nat.exists_eq_succ_of_ne_zero (Nat.ne_zero_of_lt hk)
    have hne : ((p :: xs).length : Int) ≠ 0 := Int.ofNat_ne_zero.mpr (Nat.succ_ne_zero _)
    have hpred : ((p :: xs).length : Int) - 1 = xs.length := by simp
    simp only [List.cons_append, headOr_cons, itemLoop]
    rw [if_neg hne, hs.1, hpred]
    exact ih hs.2 (Nat.lt_of_succ_lt_succ hk)

/-- The walk counts down from the index, so a negative one is never 0 on it. -/
theorem itemLoop_out {q : LinkedList N} {pv : Option Nat} {ps : List (Nat × N)}
    (hs : Seg q.nodes pv ps none) {k : Nat} (hk : ps.length < k) {index : Int}
    (hi : index < 0 ∨ ps.length ≤ index) :
    q.itemLoop k (headOr ps none) index = some none := by
  induction ps generalizing pv k index with
  | nil =>
    obtain ⟨k, rfl⟩ := Nat.exists_eq_succ_of_ne_zero (Nat.ne_zero_of_lt hk)
    rfl
  | cons p ps ih =>
    obtain ⟨k, rfl⟩ := Nat.exists_eq_succ_of_ne_zero (Nat.ne_zero_of_lt hk)
    rw [List.length_cons] at hk hi
    have hne : index ≠ 0 := by omega
    simp only [headOr_cons, itemLoop]
    rw [if_neg hne, hs.1]
    exact ih hs.2 (Nat.lt_of_succ_lt_succ hk) (by omega)

theorem Rep.item_mid {q : LinkedList N} {xs ys : List (Nat × N)} {a : Nat} {v : N}
    (h : Rep q (xs ++ (a, v) :: ys)) : q.item_ xs.length = some (some a) := by
  have hlen := length_le_of_bound h.nodup h.bound
  rw [List.length_append] at hlen
  unfold item_
  rw [h.first]
  exact itemLoop_mid h.seg (by omega)

theorem Rep.item_out {q : LinkedList N} {ps : List (Nat × N)} (h : Rep q ps) {index : Int}
    (hi : index < 0 ∨ ps.length ≤ index) : q.item_ index = some none := by
  unfold item_
  rw [h.first]
  exact itemLoop_out h.seg (Nat.lt_succ_of_le (length_le_of_bound h.nodup h.bound)) hi

theorem Rep.item_past {q : LinkedList N} {ps : List (Nat × N)} (h : Rep q ps) {i : Nat}
    (hi : ps.length ≤ i) : q.item_ i = some none :=
  h.item_out (Or.inr (Int.ofNat_le.mpr hi))

theorem payloads_eq_append {ps : List (Nat × N)} {us vs : List N} (h : payloads ps = us ++ vs) :
    ∃ xs ys, ps = xs ++ ys ∧ payloads xs = us ∧ payloads ys = vs := by
  obtain ⟨xs, ys, rfl, hx, hy⟩ := List.map_eq_append_iff.mp h
  exact ⟨xs, ys, rfl, hx, hy⟩

theorem Holds.insert {q : LinkedList N} {us vs : List N} (h : Holds q (us ++ vs)) (v : N) :
    ∃ q', q.insert v us.length = some q' ∧ Holds q' (us ++ v :: vs) := by
  obtain ⟨ps, hr, hp⟩ := h
  obtain ⟨xs, ys, rfl, rfl, rfl⟩ := payloads_eq_append hp
  obtain ⟨hr', hn, hout, hb⟩ := hr.newNode v
  cases ys with
  | nil =>
    rw [List.append_nil] at hr hr' hout
    obtain ⟨q', he, hq'⟩ := hr'.insertend hn hout hb
    refine ⟨q', ?_, _, hq', by simp⟩
    rw [payloads_length]
    simp only [LinkedList.insert, hr.item_past (Nat.le_refl _), Option.bind_eq_bind,
      Option.bind_some]
    exact he
  | cons p ys =>
    obtain ⟨q', he, hq'⟩ := hr'.insertbef hn hout hb
    refine ⟨q', ?_, _, hq', by simp⟩
    rw [payloads_length]
    simp only [LinkedList.insert, hr.item_mid, Option.bind_eq_bind, Option.bind_some]
    exact he

theorem Holds.removeAt {q : LinkedList N} {us vs : List N} {v : N} (h : Holds q (us ++ v :: vs)) :
    ∃ q', q.removeAt us.length = some q' ∧ Holds q' (us ++ vs) := by
  obtain ⟨ps, hr, hp⟩ := h
  obtain ⟨xs, ys', rfl, rfl, hy⟩ := payloads_eq_append hp
  obtain ⟨p, ys, rfl, rfl, rfl⟩ := List.map_eq_cons_iff.mp hy
  obtain ⟨q', he, hq'⟩ := hr.unlink fun _ y => y
  refine ⟨q', ?_, _, hq', ?_⟩
  · rw [payloads_length]
    simp only [LinkedList.removeAt, hr.item_mid, Option.bind_eq_bind, Option.bind_some]
    exact he
  · cases ys <;> simp [mergeHead, payloads]

theorem Holds.insert_out {q : LinkedList N} {vs : List N} (h : Holds q vs) (v : N) {index : Int}
    (hi : index < 0 ∨ vs.length ≤ index) :
    ∃ q', q.insert v index = some q' ∧ Holds q' (vs ++ [v]) := by
  obtain ⟨ps, hr, rfl⟩ := h
  rw [payloads_length] at hi
  obtain ⟨hr', hn, hout, hb⟩ := hr.newNode v
  obtain ⟨q', he, hq'⟩ := hr'.insertend hn hout hb
  refine ⟨q', ?_, _, hq', by simp⟩
  simp only [LinkedList.insert, hr.item_out hi, Option.bind_eq_bind, Option.bind_some]
  exact he

/-- `_remove(NULL)` does nothing. -/
theorem Holds.removeAt_out {q : LinkedList N} {vs : List N} (h : Holds q vs) {index : Int}
    (hi : index < 0 ∨ vs.length ≤ index) : q.removeAt index = some q := by
  obtain ⟨ps, hr, rfl⟩ := h
  rw [payloads_length] at hi
  simp only [LinkedList.removeAt, hr.item_out hi, Option.bind_eq_bind, Option.bind_some]
  rfl

theorem Holds.removeAt_eraseIdx {q : LinkedList N} {vs : List N} (h : Holds q vs) (i : Nat) :
    ∃ q', q.removeAt i = some q' ∧ Holds q' (vs.eraseIdx i) := by
  rcases Nat.lt_or_ge i vs.length with hi | hi
  · obtain ⟨us, v, ws, rfl, rfl⟩ := ListEdit.exists_split hi
    rw [ListEdit.eraseIdx_append]
    exact h.removeAt
  · rw [List.eraseIdx_of_length_le hi]
    exact ⟨q, h.removeAt_out (Or.inr (Int.ofNat_le.mpr hi)), h⟩

theorem Rep.clearLoop {q : LinkedList N} {ps : List (Nat × N)} (h : Rep q ps) {k : Nat}
    (hk : ps.length < k) : ∃ q', LinkedList.clearLoop k q = some q' ∧ Rep q' [] := by
  induction k generalizing q ps with
  | zero => exact absurd hk (Nat.not_lt_zero _)
  | succ k ih =>
    unfold LinkedList.clearLoop
    rw [h.last]
    rcases eq_nil_or_snoc ps with rfl | ⟨qs, a, v, rfl⟩
    · exact ⟨q, rfl, h⟩
    · obtain ⟨q', he, hq'⟩ := h.unlink fun _ y => y
      rw [mergeHead, List.append_nil] at hq'
      rw [List.length_append, List.length_singleton] at hk
      obtain ⟨q'', hc, hq''⟩ := ih hq' (by omega)
      refine ⟨q'', ?_, hq''⟩
      have he' : q.remove_ (some a) = some q' := he
      simp [lastOr_append, he', hc]

theorem Holds.clear {q : LinkedList N} {vs : List N} (h : Holds q vs) :
    ∃ q', q.clear = some q' ∧ Holds q' [] := by
  obtain ⟨ps, hr, -⟩ := h
  obtain ⟨q', he, hq'⟩ :=
    hr.clearLoop (Nat.lt_succ_of_le (length_le_of_bound hr.nodup hr.bound))
  exact ⟨q', he, [], hq', rfl⟩

theorem Holds.getItem {q : LinkedList N} {us vs : List N} {v : N} (h : Holds q (us ++ v :: vs)) :
    q.getItem us.length = some v := by
  obtain ⟨ps, hr, hp⟩ := h
  obtain ⟨xs, ys', rfl, rfl, hy⟩ := payloads_eq_append hp
  obtain ⟨p, ys, rfl, rfl, rfl⟩ := List.map_eq_cons_iff.mp hy
  rw [payloads_length]
  simp [LinkedList.getItem, hr.item_mid, hr.seg.lookup]

theorem Holds.getItem_past {q : LinkedList N} {vs : List N} (h : Holds q vs) {i : Nat}
    (hi : vs.length ≤ i) : q.getItem i = none := by
  obtain ⟨ps, hr, rfl⟩ := h
  rw [payloads_length] at hi
  simp only [LinkedList.getItem, hr.item_past hi, Option.bind_eq_bind, Option.bind_some,
    Option.bind_none]

theorem Holds.indexOf {q : LinkedList N} {vs : List N} (h : Holds q vs) (is : N → Bool) :
    (q.indexOf is = some (-1) ∧ ∀ v ∈ vs, is v = false) ∨
      ∃ us v ws, vs = us ++ v :: ws ∧ is v = true ∧ (∀ u ∈ us, is u = false) ∧
        q.indexOf is = some us.length := by
  obtain ⟨ps, hr, rfl⟩ := h
  rcases hr.find is with ⟨he, hall⟩ | ⟨xs, a, v, ys, rfl, hv, hxs, he⟩
  · exact Or.inl ⟨by simp [LinkedList.indexOf, he], hall⟩
  · exact Or.inr ⟨payloads xs, v, payloads ys, by simp, hv, hxs,
      by simp [LinkedList.indexOf, he]⟩

end LinkedList
end Tysos
