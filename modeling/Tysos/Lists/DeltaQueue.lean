import Tysos.Lists.LinkedList
import Mathlib.Algebra.GroupWithZero.Nat

/-!
# Queue and DeltaQueue

The classes of `queue.h`. A delta queue keeps, for each item, the time between the one
before it and itself. `DeltaQueue` overrides `_remove`, so every inherited removal passes
the delta of the removed node on to its successor.

The second half says what the pointer code does to the list of deltas.
-/

namespace Tysos
open DoublyLinked LinkedList
set_option autoImplicit false

variable {T : Type}

abbrev Queue (T : Type) := LinkedList T

structure DeltaItem (T : Type) where
  item : T
  d : BitVec 64
  deriving DecidableEq

abbrev DeltaQueue (T : Type) := LinkedList (DeltaItem T)

namespace Queue

def getFirst (q : Queue T) (remove : Bool) : Option (Queue T × Option T) :=
  match q.f with
  | none => some (q, none)
  | some f => do
    let c ← q.nodes f
    if remove then
      let q ← q.remove_ (some f)
      some (q, some c.item)
    else some (q, some c.item)

end Queue

namespace DeltaQueue

def addDelta (v w : DeltaItem T) : DeltaItem T := { w with d := w.d + v.d }

/-- The override of `_remove`. -/
def remove_ (q : DeltaQueue T) (n : Option Nat) : Option (DeltaQueue T) :=
  unlink addDelta q n

def remove [DecidableEq T] (q : DeltaQueue T) (t : T) : Option (DeltaQueue T × Bool) :=
  q.removeWith remove_ fun v => v.item == t

def setDelta (q : DeltaQueue T) (a : Nat) (g : BitVec 64 → BitVec 64) : Option (DeltaQueue T) :=
  q.modify a fun x => { x with item := { x.item with d := g x.item.d } }

def insertAtDeltaLoop (n : Nat) : Nat → DeltaQueue T → BitVec 64 → Option Nat →
    Option (DeltaQueue T)
  | 0, _, _, _ => none
  | _ + 1, q, value, none => do
    let q ← setDelta q n fun _ => value
    q.insertend n
  | k + 1, q, value, some c => do
    let cn ← q.nodes c
    match cn.next with
    | none => insertAtDeltaLoop n k q (value - cn.item.d) none
    | some nx => do
      let nn ← q.nodes nx
      if value ≤ nn.item.d then
        let q ← setDelta q n fun _ => value
        let q ← q.insertbef nx n
        -- `c->next` is read again here, after the insertion
        let cn ← q.nodes c
        let nx ← cn.next
        setDelta q nx fun d => d - value
      else insertAtDeltaLoop n k q (value - cn.item.d) (some nx)

def insertAtDelta (q : DeltaQueue T) (item : T) (value : BitVec 64) : Option (DeltaQueue T) :=
  let (q, n) := q.newNode ⟨item, value⟩
  insertAtDeltaLoop n (q.fresh + 1) q value q.f

def getZero (q : DeltaQueue T) : Option (DeltaQueue T × Option T) :=
  match q.f with
  | none => some (q, none)
  | some f => do
    let c ← q.nodes f
    if c.item.d = 0 then
      let q ← remove_ q (some f)
      some (q, some c.item.item)
    else some (q, none)

def decreaseDeltaLoop : Nat → DeltaQueue T → BitVec 64 → Option Nat →
    Option (DeltaQueue T × BitVec 64)
  | 0, _, _, _ => none
  | _ + 1, q, decval, none => some (q, decval)
  | k + 1, q, decval, some c => do
    let cn ← q.nodes c
    if decval ≤ cn.item.d then
      let q ← setDelta q c fun d => d - decval
      some (q, 0)
    else
      let q ← setDelta q c fun _ => 0
      decreaseDeltaLoop k q (decval - cn.item.d) cn.next

def decreaseDelta (q : DeltaQueue T) (decval : BitVec 64) : Option (DeltaQueue T × BitVec 64) :=
  decreaseDeltaLoop (q.fresh + 1) q decval q.f

end DeltaQueue

theorem Queue.getFirst_false {q : Queue T} {vs : List T} (h : q.Holds vs) :
    q.getFirst false = some (q, vs.head?) := by
  obtain ⟨ps, hr, rfl⟩ := h
  cases ps with
  | nil =>
    have hf : q.f = none := hr.first
    simp [getFirst, hf]
  | cons p ps =>
    have hf : q.f = some p.1 := hr.first
    simp [getFirst, hf, hr.seg.1]

theorem Queue.getFirst_true {q : Queue T} {vs : List T} (h : q.Holds vs) :
    ∃ q' : Queue T, q.getFirst true = some (q', vs.head?) ∧ q'.Holds vs.tail := by
  obtain ⟨ps, hr, rfl⟩ := h
  cases ps with
  | nil =>
    have hf : q.f = none := hr.first
    refine ⟨q, ?_, [], hr, rfl⟩
    simp [getFirst, hf]
  | cons p ps =>
    have hf : q.f = some p.1 := hr.first
    have hsplit : Rep q ([] ++ (p.1, p.2) :: ps) := hr
    obtain ⟨q', he, hr'⟩ := hsplit.unlink fun _ y => y
    refine ⟨q', ?_, _, hr', ?_⟩
    · have he' : q.remove_ (some p.1) = some q' := he
      simp [getFirst, hf, hr.seg.1, he']
    · cases ps <;> rfl

namespace DeltaQueue

/-- The deltas after `InsertAtDelta`. In front of a successor whose delta is at least
`value`, the decrement meets the new node itself, whose delta becomes `value - value`. -/
def insertedAt (t : T) : List (DeltaItem T) → BitVec 64 → List (DeltaItem T)
  | [], value => [⟨t, value⟩]
  | [c], value => [c, ⟨t, value - c.d⟩]
  | c :: nx :: rest, value =>
    if value ≤ nx.d then c :: ⟨t, value - value⟩ :: nx :: rest
    else c :: insertedAt t (nx :: rest) (value - c.d)

theorem insertedAt_items (t : T) (vs : List (DeltaItem T)) (value : BitVec 64) :
    ((insertedAt t vs value).map DeltaItem.item).Perm (t :: vs.map DeltaItem.item) := by
  induction vs generalizing value with
  | nil => exact List.Perm.refl _
  | cons c vs ih =>
    cases vs with
    | nil => exact List.Perm.swap _ _ _
    | cons nx rest =>
      unfold insertedAt
      split
      · exact List.Perm.swap _ _ _
      · exact ((ih (value - c.d)).cons c.item).trans (List.Perm.swap _ _ _)

/-- The deltas after `DecreaseDelta`. -/
def decreased : List (DeltaItem T) → BitVec 64 → List (DeltaItem T)
  | [], _ => []
  | c :: cs, decval =>
    if decval ≤ c.d then { c with d := c.d - decval } :: cs
    else { c with d := 0 } :: decreased cs (decval - c.d)

theorem decreased_items (vs : List (DeltaItem T)) (decval : BitVec 64) :
    (decreased vs decval).map DeltaItem.item = vs.map DeltaItem.item := by
  induction vs generalizing decval with
  | nil => rfl
  | cons v vs ih =>
    unfold decreased
    split
    · rfl
    · simp [ih]

theorem decreased_length (vs : List (DeltaItem T)) (decval : BitVec 64) :
    (decreased vs decval).length = vs.length := by
  simpa using congrArg List.length (decreased_items vs decval)

def undelivered : List (DeltaItem T) → BitVec 64 → BitVec 64
  | [], decval => decval
  | c :: cs, decval => if decval ≤ c.d then 0 else undelivered cs (decval - c.d)

theorem setDelta_spec {q : DeltaQueue T} {xs ys : List (Nat × DeltaItem T)} {a : Nat}
    {v : DeltaItem T} (h : Rep q (xs ++ (a, v) :: ys)) (g : BitVec 64 → BitVec 64) :
    ∃ q', setDelta q a g = some q' ∧ Rep q' (xs ++ (a, { v with d := g v.d }) :: ys) :=
  h.setItem fun v => { v with d := g v.d }

theorem setDelta_new {q : DeltaQueue T} {ps : List (Nat × DeltaItem T)} {n : Nat}
    {v : DeltaItem T} (h : Rep q ps) (hn : q.nodes n = some ⟨v, none, none⟩)
    (hout : n ∉ addrs ps) (value : BitVec 64) :
    ∃ q', setDelta q n (fun _ => value) = some q' ∧ Rep q' ps ∧ q'.fresh = q.fresh ∧
      q'.nodes n = some ⟨{ v with d := value }, none, none⟩ := by
  refine ⟨{ q with
    nodes := Function.update q.nodes n (some ⟨{ v with d := value }, none, none⟩) },
    ?_, ?_, rfl, ?_⟩
  · simp [setDelta, LinkedList.modify, hn]
  · exact ⟨h.seg.update hout, h.first, h.last, h.nodup, h.bound, h.count⟩
  · simp

theorem insertAtDeltaLoop_spec {q : DeltaQueue T} {xs : List (Nat × DeltaItem T)}
    {ps : List (Nat × DeltaItem T)} {n : Nat} {t : T} {d₀ : BitVec 64} (h : Rep q (xs ++ ps))
    (hn : q.nodes n = some ⟨⟨t, d₀⟩, none, none⟩) (hout : n ∉ addrs (xs ++ ps))
    (hb : n < q.fresh) {k : Nat} (hk : ps.length < k) (value : BitVec 64) :
    ∃ q', insertAtDeltaLoop n k q value (headOr ps none) = some q' ∧
      q'.Holds (payloads xs ++ insertedAt t (payloads ps) value) := by
  induction ps generalizing xs k value with
  | nil =>
    obtain ⟨k, rfl⟩ : ∃ j, k = j + 1 := ⟨k - 1, by simp at hk; omega⟩
    obtain ⟨q₁, he₁, hr₁, hf₁, hn₁⟩ := setDelta_new h hn hout value
    obtain ⟨q₂, he₂, hr₂⟩ := hr₁.insertend hn₁ hout (hf₁ ▸ hb)
    refine ⟨q₂, by simp [insertAtDeltaLoop, he₁, he₂], _, hr₂, ?_⟩
    simp [insertedAt]
  | cons p ps ih =>
    obtain ⟨k, rfl⟩ : ∃ j, k = j + 1 := ⟨k - 1, by simp at hk; omega⟩
    have hlc := h.seg.lookup
    have h' : Rep q ((xs ++ [p]) ++ ps) := by simpa using h
    have hout' : n ∉ addrs ((xs ++ [p]) ++ ps) := by simpa using hout
    have hgo := fun v => ih h' hout' (k := k) (by simpa using hk) v
    cases ps with
    | nil =>
      obtain ⟨q', he, hq'⟩ := hgo (value - p.2.d)
      refine ⟨q', ?_, by simpa [insertedAt] using hq'⟩
      simpa [insertAtDeltaLoop, hlc] using he
    | cons x ys =>
      have hlx := h'.seg.lookup
      by_cases hle : value ≤ x.2.d
      · obtain ⟨q₁, he₁, hr₁, hf₁, hn₁⟩ := setDelta_new h' hn hout' value
        obtain ⟨q₂, he₂, hr₂⟩ := hr₁.insertbef hn₁ hout' (hf₁ ▸ hb)
        obtain ⟨q₃, he₃, hr₃⟩ := setDelta_spec hr₂ fun d => d - value
        have hr₂' : Rep q₂ (xs ++ p :: (n, ⟨t, value⟩) :: x :: ys) := by simpa using hr₂
        have hlp := hr₂'.seg.lookup
        refine ⟨q₃, ?_, _, hr₃, by simp [insertedAt, hle]⟩
        simp [insertAtDeltaLoop, hlc, hlx, hle, he₁, he₂, hlp, he₃]
      · obtain ⟨q', he, hq'⟩ := hgo (value - p.2.d)
        refine ⟨q', ?_, by simpa [insertedAt, hle] using hq'⟩
        simpa [insertAtDeltaLoop, hlc, hlx, hle] using he

theorem Holds.insertAtDelta {q : DeltaQueue T} {vs : List (DeltaItem T)} (h : q.Holds vs)
    (t : T) (value : BitVec 64) :
    ∃ q', insertAtDelta q t value = some q' ∧ q'.Holds (insertedAt t vs value) := by
  obtain ⟨ps, hr, rfl⟩ := h
  obtain ⟨hr', hn, hout, hb⟩ := hr.newNode ⟨t, value⟩
  have hk := Nat.lt_succ_of_le (length_le_of_bound hr'.nodup hr'.bound)
  have hr₀ : Rep (q.newNode ⟨t, value⟩).1 ([] ++ ps) := hr'
  obtain ⟨q', he, hq'⟩ := insertAtDeltaLoop_spec hr₀ hn hout hb hk value
  refine ⟨q', ?_, hq'⟩
  rw [← hr'.first] at he
  exact he

theorem decreaseDeltaLoop_spec {q : DeltaQueue T} {xs ps : List (Nat × DeltaItem T)}
    (h : Rep q (xs ++ ps)) {k : Nat} (hk : ps.length < k) (decval : BitVec 64) :
    ∃ q', decreaseDeltaLoop k q decval (headOr ps none) =
        some (q', undelivered (payloads ps) decval) ∧
      q'.Holds (payloads xs ++ decreased (payloads ps) decval) := by
  induction ps generalizing q xs k decval with
  | nil =>
    obtain ⟨k, rfl⟩ : ∃ j, k = j + 1 := ⟨k - 1, by simp at hk; omega⟩
    exact ⟨q, rfl, _, h, by simp [decreased]⟩
  | cons p ps ih =>
    obtain ⟨k, rfl⟩ : ∃ j, k = j + 1 := ⟨k - 1, by simp at hk; omega⟩
    have hlc := h.seg.lookup
    by_cases hle : decval ≤ p.2.d
    · obtain ⟨q₁, he₁, hr₁⟩ := setDelta_spec h fun d => d - decval
      refine ⟨q₁, ?_, _, hr₁, by simp [decreased, hle]⟩
      simp [decreaseDeltaLoop, hlc, hle, he₁, undelivered]
    · obtain ⟨q₁, he₁, hr₁⟩ := setDelta_spec h fun _ => 0#64
      have hr₁' : Rep q₁ ((xs ++ [(p.1, { p.2 with d := 0 })]) ++ ps) := by simpa using hr₁
      obtain ⟨q', he, hq'⟩ := ih hr₁' (k := k) (by simpa using hk) (decval - p.2.d)
      refine ⟨q', ?_, by simpa [decreased, hle] using hq'⟩
      simpa [decreaseDeltaLoop, hlc, hle, he₁, undelivered] using he

theorem Holds.decreaseDelta {q : DeltaQueue T} {vs : List (DeltaItem T)} (h : q.Holds vs)
    (decval : BitVec 64) :
    ∃ q', decreaseDelta q decval = some (q', undelivered vs decval) ∧
      q'.Holds (decreased vs decval) := by
  obtain ⟨ps, hr, rfl⟩ := h
  have hk := Nat.lt_succ_of_le (length_le_of_bound hr.nodup hr.bound)
  have hr₀ : Rep q ([] ++ ps) := hr
  obtain ⟨q', he, hq'⟩ := decreaseDeltaLoop_spec hr₀ hk decval
  rw [← hr.first] at he
  exact ⟨q', he, hq'⟩

theorem Holds.getZero_cons {q : DeltaQueue T} {v : DeltaItem T} {vs : List (DeltaItem T)}
    (h : q.Holds (v :: vs)) :
    (v.d = 0 ∧ ∃ q', getZero q = some (q', some v.item) ∧ q'.Holds vs) ∨
    (v.d ≠ 0 ∧ getZero q = some (q, none)) := by
  obtain ⟨ps, hr, hps⟩ := h
  cases ps with
  | nil => simp at hps
  | cons p ps =>
    obtain ⟨rfl, rfl⟩ : p.2 = v ∧ payloads ps = vs := by simpa using hps
    have hf : q.f = some p.1 := hr.first
    by_cases hz : p.2.d = 0
    · have hr₀ : Rep q ([] ++ p :: ps) := hr
      obtain ⟨q', he, hr'⟩ := hr₀.unlink addDelta
      refine Or.inl ⟨hz, q', ?_, _, hr', ?_⟩
      · simp [getZero, hf, hr.seg.1, hz, remove_, he]
      · cases ps with
        | nil => rfl
        | cons x ys => simp [mergeHead, addDelta, hz]
    · refine Or.inr ⟨hz, ?_⟩
      simp only [getZero, hf, hr.seg.1, Option.bind_eq_bind, Option.bind_some, if_neg hz]

theorem Holds.getZero_nil {q : DeltaQueue T} (h : q.Holds []) : getZero q = some (q, none) := by
  obtain ⟨ps, hr, hps⟩ := h
  obtain rfl : ps = [] := by simpa [payloads] using hps
  have hf : q.f = none := hr.first
  simp [getZero, hf]

theorem removeFirst_items [DecidableEq T] (t : T) (vs : List (DeltaItem T)) :
    (removeFirst addDelta (fun v => v.item == t) vs).map DeltaItem.item =
      (vs.map DeltaItem.item).erase t := by
  induction vs with
  | nil => rfl
  | cons v vs ih =>
    unfold removeFirst
    by_cases hv : v.item = t
    · cases vs <;> simp [hv, addDelta]
    · simp [hv, ih]

theorem Holds.removeDelta [DecidableEq T] {q : DeltaQueue T} {vs : List (DeltaItem T)}
    (h : q.Holds vs) (t : T) :
    ∃ q', remove q t = some (q', vs.any fun v => v.item == t) ∧
      q'.Holds (removeFirst addDelta (fun v => v.item == t) vs) :=
  h.removeWith addDelta _

end DeltaQueue
end Tysos
