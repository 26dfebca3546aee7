import Tysos.Sched.Scheduler
import Mathlib.Data.List.Count

/-!
# The scheduler on lists

`View` is what a scheduler state means: each queue is a list, the sleeping queue a list
of threads with their deltas. Every function of the scheduler has its counterpart here,
and `Shows` is kept by both sides together, so that the pointer code never fails and a
property of the lists is a property of the queues.
-/

namespace Tysos
open DoublyLinked LinkedList
set_option autoImplicit false

variable {priorities : Nat} {T : Type}

structure View (priorities : Nat) (T : Type) where
  running : Fin priorities → List T
  sleeping : List (DeltaItem T)
  blocking : List T
  threads : T → Thread priorities

namespace View

def location (v : View priorities T) (t : T) : Int := (v.threads t).location

def sleepers (v : View priorities T) : List T := v.sleeping.map DeltaItem.item

/-- Every location at or above 0 names one of the running queues. -/
def Bounded (v : View priorities T) : Prop := ∀ t, v.location t < priorities

variable [DecidableEq T]

def modifyThread (v : View priorities T) (t : T) (g : Thread priorities → Thread priorities) :
    View priorities T :=
  { v with threads := Function.update v.threads t (g (v.threads t)) }

def setLocation (v : View priorities T) (t : T) (loc : Int) : View priorities T :=
  v.modifyThread t fun th => { th with location := loc }

def dequeue (v : View priorities T) (t : T) : View priorities T :=
  if 0 ≤ v.location t then
    if h : (v.location t).toNat < priorities then
      { v with running := Function.update v.running ⟨_, h⟩ ((v.running ⟨_, h⟩).erase t) }
    else v
  else if v.location t = locSleeping then
    { v with sleeping := removeFirst DeltaQueue.addDelta (fun x => x.item == t) v.sleeping }
  else if v.location t = locBlocking then { v with blocking := v.blocking.erase t }
  else v

def release (v : View priorities T) (t : T) : View priorities T :=
  (v.dequeue t).setLocation t locReleased

def enqueue (v : View priorities T) (t : T) : View priorities T :=
  let p := (v.threads t).priority
  { v with
    running := Function.update v.running p (v.running p ++ [t]),
    threads := Function.update v.threads t
      { v.threads t with location := p.val, timeToRun := (v.threads t).defaultSlice } }

def reschedule (v : View priorities T) (t : T) : View priorities T := (v.release t).enqueue t

def block (v : View priorities T) (t : T) : View priorities T :=
  let v := (v.release t).setLocation t locBlocking
  { v with blocking := v.blocking ++ [t] }

def sleep (v : View priorities T) (t : T) (ns : BitVec 64) : View priorities T :=
  let v := (v.release t).setLocation t locSleeping
  { v with sleeping := DeltaQueue.insertedAt t v.sleeping ns }

def nextBelow (v : View priorities T) (ns : BitVec 64) :
    (i : Nat) → i ≤ priorities → View priorities T × Option T
  | 0, _ => (v, none)
  | i + 1, h =>
    match (v.running ⟨i, h⟩).head? with
    | some t =>
      if (v.threads t).timeToRun ≤ ns then (v.reschedule t, some t)
      else (v.modifyThread t fun th => { th with timeToRun := th.timeToRun - ns }, some t)
    | none => nextBelow v ns i (Nat.le_of_lt h)

theorem nextBelow_cases (v : View priorities T) (ns : BitVec 64) {i : Nat} (hi : i ≤ priorities) :
    v.nextBelow ns i hi = (v, none) ∨ ∃ p t, (v.running p).head? = some t ∧
      (v.nextBelow ns i hi = (v.reschedule t, some t) ∨
        v.nextBelow ns i hi =
          (v.modifyThread t fun th => { th with timeToRun := th.timeToRun - ns }, some t)) := by
  induction i with
  | zero => exact Or.inl rfl
  | succ i ih =>
    unfold nextBelow
    cases hhead : (v.running ⟨i, hi⟩).head? with
    | none => exact ih (Nat.le_of_lt hi)
    | some t =>
      refine Or.inr ⟨⟨i, hi⟩, t, hhead, ?_⟩
      dsimp only
      split
      · exact Or.inl rfl
      · exact Or.inr rfl

def next (v : View priorities T) (ns : BitVec 64) : View priorities T × Option T :=
  v.nextBelow ns priorities (Nat.le_refl _)

/-- Wake the threads at the front of the sleeping list whose delta is 0, at most `k`. -/
def wake : Nat → View priorities T → View priorities T
  | 0, v => v
  | k + 1, v =>
    match v.sleeping with
    | [] => v
    | x :: xs =>
      if x.d = 0 then wake k (({ v with sleeping := xs } : View priorities T).reschedule x.item)
      else v

def decrease (v : View priorities T) (ns : BitVec 64) : View priorities T :=
  { v with sleeping := DeltaQueue.decreased v.sleeping ns }

def tick (v : View priorities T) (ns : BitVec 64) : View priorities T × Option T :=
  (wake v.sleeping.length (v.decrease ns)).next ns

/-- The view after the wake-ups of a tick. -/
def woken (v : View priorities T) (ns : BitVec 64) : View priorities T :=
  wake v.sleeping.length (v.decrease ns)

def step (v : View priorities T) : Scheduler.Op priorities T → View priorities T
  | .deschedule t => v.release t
  | .reschedule t => v.reschedule t
  | .block t => v.block t
  | .sleep t ns => v.sleep t ns
  | .timerTick ns _ => (v.tick ns).1
  | .scheduleNext ns _ => (v.next ns).1
  | .setPriority t p => v.modifyThread t fun th => { th with priority := p }

@[simp] theorem setLocation_location_self (v : View priorities T) (t : T) (loc : Int) :
    (v.setLocation t loc).location t = loc := by
  simp [setLocation, modifyThread, location]

theorem setLocation_location_of_ne (v : View priorities T) {t u : T} (h : u ≠ t) (loc : Int) :
    (v.setLocation t loc).location u = v.location u := by
  simp [setLocation, modifyThread, location, Function.update_of_ne h]

@[simp] theorem dequeue_threads (v : View priorities T) (t : T) :
    (v.dequeue t).threads = v.threads := by
  unfold dequeue
  split
  · split <;> rfl
  split
  · rfl
  split <;> rfl

theorem release_location_self (v : View priorities T) (t : T) :
    (v.release t).location t = locReleased := setLocation_location_self _ _ _

theorem release_location_of_ne (v : View priorities T) {t u : T} (h : u ≠ t) :
    (v.release t).location u = v.location u := by
  rw [release, setLocation_location_of_ne _ h]
  simp [location]

theorem enqueue_location_self (v : View priorities T) (t : T) :
    (v.enqueue t).location t = (v.threads t).priority.val := by
  simp [enqueue, location]

theorem enqueue_location_of_ne (v : View priorities T) {t u : T} (h : u ≠ t) :
    (v.enqueue t).location u = v.location u := by
  simp [enqueue, location, Function.update_of_ne h]

theorem reschedule_location_of_ne (v : View priorities T) {t u : T} (h : u ≠ t) :
    (v.reschedule t).location u = v.location u := by
  rw [reschedule, enqueue_location_of_ne _ h, release_location_of_ne _ h]

theorem reschedule_location_self_bounds (v : View priorities T) (t : T) :
    0 ≤ (v.reschedule t).location t ∧ (v.reschedule t).location t < priorities := by
  rw [reschedule, enqueue_location_self]
  have hp := ((v.release t).threads t).priority.isLt
  omega

theorem Bounded.reschedule {v : View priorities T} (h : v.Bounded) (t : T) :
    (v.reschedule t).Bounded := by
  intro u
  by_cases hu : u = t
  · subst hu
    exact (reschedule_location_self_bounds v u).2
  · rw [reschedule_location_of_ne _ hu]
    exact h u

theorem reschedule_sleeping_length_le (v : View priorities T) (t : T) :
    (v.reschedule t).sleeping.length ≤ v.sleeping.length := by
  change (v.dequeue t).sleeping.length ≤ _
  unfold dequeue
  split
  · split <;> exact Nat.le_refl _
  split
  · exact removeFirst_length_le _ _ _
  split <;> exact Nat.le_refl _

theorem wake_succ {k : Nat} {v : View priorities T} (h : v.sleeping.length ≤ k) :
    wake (k + 1) v = wake k v := by
  induction k generalizing v with
  | zero =>
    have hs : v.sleeping = [] := List.eq_nil_of_length_eq_zero (Nat.le_zero.mp h)
    simp [wake, hs]
  | succ k ih =>
    unfold wake
    cases hs : v.sleeping with
    | nil => rfl
    | cons x xs =>
      have hle := reschedule_sleeping_length_le
        ({ v with sleeping := xs } : View priorities T) x.item
      simp only [hs, List.length_cons] at h hle ⊢
      rw [ih (by omega)]

/-- Fuel beyond the number of sleepers changes nothing. -/
theorem wake_of_le {k : Nat} {v : View priorities T} (h : v.sleeping.length ≤ k) :
    wake k v = wake v.sleeping.length v := by
  induction h with
  | refl => rfl
  | step hk ih => rw [wake_succ hk, ih]

theorem Bounded.wake {v : View priorities T} (h : v.Bounded) (k : Nat) :
    (View.wake k v).Bounded := by
  induction k generalizing v with
  | zero => exact h
  | succ k ih =>
    unfold View.wake
    split
    · exact h
    · split
      · apply ih
        apply Bounded.reschedule
        exact h
      · exact h

end View

/-- The queues of `s` hold the lists of `v`. -/
structure Shows (s : Scheduler priorities T) (v : View priorities T) : Prop where
  running : ∀ i, (s.runningTasks i).Holds (v.running i)
  sleeping : s.sleepingTasks.Holds v.sleeping
  blocking : s.blockingTasks.Holds v.blocking
  threads : s.threads = v.threads

namespace Shows
variable {s : Scheduler priorities T} {v : View priorities T}

theorem location_eq (h : Shows s v) (t : T) : s.location t = v.location t := by
  simp [Scheduler.location, View.location, h.threads]

theorem holds_update {f : Fin priorities → Queue T} {g : Fin priorities → List T}
    (h : ∀ i, (f i).Holds (g i)) (p : Fin priorities) {q : Queue T} {vs : List T}
    (hq : q.Holds vs) : ∀ i, (Function.update f p q i).Holds (Function.update g p vs i) := by
  intro i
  by_cases hi : i = p
  · subst hi
    simpa using hq
  · simpa [Function.update_of_ne hi] using h i

variable [DecidableEq T]

theorem modifyThread (h : Shows s v) (t : T) (g : Thread priorities → Thread priorities) :
    Shows (s.modifyThread t g) (v.modifyThread t g) := by
  refine ⟨h.running, h.sleeping, h.blocking, ?_⟩
  simp [Scheduler.modifyThread, View.modifyThread, h.threads]

theorem dequeue (h : Shows s v) {t : T} (hb : v.location t < priorities) :
    ∃ s', s.dequeue t = some s' ∧ Shows s' (v.dequeue t) := by
  unfold Scheduler.dequeue View.dequeue
  simp only [h.location_eq]
  split
  · rename_i hr
    have hlt : (v.location t).toNat < priorities := by omega
    obtain ⟨q, he, hq⟩ := (h.running ⟨_, hlt⟩).remove (· == t)
    rw [← List.erase_eq_eraseP'] at hq
    simp only [dif_pos hlt, he, Option.bind_eq_bind, Option.bind_some]
    exact ⟨_, rfl, holds_update h.running _ hq, h.sleeping, h.blocking, h.threads⟩
  split
  · obtain ⟨q, he, hq⟩ := DeltaQueue.Holds.removeDelta h.sleeping t
    simp only [he, Option.bind_eq_bind, Option.bind_some]
    exact ⟨_, rfl, h.running, hq, h.blocking, h.threads⟩
  split
  · obtain ⟨q, he, hq⟩ := h.blocking.remove (· == t)
    rw [← List.erase_eq_eraseP'] at hq
    simp only [he, Option.bind_eq_bind, Option.bind_some]
    exact ⟨_, rfl, h.running, h.sleeping, hq, h.threads⟩
  · exact ⟨s, rfl, h⟩

theorem release (h : Shows s v) {t : T} (hb : v.location t < priorities) :
    ∃ s', s.release_ t = some s' ∧ Shows s' (v.release t) := by
  obtain ⟨s', he, hs⟩ := h.dequeue hb
  refine ⟨s'.modifyThread t fun th => { th with location := locReleased }, ?_,
    hs.modifyThread t _⟩
  simp only [Scheduler.release_, he, Option.bind_eq_bind, Option.bind_some]

theorem reschedule (h : Shows s v) {t : T} (hb : v.location t < priorities) :
    ∃ s', s.reschedule_ t = some s' ∧ Shows s' (v.reschedule t) := by
  obtain ⟨s₁, he, hs⟩ := h.release hb
  let mark : Thread priorities → Thread priorities := fun th =>
    { th with location := th.priority.val, timeToRun := th.defaultSlice }
  have hs₂ := hs.modifyThread t mark
  obtain ⟨q, hadd, hq⟩ := (hs₂.running ((v.release t).threads t).priority).add t
  refine ⟨{ s₁.modifyThread t mark with
    runningTasks := Function.update s₁.runningTasks ((v.release t).threads t).priority q }, ?_,
    holds_update hs.running _ hq, hs.sleeping, hs.blocking, hs₂.threads⟩
  have hp : ((s₁.modifyThread t mark).threads t).priority =
      ((v.release t).threads t).priority := by
    simp [Scheduler.modifyThread, mark, hs.threads]
  rw [← hp] at hadd
  simp only [Scheduler.reschedule_, he, Option.bind_eq_bind, Option.bind_some]
  change (((s₁.modifyThread t mark).runningTasks _).add t).bind _ = _
  rw [hadd, ← hp]
  rfl

theorem block (h : Shows s v) {t : T} (hb : v.location t < priorities) :
    ∃ s', s.block t = some s' ∧ Shows s' (v.block t) := by
  obtain ⟨s₁, he, hs⟩ := h.release hb
  have hs₂ := hs.modifyThread t fun th => { th with location := locBlocking }
  obtain ⟨q, hadd, hq⟩ := hs₂.blocking.add t
  refine ⟨{ s₁.modifyThread t fun th => { th with location := locBlocking } with
    blockingTasks := q }, ?_, hs₂.running, hs₂.sleeping, hq, hs₂.threads⟩
  simp only [Scheduler.block, he, Option.bind_eq_bind, Option.bind_some, hadd]

theorem sleep (h : Shows s v) {t : T} (hb : v.location t < priorities) (ns : BitVec 64) :
    ∃ s', s.sleep t ns = some s' ∧ Shows s' (v.sleep t ns) := by
  obtain ⟨s₁, he, hs⟩ := h.release hb
  have hs₂ := hs.modifyThread t fun th => { th with location := locSleeping }
  obtain ⟨q, hins, hq⟩ := DeltaQueue.Holds.insertAtDelta hs₂.sleeping t ns
  refine ⟨{ s₁.modifyThread t fun th => { th with location := locSleeping } with
    sleepingTasks := q }, ?_, hs₂.running, hq, hs₂.blocking, hs₂.threads⟩
  simp only [Scheduler.sleep, he, Option.bind_eq_bind, Option.bind_some, hins]

theorem nextBelow (h : Shows s v) (hb : v.Bounded) (ns : BitVec 64) (i : Nat)
    (hi : i ≤ priorities) :
    ∃ s', s.getNextLoop ns i hi = some (s', (v.nextBelow ns i hi).2) ∧
      Shows s' (v.nextBelow ns i hi).1 := by
  induction i with
  | zero => exact ⟨s, rfl, h⟩
  | succ i ih =>
    have hfirst := Queue.getFirst_false (h.running ⟨i, hi⟩)
    unfold Scheduler.getNextLoop View.nextBelow
    simp only [hfirst, Option.bind_eq_bind, Option.bind_some]
    cases hh : (v.running ⟨i, hi⟩).head? with
    | none => exact ih (Nat.le_of_lt hi)
    | some t =>
      simp only [h.threads]
      split
      · obtain ⟨s', he, hs⟩ := h.reschedule (hb t)
        exact ⟨s', by simp [he], hs⟩
      · exact ⟨_, rfl, h.modifyThread t _⟩

theorem next (h : Shows s v) (hb : v.Bounded) (ns : BitVec 64) (cur : Option T) :
    ∃ s', s.scheduleNext ns cur = some (s', if (v.next ns).2 ≠ cur then (v.next ns).2 else none) ∧
      Shows s' (v.next ns).1 := by
  obtain ⟨s', he, hs⟩ := h.nextBelow hb ns priorities (Nat.le_refl _)
  refine ⟨s', ?_, hs⟩
  simp only [Scheduler.scheduleNext, Scheduler.getNextThread, he, Option.bind_eq_bind,
    Option.bind_some]
  change (if (v.next ns).2 ≠ cur ∧ (v.next ns).2 ≠ none then _ else _) = _
  by_cases hc : (v.next ns).2 = cur
  · simp [hc]
  · cases hn : (v.next ns).2 with
    | none => simp
    | some t =>
      rw [hn] at hc
      simp only [ne_eq, hc, not_false_eq_true, reduceCtorEq, and_self, if_true]
      exact congrArg some (Prod.ext rfl hn)

theorem wake (h : Shows s v) (hb : v.Bounded) {k : Nat} (hk : v.sleeping.length < k) :
    ∃ s', Scheduler.wakeLoop k s = some s' ∧ Shows s' (View.wake k v) := by
  induction k generalizing s v with
  | zero => omega
  | succ k ih =>
    unfold Scheduler.wakeLoop View.wake
    cases hv : v.sleeping with
    | nil =>
      have hsl : s.sleepingTasks.Holds [] := hv ▸ h.sleeping
      simp only [DeltaQueue.Holds.getZero_nil hsl, Option.bind_eq_bind, Option.bind_some]
      exact ⟨s, rfl, h⟩
    | cons x xs =>
      have hsl : s.sleepingTasks.Holds (x :: xs) := hv ▸ h.sleeping
      rcases DeltaQueue.Holds.getZero_cons hsl with ⟨hz, q, he, hq⟩ | ⟨hz, he⟩
      · have hs : Shows { s with sleepingTasks := q } { v with sleeping := xs } :=
          ⟨h.running, hq, h.blocking, h.threads⟩
        obtain ⟨s₁, hr, hs₁⟩ := hs.reschedule (hb x.item)
        have hle := View.reschedule_sleeping_length_le
          ({ v with sleeping := xs } : View priorities T) x.item
        have hb₁ : (({ v with sleeping := xs } : View priorities T).reschedule x.item).Bounded :=
          View.Bounded.reschedule (v := { v with sleeping := xs }) hb x.item
        obtain ⟨s', hw, hs'⟩ := ih hs₁ hb₁ (by
          simp only [hv, List.length_cons] at hk hle
          omega)
        refine ⟨s', ?_, by simpa [hz] using hs'⟩
        simp only [he, Option.bind_eq_bind, Option.bind_some, hr, hw]
      · refine ⟨s, ?_, by simpa only [if_neg hz] using h⟩
        simp only [he, Option.bind_eq_bind, Option.bind_some]

theorem wakeUps (h : Shows s v) (hb : v.Bounded) (ns : BitVec 64) :
    ∃ s', s.wakeUps ns = some s' ∧ Shows s' (v.woken ns) := by
  obtain ⟨q, he, hq⟩ := DeltaQueue.Holds.decreaseDelta h.sleeping ns
  have hs : Shows { s with sleepingTasks := q } (v.decrease ns) :=
    ⟨h.running, hq, h.blocking, h.threads⟩
  have hdec : (v.decrease ns).sleeping.length = v.sleeping.length :=
    DeltaQueue.decreased_length _ _
  have hfuel : (v.decrease ns).sleeping.length < q.fresh + 1 := Nat.lt_succ_of_le hq.length_le
  obtain ⟨s', hw, hs'⟩ := hs.wake hb hfuel
  rw [View.wake_of_le (Nat.le_of_lt hfuel), hdec] at hs'
  refine ⟨s', ?_, hs'⟩
  simp only [Scheduler.wakeUps, he, Option.bind_eq_bind, Option.bind_some, hw]

theorem tick (h : Shows s v) (hb : v.Bounded) (ns : BitVec 64) (cur : Option T) :
    ∃ s', s.timerTick ns cur = some (s', if (v.tick ns).2 ≠ cur then (v.tick ns).2 else none) ∧
      Shows s' (v.tick ns).1 := by
  obtain ⟨s₁, hw, hs₁⟩ := h.wakeUps hb ns
  have hb₁ : (v.woken ns).Bounded := View.Bounded.wake (v := v.decrease ns) hb _
  obtain ⟨s', hn, hs'⟩ := hs₁.next hb₁ ns cur
  refine ⟨s', ?_, hs'⟩
  rw [Scheduler.timerTick_eq, hw]
  exact hn

theorem step (h : Shows s v) (hb : v.Bounded) (op : Scheduler.Op priorities T) :
    ∃ s', s.step op = some s' ∧ Shows s' (v.step op) := by
  cases op with
  | deschedule t => exact h.release (hb t)
  | reschedule t => exact h.reschedule (hb t)
  | block t => exact h.block (hb t)
  | sleep t ns => exact h.sleep (hb t) ns
  | timerTick ns cur =>
    obtain ⟨s', he, hs⟩ := h.tick hb ns cur
    exact ⟨s', by simp [Scheduler.step, he], hs⟩
  | scheduleNext ns cur =>
    obtain ⟨s', he, hs⟩ := h.next hb ns cur
    exact ⟨s', by simp [Scheduler.step, he], hs⟩
  | setPriority t p => exact ⟨_, rfl, h.modifyThread t _⟩

end Shows
end Tysos
