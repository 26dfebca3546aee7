import Tysos.Lists.DeltaQueue
import Tysos.Support.Run

/-!
# The scheduler

The class `Scheduler` of `sched.h` over the list classes. The thread objects are named
by their addresses, the elements of `T`; `threads` holds the fields the scheduler reads
and writes. A `none` result is an access outside `running_tasks` or through a pointer
that names no list node. The spinlock around each call is left out: calls are taken one
at a time.
-/

namespace Tysos
open DoublyLinked LinkedList
set_option autoImplicit false

def locCurrent : Int := -1
def locSleeping : Int := -2
def locBlocking : Int := -3
def locReleased : Int := -4

/-- A priority is an index into `running_tasks`. -/
structure Thread (priorities : Nat) where
  timeToRun : BitVec 64
  priority : Fin priorities
  defaultSlice : BitVec 64
  location : Int

variable {priorities : Nat} {T : Type}

structure Scheduler (priorities : Nat) (T : Type) where
  runningTasks : Fin priorities → Queue T
  sleepingTasks : DeltaQueue T
  blockingTasks : LinkedList T
  threads : T → Thread priorities

namespace Scheduler
variable [DecidableEq T]

def modifyThread (s : Scheduler priorities T) (t : T)
    (g : Thread priorities → Thread priorities) : Scheduler priorities T :=
  { s with threads := Function.update s.threads t (g (s.threads t)) }

def location (s : Scheduler priorities T) (t : T) : Int := (s.threads t).location

/-- The part of `_Release` that takes the thread out of the queue its location names. -/
def dequeue (s : Scheduler priorities T) (t : T) : Option (Scheduler priorities T) :=
  if 0 ≤ s.location t then
    if h : (s.location t).toNat < priorities then do
      let (q, _) ← (s.runningTasks ⟨_, h⟩).remove (· == t)
      some { s with runningTasks := Function.update s.runningTasks ⟨_, h⟩ q }
    else none
  else if s.location t = locSleeping then do
    let (q, _) ← DeltaQueue.remove s.sleepingTasks t
    some { s with sleepingTasks := q }
  else if s.location t = locBlocking then do
    let (q, _) ← s.blockingTasks.remove (· == t)
    some { s with blockingTasks := q }
  else some s

def release_ (s : Scheduler priorities T) (t : T) : Option (Scheduler priorities T) := do
  let s ← s.dequeue t
  some (s.modifyThread t fun th => { th with location := locReleased })

def reschedule_ (s : Scheduler priorities T) (t : T) : Option (Scheduler priorities T) := do
  let s ← s.release_ t
  let s := s.modifyThread t fun th =>
    { th with location := th.priority.val, timeToRun := th.defaultSlice }
  let p := (s.threads t).priority
  let q ← (s.runningTasks p).add t
  some { s with runningTasks := Function.update s.runningTasks p q }

def deschedule (s : Scheduler priorities T) (t : T) : Option (Scheduler priorities T) :=
  s.release_ t

def reschedule (s : Scheduler priorities T) (t : T) : Option (Scheduler priorities T) :=
  s.reschedule_ t

def block (s : Scheduler priorities T) (t : T) : Option (Scheduler priorities T) := do
  let s ← s.release_ t
  let s := s.modifyThread t fun th => { th with location := locBlocking }
  let q ← s.blockingTasks.add t
  some { s with blockingTasks := q }

def sleep (s : Scheduler priorities T) (t : T) (ns : BitVec 64) :
    Option (Scheduler priorities T) := do
  let s ← s.release_ t
  let s := s.modifyThread t fun th => { th with location := locSleeping }
  let q ← DeltaQueue.insertAtDelta s.sleepingTasks t ns
  some { s with sleepingTasks := q }

/-- The loop of `_GetNextThread`; the queues still to look at are those below `i`. -/
def getNextLoop (s : Scheduler priorities T) (ns : BitVec 64) :
    (i : Nat) → i ≤ priorities → Option (Scheduler priorities T × Option T)
  | 0, _ => some (s, none)
  | i + 1, h => do
    let (_, ret) ← (s.runningTasks ⟨i, h⟩).getFirst false
    match ret with
    | some t =>
      if (s.threads t).timeToRun ≤ ns then do
        let s ← s.reschedule_ t
        some (s, some t)
      else
        some (s.modifyThread t fun th => { th with timeToRun := th.timeToRun - ns }, some t)
    | none => getNextLoop s ns i (Nat.le_of_lt h)

def getNextThread (s : Scheduler priorities T) (ns : BitVec 64) :
    Option (Scheduler priorities T × Option T) :=
  getNextLoop s ns priorities (Nat.le_refl _)

/-- The second component is the thread switched to, if any. -/
def scheduleNext (s : Scheduler priorities T) (ns : BitVec 64) (cur : Option T) :
    Option (Scheduler priorities T × Option T) := do
  let (s, next) ← s.getNextThread ns
  if next ≠ cur ∧ next ≠ none then some (s, next) else some (s, none)

def wakeLoop : Nat → Scheduler priorities T → Option (Scheduler priorities T)
  | 0, _ => none
  | k + 1, s => do
    let (q, newT) ← DeltaQueue.getZero s.sleepingTasks
    let s := { s with sleepingTasks := q }
    match newT with
    | none => some s
    | some t => do
      let s ← s.reschedule_ t
      wakeLoop k s

def timerTick (s : Scheduler priorities T) (ns : BitVec 64) (cur : Option T) :
    Option (Scheduler priorities T × Option T) := do
  let (q, _) ← DeltaQueue.decreaseDelta s.sleepingTasks ns
  let s ← wakeLoop (q.fresh + 1) { s with sleepingTasks := q }
  s.scheduleNext ns cur

/-- `TimerTick` up to its call of `ScheduleNext`. -/
def wakeUps (s : Scheduler priorities T) (ns : BitVec 64) : Option (Scheduler priorities T) := do
  let (q, _) ← DeltaQueue.decreaseDelta s.sleepingTasks ns
  wakeLoop (q.fresh + 1) { s with sleepingTasks := q }

theorem timerTick_eq (s : Scheduler priorities T) (ns : BitVec 64) (cur : Option T) :
    s.timerTick ns cur = (s.wakeUps ns).bind fun s => s.scheduleNext ns cur := by
  unfold timerTick wakeUps
  cases DeltaQueue.decreaseDelta s.sleepingTasks ns with
  | none => rfl
  | some r => rfl

/-- A call of the scheduler, or a change of a thread's priority between two calls. -/
inductive Op (priorities : Nat) (T : Type) where
  | deschedule (t : T)
  | reschedule (t : T)
  | block (t : T)
  | sleep (t : T) (ns : BitVec 64)
  | timerTick (ns : BitVec 64) (cur : Option T)
  | scheduleNext (ns : BitVec 64) (cur : Option T)
  | setPriority (t : T) (p : Fin priorities)

def step (s : Scheduler priorities T) : Op priorities T → Option (Scheduler priorities T)
  | .deschedule t => s.deschedule t
  | .reschedule t => s.reschedule t
  | .block t => s.block t
  | .sleep t ns => s.sleep t ns
  | .timerTick ns cur => (s.timerTick ns cur).map Prod.fst
  | .scheduleNext ns cur => (s.scheduleNext ns cur).map Prod.fst
  | .setPriority t p => some (s.modifyThread t fun th => { th with priority := p })

/-- Empty queues, and threads that are in none of them. -/
structure Initial (s : Scheduler priorities T) : Prop where
  running : ∀ i, s.runningTasks i = LinkedList.empty
  sleeping : s.sleepingTasks = LinkedList.empty
  blocking : s.blockingTasks = LinkedList.empty
  location : ∀ t, s.location t = locReleased ∨ s.location t = locCurrent

omit [DecidableEq T] in
/-- `new Scheduler` with the thread objects as they stand. -/
def create (threads : T → Thread priorities) : Scheduler priorities T :=
  ⟨fun _ => LinkedList.empty, LinkedList.empty, LinkedList.empty, threads⟩

end Scheduler
end Tysos
