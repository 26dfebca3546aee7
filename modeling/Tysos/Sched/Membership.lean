import Tysos.Sched.View
import Mathlib.Algebra.BigOperators.Fin
import Mathlib.Algebra.BigOperators.Ring.Finset

/-!
# Queue membership

In every state a run of scheduler calls can reach, a thread is in the one queue its
location names, once, and in no other; a released or current thread is in none.
-/

namespace Tysos
open DoublyLinked LinkedList
set_option autoImplicit false

variable {priorities : Nat} {T : Type} [DecidableEq T]

theorem count_removeFirst_of_ne {t u : T} (h : u ≠ t) (vs : List (DeltaItem T)) :
    ((removeFirst DeltaQueue.addDelta (fun x => x.item == t) vs).map DeltaItem.item).count u =
      (vs.map DeltaItem.item).count u := by
  rw [DeltaQueue.removeFirst_items, List.count_erase_of_ne h]

theorem mem_iff_of_count {l : List T} {t : T} {P : Prop} [Decidable P]
    (h : l.count t = if P then 1 else 0) : t ∈ l ↔ P := by
  rw [← List.count_pos_iff, h]
  split <;> simp_all

namespace View

/-- `v'` agrees with `v` on everything about the thread `u`. -/
structure SameAt (v v' : View priorities T) (u : T) : Prop where
  location : v'.location u = v.location u
  running : ∀ i, (v'.running i).count u = (v.running i).count u
  sleeping : v'.sleepers.count u = v.sleepers.count u
  blocking : v'.blocking.count u = v.blocking.count u

/-- The thread is once in the queue its location names and in no other. -/
structure PlacedAt (v : View priorities T) (t : T) : Prop where
  low : locReleased ≤ v.location t
  high : v.location t < priorities
  running : ∀ i : Fin priorities, (v.running i).count t = if v.location t = i.val then 1 else 0
  sleeping : v.sleepers.count t = if v.location t = locSleeping then 1 else 0
  blocking : v.blocking.count t = if v.location t = locBlocking then 1 else 0

/-- As `PlacedAt`, but the thread may have left its queue already. -/
structure LooseAt (v : View priorities T) (t : T) : Prop where
  high : v.location t < priorities
  running : ∀ i : Fin priorities, (v.running i).count t ≤ if v.location t = i.val then 1 else 0
  sleeping : v.sleepers.count t ≤ if v.location t = locSleeping then 1 else 0
  blocking : v.blocking.count t ≤ if v.location t = locBlocking then 1 else 0

def Placed (v : View priorities T) : Prop := ∀ t, v.PlacedAt t

theorem SameAt.trans {v₁ v₂ v₃ : View priorities T} {u : T} (h : SameAt v₁ v₂ u)
    (h' : SameAt v₂ v₃ u) : SameAt v₁ v₃ u :=
  ⟨h'.location.trans h.location, fun i => (h'.running i).trans (h.running i),
    h'.sleeping.trans h.sleeping, h'.blocking.trans h.blocking⟩

theorem PlacedAt.of_same {v v' : View priorities T} {u : T} (h : v.PlacedAt u)
    (hs : SameAt v v' u) : v'.PlacedAt u where
  low := hs.location ▸ h.low
  high := hs.location ▸ h.high
  running i := by rw [hs.running i, hs.location]; exact h.running i
  sleeping := by rw [hs.sleeping, hs.location]; exact h.sleeping
  blocking := by rw [hs.blocking, hs.location]; exact h.blocking

theorem PlacedAt.loose {v : View priorities T} {t : T} (h : v.PlacedAt t) : v.LooseAt t :=
  ⟨h.high, fun i => Nat.le_of_eq (h.running i), Nat.le_of_eq h.sleeping, Nat.le_of_eq h.blocking⟩

theorem Placed.bounded {v : View priorities T} (h : v.Placed) : v.Bounded := fun t => (h t).high

theorem Placed.mem_running_iff {v : View priorities T} (h : v.Placed) (t : T)
    (i : Fin priorities) : t ∈ v.running i ↔ v.location t = i.val :=
  mem_iff_of_count ((h t).running i)

theorem Placed.mem_sleepers_iff {v : View priorities T} (h : v.Placed) (t : T) :
    t ∈ v.sleepers ↔ v.location t = locSleeping := mem_iff_of_count (h t).sleeping

theorem modifyThread_same (v : View priorities T) {t u : T} (h : u ≠ t)
    (g : Thread priorities → Thread priorities) : SameAt v (v.modifyThread t g) u :=
  ⟨by simp [modifyThread, View.location, Function.update_of_ne h], fun _ => rfl, rfl, rfl⟩

theorem modifyThread_same_of_location (v : View priorities T) (t u : T)
    (g : Thread priorities → Thread priorities) (hg : ∀ th, (g th).location = th.location) :
    SameAt v (v.modifyThread t g) u := by
  refine ⟨?_, fun _ => rfl, rfl, rfl⟩
  by_cases h : u = t
  · subst h
    simp [modifyThread, View.location, hg]
  · simp [modifyThread, View.location, Function.update_of_ne h]

theorem count_update_running (f : Fin priorities → List T) (p i : Fin priorities) (l : List T)
    (u : T) (h : l.count u = (f p).count u) :
    (Function.update f p l i).count u = (f i).count u := by
  by_cases hi : i = p
  · subst hi
    simpa using h
  · simp [Function.update_of_ne hi]

theorem dequeue_same (v : View priorities T) {t u : T} (h : u ≠ t) :
    SameAt v (v.dequeue t) u := by
  refine ⟨by simp [View.location], ?_, ?_, ?_⟩ <;> unfold dequeue
  · intro i
    split
    · split
      · exact count_update_running _ _ _ _ _ (List.count_erase_of_ne h)
      · rfl
    split
    · rfl
    split <;> rfl
  · split
    · split <;> rfl
    split
    · exact count_removeFirst_of_ne h _
    split <;> rfl
  · split
    · split <;> rfl
    split
    · rfl
    split
    · exact List.count_erase_of_ne h
    · rfl

theorem release_same (v : View priorities T) {t u : T} (h : u ≠ t) : SameAt v (v.release t) u :=
  (dequeue_same v h).trans
    (modifyThread_same (v.dequeue t) h fun th => { th with location := locReleased })

theorem enqueue_same (v : View priorities T) {t u : T} (h : u ≠ t) : SameAt v (v.enqueue t) u := by
  refine ⟨enqueue_location_of_ne v h, fun i => ?_, rfl, rfl⟩
  exact count_update_running _ _ _ _ _ (by simp [h.symm])

theorem reschedule_same (v : View priorities T) {t u : T} (h : u ≠ t) :
    SameAt v (v.reschedule t) u := (release_same v h).trans (enqueue_same _ h)

theorem dequeue_running_count {v : View priorities T} {t : T} (h : v.LooseAt t)
    (i : Fin priorities) : ((v.dequeue t).running i).count t = 0 := by
  have hi := h.running i
  have hhigh := h.high
  unfold dequeue
  by_cases hr : 0 ≤ v.location t
  · have hlt : (v.location t).toNat < priorities := by omega
    simp only [if_pos hr, dif_pos hlt]
    by_cases heq : i = ⟨(v.location t).toNat, hlt⟩
    · subst heq
      simp only [Function.update_self, List.count_erase_self]
      split at hi <;> omega
    · have hne : v.location t ≠ i.val := by
        intro hv
        exact heq (Fin.ext (by simp [hv]))
      rw [Function.update_of_ne heq]
      rw [if_neg hne] at hi
      omega
  · have hne : v.location t ≠ i.val := by omega
    rw [if_neg hne] at hi
    have hz : (v.running i).count t = 0 := by omega
    simp only [if_neg hr]
    split
    · exact hz
    split <;> exact hz

theorem dequeue_sleeping_count {v : View priorities T} {t : T} (h : v.LooseAt t) :
    (v.dequeue t).sleepers.count t = 0 := by
  have hs := h.sleeping
  unfold dequeue
  by_cases hl : v.location t = locSleeping
  · have hr : ¬ 0 ≤ v.location t := by rw [hl]; decide
    rw [if_pos hl] at hs
    simp only [if_neg hr, if_pos hl, sleepers, DeltaQueue.removeFirst_items,
      List.count_erase_self]
    exact Nat.sub_eq_zero_of_le hs
  · rw [if_neg hl] at hs
    have hz : v.sleepers.count t = 0 := Nat.le_zero.mp hs
    simp only [if_neg hl]
    split
    · split <;> exact hz
    split <;> exact hz

theorem dequeue_blocking_count {v : View priorities T} {t : T} (h : v.LooseAt t) :
    (v.dequeue t).blocking.count t = 0 := by
  have hb := h.blocking
  unfold dequeue
  by_cases hl : v.location t = locBlocking
  · have hr : ¬ 0 ≤ v.location t := by rw [hl]; decide
    have hs : v.location t ≠ locSleeping := by rw [hl]; decide
    rw [if_pos hl] at hb
    simp only [if_neg hr, if_neg hs, if_pos hl, List.count_erase_self]
    exact Nat.sub_eq_zero_of_le hb
  · rw [if_neg hl] at hb
    have hz : v.blocking.count t = 0 := Nat.le_zero.mp hb
    simp only [if_neg hl]
    split
    · split <;> exact hz
    split <;> exact hz

theorem release_free {v : View priorities T} {t : T} (h : v.LooseAt t) :
    (∀ i, ((v.release t).running i).count t = 0) ∧ (v.release t).sleepers.count t = 0 ∧
      (v.release t).blocking.count t = 0 :=
  ⟨dequeue_running_count h, dequeue_sleeping_count h, dequeue_blocking_count h⟩

theorem release_placed {v : View priorities T} {t : T} (h : v.LooseAt t) :
    (v.release t).PlacedAt t := by
  obtain ⟨hrunning, hsleeping, hblocking⟩ := release_free h
  have hloc := release_location_self v t
  refine ⟨?_, ?_, fun i => ?_, ?_, ?_⟩
  · rw [hloc]
  · rw [hloc]
    exact Int.lt_of_lt_of_le (by decide) (Int.natCast_nonneg _)
  · have hne : locReleased ≠ (i.val : Int) := by
      unfold locReleased
      omega
    rw [hloc, if_neg hne]
    exact hrunning i
  · rw [hloc, if_neg (by decide)]
    exact hsleeping
  · rw [hloc, if_neg (by decide)]
    exact hblocking

theorem reschedule_placed {v : View priorities T} {t : T} (h : v.LooseAt t) :
    (v.reschedule t).PlacedAt t := by
  obtain ⟨hrunning, hsleeping, hblocking⟩ := release_free h
  have hbounds := reschedule_location_self_bounds v t
  have hself := enqueue_location_self (v.release t) t
  change (v.reschedule t).location t = _ at hself
  refine ⟨?_, hbounds.2, fun i => ?_, ?_, ?_⟩
  · exact Int.le_trans (by decide) hbounds.1
  · have hi := hrunning i
    rw [hself]
    by_cases heq : i = ((v.release t).threads t).priority
    · subst heq
      simp [View.reschedule, enqueue, hi]
    · have hval : ¬ (((v.release t).threads t).priority.val : Int) = i.val := by
        intro hv
        exact heq (Fin.ext (by omega))
      simpa [View.reschedule, enqueue, Function.update_of_ne heq, hval] using hi
  · have hne : (v.reschedule t).location t ≠ locSleeping := by
      unfold locSleeping
      omega
    rw [if_neg hne]
    exact hsleeping
  · have hne : (v.reschedule t).location t ≠ locBlocking := by
      unfold locBlocking
      omega
    rw [if_neg hne]
    exact hblocking

theorem block_placed {v : View priorities T} {t : T} (h : v.LooseAt t) :
    (v.block t).PlacedAt t := by
  obtain ⟨hrunning, hsleeping, hblocking⟩ := release_free h
  have hself : (v.block t).location t = locBlocking := setLocation_location_self _ _ _
  refine ⟨?_, ?_, fun i => ?_, ?_, ?_⟩
  · rw [hself]
    decide
  · rw [hself]
    exact Int.lt_of_lt_of_le (by decide) (Int.natCast_nonneg _)
  · rw [hself, if_neg (by unfold locBlocking; omega)]
    exact hrunning i
  · rw [hself, if_neg (by decide)]
    exact hsleeping
  · rw [hself, if_pos rfl]
    change ((v.release t).blocking ++ [t]).count t = 1
    simp [hblocking]

theorem sleep_placed {v : View priorities T} {t : T} (h : v.LooseAt t) (ns : BitVec 64) :
    (v.sleep t ns).PlacedAt t := by
  obtain ⟨hrunning, hsleeping, hblocking⟩ := release_free h
  have hself : (v.sleep t ns).location t = locSleeping := setLocation_location_self _ _ _
  refine ⟨?_, ?_, fun i => ?_, ?_, ?_⟩
  · rw [hself]
    decide
  · rw [hself]
    exact Int.lt_of_lt_of_le (by decide) (Int.natCast_nonneg _)
  · rw [hself, if_neg (by unfold locSleeping; omega)]
    exact hrunning i
  · rw [hself, if_pos rfl]
    have hperm := DeltaQueue.insertedAt_items t (v.release t).sleeping ns
    change ((DeltaQueue.insertedAt t (v.release t).sleeping ns).map DeltaItem.item).count t = 1
    rw [hperm.count_eq t]
    change (t :: (v.release t).sleepers).count t = 1
    simp [hsleeping]
  · rw [hself, if_neg (by decide)]
    exact hblocking

theorem block_same (v : View priorities T) {t u : T} (h : u ≠ t) : SameAt v (v.block t) u := by
  refine (release_same v h).trans ⟨setLocation_location_of_ne _ h _, fun _ => rfl, rfl, ?_⟩
  change ((v.release t).blocking ++ [t]).count u = _
  simp [h.symm]

theorem sleep_same (v : View priorities T) {t u : T} (h : u ≠ t) (ns : BitVec 64) :
    SameAt v (v.sleep t ns) u := by
  refine (release_same v h).trans ⟨setLocation_location_of_ne _ h _, fun _ => rfl, ?_, rfl⟩
  have hperm := DeltaQueue.insertedAt_items t (v.release t).sleeping ns
  change ((DeltaQueue.insertedAt t (v.release t).sleeping ns).map DeltaItem.item).count u = _
  rw [hperm.count_eq u]
  exact List.count_cons_of_ne h.symm

/-- An operation on `t` keeps the placement of all threads if it places `t` and leaves the
others as they are. -/
theorem Placed.of_step {v v' : View priorities T} {t : T} (h : v.Placed)
    (hself : v'.PlacedAt t) (hsame : ∀ u, u ≠ t → SameAt v v' u) : v'.Placed := by
  intro u
  by_cases hu : u = t
  · exact hu ▸ hself
  · exact (h u).of_same (hsame u hu)

theorem Placed.reschedule {v : View priorities T} (h : v.Placed) (t : T) :
    (v.reschedule t).Placed :=
  h.of_step (reschedule_placed (h t).loose) fun _ hu => reschedule_same v hu

/-- `GetZero` has unlinked the first sleeper, whose location still says that it sleeps. -/
theorem Placed.wakeFirst {v : View priorities T} (h : v.Placed) {x : DeltaItem T}
    {xs : List (DeltaItem T)} (hv : v.sleeping = x :: xs) :
    (({ v with sleeping := xs } : View priorities T).reschedule x.item).Placed := by
  have hcount : v.sleepers = x.item :: xs.map DeltaItem.item := by simp [sleepers, hv]
  apply h.of_step
  · apply reschedule_placed
    have hx := (h x.item).loose
    refine ⟨hx.high, hx.running, ?_, hx.blocking⟩
    have hs := hx.sleeping
    rw [hcount, List.count_cons_self] at hs
    exact Nat.le_trans (Nat.le_succ _) hs
  · intro u hu
    have hpop : SameAt v { v with sleeping := xs } u := by
      refine ⟨rfl, fun _ => rfl, ?_, rfl⟩
      rw [hcount, List.count_cons_of_ne hu.symm]
      rfl
    exact hpop.trans (reschedule_same _ hu)

theorem Placed.wake {v : View priorities T} (h : v.Placed) (k : Nat) :
    (View.wake k v).Placed := by
  induction k generalizing v with
  | zero => exact h
  | succ k ih =>
    unfold View.wake
    cases hv : v.sleeping with
    | nil => exact h
    | cons x xs =>
      simp only
      split
      · exact ih (h.wakeFirst hv)
      · exact h

theorem Placed.decrease {v : View priorities T} (h : v.Placed) (ns : BitVec 64) :
    (v.decrease ns).Placed := by
  intro u
  refine (h u).of_same ⟨rfl, fun _ => rfl, ?_, rfl⟩
  simp [sleepers, View.decrease, DeltaQueue.decreased_items]

theorem Placed.woken {v : View priorities T} (h : v.Placed) (ns : BitVec 64) :
    (v.woken ns).Placed := (h.decrease ns).wake _

/-- Selection keeps the placement, and the thread selected stands in a running queue both
before and after. -/
theorem Placed.nextBelow {v : View priorities T} (h : v.Placed) (ns : BitVec 64) (i : Nat)
    (hi : i ≤ priorities) :
    (v.nextBelow ns i hi).1.Placed ∧ ∀ t, (v.nextBelow ns i hi).2 = some t →
      0 ≤ v.location t ∧ 0 ≤ (v.nextBelow ns i hi).1.location t := by
  rcases v.nextBelow_cases ns hi with hnone | ⟨p, t, hhead, hsome⟩
  · rw [hnone]
    exact ⟨h, fun t ht => by cases ht⟩
  · have hloc : v.location t = (p.val : Int) :=
      (h.mem_running_iff t p).mp (List.mem_of_mem_head? hhead)
    have hready : 0 ≤ v.location t := by omega
    rcases hsome with hsome | hsome
    · rw [hsome]
      refine ⟨h.reschedule t, fun u hu => ?_⟩
      obtain rfl := Option.some.inj hu
      exact ⟨hready, (reschedule_location_self_bounds v t).1⟩
    · have hsame := fun u => modifyThread_same_of_location v t u
        (fun th => { th with timeToRun := th.timeToRun - ns }) fun _ => rfl
      rw [hsome]
      refine ⟨fun u => (h u).of_same (hsame u), fun u hu => ?_⟩
      obtain rfl := Option.some.inj hu
      exact ⟨hready, (hsame t).location.symm ▸ hready⟩

theorem Placed.step {v : View priorities T} (h : v.Placed) (op : Scheduler.Op priorities T) :
    (v.step op).Placed := by
  cases op with
  | deschedule t =>
    exact h.of_step (release_placed (h t).loose) fun _ hu => release_same v hu
  | reschedule t => exact h.reschedule t
  | block t => exact h.of_step (block_placed (h t).loose) fun _ hu => block_same v hu
  | sleep t ns =>
    exact h.of_step (sleep_placed (h t).loose ns) fun _ hu => sleep_same v hu ns
  | timerTick ns cur => exact (((h.decrease ns).wake _).nextBelow ns _ _).1
  | scheduleNext ns cur => exact (h.nextBelow ns _ _).1
  | setPriority t p =>
    intro u
    exact (h u).of_same
      (modifyThread_same_of_location v t u (fun th => { th with priority := p }) fun _ => rfl)

end View

/-- A scheduler state whose threads are all where their location says. -/
def Sound (s : Scheduler priorities T) (v : View priorities T) : Prop := Shows s v ∧ v.Placed

theorem Sound.step {s : Scheduler priorities T} {v : View priorities T} (h : Sound s v)
    (op : Scheduler.Op priorities T) :
    ∃ s', s.step op = some s' ∧ Sound s' (v.step op) := by
  obtain ⟨s', he, hs⟩ := h.1.step h.2.bounded op
  exact ⟨s', he, hs, h.2.step op⟩

theorem Sound.run {s : Scheduler priorities T} {v : View priorities T} (h : Sound s v)
    (ops : List (Scheduler.Op priorities T)) :
    ∃ s', Transition.run Scheduler.step s ops = some s' ∧ Sound s' (ops.foldl View.step v) := by
  induction ops generalizing s v with
  | nil => exact ⟨s, rfl, h⟩
  | cons op ops ih =>
    obtain ⟨s₁, he, hs₁⟩ := h.step op
    obtain ⟨s', hr, hs'⟩ := ih hs₁
    exact ⟨s', by simp [he, hr], hs'⟩

theorem Scheduler.Initial.sound {s : Scheduler priorities T} (h : s.Initial) :
    Sound s ⟨fun _ => [], [], [], s.threads⟩ := by
  refine ⟨⟨fun i => ?_, ?_, ?_, rfl⟩, fun t => ?_⟩
  · rw [h.running i]
    exact holds_empty
  · rw [h.sleeping]
    exact holds_empty
  · rw [h.blocking]
    exact holds_empty
  · have hl : (⟨fun _ => [], [], [], s.threads⟩ : View priorities T).location t = s.location t :=
      rfl
    have hloc := h.location t
    simp only [locReleased, locCurrent] at hloc
    constructor
    · simp only [hl, locReleased]
      omega
    · rw [hl]
      omega
    · intro i
      rw [hl, if_neg (by omega)]
      rfl
    · rw [hl, if_neg (by simp only [locSleeping]; omega)]
      rfl
    · rw [hl, if_neg (by simp only [locBlocking]; omega)]
      rfl

namespace Scheduler

def sleepers (s : Scheduler priorities T) : List T := s.sleepingTasks.items.map DeltaItem.item

/-- How often the thread is met in all queues together. -/
def occurrences (s : Scheduler priorities T) (t : T) : Nat :=
  (∑ i, (s.runningTasks i).items.count t) + s.sleepers.count t + s.blockingTasks.items.count t

/-- The location is a queue or one of the two marks for no queue, the thread occurs once in
the first case and never in the second, and the queue it occurs in is the one named. -/
structure InItsQueue (s : Scheduler priorities T) (t : T) : Prop where
  location : locReleased ≤ s.location t ∧ s.location t < priorities
  once : s.occurrences t =
    if s.location t = locReleased ∨ s.location t = locCurrent then 0 else 1
  running : ∀ i : Fin priorities, t ∈ (s.runningTasks i).items ↔ s.location t = i.val
  sleeping : t ∈ s.sleepers ↔ s.location t = locSleeping
  blocking : t ∈ s.blockingTasks.items ↔ s.location t = locBlocking

end Scheduler

omit [DecidableEq T] in
theorem Shows.sleepers_eq {s : Scheduler priorities T} {v : View priorities T} (h : Shows s v) :
    s.sleepers = v.sleepers := by
  simp [Scheduler.sleepers, View.sleepers, h.sleeping.items_eq]

theorem sum_running_count {v : View priorities T} {t : T} (h : v.PlacedAt t) :
    ∑ i, (v.running i).count t = if 0 ≤ v.location t then 1 else 0 := by
  by_cases hr : 0 ≤ v.location t
  · have hhigh := h.high
    have hlt : (v.location t).toNat < priorities := by omega
    rw [if_pos hr, Finset.sum_eq_single ⟨(v.location t).toNat, hlt⟩]
    · rw [h.running, if_pos (by simp [hr])]
    · intro i _ hi
      rw [h.running, if_neg]
      intro hv
      exact hi (Fin.ext (by simp [hv]))
    · exact fun hn => absurd (Finset.mem_univ _) hn
  · rw [if_neg hr]
    apply Finset.sum_eq_zero
    intro i _
    rw [h.running, if_neg (by omega)]

theorem Sound.inItsQueue {s : Scheduler priorities T} {v : View priorities T} (h : Sound s v)
    (t : T) : s.InItsQueue t := by
  have hp := h.2 t
  have hloc := h.1.location_eq t
  have hrun : ∀ i, (s.runningTasks i).items = v.running i := fun i => (h.1.running i).items_eq
  have hslp : s.sleepers = v.sleepers := h.1.sleepers_eq
  have hblk : s.blockingTasks.items = v.blocking := h.1.blocking.items_eq
  constructor
  · rw [hloc]
    exact ⟨hp.low, hp.high⟩
  · have hlow := hp.low
    simp only [Scheduler.occurrences, hrun, hslp, hblk, sum_running_count hp, hp.sleeping,
      hp.blocking, hloc]
    split_ifs <;> simp only [locReleased, locCurrent, locSleeping, locBlocking] at * <;> omega
  · intro i
    rw [hrun i, hloc]
    exact h.2.mem_running_iff t i
  · rw [hslp, hloc]
    exact h.2.mem_sleepers_iff t
  · rw [hblk, hloc]
    exact mem_iff_of_count hp.blocking

theorem Sound.scheduleNext_ready {s s' : Scheduler priorities T} {v : View priorities T}
    (h : Sound s v) {ns : BitVec 64} {cur : Option T} {t : T}
    (he : s.scheduleNext ns cur = some (s', some t)) : 0 ≤ s.location t ∧ 0 ≤ s'.location t := by
  obtain ⟨s₁, hn, hs₁⟩ := h.1.next h.2.bounded ns cur
  rw [he] at hn
  obtain ⟨rfl, ht⟩ : s' = s₁ ∧ some t = if (v.next ns).2 ≠ cur then (v.next ns).2 else none := by
    simpa using hn
  have hnext : (v.next ns).2 = some t := by
    split at ht
    · exact ht.symm
    · simp at ht
  have hready := (h.2.nextBelow ns priorities (Nat.le_refl _)).2 t hnext
  rw [h.1.location_eq, hs₁.location_eq]
  exact hready

theorem Sound.timerTick_ready {s s' : Scheduler priorities T} {v : View priorities T}
    (h : Sound s v) {ns : BitVec 64} {cur : Option T} {t : T}
    (he : s.timerTick ns cur = some (s', some t)) : 0 ≤ s'.location t := by
  obtain ⟨s₁, hn, hs₁⟩ := h.1.tick h.2.bounded ns cur
  rw [he] at hn
  obtain ⟨rfl, ht⟩ : s' = s₁ ∧ some t = if (v.tick ns).2 ≠ cur then (v.tick ns).2 else none := by
    simpa using hn
  have hnext : (v.tick ns).2 = some t := by
    split at ht
    · exact ht.symm
    · simp at ht
  have hready := (((h.2.decrease ns).wake v.sleeping.length).nextBelow ns priorities
    (Nat.le_refl _)).2 t hnext
  rw [hs₁.location_eq]
  exact hready.2

/-- A run of scheduler calls never goes wrong, and in the state it reaches every thread is
exactly where its location says; a thread that is chosen to run is in a running queue. -/
theorem reachable_queue_membership {s₀ : Scheduler priorities T} (h₀ : s₀.Initial)
    (ops : List (Scheduler.Op priorities T)) :
    ∃ s, Transition.run Scheduler.step s₀ ops = some s ∧ (∀ t, s.InItsQueue t) ∧
      (∀ ns cur s' t, s.scheduleNext ns cur = some (s', some t) →
        0 ≤ s.location t ∧ 0 ≤ s'.location t) ∧
      (∀ ns cur s' t, s.timerTick ns cur = some (s', some t) → 0 ≤ s'.location t) := by
  obtain ⟨s, hr, hs⟩ := h₀.sound.run ops
  exact ⟨s, hr, hs.inItsQueue, fun _ _ _ _ he => hs.scheduleNext_ready he,
    fun _ _ _ _ he => hs.timerTick_ready he⟩

theorem two_threads_queue_membership :
    ∃ s, Transition.run Scheduler.step
        (Scheduler.create fun _ : Bool => (⟨0, 1, 10, locReleased⟩ : Thread 2))
        [.reschedule true, .sleep false 5, .timerTick 5 none] = some s ∧
      (∀ t, s.InItsQueue t) ∧
      (∀ ns cur s' t, s.scheduleNext ns cur = some (s', some t) →
        0 ≤ s.location t ∧ 0 ≤ s'.location t) ∧
      (∀ ns cur s' t, s.timerTick ns cur = some (s', some t) → 0 ≤ s'.location t) :=
  reachable_queue_membership ⟨fun _ => rfl, rfl, rfl, fun _ => Or.inl rfl⟩ _

end Tysos
