import Tysos.Sched.Membership
import Tysos.Lists.DueTimes

/-!
# When a sleeping thread wakes

A thread put to sleep stays in the sleeping queue until the ticks since then add up to the
remaining time `InsertAtDelta` gave it, whatever happens to other threads meanwhile. This is
the time asked for exactly when `OnTime` holds of the queue of the other sleepers.
-/

namespace Tysos
open DoublyLinked LinkedList DeltaQueue
set_option autoImplicit false

variable {priorities : Nat} {T : Type}

namespace Scheduler.Op

/-- The call moves the thread `t` itself. -/
def Touches (t : T) : Scheduler.Op priorities T → Prop
  | .deschedule u => u = t
  | .reschedule u => u = t
  | .block u => u = t
  | .sleep u _ => u = t
  | .timerTick _ _ => False
  | .scheduleNext _ _ => False
  | .setPriority _ _ => False

def tickNs : Scheduler.Op priorities T → Nat
  | .timerTick ns _ => ns.toNat
  | _ => 0

def IsTick : Scheduler.Op priorities T → Prop
  | .timerTick _ _ => True
  | _ => False

end Scheduler.Op

/-- The sum of the ns of the ticks of a run. -/
def elapsed (ops : List (Scheduler.Op priorities T)) : Nat := (ops.map Scheduler.Op.tickNs).sum

def Ticked (ops : List (Scheduler.Op priorities T)) : Prop := ∃ op ∈ ops, op.IsTick

@[simp] theorem elapsed_nil : elapsed ([] : List (Scheduler.Op priorities T)) = 0 := rfl

@[simp] theorem elapsed_cons (op : Scheduler.Op priorities T)
    (ops : List (Scheduler.Op priorities T)) : elapsed (op :: ops) = op.tickNs + elapsed ops := by
  simp [elapsed]

theorem ticked_cons (op : Scheduler.Op priorities T) (ops : List (Scheduler.Op priorities T)) :
    Ticked (op :: ops) ↔ op.IsTick ∨ Ticked ops := by
  simp [Ticked]

theorem ticked_of_elapsed_pos {ops : List (Scheduler.Op priorities T)} (h : 0 < elapsed ops) :
    Ticked ops := by
  induction ops with
  | nil => simp at h
  | cons op ops ih =>
    rw [ticked_cons]
    cases op with
    | timerTick ns cur => exact Or.inl trivial
    | _ =>
      rw [elapsed_cons] at h
      exact Or.inr (ih (by simpa [Scheduler.Op.tickNs] using h))

variable [DecidableEq T]

namespace View

theorem Placed.nodup_sleepers {v : View priorities T} (h : v.Placed) : v.sleepers.Nodup := by
  rw [List.nodup_iff_count_le_one]
  intro t
  rw [(h t).sleeping]
  split <;> omega

theorem reschedule_sleeping_of_not_mem {v : View priorities T} {t : T} (h : t ∉ v.sleepers) :
    (v.reschedule t).sleeping = v.sleeping := by
  change (v.dequeue t).sleeping = _
  unfold dequeue
  split
  · split <;> rfl
  split
  · apply removeFirst_of_not_mem
    intro x hx
    have hne : x.item ≠ t := fun heq => h (heq ▸ List.mem_map_of_mem hx)
    simpa using hne
  split <;> rfl

theorem wakeFirst_sleeping {v : View priorities T} (h : v.sleepers.Nodup) {x : DeltaItem T}
    {xs : List (DeltaItem T)} (hv : v.sleeping = x :: xs) : x.item ∉ xs.map DeltaItem.item ∧
      (({ v with sleeping := xs } : View priorities T).reschedule x.item).sleeping = xs := by
  rw [sleepers, hv, List.map_cons, List.nodup_cons] at h
  exact ⟨h.1, reschedule_sleeping_of_not_mem (v := { v with sleeping := xs }) h.1⟩

theorem wake_sleeping {v : View priorities T} (h : v.sleepers.Nodup) {k : Nat}
    (hk : v.sleeping.length ≤ k) : (View.wake k v).sleeping = drained v.sleeping := by
  induction k generalizing v with
  | zero =>
    have hs : v.sleeping = [] := List.eq_nil_of_length_eq_zero (Nat.le_zero.mp hk)
    simp [View.wake, hs, drained]
  | succ k ih =>
    unfold View.wake
    cases hv : v.sleeping with
    | nil => simpa [drained] using hv
    | cons x xs =>
      simp only [hv, List.length_cons] at hk
      simp only
      split
      · rename_i hz
        obtain ⟨-, hrest⟩ := wakeFirst_sleeping h hv
        have hnodup : (xs.map DeltaItem.item).Nodup := by
          rw [sleepers, hv] at h
          exact h.of_cons
        rw [ih (by rw [sleepers, hrest]; exact hnodup)
          (by rw [hrest]; exact Nat.le_of_succ_le_succ hk), hrest]
        simp [drained, hz]
      · rename_i hz
        rw [hv, drained, List.dropWhile_cons_of_neg (by simpa using hz)]

theorem Placed.nextBelow_sleeping {v : View priorities T} (h : v.Placed) (ns : BitVec 64)
    (i : Nat) (hi : i ≤ priorities) : (v.nextBelow ns i hi).1.sleeping = v.sleeping := by
  rcases v.nextBelow_cases ns hi with hnone | ⟨p, t, hhead, hsome⟩
  · rw [hnone]
  · have hloc : v.location t = (p.val : Int) :=
      (h.mem_running_iff t p).mp (List.mem_of_mem_head? hhead)
    have hout : t ∉ v.sleepers := by
      rw [h.mem_sleepers_iff, hloc]
      simp [locSleeping]
    rcases hsome with hsome | hsome
    · rw [hsome]
      exact reschedule_sleeping_of_not_mem hout
    · rw [hsome]
      rfl

theorem Placed.tick_sleeping {v : View priorities T} (h : v.Placed) (ns : BitVec 64) :
    (v.tick ns).1.sleeping = drained (decreased v.sleeping ns) := by
  have hd := h.decrease ns
  have hlen : (v.decrease ns).sleeping.length ≤ v.sleeping.length :=
    Nat.le_of_eq (decreased_length _ _)
  rw [View.tick, View.next, (hd.wake _).nextBelow_sleeping, wake_sleeping hd.nodup_sleepers hlen]
  rfl

/-- A call that does not touch `t` and is no tick keeps the time `t` has still to wait. -/
theorem Placed.step_time {v : View priorities T} (h : v.Placed) {t : T} {r : Nat}
    (ht : (t, r) ∈ times v.sleeping) (hr : r < 2 ^ 64) {op : Scheduler.Op priorities T}
    (hop : ¬ op.Touches t) (htick : ¬ op.IsTick) : (t, r) ∈ times (v.step op).sleeping := by
  have hdeq : ∀ u, t ≠ u → (t, r) ∈ times (v.dequeue u).sleeping := by
    intro u hne
    unfold dequeue
    split
    · split <;> exact ht
    split
    · exact mem_times_removeFirst ht hne hr
    split <;> exact ht
  cases op with
  | deschedule u => exact hdeq u fun heq => hop heq.symm
  | reschedule u => exact hdeq u fun heq => hop heq.symm
  | block u => exact hdeq u fun heq => hop heq.symm
  | sleep u ns => exact mem_times_insertedAt_of_mem (hdeq u fun heq => hop heq.symm) u ns
  | timerTick ns cur => exact absurd trivial htick
  | scheduleNext ns cur =>
    change (t, r) ∈ times (v.next ns).1.sleeping
    rw [View.next, h.nextBelow_sleeping]
    exact ht
  | setPriority u p => exact ht

theorem Placed.step_awake {v : View priorities T} (h : v.Placed) {t : T} (ht : t ∉ v.sleepers)
    {op : Scheduler.Op priorities T} (hop : ¬ op.Touches t) : t ∉ (v.step op).sleepers := by
  have hdeq : ∀ u, t ∉ (v.dequeue u).sleepers := by
    intro u
    unfold dequeue sleepers
    split
    · split <;> exact ht
    split
    · rw [removeFirst_items]
      exact fun hm => ht (List.mem_of_mem_erase hm)
    split <;> exact ht
  cases op with
  | deschedule u => exact hdeq u
  | reschedule u => exact hdeq u
  | block u => exact hdeq u
  | sleep u ns =>
    intro hm
    have hperm := insertedAt_items u (v.dequeue u).sleeping ns
    rcases List.mem_cons.mp (hperm.mem_iff.mp hm) with heq | hm
    · exact hop heq.symm
    · exact hdeq u hm
  | timerTick ns cur =>
    intro hm
    change t ∈ (v.tick ns).1.sleeping.map DeltaItem.item at hm
    rw [h.tick_sleeping] at hm
    obtain ⟨r, hr⟩ := exists_time_of_mem hm
    have hin := mem_items_of_time (mem_times_drained.mp hr).2
    rw [decreased_items] at hin
    exact ht hin
  | scheduleNext ns cur =>
    change t ∉ (v.next ns).1.sleeping.map DeltaItem.item
    rw [View.next, h.nextBelow_sleeping]
    exact ht
  | setPriority u p => exact ht

/-- A tick wakes `t` when it reaches the time `t` has still to wait. -/
theorem Placed.tick_time {v : View priorities T} (h : v.Placed) {t : T} {r : Nat}
    (ht : (t, r) ∈ times v.sleeping) (ns : BitVec 64) :
    if r ≤ ns.toNat then t ∉ (v.tick ns).1.sleepers
    else (t, r - ns.toNat) ∈ times (v.tick ns).1.sleeping := by
  have hdec := mem_times_decreased ht ns
  rw [sleepers, h.tick_sleeping]
  split
  · intro hm
    obtain ⟨r', hr'⟩ := exists_time_of_mem hm
    obtain ⟨hpos, hin⟩ := mem_times_drained.mp hr'
    have huniq := time_unique (h.decrease ns).nodup_sleepers hdec hin
    omega
  · exact mem_times_drained.mpr ⟨by omega, hdec⟩

theorem Placed.foldl_awake {v : View priorities T} (h : v.Placed) {t : T}
    (ht : t ∉ v.sleepers) {ops : List (Scheduler.Op priorities T)}
    (hops : ∀ op ∈ ops, ¬ op.Touches t) : t ∉ (ops.foldl View.step v).sleepers := by
  induction ops generalizing v with
  | nil => exact ht
  | cons op ops ih =>
    exact ih (h.step op) (h.step_awake ht (hops op List.mem_cons_self))
      fun o ho => hops o (List.mem_cons_of_mem _ ho)

/-- Over a whole run: `t` sleeps until the ticks add up to its time. -/
theorem Placed.foldl_sleeping {v : View priorities T} (h : v.Placed) {t : T} {r : Nat}
    (ht : (t, r) ∈ times v.sleeping) (hr : r < 2 ^ 64) {ops : List (Scheduler.Op priorities T)}
    (hops : ∀ op ∈ ops, ¬ op.Touches t) :
    t ∈ (ops.foldl View.step v).sleepers ↔ ¬ (Ticked ops ∧ r ≤ elapsed ops) := by
  induction ops generalizing v r with
  | nil =>
    have hm : t ∈ v.sleepers := mem_items_of_time ht
    simp [Ticked, hm]
  | cons op ops ih =>
    have hrest : ∀ o ∈ ops, ¬ o.Touches t := fun o ho => hops o (List.mem_cons_of_mem _ ho)
    by_cases htick : op.IsTick
    · cases op with
      | timerTick ns cur =>
        have hstep := h.tick_time ht ns
        rw [elapsed_cons, ticked_cons]
        by_cases hle : r ≤ ns.toNat
        · rw [if_pos hle] at hstep
          have haw := (h.step (.timerTick ns cur)).foldl_awake hstep hrest
          constructor
          · exact fun hm => absurd hm haw
          · intro hn
            exact absurd ⟨Or.inl trivial, Nat.le_trans hle (Nat.le_add_right _ _)⟩ hn
        · rw [if_neg hle] at hstep
          have hlt : r - ns.toNat < 2 ^ 64 := Nat.lt_of_le_of_lt (Nat.sub_le _ _) hr
          have hrec := ih (h.step (.timerTick ns cur)) hstep hlt hrest
          rw [List.foldl_cons, hrec]
          simp only [Scheduler.Op.IsTick, Scheduler.Op.tickNs, true_or, true_and, not_and]
          constructor
          · intro hn hsum
            exact hn (ticked_of_elapsed_pos (by omega)) (by omega)
          · intro hn _ hsum
            exact hn (by omega)
      | _ => exact absurd htick id
    · have hstep := h.step_time ht hr (hops op List.mem_cons_self) htick
      have hns : op.tickNs = 0 := by
        cases op with
        | timerTick ns cur => exact absurd trivial htick
        | _ => rfl
      rw [List.foldl_cons, ih (h.step op) hstep hr hrest, ticked_cons, elapsed_cons, hns,
        Nat.zero_add]
      simp [htick]

theorem sleep_time (v : View priorities T) (t : T) (ns : BitVec 64) :
    (t, insertTime (v.release t).sleeping ns) ∈ times (v.sleep t ns).sleeping :=
  mem_times_insertedAt_self t _ ns

/-- After `Sleep(t, ns)` the thread leaves the queue as asked, for all that can follow,
exactly when it was given the right time. -/
theorem Placed.sleep_law_iff {v : View priorities T} (h : v.Placed) (t : T) (ns : BitVec 64) :
    (∀ ops : List (Scheduler.Op priorities T), (∀ op ∈ ops, ¬ op.Touches t) →
      elapsed ops < 2 ^ 64 →
      (t ∈ (ops.foldl View.step (v.sleep t ns)).sleepers ↔
        ¬ (Ticked ops ∧ ns.toNat ≤ elapsed ops))) ↔
      insertTime (v.release t).sleeping ns = ns.toNat := by
  have hs : (v.sleep t ns).Placed := h.step (.sleep t ns)
  have ht := sleep_time v t ns
  constructor
  · intro hlaw
    -- one tick tells the two times apart: of the smaller of them
    have hone : ∀ x : BitVec 64, t ∈ ((v.sleep t ns).tick x).1.sleepers ↔ ¬ ns ≤ x := by
      intro x
      have hx := hlaw [.timerTick x none] (by simp [Scheduler.Op.Touches])
        (by simpa [Scheduler.Op.tickNs] using x.isLt)
      simpa [Ticked, Scheduler.Op.IsTick, Scheduler.Op.tickNs, View.step, BitVec.le_def] using hx
    rcases Nat.lt_trichotomy (insertTime (v.release t).sleeping ns) ns.toNat with hlt | heq | hgt
    · have hr := Nat.lt_trans hlt ns.isLt
      have hval : (BitVec.ofNat 64 (insertTime (v.release t).sleeping ns)).toNat =
          insertTime (v.release t).sleeping ns := by
        rw [BitVec.toNat_ofNat]
        exact Nat.mod_eq_of_lt hr
      have hout := hs.tick_time ht (BitVec.ofNat 64 (insertTime (v.release t).sleeping ns))
      rw [hval, if_pos (Nat.le_refl _)] at hout
      have hin := (hone (BitVec.ofNat 64 (insertTime (v.release t).sleeping ns))).mpr (by
        rw [BitVec.le_def, hval]
        omega)
      exact absurd hin hout
    · exact heq
    · have hin := hs.tick_time ht ns
      rw [if_neg (Nat.not_le.mpr hgt)] at hin
      exact absurd (BitVec.le_refl ns) ((hone ns).mp (mem_items_of_time hin))
  · intro heq ops hops _
    rw [heq] at ht
    exact hs.foldl_sleeping ht ns.isLt hops

end View

namespace Scheduler

/-- What `Sleep(t, ns)` promises: from here on, as long as no other call moves `t`, the thread
is in the sleeping queue until the first tick at which the ns of the ticks add up to `ns`. -/
def SleepLaw (s : Scheduler priorities T) (t : T) (ns : BitVec 64) : Prop :=
  ∀ ops : List (Op priorities T), (∀ op ∈ ops, ¬ op.Touches t) → elapsed ops < 2 ^ 64 →
    ∀ s', Transition.run step s (.sleep t ns :: ops) = some s' →
      (t ∈ s'.sleepers ↔ ¬ (Ticked ops ∧ ns.toNat ≤ elapsed ops))

/-- The sleeping queue once `t` has been taken out of it. -/
def othersAsleep (s : Scheduler priorities T) (t : T) : List (DeltaItem T) :=
  removeFirst addDelta (fun x => x.item == t) s.sleepingTasks.items

end Scheduler

theorem View.Placed.release_sleeping {v : View priorities T} (h : v.Placed) (t : T) :
    (v.release t).sleeping = removeFirst addDelta (fun x => x.item == t) v.sleeping := by
  change (v.dequeue t).sleeping = _
  by_cases hl : v.location t = locSleeping
  · have hr : ¬ 0 ≤ v.location t := by rw [hl]; decide
    unfold View.dequeue
    rw [if_neg hr, if_pos hl]
  · have hout : t ∉ v.sleepers := by
      rw [h.mem_sleepers_iff]
      exact hl
    rw [removeFirst_of_not_mem]
    · exact View.reschedule_sleeping_of_not_mem hout
    · intro x hx
      have hne : x.item ≠ t := fun heq => hout (heq ▸ List.mem_map_of_mem hx)
      simpa using hne

theorem Sound.sleepLaw_iff {s : Scheduler priorities T} {v : View priorities T} (h : Sound s v)
    (t : T) (ns : BitVec 64) : s.SleepLaw t ns ↔ OnTime (s.othersAsleep t) ns.toNat := by
  have hrest : s.othersAsleep t = (v.release t).sleeping := by
    rw [h.2.release_sleeping, Scheduler.othersAsleep, h.1.sleeping.items_eq]
  rw [hrest, ← insertTime_eq_iff, ← h.2.sleep_law_iff]
  unfold Scheduler.SleepLaw
  constructor
  · intro hlaw ops hops hsum
    obtain ⟨s', hr, hs'⟩ := h.run (.sleep t ns :: ops)
    have hslp : s'.sleepers = (ops.foldl View.step (v.sleep t ns)).sleepers := hs'.1.sleepers_eq
    rw [← hslp]
    exact hlaw ops hops hsum s' hr
  · intro hlaw ops hops hsum s' hr
    obtain ⟨s₁, hr₁, hs₁⟩ := h.run (.sleep t ns :: ops)
    obtain rfl : s' = s₁ := Option.some.inj (hr.symm.trans hr₁)
    have hslp : s'.sleepers = (ops.foldl View.step (v.sleep t ns)).sleepers := hs₁.1.sleepers_eq
    rw [hslp]
    exact hlaw ops hops hsum

/-- In every state a run can reach, `Sleep` keeps its promise exactly when `OnTime` holds of
the other sleepers. -/
theorem sleepLaw_iff_onTime {s₀ s : Scheduler priorities T} (h₀ : s₀.Initial)
    {ops : List (Scheduler.Op priorities T)} (hr : Transition.run Scheduler.step s₀ ops = some s)
    (t : T) (ns : BitVec 64) : s.SleepLaw t ns ↔ OnTime (s.othersAsleep t) ns.toNat := by
  obtain ⟨s₁, hr₁, hs⟩ := h₀.sound.run ops
  obtain rfl : s = s₁ := Option.some.inj (hr.symm.trans hr₁)
  exact hs.sleepLaw_iff t ns

/-- The two boolean threads of the runs below, released at first. -/
def twoReleased : Scheduler 1 Bool := Scheduler.create fun _ => ⟨0, 0, 10, locReleased⟩

theorem twoReleased_initial : twoReleased.Initial :=
  ⟨fun _ => rfl, rfl, rfl, fun _ => Or.inl rfl⟩

theorem one_asleep (ns : BitVec 64) :
    ∃ s v, Transition.run Scheduler.step twoReleased [.sleep true ns] = some s ∧ Sound s v ∧
      s.othersAsleep false = [⟨true, ns⟩] := by
  obtain ⟨s, hr, hs⟩ := twoReleased_initial.sound.run [.sleep true ns]
  refine ⟨s, _, hr, hs, ?_⟩
  rw [Scheduler.othersAsleep, hs.1.sleeping.items_eq]
  rfl

/-- A thread that sleeps longer than all others wakes in time. -/
theorem sleepLaw_of_longer :
    ∃ s, Transition.run Scheduler.step twoReleased [.sleep true 10] = some s ∧
      s.SleepLaw false 15 := by
  obtain ⟨s, v, hr, hs, hq⟩ := one_asleep 10
  refine ⟨s, hr, (sleepLaw_iff_onTime twoReleased_initial hr false 15).mpr ?_⟩
  rw [hq]
  unfold OnTime
  decide

/-- Behind a thread that sleeps for 10 ns, `Sleep(t, 5)` does not keep its promise. -/
theorem sleepLaw_fails_of_shorter :
    ∃ s, Transition.run Scheduler.step twoReleased [.sleep true 10] = some s ∧
      ¬ s.SleepLaw false 5 := by
  obtain ⟨s, v, hr, hs, hq⟩ := one_asleep 10
  refine ⟨s, hr, fun hlaw => ?_⟩
  have hon := (hs.sleepLaw_iff false 5).mp hlaw
  rw [hq] at hon
  unfold OnTime at hon
  revert hon
  decide

end Tysos
