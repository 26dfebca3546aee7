import Tysos.Interrupts.Pit
import Tysos.Sched.SleepLaw

/-!
# Timer interrupts and the scheduler

`pit_stub` adds the interval of the timer to its running time and gives it to `TimerTick`. A
run mixes the cycles of the input clock with these interrupts, which come some time after the
period that they are for, and with calls of `SetFrequency` and of the scheduler. `SetFrequency`
throws away what of a period has gone by, and a period that ends while an interrupt still waits
gets none of its own.
-/

namespace Tysos
open Transition Rounding
set_option autoImplicit false

section
variable {priorities : Nat} {T : Type}

theorem elapsed_append (ops ops' : List (Scheduler.Op priorities T)) :
    elapsed (ops ++ ops') = elapsed ops + elapsed ops' := by
  simp [elapsed]

theorem ticked_append (ops ops' : List (Scheduler.Op priorities T)) :
    Ticked (ops ++ ops') ↔ Ticked ops ∨ Ticked ops' := by
  simp [Ticked, or_and_right, exists_or]

end

structure Ticking (priorities : Nat) (T : Type) where
  timer : Timer
  sched : Scheduler priorities T
  /-- The interrupts, and the nanoseconds they stood for. -/
  ticks : Nat
  counted : Nat
  /-- The input cycles, and those since the counter was last loaded. -/
  clock : Nat
  since : Nat
  /-- A period is over, and `pit_stub` has not run for it. -/
  waiting : Bool
  /-- The cycles that no interrupt stands for. -/
  dropped : Nat

namespace Ticking

variable {priorities : Nat} {T : Type}

/-- Nothing but `pit_stub` calls `TimerTick`; `cur` is `CurrentThread`. -/
inductive Event (priorities : Nat) (T : Type) where
  | cycle
  | pitStub (cur : Option T)
  | setFrequency (freq : BitVec 32)
  | call (op : Scheduler.Op priorities T) (h : ¬ op.IsTick)

/-- The counter goes down by one, and is loaded again at the end of its period. -/
def cycle (w : Ticking priorities T) : Option (Ticking priorities T) :=
  w.timer.counter.cycles.map fun reload =>
    if w.since + 1 < reload then { w with clock := w.clock + 1, since := w.since + 1 }
    else
      { w with
        clock := w.clock + 1
        since := 0
        waiting := true
        dropped := if w.waiting then w.dropped + (w.since + 1) else w.dropped }

def setFrequency (freq : BitVec 32) (w : Ticking priorities T) : Option (Ticking priorities T) :=
  (w.timer.setFrequency freq).map fun timer =>
    { w with timer := timer, since := 0, dropped := w.dropped + w.since }

variable [DecidableEq T]

def pitStub (cur : Option T) (w : Ticking priorities T) : Option (Ticking priorities T) :=
  if w.waiting then do
    let interval := w.timer.getInterval
    let timer := w.timer.increaseRunningTime interval
    let (sched, _) ← w.sched.timerTick interval cur
    some { w with
      timer := timer
      sched := sched
      ticks := w.ticks + 1
      counted := w.counted + interval.toNat
      waiting := false }
  else none

def step (w : Ticking priorities T) : Event priorities T → Option (Ticking priorities T)
  | .cycle => w.cycle
  | .pitStub cur => w.pitStub cur
  | .setFrequency freq => w.setFrequency freq
  | .call op _ => (w.sched.step op).map fun sched => { w with sched := sched }

omit [DecidableEq T] in
/-- What the scheduler is called with at an event. -/
def opOf (w : Ticking priorities T) : Event priorities T → List (Scheduler.Op priorities T)
  | .cycle => []
  | .pitStub cur => [.timerTick w.timer.getInterval cur]
  | .setFrequency _ => []
  | .call op _ => [op]

/-- What the scheduler is called with in a run. -/
def ops : Ticking priorities T → List (Event priorities T) → List (Scheduler.Op priorities T)
  | _, [] => []
  | w, e :: es => w.opOf e ++ (w.step e).elim [] fun w' => ops w' es

omit [DecidableEq T] in
/-- An interrupt comes at a frequency of at least `f`. -/
def FastEnough (f : Nat) (w : Ticking priorities T) : Event priorities T → Prop
  | .pitStub _ => f ≤ w.timer.getFrequency.toNat
  | _ => True

omit [DecidableEq T] in
/-- No interrupt waits while the frequency is changed: it would be for a period of the old one. -/
def Prompt (w : Ticking priorities T) : Event priorities T → Prop
  | .setFrequency _ => w.waiting = false
  | _ => True

omit [DecidableEq T] in
/-- The cycles of the period whose interrupt waits. -/
def late (w : Ticking priorities T) : Nat :=
  if w.waiting then w.timer.counter.cycles.getD 0 else 0

omit [DecidableEq T] in
/-- The timer has been set, and is in its period. -/
def IsSet (w : Ticking priorities T) : Prop := ∃ reload, w.timer.Agrees reload ∧ w.since < reload

omit [DecidableEq T] in
/-- From `w` to `w'`: `n` nanoseconds in `k` interrupts were counted for `c` input cycles, which
are all that went by but those that no interrupt stands for yet, or ever. -/
structure Advanced (f : Nat) (w w' : Ticking priorities T) (k n c : Nat) : Prop where
  ticks : w'.ticks = w.ticks + k
  counted : w'.counted = w.counted + n
  clock : w'.clock + (w.since + w.late + w.dropped) =
    w.clock + c + (w'.since + w'.late + w'.dropped)
  dropped : w.dropped ≤ w'.dropped
  runningTime : w'.timer.getRunningTime = w.timer.getRunningTime + BitVec.ofNat 64 n
  notShort : nsPerSecond * c ≤ (n + k) * inputHz
  notLong : f * (n * inputHz) ≤ (f + 1) * (nsPerSecond * c)

section
variable {f : Nat} {w w' w'' : Ticking priorities T} {k n c k' n' c' : Nat}

omit [DecidableEq T]

theorem Advanced.trans (h : Advanced f w w' k n c) (h' : Advanced f w' w'' k' n' c') :
    Advanced f w w'' (k + k') (n + n') (c + c') where
  ticks := by rw [h'.ticks, h.ticks, Nat.add_assoc]
  counted := by rw [h'.counted, h.counted, Nat.add_assoc]
  clock := by
    have hclock := h.clock
    have hclock' := h'.clock
    omega
  dropped := Nat.le_trans h.dropped h'.dropped
  runningTime := by
    rw [h'.runningTime, h.runningTime, BitVec.ofNat_add, BitVec.add_assoc]
  notShort := by
    have hsum := Nat.add_le_add h.notShort h'.notShort
    calc nsPerSecond * (c + c') = nsPerSecond * c + nsPerSecond * c' := Nat.mul_add _ _ _
      _ ≤ (n + k) * inputHz + (n' + k') * inputHz := hsum
      _ = (n + n' + (k + k')) * inputHz := by rw [← Nat.add_mul]; congr 1; omega
  notLong := by
    have hsum := Nat.add_le_add h.notLong h'.notLong
    rw [← Nat.mul_add, ← Nat.mul_add, ← Nat.add_mul, ← Nat.mul_add] at hsum
    exact hsum

/-- Time that is counted has gone by, but for what of a period was over at the start. -/
theorem Advanced.slept {m : Nat} (h : Advanced 18 w w' k n c) (hm : m ≤ n) :
    18 * (m * inputHz) ≤
      19 * (nsPerSecond * (w'.clock - w.clock + (w.since + w.late))) := by
  have hclock := h.clock
  have hdropped := h.dropped
  have hc : c ≤ w'.clock - w.clock + (w.since + w.late) := by omega
  calc 18 * (m * inputHz) ≤ 18 * (n * inputHz) :=
        Nat.mul_le_mul_left 18 (Nat.mul_le_mul_right inputHz hm)
    _ ≤ 19 * (nsPerSecond * c) := h.notLong
    _ ≤ _ := Nat.mul_le_mul_left 19 (Nat.mul_le_mul_left nsPerSecond hc)

theorem Advanced.still (hticks : w'.ticks = w.ticks) (hcounted : w'.counted = w.counted)
    (hclock : w'.clock + (w.since + w.late + w.dropped) =
      w.clock + (w'.since + w'.late + w'.dropped))
    (hdropped : w.dropped ≤ w'.dropped)
    (htime : w'.timer.getRunningTime = w.timer.getRunningTime) : Advanced f w w' 0 0 0 :=
  ⟨hticks, hcounted, hclock, hdropped, htime.trans (BitVec.add_zero _).symm, by simp, by simp⟩

theorem late_of_waiting {reload : Nat} (hagrees : w.timer.Agrees reload)
    (hwaiting : w.waiting = true) : w.late = reload := by
  unfold late
  rw [if_pos hwaiting, hagrees.cycles, Option.getD_some]

theorem late_of_not_waiting (hwaiting : w.waiting = false) : w.late = 0 := by
  unfold late
  rw [if_neg (by simp [hwaiting])]

theorem IsSet.cycle_spec (hw : w.IsSet) : ∃ w', w.cycle = some w' ∧ w'.IsSet ∧
    Advanced f w w' 0 0 0 := by
  obtain ⟨reload, hagrees, hsince⟩ := hw
  unfold cycle
  rw [hagrees.cycles, Option.map_some]
  have hlow := hagrees.low
  refine ⟨_, rfl, ⟨reload, ?_⟩, ?_⟩
  · by_cases hlt : w.since + 1 < reload
    · rw [if_pos hlt]
      exact ⟨hagrees, hlt⟩
    · rw [if_neg hlt]
      exact ⟨hagrees, Nat.zero_lt_of_lt hlow⟩
  · by_cases hlt : w.since + 1 < reload
    · rw [if_pos hlt]
      refine .still rfl rfl ?_ (Nat.le_refl _) rfl
      unfold late
      dsimp only
      omega
    · rw [if_neg hlt]
      cases hwaiting : w.waiting with
      | true =>
        have hlate := late_of_waiting hagrees hwaiting
        refine .still rfl rfl ?_ (Nat.le_add_right _ _) rfl
        rw [hlate, late_of_waiting (w := { w with
          clock := w.clock + 1, since := 0, waiting := true, dropped := _ }) hagrees rfl]
        dsimp only
        rw [if_pos rfl]
        omega
      | false =>
        have hlate := late_of_not_waiting hwaiting
        refine .still rfl rfl ?_ (Nat.le_refl _) rfl
        rw [hlate, late_of_waiting (w := { w with
          clock := w.clock + 1, since := 0, waiting := true, dropped := _ }) hagrees rfl]
        dsimp only
        rw [if_neg (by decide)]
        omega

theorem setFrequency_spec {freq : BitVec 32} (h : w.setFrequency freq = some w') :
    w'.IsSet ∧ (w.waiting = false → Advanced f w w' 0 0 0) := by
  obtain ⟨timer, ht, rfl⟩ := Option.map_eq_some_iff.mp h
  have hagrees := Timer.setFrequency_agrees ht
  refine ⟨⟨_, hagrees, by have := hagrees.low; dsimp only; omega⟩, fun hwaiting => ?_⟩
  refine .still rfl rfl ?_ (Nat.le_add_right _ _) ?_
  · rw [late_of_not_waiting hwaiting, late_of_not_waiting (w := { w with
      timer := timer, since := 0, dropped := w.dropped + w.since }) hwaiting]
    dsimp only
    omega
  · have hfreq : freq ≠ 0 := by
      rintro rfl
      exact nomatch ht
    rw [Timer.setFrequency_eq hfreq, Option.some.injEq] at ht
    subst ht
    rfl

end

section
variable {f : Nat} {w w' : Ticking priorities T}

theorem pitStub_spec {cur : Option T} (hw : w.IsSet) (h : w.pitStub cur = some w') :
    w'.IsSet ∧ w.sched.step (.timerTick w.timer.getInterval cur) = some w'.sched ∧
      w'.counted = w.counted + w.timer.getInterval.toNat ∧
      (f ≤ w.timer.getFrequency.toNat →
        ∃ c, Advanced f w w' 1 w.timer.getInterval.toNat c) := by
  obtain ⟨reload, hagrees, hsince⟩ := hw
  unfold pitStub at h
  cases hwaiting : w.waiting with
  | false => simp [hwaiting] at h
  | true =>
    cases hs : w.sched.timerTick w.timer.getInterval cur with
    | none => simp [hwaiting, hs] at h
    | some r =>
      obtain ⟨sched, next⟩ := r
      simp [hwaiting, hs] at h
      subst h
      refine ⟨⟨reload, ?_, hsince⟩, by simp [Scheduler.step, hs], rfl, fun hf => ⟨reload, ?_⟩⟩
      · exact ⟨hagrees.low, hagrees.high, hagrees.cycles, hagrees.frequency, hagrees.interval⟩
      · have hlow := hagrees.low
        have hreload : reload ≤ inputHz := Nat.le_trans hagrees.high (by decide)
        rw [hagrees.frequency] at hf
        refine ⟨rfl, rfl, ?_, Nat.le_refl _, ?_, ?_, ?_⟩
        · rw [late_of_waiting hagrees hwaiting, late_of_not_waiting rfl]
          dsimp only
          omega
        · rw [BitVec.ofNat_toNat, BitVec.setWidth_eq]
          rfl
        · rw [hagrees.interval]
          exact Nat.le_of_lt (period_not_short (by omega) hreload)
        · rw [hagrees.interval]
          exact period_not_long (by omega) hf

theorem IsSet.next (hw : w.IsSet) {e : Event priorities T} (h : w.step e = some w') : w'.IsSet := by
  cases e with
  | cycle =>
    obtain ⟨w₁, h₁, hset, -⟩ := hw.cycle_spec (f := 0)
    obtain rfl := Option.some.inj (h₁.symm.trans h)
    exact hset
  | pitStub cur => exact (pitStub_spec (f := 0) hw h).1
  | setFrequency freq => exact (setFrequency_spec (f := 0) h).1
  | call op hop =>
    obtain ⟨sched, -, rfl⟩ := Option.map_eq_some_iff.mp h
    exact hw

/-- One event; an interrupt counts one interval for one period. -/
theorem IsSet.advanced_step (hw : w.IsSet) {e : Event priorities T} (hf : w.FastEnough f e)
    (hp : w.Prompt e) (h : w.step e = some w') :
    ∃ k n c, Advanced f w w' k n c ∧ elapsed (w.opOf e) = n ∧ (Ticked (w.opOf e) ↔ 0 < k) := by
  cases e with
  | cycle =>
    obtain ⟨w₁, h₁, -, ha⟩ := hw.cycle_spec (f := f)
    obtain rfl := Option.some.inj (h₁.symm.trans h)
    exact ⟨0, 0, 0, ha, rfl, by simp [opOf, Ticked]⟩
  | pitStub cur =>
    obtain ⟨c, ha⟩ := (pitStub_spec hw h).2.2.2 hf
    exact ⟨1, _, c, ha, by simp [opOf, elapsed, Scheduler.Op.tickNs],
      by simp [opOf, Ticked, Scheduler.Op.IsTick]⟩
  | setFrequency freq =>
    exact ⟨0, 0, 0, (setFrequency_spec h).2 hp, rfl, by simp [opOf, Ticked]⟩
  | call op hop =>
    obtain ⟨sched, -, rfl⟩ := Option.map_eq_some_iff.mp h
    refine ⟨0, 0, 0, .still rfl rfl rfl (Nat.le_refl _) rfl, ?_, ?_⟩
    · cases op with
      | timerTick ns cur => exact absurd trivial hop
      | _ => rfl
    · simp [opOf, Ticked, hop]

theorem step_sched (hw : w.IsSet) {e : Event priorities T} (h : w.step e = some w') :
    run Scheduler.step w.sched (w.opOf e) = some w'.sched := by
  cases e with
  | cycle =>
    obtain ⟨reload, -, rfl⟩ := Option.map_eq_some_iff.mp h
    unfold opOf
    split_ifs <;> rfl
  | pitStub cur =>
    obtain ⟨-, hs, -⟩ := pitStub_spec (f := 0) hw h
    unfold opOf
    rw [run_cons, hs]
    rfl
  | setFrequency freq =>
    obtain ⟨timer, -, rfl⟩ := Option.map_eq_some_iff.mp h
    rfl
  | call op hop =>
    obtain ⟨sched, hs, rfl⟩ := Option.map_eq_some_iff.mp h
    unfold opOf
    rw [run_cons, hs]
    rfl

theorem ops_cons {e : Event priorities T} {es : List (Event priorities T)}
    (h : w.step e = some w') : w.ops (e :: es) = w.opOf e ++ w'.ops es := by
  have heq : w.ops (e :: es) = w.opOf e ++ (w.step e).elim [] fun w' => ops w' es := rfl
  rw [heq, h, Option.elim_some]

theorem IsSet.advanced_run {es : List (Event priorities T)} (hw : w.IsSet)
    (hf : EachStep step (FastEnough f) w es) (hp : EachStep step Prompt w es)
    (hr : run step w es = some w') :
    ∃ k n c, Advanced f w w' k n c ∧ elapsed (w.ops es) = n ∧ (Ticked (w.ops es) ↔ 0 < k) := by
  induction es generalizing w with
  | nil =>
    obtain rfl := Option.some.inj hr
    exact ⟨0, 0, 0, .still rfl rfl rfl (Nat.le_refl _) rfl, rfl, by simp [ops, Ticked]⟩
  | cons e es ih =>
    obtain ⟨w₁, h₁, hr⟩ := Option.bind_eq_some_iff.mp hr
    obtain ⟨k, n, c, ha, hn, hk⟩ := hw.advanced_step hf.1 hp.1 h₁
    obtain ⟨k', n', c', ha', hn', hk'⟩ := ih (hw.next h₁) (hf.2 w₁ h₁) (hp.2 w₁ h₁) hr
    refine ⟨k + k', n + n', c + c', ha.trans ha', ?_, ?_⟩
    · rw [ops_cons h₁, elapsed_append, hn, hn']
    · rw [ops_cons h₁, ticked_append, hk, hk']
      omega

theorem IsSet.reached {es : List (Event priorities T)} (hw : w.IsSet)
    (hr : run step w es = some w') : w'.IsSet := run_keeps (fun _ _ _ hs h => hs.next h) hw hr

theorem IsSet.run_sched {es : List (Event priorities T)} (hw : w.IsSet)
    (hr : run step w es = some w') :
    run Scheduler.step w.sched (w.ops es) = some w'.sched := by
  induction es generalizing w with
  | nil =>
    obtain rfl := Option.some.inj hr
    rfl
  | cons e es ih =>
    obtain ⟨w₁, h₁, hr⟩ := Option.bind_eq_some_iff.mp hr
    rw [ops_cons h₁, run_append, step_sched hw h₁]
    exact ih (hw.next h₁) hr

/-- The timer cannot be set to less than 18 interrupts a second. -/
theorem IsSet.fastEnough (hw : w.IsSet) (es : List (Event priorities T)) :
    EachStep step (FastEnough 18) w es := by
  induction es generalizing w with
  | nil => exact trivial
  | cons e es ih =>
    refine ⟨?_, fun w' h => ih (hw.next h)⟩
    cases e with
    | pitStub cur =>
      obtain ⟨reload, hagrees, -⟩ := hw
      have hge := hagrees.frequency_ge
      rw [← hagrees.frequency] at hge
      exact hge
    | _ => exact trivial

end

/-- The running time keeps up with the input clock of the timer, less the cycles that no interrupt
stands for: it is behind by no more than a nanosecond for each interrupt, and ahead by no more
than one part in the lowest frequency at which there was one, which is never below 18. -/
theorem running_time_accurate {w w' : Ticking priorities T} (hw : w.IsSet)
    {es : List (Event priorities T)} (hp : EachStep step Prompt w es)
    (hr : run step w es = some w') :
    (∃ k n c, Advanced 18 w w' k n c) ∧
      ∀ f, EachStep step (FastEnough f) w es → ∃ k n c, Advanced f w w' k n c := by
  have hall : ∀ f, EachStep step (FastEnough f) w es → ∃ k n c, Advanced f w w' k n c := by
    intro f hf
    obtain ⟨k, n, c, ha, -⟩ := hw.advanced_run hf hp hr
    exact ⟨k, n, c, ha⟩
  exact ⟨hall 18 (hw.fastEnough es), hall⟩

omit [DecidableEq T] in
/-- The event moves the thread `t` itself. -/
def Event.Touches (t : T) : Event priorities T → Prop
  | .call op _ => op.Touches t
  | _ => False

theorem ops_not_touches {w : Ticking priorities T} {t : T} {es : List (Event priorities T)}
    (h : ∀ e ∈ es, ¬ e.Touches t) : ∀ op ∈ w.ops es, ¬ op.Touches t := by
  induction es generalizing w with
  | nil => exact fun op hop => absurd hop List.not_mem_nil
  | cons e es ih =>
    have hfirst : ∀ op ∈ w.opOf e, ¬ op.Touches t := by
      have he := h e List.mem_cons_self
      cases e with
      | cycle => simp [opOf]
      | pitStub cur => simp [opOf, Scheduler.Op.Touches]
      | setFrequency freq => simp [opOf]
      | call op hop => simpa [opOf, Event.Touches] using he
    intro op hop
    cases hs : w.step e with
    | none =>
      have hops : w.ops (e :: es) = w.opOf e := by
        have heq : w.ops (e :: es) = w.opOf e ++ (w.step e).elim [] fun w' => ops w' es := rfl
        rw [heq, hs]
        exact List.append_nil _
      rw [hops] at hop
      exact hfirst op hop
    | some w' =>
      rw [ops_cons hs] at hop
      rcases List.mem_append.mp hop with hop | hop
      · exact hfirst op hop
      · exact ih (fun e' he' => h e' (List.mem_cons_of_mem _ he')) op hop

/-- A thread put to sleep at its due place in the queue is woken by the first interrupt at which
the running time has gone on by the time it asked for. By the input clock it has then slept for
at least 18 parts in 19 of that, less what no interrupt stood for yet when it called `Sleep`. -/
theorem sleeper_wakes {start w w' : Ticking priorities T} (hstart : start.IsSet)
    (hinit : start.sched.Initial) {before es : List (Event priorities T)}
    (hbefore : run step start before = some w) {t : T} {ns : BitVec 64}
    (hdue : DeltaQueue.OnTime (w.sched.othersAsleep t) ns.toNat)
    (hes : ∀ e ∈ es, ¬ e.Touches t)
    (hp : EachStep step Prompt w (.call (.sleep t ns) id :: es))
    (hr : run step w (.call (.sleep t ns) id :: es) = some w')
    (hsum : w'.counted - w.counted < 2 ^ 64) :
    (t ∈ w'.sched.sleepers ↔ w'.ticks = w.ticks ∨
      w'.timer.getRunningTime - w.timer.getRunningTime < ns) ∧
      (t ∉ w'.sched.sleepers → 18 * (ns.toNat * inputHz) ≤
        19 * (nsPerSecond * (w'.clock - w.clock + (w.since + w.late)))) := by
  have hw : w.IsSet := hstart.reached hbefore
  obtain ⟨w₁, hsleep, hrest⟩ := Option.bind_eq_some_iff.mp hr
  have hw₁ := hw.next hsleep
  have hp₁ := hp.2 w₁ hsleep
  -- the call of `Sleep` leaves the timer and the counts alone
  obtain ⟨sched, hsched, rfl⟩ := Option.map_eq_some_iff.mp hsleep
  obtain ⟨k, n, c, ha, hn, hk⟩ := hw₁.advanced_run (hw₁.fastEnough es) hp₁ hrest
  have hticks := ha.ticks
  have hcounted := ha.counted
  have htime := ha.runningTime
  dsimp only at hticks hcounted htime
  have hnlt : n < 2 ^ 64 := by omega
  have hdiff : w'.timer.getRunningTime - w.timer.getRunningTime = BitVec.ofNat 64 n := by
    rw [htime, BitVec.add_comm, BitVec.add_sub_cancel]
  -- the law of the scheduler, for the calls of this run
  obtain ⟨v, hv⟩ : ∃ v, Sound w.sched v := by
    obtain ⟨s', hs', hsound⟩ := hinit.sound.run (start.ops before)
    rw [hstart.run_sched hbefore] at hs'
    obtain rfl := Option.some.inj hs'
    exact ⟨_, hsound⟩
  have hlaw := (hv.sleepLaw_iff t ns).mpr hdue (Ticking.ops { w with sched := sched } es)
    (ops_not_touches hes) (by rw [hn]; exact hnlt) w'.sched (by
      have hops : w.ops (.call (.sleep t ns) id :: es) =
          .sleep t ns :: Ticking.ops { w with sched := sched } es := ops_cons hsleep
      rw [← hops]
      exact hw.run_sched hr)
  rw [hn, hk] at hlaw
  have hasleep : t ∈ w'.sched.sleepers ↔ w'.ticks = w.ticks ∨ n < ns.toNat := by
    rw [hlaw, hticks]
    omega
  constructor
  · rw [hasleep, hdiff, BitVec.lt_def, BitVec.toNat_ofNat, Nat.mod_eq_of_lt hnlt]
  · intro hawake
    have hle : ns.toNat ≤ n := by
      rw [hasleep] at hawake
      omega
    exact ha.slept hle

omit [DecidableEq T] in
/-- An interrupt waits for `pit_stub`, and no frequency is 0. -/
def Possible (w : Ticking priorities T) : Event priorities T → Prop
  | .pitStub _ => w.waiting = true
  | .setFrequency freq => freq ≠ 0
  | _ => True

/-- Nothing else stops a run. -/
theorem run_defined {w : Ticking priorities T} {v : View priorities T} (hw : w.IsSet)
    (hv : Sound w.sched v) {es : List (Event priorities T)}
    (hes : EachStep step Possible w es) : ∃ w', run step w es = some w' := by
  induction es generalizing w v with
  | nil => exact ⟨w, rfl⟩
  | cons e es ih =>
    have hone : ∃ w₁ v₁, w.step e = some w₁ ∧ Sound w₁.sched v₁ := by
      cases e with
      | cycle =>
        obtain ⟨w₁, h₁, -⟩ := hw.cycle_spec (f := 0)
        have hsame := step_sched hw (e := .cycle) h₁
        obtain hsched := Option.some.inj hsame
        exact ⟨w₁, v, h₁, hsched ▸ hv⟩
      | pitStub cur =>
        have hwaiting : w.waiting = true := hes.1
        obtain ⟨s', hs', hsound⟩ := hv.step (.timerTick w.timer.getInterval cur)
        obtain ⟨⟨s₁, next⟩, htick, rfl⟩ := Option.map_eq_some_iff.mp hs'
        have hstub : ∃ w₁, w.pitStub cur = some w₁ ∧ w₁.sched = s₁ := by
          unfold pitStub
          rw [if_pos hwaiting]
          dsimp only
          rw [htick]
          exact ⟨_, rfl, rfl⟩
        obtain ⟨w₁, h₁, rfl⟩ := hstub
        exact ⟨w₁, _, h₁, hsound⟩
      | setFrequency freq =>
        obtain ⟨timer, ht⟩ : ∃ timer, w.timer.setFrequency freq = some timer :=
          ⟨_, Timer.setFrequency_eq hes.1 w.timer⟩
        exact ⟨{ w with timer := timer, since := 0, dropped := w.dropped + w.since }, v,
          by simp [step, setFrequency, ht], hv⟩
      | call op hop =>
        obtain ⟨s', hs', hsound⟩ := hv.step op
        exact ⟨{ w with sched := s' }, _, by simp [step, hs'], hsound⟩
    obtain ⟨w₁, v₁, h₁, hv₁⟩ := hone
    obtain ⟨w', hr⟩ := ih (hw.next h₁) hv₁ (hes.2 w₁ h₁)
    refine ⟨w', ?_⟩
    rw [run_cons, h₁]
    exact hr

section Clock

/-- A timer at its highest frequency, with 4190 ns for 5 cycles. -/
def fastest : Timer := ⟨⟨4190, 238636, 0⟩, ⟨2, false, none, 5⟩⟩

theorem fastest_set : Timer.unset.setFrequency 1000000 = some fastest := by decide

/-- The two released threads, and a period that has just begun. -/
def fresh : Ticking 1 Bool := ⟨fastest, twoReleased, 0, 0, 0, 0, false, 0⟩

theorem fresh_set : fresh.IsSet := ⟨_, Timer.setFrequency_agrees fastest_set, by decide⟩

/-- Two interrupts, each of them late, and a change of frequency within a period. -/
def slowed : List (Event 1 Bool) :=
  List.replicate 7 .cycle ++ [.pitStub none, .cycle, .setFrequency 100000] ++
    List.replicate 12 .cycle ++ [.pitStub none]

instance (w : Ticking 1 Bool) (e : Event 1 Bool) : Decidable (w.Possible e) := by
  unfold Possible
  split <;> infer_instance

instance (w : Ticking 1 Bool) (e : Event 1 Bool) : Decidable (w.Prompt e) := by
  unfold Prompt
  split <;> infer_instance

/-- Of 20 cycles three were thrown away, and one belongs to the period that is going on. -/
theorem running_time_accurate_slowed : ∃ w', run step fresh slowed = some w' ∧
    (w'.clock, w'.since, w'.dropped, w'.counted) = (20, 1, 3, 13409) ∧
      ∃ k n c, Advanced 18 fresh w' k n c := by
  obtain ⟨w', hr⟩ := run_defined fresh_set twoReleased_initial.sound
    (by decide : EachStep step Possible fresh slowed)
  have hcounts : (run step fresh slowed).map (fun w => (w.clock, w.since, w.dropped, w.counted)) =
    some (20, 1, 3, 13409) := by decide
  rw [hr] at hcounts
  exact ⟨w', hr, Option.some.inj hcounts, (running_time_accurate fresh_set (by decide) hr).1⟩

def dozing : Ticking 1 Bool := { fresh with clock := 4, since := 4 }

def oneInterrupt : List (Event 1 Bool) := [.cycle, .pitStub none]

def twoInterrupts : List (Event 1 Bool) :=
  [.cycle, .pitStub none, .cycle, .cycle, .cycle, .cycle, .cycle, .pitStub none]

/-- The first interrupt after one cycle credits the sleeper with a whole period. -/
theorem sleeper_wakes_second :
    (∃ w', run step dozing (.call (.sleep true 5000) id :: oneInterrupt) = some w' ∧
      true ∈ w'.sched.sleepers) ∧
    ∃ w', run step dozing (.call (.sleep true 5000) id :: twoInterrupts) = some w' ∧
      true ∉ w'.sched.sleepers ∧
      18 * (5000 * inputHz) ≤ 19 * (nsPerSecond * (w'.clock - 4 + (4 + 0))) := by
  have hbefore : run step fresh (List.replicate 4 .cycle) = some dozing := rfl
  have hdue : DeltaQueue.OnTime (dozing.sched.othersAsleep true) (5000 : BitVec 64).toNat := by
    have hnone : dozing.sched.othersAsleep true = [] := rfl
    rw [hnone]
    exact trivial
  have hset : dozing.IsSet := fresh_set.reached hbefore
  constructor
  · obtain ⟨w', hr⟩ := run_defined hset twoReleased_initial.sound
      (by decide : EachStep step Possible dozing (.call (.sleep true 5000) id :: oneInterrupt))
    have hcounts : (run step dozing (.call (.sleep true 5000) id :: oneInterrupt)).map
      (fun w => (w.counted, w.timer.getRunningTime)) = some (4190, 4190) := by decide
    rw [hr] at hcounts
    obtain ⟨hcounted, htime⟩ := Prod.mk.inj (Option.some.inj hcounts)
    have hwake := sleeper_wakes fresh_set twoReleased_initial hbefore hdue
      (by simp [oneInterrupt, Event.Touches]) (by decide) hr (by rw [hcounted]; decide)
    refine ⟨w', hr, hwake.1.mpr (Or.inr ?_)⟩
    rw [htime]
    decide
  · obtain ⟨w', hr⟩ := run_defined hset twoReleased_initial.sound
      (by decide : EachStep step Possible dozing (.call (.sleep true 5000) id :: twoInterrupts))
    have hcounts : (run step dozing (.call (.sleep true 5000) id :: twoInterrupts)).map
      (fun w => (w.ticks, w.counted, w.timer.getRunningTime)) = some (2, 8380, 8380) := by decide
    rw [hr] at hcounts
    obtain ⟨hticks, hrest⟩ := Prod.mk.inj (Option.some.inj hcounts)
    obtain ⟨hcounted, htime⟩ := Prod.mk.inj hrest
    have hwake := sleeper_wakes fresh_set twoReleased_initial hbefore hdue
      (by simp [twoInterrupts, Event.Touches]) (by decide) hr (by rw [hcounted]; decide)
    have hawake : true ∉ w'.sched.sleepers := by
      rw [hwake.1, hticks, htime]
      decide
    exact ⟨w', hr, hawake, hwake.2 hawake⟩

end Clock

end Ticking
end Tysos
