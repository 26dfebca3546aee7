import Tysos.Sync.Spinlock

/-!
# Spinlocks on one processor

The kernel runs on one processor, and `obtain_spinlock` turns interrupts off before it takes
the lock. A thread gives way to another one in an interrupt, or by itself where it has no lock.
-/

namespace Tysos
set_option autoImplicit false

namespace Spinlock

/-- All locks, what each thread has in the registers, the lock its last `obtain_spinlock` was
called for, and the thread that runs. -/
structure Uni (ι κ : Type) where
  lock : κ → Word
  thread : ι → Cpu
  target : ι → κ
  running : ι

/-- What the processor does next. -/
inductive Turn (ι κ : Type) where
  /-- The next instruction of a thread that is at a lock. -/
  | exec
  /-- A call of `obtain_spinlock`, by a thread that has no lock. -/
  | obtain (k : κ)
  /-- An interrupt, from which it returns into thread `i`. -/
  | interrupt (i : ι)
  /-- A switch to thread `i` by the running thread itself. -/
  | yield (i : ι)
  /-- Other code turns interrupts on or off. -/
  | setIf (on : Bool)

/-- Where a thread is that has found the lock taken, or lost it to another one. -/
def Cpu.Retries (t : Cpu) : Prop :=
  match t.pc with
  | .cli | .cmpId | .jeGetLock2 | .sti | .pause | .jmpSpinLock | .getLockSti | .getLockJmp => True
  | _ => False

instance (t : Cpu) : Decidable t.Retries := by
  unfold Cpu.Retries
  split <;> infer_instance

/-- What a thread has in its registers that finds every lock free. -/
def Cpu.Unhindered (threadId : Word) (t : Cpu) : Prop :=
  match t.pc with
  | .outside => True
  | .spinLock | .getLock => t.eax = 0
  | .jeGetLock => t.eax = 0 ∧ t.zf = true
  | .cmpxchg => t.eax = 0 ∧ t.intf = false
  | .jzGetLock2 | .jnzCont => t.zf = true ∧ t.intf = false
  | .getLock2 | .releaseSti => t.intf = false
  | .release => t.eax = threadId ∧ t.intf = false
  | _ => False

/-- A thread that another one may take the processor from. -/
def Cpu.MayGiveWay (t : Cpu) : Prop := t.intf = true ∨ t.pc = .outside

section Thread
variable {threadId lock : Word} {t : Cpu}

theorem Cpu.Unhindered.not_retries (h : t.Unhindered threadId) : ¬ t.Retries := by
  unfold Unhindered at h
  unfold Retries
  cases hpc : t.pc <;> simp_all

theorem Cpu.Unhindered.intf_of_holds (h : t.Unhindered threadId) (hh : t.Holds) :
    t.intf = false := by
  unfold Unhindered at h
  unfold Holds Inside at hh
  rcases hh with (hpc | hpc) | ⟨hpc, -⟩
  · rw [hpc] at h
    exact h
  · rw [hpc] at h
    exact h.2
  · rw [hpc] at h
    exact h.2

theorem Cpu.Unhindered.not_holds (h : t.Unhindered threadId) (hway : t.MayGiveWay) :
    ¬ t.Holds := by
  intro hh
  cases hway with
  | inl hon =>
    rw [h.intf_of_holds hh] at hon
    exact Bool.false_ne_true hon
  | inr hpc => simp [Holds, Inside, hpc] at hh

/-- One instruction of a thread that finds its lock free, or has it. -/
theorem Cpu.Unhindered.exec (h : t.Unhindered threadId)
    (hlock : (t.Holds → lock = threadId) ∧ (¬ t.Holds → lock = 0)) :
    (Spinlock.exec threadId lock t).2.Unhindered threadId ∧
      ((Spinlock.exec threadId lock t).2.Holds → (Spinlock.exec threadId lock t).1 = threadId) ∧
      (¬ (Spinlock.exec threadId lock t).2.Holds → (Spinlock.exec threadId lock t).1 = 0) := by
  obtain ⟨pc, eax, zf, intf⟩ := t
  cases pc <;> simp_all [Unhindered, Spinlock.exec, Holds, Inside]

end Thread

namespace Uni
variable {ι κ : Type} {ids : ι → Word} {s s' : Uni ι κ}

/-- No lock is taken, and every thread is outside. -/
def Initial (s : Uni ι κ) : Prop := (∀ k, s.lock k = 0) ∧ ∀ i, (s.thread i).pc = .outside

/-- Only the running thread has a lock, and no other lock is taken. -/
structure Orderly (ids : ι → Word) (s : Uni ι κ) : Prop where
  thread : ∀ i, (s.thread i).Unhindered (ids i)
  waiting : ∀ i, i ≠ s.running → (s.thread i).MayGiveWay
  holds : (s.thread s.running).Holds → s.lock (s.target s.running) = ids s.running
  free : ∀ k, ((s.thread s.running).Holds → k ≠ s.target s.running) → s.lock k = 0

theorem Initial.orderly (h : s.Initial) : s.Orderly ids := by
  have hnot : ¬ (s.thread s.running).Holds := by simp [Cpu.Holds, Cpu.Inside, h.2]
  refine ⟨fun i => ?_, fun i _ => Or.inr (h.2 i), fun hh => absurd hh hnot, fun k _ => h.1 k⟩
  simp [Cpu.Unhindered, h.2 i]

/-- A thread that may give way has no lock. -/
theorem Orderly.lock_free (h : s.Orderly ids) (hway : (s.thread s.running).MayGiveWay) (k : κ) :
    s.lock k = 0 :=
  h.free k fun hh => absurd hh ((h.thread s.running).not_holds hway)

section Steps
variable [DecidableEq ι] [DecidableEq κ]

/-- The running thread executes an instruction. -/
def next (ids : ι → Word) (s : Uni ι κ) : Uni ι κ :=
  let k := s.target s.running
  let next := exec (ids s.running) (s.lock k) (s.thread s.running)
  { s with
    lock := Function.update s.lock k next.1
    thread := Function.update s.thread s.running next.2 }

def step (ids : ι → Word) (s : Uni ι κ) : Turn ι κ → Option (Uni ι κ)
  | .exec => if (s.thread s.running).pc = .outside then none else some (s.next ids)
  | .obtain k =>
    if (s.thread s.running).pc = .outside then
      some ({ s with target := Function.update s.target s.running k }.next ids)
    else none
  | .interrupt i => if (s.thread s.running).intf then some { s with running := i } else none
  | .yield i => if (s.thread s.running).pc = .outside then some { s with running := i } else none
  | .setIf on =>
    if (s.thread s.running).pc = .outside then
      some { s with thread :=
        Function.update s.thread s.running { s.thread s.running with intf := on } }
    else none

omit [DecidableEq κ] in
/-- The running thread alone changes its registers and the locks. -/
theorem Orderly.put (h : s.Orderly ids) {t : Cpu} {lock : κ → Word} {target : ι → κ}
    (ht : t.Unhindered (ids s.running))
    (hholds : t.Holds → lock (target s.running) = ids s.running)
    (hfree : ∀ k, (t.Holds → k ≠ target s.running) → lock k = 0) :
    ({ s with
      lock := lock
      target := target
      thread := Function.update s.thread s.running t } : Uni ι κ).Orderly ids := by
  constructor
  · intro i
    dsimp only
    by_cases hi : i = s.running
    · subst hi
      rw [Function.update_self]
      exact ht
    · rw [Function.update_of_ne hi]
      exact h.thread i
  · intro i hi
    dsimp only at hi ⊢
    rw [Function.update_of_ne hi]
    exact h.waiting i hi
  · dsimp only
    rw [Function.update_self]
    exact hholds
  · intro k hk
    dsimp only at hk
    rw [Function.update_self] at hk
    exact hfree k hk

theorem Orderly.next (h : s.Orderly ids) : (s.next ids).Orderly ids := by
  have hlock : ((s.thread s.running).Holds → s.lock (s.target s.running) = ids s.running) ∧
      (¬ (s.thread s.running).Holds → s.lock (s.target s.running) = 0) :=
    ⟨h.holds, fun hnot => h.free _ fun hh => absurd hh hnot⟩
  obtain ⟨hthread, hholds, hfree⟩ := (h.thread s.running).exec hlock
  refine h.put hthread ?_ ?_
  · intro hh
    rw [Function.update_self]
    exact hholds hh
  · intro k hk
    by_cases hkt : k = s.target s.running
    · subst hkt
      rw [Function.update_self]
      exact hfree fun hh => hk hh rfl
    · rw [Function.update_of_ne hkt]
      exact h.free k fun _ => hkt

omit [DecidableEq κ] in
theorem Orderly.switch (h : s.Orderly ids) (hway : (s.thread s.running).MayGiveWay) (i : ι) :
    ({ s with running := i } : Uni ι κ).Orderly ids := by
  have hall : ∀ j, (s.thread j).MayGiveWay := by
    intro j
    by_cases hj : j = s.running
    · rw [hj]
      exact hway
    · exact h.waiting j hj
  refine ⟨h.thread, fun j _ => hall j, fun hh => ?_, fun k _ => h.lock_free hway k⟩
  exact absurd hh ((h.thread i).not_holds (hall i))

omit [DecidableEq κ] in
theorem Orderly.outside (h : s.Orderly ids) (hpc : (s.thread s.running).pc = .outside)
    (target : ι → κ) (on : Bool) :
    ({ s with
      target := target
      thread := Function.update s.thread s.running
        { s.thread s.running with intf := on } } : Uni ι κ).Orderly ids := by
  refine h.put ?_ ?_ ?_
  · simp [Cpu.Unhindered, hpc]
  · intro hh
    simp [Cpu.Holds, Cpu.Inside, hpc] at hh
  · exact fun k _ => h.lock_free (Or.inr hpc) k

theorem Orderly.after (h : s.Orderly ids) {e : Turn ι κ} (hstep : s.step ids e = some s') :
    s'.Orderly ids := by
  cases e with
  | exec =>
    obtain ⟨-, hs⟩ := Option.ite_none_left_eq_some.mp hstep
    obtain rfl := Option.some.inj hs
    exact h.next
  | obtain k =>
    obtain ⟨hpc, hs⟩ := Option.ite_none_right_eq_some.mp hstep
    obtain rfl := Option.some.inj hs
    have hout := h.outside hpc (Function.update s.target s.running k) (s.thread s.running).intf
    rw [Function.update_eq_self] at hout
    exact hout.next
  | interrupt i =>
    obtain ⟨hon, hs⟩ := Option.ite_none_right_eq_some.mp hstep
    obtain rfl := Option.some.inj hs
    exact h.switch (Or.inl hon) i
  | yield i =>
    obtain ⟨hpc, hs⟩ := Option.ite_none_right_eq_some.mp hstep
    obtain rfl := Option.some.inj hs
    exact h.switch (Or.inr hpc) i
  | setIf on =>
    obtain ⟨hpc, hs⟩ := Option.ite_none_right_eq_some.mp hstep
    obtain rfl := Option.some.inj hs
    exact h.outside hpc s.target on

theorem Orderly.run (h : s.Orderly ids) {es : List (Turn ι κ)}
    (hr : Transition.run (Uni.step ids) s es = some s') : s'.Orderly ids :=
  Transition.run_keeps (fun _ _ _ hs hstep => hs.after hstep) h hr

/-- On one processor no thread ever finds a lock taken, whether or not a retry would then be a
right one: at most one thread is inside, and none is when the processor goes from one thread
to another. -/
theorem locks_found_free (hinit : s.Initial) {es : List (Turn ι κ)}
    (hr : Transition.run (step ids) s es = some s') :
    (∀ i, ¬ (s'.thread i).Retries) ∧
      (∀ i j, (s'.thread i).Inside → (s'.thread j).Inside → i = j) ∧
      (∀ i, (s'.thread i).Inside → s'.lock (s'.target i) = ids i) ∧
      ∀ i t, s'.step ids (.interrupt i) = some t ∨ s'.step ids (.yield i) = some t →
        ∀ k, s'.lock k = 0 := by
  have h : s'.Orderly ids := hinit.orderly.run hr
  have hrun : ∀ i, (s'.thread i).Inside → i = s'.running := by
    intro i hi
    by_contra hne
    exact (h.thread i).not_holds (h.waiting i hne) (Or.inl hi)
  refine ⟨fun i => (h.thread i).not_retries, ?_, ?_, ?_⟩
  · intro i j hi hj
    rw [hrun i hi, hrun j hj]
  · intro i hi
    obtain rfl := hrun i hi
    exact h.holds (Or.inl hi)
  · rintro i t (ht | ht) k
    · exact h.lock_free (Or.inl (Option.ite_none_right_eq_some.mp ht).1) k
    · exact h.lock_free (Or.inr (Option.ite_none_right_eq_some.mp ht).1) k

/-- Two threads and one lock. -/
def twoThreads : Uni Bool Unit :=
  { lock := fun _ => 0, thread := fun _ => ⟨.outside, 0, false, true⟩, target := fun _ => ()
    running := false }

/-- The second thread breaks in where the first is about to take the lock, and uses it. -/
def brokenIn : List (Turn Bool Unit) :=
  [.obtain (), .exec, .exec, .interrupt true, .obtain (), .exec, .exec, .exec, .exec, .exec,
    .exec, .exec, .exec, .exec, .interrupt false, .exec, .exec, .exec]

theorem locks_found_free_twoThreads :
    ∃ s', Transition.run (step Spin.twoIds) twoThreads brokenIn = some s' ∧
      (s'.thread false).Inside ∧ s'.lock () = 1 := by
  have hinit : twoThreads.Initial := ⟨fun _ => rfl, fun _ => rfl⟩
  have hinside : ∀ s' ∈ Transition.run (step Spin.twoIds) twoThreads brokenIn,
      (s'.thread false).Inside := by decide +kernel
  have hsome : (Transition.run (step Spin.twoIds) twoThreads brokenIn).isSome = true := by
    decide +kernel
  obtain ⟨s', hr⟩ := Option.isSome_iff_exists.mp hsome
  exact ⟨s', hr, hinside s' hr, (locks_found_free hinit hr).2.2.1 false (hinside s' hr)⟩

end Steps

end Uni
end Spinlock
end Tysos
