import Tysos.Sync.Spinlock
import Mathlib.Logic.Function.Iterate

/-!
# Lockable

`Lock` and `Unlock` as single steps on the lock word, granted when the spinlock alone would
come to an end, and what nesting does to the ownership of the lock.
-/

namespace Tysos
set_option autoImplicit false

namespace Lockable
open Spinlock

/-- `thread_id`, or else the current thread, or 1 where there is none yet. -/
def lockId (threadId currentThread : Word) : Word :=
  if threadId = 0 then if currentThread = 0 then 1 else currentThread else threadId

theorem lockId_ne_zero (threadId currentThread : Word) : lockId threadId currentThread ≠ 0 := by
  unfold lockId
  split
  · split
    · decide
    · assumption
  · assumption

/-- The lock word after `Lock`, or `none` where the caller has to wait. -/
def lock (word threadId currentThread : Word) : Option Word :=
  let id := lockId threadId currentThread
  if word = 0 ∨ word = id then some id else none

def unlock (word threadId currentThread : Word) : Word :=
  if word = lockId threadId currentThread then 0 else word

section Alone
variable {threadId word : Word} {t : Cpu}

/-- The thread runs on without being interrupted. -/
def alone (threadId : Word) (m : Word × Cpu) : Word × Cpu := exec threadId m.1 m.2

theorem obtain_granted (hpc : t.pc = .outside) (hword : word = 0 ∨ word = threadId) :
    ((alone threadId)^[6] (word, t)).1 = threadId ∧
      ((alone threadId)^[6] (word, t)).2.pc = .getLock2 := by
  obtain ⟨pc, eax, zf, intf⟩ := t
  cases hpc
  by_cases hzero : word = 0
  · simp [Function.iterate_succ, alone, exec, hzero]
  · have hne : ¬ word = 0#32 := hzero
    have hid : word = threadId := hword.resolve_left hzero
    subst hid
    simp [Function.iterate_succ, alone, exec, hne]

/-- Where a thread waiting for the lock can be. -/
def Waits (t : Cpu) : Prop :=
  match t.pc with
  | .outside | .spinLock | .cli | .cmpId | .sti | .pause | .jmpSpinLock => True
  | .jeGetLock | .jeGetLock2 => t.zf = false
  | _ => False

theorem Waits.exec (h : Waits t) (hzero : word ≠ 0) (hid : word ≠ threadId) :
    (exec threadId word t).1 = word ∧ Waits (exec threadId word t).2 := by
  obtain ⟨pc, eax, zf, intf⟩ := t
  cases pc <;> simp_all [Spinlock.exec, Waits]

theorem Waits.alone {m : Word × Cpu} (h : Waits m.2) (hm : m.1 = word) (hzero : word ≠ 0)
    (hid : word ≠ threadId) : (alone threadId m).1 = word ∧ Waits (alone threadId m).2 := by
  subst hm
  exact h.exec hzero hid

theorem obtain_waits (hpc : t.pc = .outside) (hzero : word ≠ 0) (hid : word ≠ threadId) (n : Nat) :
    ((alone threadId)^[n] (word, t)).2.pc ≠ .getLock2 := by
  have hwaits : ((alone threadId)^[n] (word, t)).1 = word ∧
      Waits ((alone threadId)^[n] (word, t)).2 := by
    induction n with
    | zero => exact ⟨rfl, by simp [Waits, hpc]⟩
    | succ n ih =>
      rw [Function.iterate_succ_apply']
      exact ih.2.alone ih.1 hzero hid
  intro hget
  have hbad := hwaits.2
  unfold Waits at hbad
  rw [hget] at hbad
  exact hbad

theorem release_unlocks (hpc : t.pc = .getLock2) :
    ((alone threadId)^[2] (word, t)).1 = if word = threadId then 0 else word := by
  obtain ⟨pc, eax, zf, intf⟩ := t
  cases hpc
  by_cases hid : word = threadId <;> simp [Function.iterate_succ, alone, exec, hid]

variable {currentThread : Word}

/-- What `Lock` grants is what `obtain_spinlock` comes to when it runs alone. -/
theorem lock_eq_some {word' : Word} (hpc : t.pc = .outside)
    (h : lock word threadId currentThread = some word') :
    ((alone (lockId threadId currentThread))^[6] (word, t)).1 = word' ∧
      ((alone (lockId threadId currentThread))^[6] (word, t)).2.pc = .getLock2 := by
  obtain ⟨hword, hid⟩ := Option.ite_none_right_eq_some.mp h
  obtain rfl := Option.some.inj hid
  exact obtain_granted hpc hword

/-- Where `Lock` is not granted, `obtain_spinlock` does not end on its own. -/
theorem lock_eq_none (hpc : t.pc = .outside) (h : lock word threadId currentThread = none)
    (n : Nat) : ((alone (lockId threadId currentThread))^[n] (word, t)).2.pc ≠ .getLock2 := by
  have hnot : ¬ (word = 0 ∨ word = lockId threadId currentThread) := by
    simpa [lock] using h
  obtain ⟨hzero, hid⟩ := not_or.mp hnot
  exact obtain_waits hpc hzero hid n

theorem unlock_eq (hpc : t.pc = .getLock2) :
    ((alone (lockId threadId currentThread))^[2] (word, t)).1 =
      unlock word threadId currentThread := release_unlocks hpc

end Alone

/-- A call of one of the threads, on its own behalf. -/
inductive Call (ι : Type) where
  | lock (i : ι)
  | unlock (i : ι)

/-- The lock word, and how often each thread has called `Lock` and `Unlock`. -/
structure Calls (ι : Type) where
  word : Word
  locks : ι → Nat
  unlocks : ι → Nat

namespace Calls
variable {ι : Type} [DecidableEq ι]

/-- The next granted call. `current i` is the current thread while thread `i` runs. -/
def step (current : ι → Word) (s : Calls ι) : Call ι → Option (Calls ι)
  | .lock i => do
    let word ← lock s.word 0 (current i)
    some { s with word := word, locks := Function.update s.locks i (s.locks i + 1) }
  | .unlock i =>
    some { s with
      word := unlock s.word 0 (current i)
      unlocks := Function.update s.unlocks i (s.unlocks i + 1) }

def Initial (s : Calls ι) : Prop := s.word = 0 ∧ (∀ i, s.locks i = 0) ∧ ∀ i, s.unlocks i = 0

/-- A thread that has called `Lock` more often than `Unlock` is in the lock word, and `Lock` is
not granted to any other. -/
structure Owned (current : ι → Word) (s : Calls ι) : Prop where
  owner : ∀ i, s.unlocks i < s.locks i → s.word = lockId 0 (current i)
  waiting : ∀ i, s.unlocks i < s.locks i → ∀ j, j ≠ i → s.step current (.lock j) = none

/-- An `Unlock` is the last one: the thread has at most one `Lock` more. -/
def Outermost (s : Calls ι) : Call ι → Prop
  | .lock _ => True
  | .unlock i => s.locks i ≤ s.unlocks i + 1

instance (s : Calls ι) : ∀ c, Decidable (s.Outermost c)
  | .lock _ => isTrue trivial
  | .unlock i => inferInstanceAs (Decidable (s.locks i ≤ s.unlocks i + 1))

variable {current : ι → Word} {s s' : Calls ι}

theorem step_lock_eq_some {i : ι} (h : s.step current (.lock i) = some s') :
    (s.word = 0 ∨ s.word = lockId 0 (current i)) ∧ s'.word = lockId 0 (current i) ∧
      s'.locks = Function.update s.locks i (s.locks i + 1) ∧ s'.unlocks = s.unlocks := by
  obtain ⟨word, hlock, hs⟩ := Option.bind_eq_some_iff.mp h
  obtain ⟨hword, hid⟩ := Option.ite_none_right_eq_some.mp hlock
  obtain rfl := Option.some.inj hs
  exact ⟨hword, (Option.some.inj hid).symm, rfl, rfl⟩

theorem owned_of_owner (hinj : Function.Injective fun i => lockId 0 (current i))
    (h : ∀ i, s.unlocks i < s.locks i → s.word = lockId 0 (current i)) : s.Owned current := by
  refine ⟨h, fun i hi j hji => ?_⟩
  have hword := h i hi
  have hzero : s.word ≠ 0 := by
    rw [hword]
    exact lockId_ne_zero 0 (current i)
  have hother : s.word ≠ lockId 0 (current j) := by
    rw [hword]
    exact fun heq => hji (hinj heq).symm
  have hnone : lock s.word 0 (current j) = none := if_neg (not_or.mpr ⟨hzero, hother⟩)
  unfold step
  dsimp only
  rw [hnone]
  rfl

theorem Owned.step (hinj : Function.Injective fun i => lockId 0 (current i))
    (h : s.Owned current) {c : Call ι} (hout : s.Outermost c)
    (hstep : s.step current c = some s') : s'.Owned current := by
  apply owned_of_owner hinj
  intro j hj
  cases c with
  | lock i =>
    obtain ⟨hword, hword', hlocks, hunlocks⟩ := step_lock_eq_some hstep
    by_cases hji : j = i
    · rw [hji, hword']
    · rw [hlocks, hunlocks, Function.update_of_ne hji] at hj
      have howner := h.owner j hj
      cases hword with
      | inl hzero => exact absurd (howner.symm.trans hzero) (lockId_ne_zero 0 (current j))
      | inr hid => exact absurd (hinj (howner.symm.trans hid)) hji
  | unlock i =>
    obtain rfl := Option.some.inj hstep
    by_cases hji : j = i
    · subst hji
      have hle : s.locks j ≤ s.unlocks j + 1 := hout
      simp only [Function.update_self] at hj
      exact absurd hle (Nat.not_le.mpr hj)
    · simp only [Function.update_of_ne hji] at hj
      have howner := h.owner j hj
      have hne : s.word ≠ lockId 0 (current i) := fun hid => hji (hinj (howner.symm.trans hid))
      exact (if_neg hne).trans howner

/-- An `Unlock` that is not the last one frees the lock all the same. -/
theorem outermost_of_owned (h : s.Owned current) {c : Call ι}
    (hnext : ∀ s', s.step current c = some s' → s'.Owned current) : s.Outermost c := by
  cases c with
  | lock i => trivial
  | unlock i =>
    apply Nat.le_of_not_lt
    intro hlt
    have hword : s.word = lockId 0 (current i) := h.owner i (by omega)
    have howner := (hnext _ rfl).owner i (by simpa using hlt)
    have hzero : unlock s.word 0 (current i) = 0 := if_pos hword
    exact lockId_ne_zero 0 (current i) (howner.symm.trans hzero)

/-- Every state of a run has an owner for as long as there is one exactly when every `Unlock`
of the run is an outermost one. -/
theorem owned_iff_outermost (hinj : Function.Injective fun i => lockId 0 (current i))
    (hinit : s.Initial) (calls : List (Call ι)) :
    (∀ before, before <+: calls → ∀ s', Transition.run (step current) s before = some s' →
      s'.Owned current) ↔ Transition.EachStep (step current) Outermost s calls := by
  have hs : s.Owned current := by
    apply owned_of_owner hinj
    intro i hi
    rw [hinit.2.1 i] at hi
    exact absurd hi (Nat.not_lt_zero _)
  refine Transition.EachStep.reached_iff ?_ (fun _ howned => howned) ?_ hs
  · exact fun s c s' howned hout hstep => howned.step hinj hout hstep
  · exact fun s c howned hnext => outermost_of_owned howned hnext

def idle (ι : Type) : Calls ι := ⟨0, fun _ => 0, fun _ => 0⟩

def twoRecords (i : Bool) : Word := if i then 0x1000 else 0x2000

/-- One thread has been in, the other has locked twice, and the first makes an `Unlock` too many. -/
def nestedLocks : List (Call Bool) :=
  [.lock true, .unlock true, .lock false, .lock false, .unlock true]

/-- The second thread is still the owner, and the first has to wait. -/
theorem nestedLocks_owned :
    ∃ s', Transition.run (step twoRecords) (idle Bool) nestedLocks = some s' ∧
      s'.locks false = 2 ∧ s'.Owned twoRecords ∧ s'.step twoRecords (.lock true) = none := by
  have hinj : ∀ i j, lockId 0 (twoRecords i) = lockId 0 (twoRecords j) → i = j := by decide
  have howned := (owned_iff_outermost (fun i j => hinj i j) ⟨rfl, fun _ => rfl, fun _ => rfl⟩
    nestedLocks).mpr (by decide : Transition.EachStep (step twoRecords) Outermost (idle Bool) _)
  obtain ⟨s', hrun⟩ : ∃ s', Transition.run (step twoRecords) (idle Bool) nestedLocks = some s' :=
    ⟨_, rfl⟩
  have hend := howned nestedLocks (List.prefix_refl _) s' hrun
  have hcounts : s'.locks false = 2 ∧ s'.unlocks false = 0 := by
    obtain rfl := Option.some.inj hrun
    decide
  have hmore : s'.unlocks false < s'.locks false := by omega
  exact ⟨s', hrun, hcounts.1, hend, hend.waiting false hmore true (by decide)⟩

/-- `Lock`, `Lock`, `Unlock`: the thread is still inside, and the lock is free. -/
theorem nested_unlock_frees :
    ¬ ∀ (current : Unit → Word), Function.Injective (fun i => lockId 0 (current i)) →
      ∀ s s' : Calls Unit, s.Initial → ∀ calls, Transition.run (step current) s calls = some s' →
        s'.Owned current := by
  intro h
  have howned := h (fun _ => 0x1000) (fun _ _ _ => rfl) (idle Unit)
    ⟨0, fun _ => 2, fun _ => 1⟩ ⟨rfl, fun _ => rfl, fun _ => rfl⟩
    [.lock (), .lock (), .unlock ()] (by rfl)
  exact absurd (howned.owner () (by decide)) (by decide)

end Calls
end Lockable
end Tysos
