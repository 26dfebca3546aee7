import Tysos.Support.Run
import Mathlib.Logic.Function.Basic

/-!
# The spinlock, instruction by instruction

`obtain_spinlock` and `release_spinlock` as programs of single instructions on the lock word,
run by any number of threads in any order. The retry after a failed `cmpxchg` compares with
what that instruction left in `eax`, and not with 0.
-/

namespace Tysos
set_option autoImplicit false

namespace Spinlock

abbrev Word := BitVec 32

/-- The next instruction of a thread, under its label in the source where it has one. -/
inductive Pc where
  | outside
  -- obtain_spinlock, from spin_lock on
  | spinLock | jeGetLock | cli | cmpId | jeGetLock2 | sti | pause | jmpSpinLock
  -- from get_lock on
  | getLock | cmpxchg | jzGetLock2 | getLockSti | getLockJmp
  | getLock2
  -- release_spinlock
  | release | jnzCont | releaseSti
  deriving DecidableEq, Repr

structure Cpu where
  pc : Pc
  eax : Word
  zf : Bool
  intf : Bool
  deriving DecidableEq, Repr

/-- One instruction of the thread `threadId`; a thread outside enters `obtain_spinlock`. -/
def exec (threadId lock : Word) (t : Cpu) : Word × Cpu :=
  match t.pc with
  | .outside => (lock, { t with pc := .spinLock, eax := 0 })
  | .spinLock => (lock, { t with pc := .jeGetLock, zf := lock == 0 })
  | .jeGetLock => (lock, { t with pc := if t.zf then .getLock else .cli })
  | .cli => (lock, { t with pc := .cmpId, intf := false })
  | .cmpId => (lock, { t with pc := .jeGetLock2, zf := lock == threadId })
  | .jeGetLock2 => (lock, { t with pc := if t.zf then .getLock2 else .sti })
  | .sti => (lock, { t with pc := .pause, intf := true })
  | .pause => (lock, { t with pc := .jmpSpinLock })
  | .jmpSpinLock => (lock, { t with pc := .spinLock })
  | .getLock => (lock, { t with pc := .cmpxchg, intf := false })
  | .cmpxchg =>
    if lock = t.eax then (threadId, { t with pc := .jzGetLock2, zf := true })
    else (lock, { t with pc := .jzGetLock2, eax := lock, zf := false })
  | .jzGetLock2 => (lock, { t with pc := if t.zf then .getLock2 else .getLockSti })
  | .getLockSti => (lock, { t with pc := .getLockJmp, intf := true })
  | .getLockJmp => (lock, { t with pc := .spinLock })
  | .getLock2 => (lock, { t with pc := .release, eax := threadId })
  | .release =>
    if lock = t.eax then (0, { t with pc := .jnzCont, zf := true })
    else (lock, { t with pc := .jnzCont, eax := lock, zf := false })
  | .jnzCont => (lock, { t with pc := if t.zf then .releaseSti else .outside })
  | .releaseSti => (lock, { t with pc := .outside, intf := true })

/-- The thread is past `get_lock2` and has not released the lock. -/
def Cpu.Inside (t : Cpu) : Prop := t.pc = .getLock2 ∨ t.pc = .release

/-- From the successful `cmpxchg` on the thread has the lock. -/
def Cpu.Holds (t : Cpu) : Prop := t.Inside ∨ t.pc = .jzGetLock2 ∧ t.zf = true

instance (t : Cpu) : Decidable t.Inside := inferInstanceAs (Decidable (_ ∨ _))

/-- `eax` is still the 0 it was set to, or is not what the lock word is now. -/
def Cpu.ComparesFree (lock : Word) (t : Cpu) : Prop :=
  t.pc = .cmpxchg → t.eax = 0 ∨ t.eax ≠ lock

instance (lock : Word) (t : Cpu) : Decidable (t.ComparesFree lock) :=
  inferInstanceAs (Decidable (_ → _))

/-- What one thread keeps: it holds the lock exactly when the lock word says so, and so never
finds its own id there while it is waiting. -/
structure Cpu.Honest (threadId lock : Word) (t : Cpu) : Prop where
  holds : t.Holds ↔ lock = threadId
  waits : t.pc = .jeGetLock2 → t.zf = false
  leaves : t.pc = .release → t.eax = threadId

section Thread
variable {threadId lock : Word} {t : Cpu}

/-- The two instructions that write the lock word: `cmpxchg` takes the free lock, and
`release` frees the lock of the thread. -/
theorem exec_lock (h : t.Honest threadId lock) (hfree : t.ComparesFree lock) :
    (exec threadId lock t).1 = lock ∨ lock = 0 ∧ (exec threadId lock t).1 = threadId ∨
      lock = threadId ∧ (exec threadId lock t).1 = 0 := by
  cases hpc : t.pc with
  | cmpxchg =>
    by_cases heq : lock = t.eax
    · have hzero : lock = 0 := by
        cases hfree hpc with
        | inl hz => exact heq.trans hz
        | inr hne => exact absurd heq.symm hne
      exact Or.inr (Or.inl ⟨hzero, by simp [exec, hpc, heq]⟩)
    · exact Or.inl (by simp [exec, hpc, heq])
  | release =>
    have hlock : lock = threadId := h.holds.mp (Or.inl (Or.inr hpc))
    exact Or.inr (Or.inr ⟨hlock, by simp [exec, hpc, hlock, h.leaves hpc]⟩)
  | _ => exact Or.inl (by simp [exec, hpc])

theorem Cpu.Honest.exec (h : t.Honest threadId lock) (hne : threadId ≠ 0) :
    (exec threadId lock t).2.Honest threadId (exec threadId lock t).1 := by
  obtain ⟨hholds, hwaits, hleaves⟩ := h
  obtain ⟨pc, eax, zf, intf⟩ := t
  simp only [Holds, Inside] at hholds
  cases pc with
  | cmpxchg =>
    have hnot : lock ≠ threadId := by simpa [eq_comm] using hholds
    by_cases heq : lock = eax
    · constructor <;> simp [Spinlock.exec, Holds, Inside, heq]
    · constructor <;> simp [Spinlock.exec, Holds, Inside, heq, hnot]
  | release =>
    have hlock : lock = threadId := by simpa using hholds
    have heax : eax = threadId := hleaves rfl
    have hzero : ¬ 0#32 = threadId := fun heq => hne heq.symm
    constructor <;> simp [Spinlock.exec, Holds, Inside, hlock, heax, hzero]
  | jeGetLock2 =>
    have hzf : zf = false := hwaits rfl
    constructor <;> simp_all [Spinlock.exec, Holds, Inside]
  | jeGetLock => cases zf <;> constructor <;> simp_all [Spinlock.exec, Holds, Inside]
  | jzGetLock2 => cases zf <;> constructor <;> simp_all [Spinlock.exec, Holds, Inside]
  | jnzCont => cases zf <;> constructor <;> simp_all [Spinlock.exec, Holds, Inside]
  | _ => constructor <;> simp_all [Spinlock.exec, Holds, Inside]

/-- A change of the lock word that is not about this thread leaves it as it is. -/
theorem Cpu.Honest.other (h : t.Honest threadId lock) {lock' : Word}
    (hlock : lock' = threadId ↔ lock = threadId) : t.Honest threadId lock' :=
  ⟨h.holds.trans hlock.symm, h.waits, h.leaves⟩

end Thread

/-- The lock word and the threads that use it. -/
structure Spin (ι : Type) where
  lock : Word
  thread : ι → Cpu

namespace Spin
variable {ι : Type} {ids : ι → Word} {s s' : Spin ι}

/-- The lock is free, and every thread is outside. -/
def Initial (s : Spin ι) : Prop := s.lock = 0 ∧ ∀ i, (s.thread i).pc = .outside

/-- At most one thread has the lock, and the lock word holds its id. -/
structure Excludes (ids : ι → Word) (s : Spin ι) : Prop where
  one : ∀ i j, (s.thread i).Inside → (s.thread j).Inside → i = j
  word : ∀ i, (s.thread i).Inside → s.lock = ids i

/-- A `cmpxchg` of `obtain_spinlock` does not find in the lock word the id of another thread
that it has in `eax` from a failed attempt. -/
def NoStaleMatch (s : Spin ι) (i : ι) : Prop := (s.thread i).ComparesFree s.lock

instance (s : Spin ι) (i : ι) : Decidable (NoStaleMatch s i) :=
  inferInstanceAs (Decidable (_ → _))

def Honest (ids : ι → Word) (s : Spin ι) : Prop :=
  ∀ i, (s.thread i).Honest (ids i) s.lock

theorem Initial.honest (h : s.Initial) (hne : ∀ i, ids i ≠ 0) : s.Honest ids := by
  intro i
  have hpc := h.2 i
  have hid : ¬ s.lock = ids i := by
    rw [h.1]
    exact (hne i).symm
  constructor
  · simp [Cpu.Holds, Cpu.Inside, hpc, hid]
  · simp [hpc]
  · simp [hpc]

theorem Honest.excludes (h : s.Honest ids) (hinj : Function.Injective ids) :
    s.Excludes ids := by
  have hword : ∀ i, (s.thread i).Inside → s.lock = ids i :=
    fun i hi => (h i).holds.mp (Or.inl hi)
  exact ⟨fun i j hi hj => hinj ((hword i hi).symm.trans (hword j hj)), hword⟩

section Steps
variable [DecidableEq ι]

/-- Thread `i` executes its next instruction. -/
def next (ids : ι → Word) (s : Spin ι) (i : ι) : Spin ι :=
  let next := exec (ids i) s.lock (s.thread i)
  ⟨next.1, Function.update s.thread i next.2⟩

def step (ids : ι → Word) (s : Spin ι) (i : ι) : Option (Spin ι) := some (next ids s i)

theorem Honest.next (h : s.Honest ids) (hinj : Function.Injective ids) (hne : ∀ i, ids i ≠ 0)
    {i : ι} (hfree : s.NoStaleMatch i) : (s.next ids i).Honest ids := by
  intro j
  unfold Spin.next
  dsimp only
  by_cases hji : j = i
  · subst hji
    rw [Function.update_self]
    exact (h j).exec (hne j)
  · rw [Function.update_of_ne hji]
    have hids : ids i ≠ ids j := fun heq => hji (hinj heq).symm
    apply (h j).other
    rcases exec_lock (h i) hfree with hsame | ⟨hold, hnew⟩ | ⟨hold, hnew⟩
    · rw [hsame]
    · rw [hnew, hold]
      exact ⟨fun heq => absurd heq hids, fun heq => absurd heq.symm (hne j)⟩
    · rw [hnew, hold]
      exact ⟨fun heq => absurd heq.symm (hne j), fun heq => absurd heq hids⟩

/-- In a run in which no retry matches a stale `eax`, the lock excludes at every state. -/
theorem spinlock_excludes (hinj : Function.Injective ids) (hne : ∀ i, ids i ≠ 0)
    (hinit : s.Initial) {order : List ι}
    (hsteps : Transition.EachStep (step ids) NoStaleMatch s order)
    (hrun : Transition.run (step ids) s order = some s') : s'.Excludes ids := by
  have hstep : ∀ (s : Spin ι) (i : ι) (s' : Spin ι), s.Honest ids → s.NoStaleMatch i →
      s.step ids i = some s' → s'.Honest ids := by
    intro s i s' hs hfree hstep
    obtain rfl : s.next ids i = s' := Option.some.inj hstep
    exact hs.next hinj hne hfree
  exact (hsteps.run_invariant hstep (hinit.honest hne) hrun).excludes hinj

end Steps

/-- Two threads, with the ids 1 and 2. -/
def twoIds (i : Bool) : Word := if i then 2 else 1

def twoOutside : Spin Bool := ⟨0, fun _ => ⟨.outside, 0, false, true⟩⟩

theorem twoIds_injective : Function.Injective twoIds := by
  have hall : ∀ i j, twoIds i = twoIds j → i = j := by decide
  exact fun i j => hall i j

theorem twoIds_ne_zero : ∀ i, twoIds i ≠ 0 := by decide

theorem twoOutside_initial : twoOutside.Initial := ⟨rfl, fun _ => rfl⟩

/-- A thread takes the lock, and the other one fails at its first attempt. -/
def contended : List Bool :=
  [false, false, false, true, true, true, true, true, true, false, false, false]

theorem contended_excludes :
    ((contended.foldl (next twoIds) twoOutside).thread true).Inside ∧
      (contended.foldl (next twoIds) twoOutside).Excludes twoIds := by
  have hsteps : Transition.EachStep (step twoIds) NoStaleMatch twoOutside contended := by decide
  exact ⟨by decide, spinlock_excludes twoIds_injective twoIds_ne_zero twoOutside_initial hsteps rfl⟩

/-- The first thread fails while the second has the lock, tries again, and once more finds the
lock word changed between its two looks at it: this time to what it has in `eax`. -/
def stolen : List Bool :=
  [false, false, false, false] ++ List.replicate 6 true ++ [false, false, false, false] ++
    List.replicate 5 true ++ [false, false, false] ++ List.replicate 5 true ++ [false, false]

theorem stale_eax_steals :
    ¬ ∀ (ids : Bool → Word), Function.Injective ids → (∀ i, ids i ≠ 0) →
      ∀ s s' : Spin Bool, s.Initial → ∀ order, Transition.run (step ids) s order = some s' →
        s'.Excludes ids := by
  intro h
  have hex := h twoIds twoIds_injective twoIds_ne_zero twoOutside
    (stolen.foldl (next twoIds) twoOutside) twoOutside_initial stolen rfl
  have hone := hex.one false true (by decide) (by decide)
  exact Bool.false_ne_true hone

end Spin
end Spinlock
end Tysos
