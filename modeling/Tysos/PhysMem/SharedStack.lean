import Tysos.PhysMem.Pool
import Tysos.Sync.Lockable

/-!
# The stack of free pages among threads

`PopPage` and `PushPage` of any number of threads, one access to memory at a time, with `Lock`
and `Unlock` as single steps. `BeginPop` looks at the top before it has the lock, `EndPop` makes
the word at address 0 the top where there was nothing to pop, and `PushPage` takes the lock with
the id 1, whichever thread it is.
-/

namespace Tysos
open ByteMemory
set_option autoImplicit false

/-- What a thread does next. -/
inductive StackPc where
  | outside
  -- PopPage, from the call of Lock on
  | lock | readTop | readLink (p : PhysAddr) | setTop (p next : PhysAddr) | unlock (p : PhysAddr)
  -- EndPop of the 0 that BeginPop returned, before Lock or after it
  | readNull (locked : Bool) | setNull (locked : Bool) (next : PhysAddr)
  | unlockNull (locked : Bool)
  -- PushPage, from the call of obtain_spinlock on
  | obtain (p : PhysAddr) | linkTop (p : PhysAddr) | writeLink (p top : PhysAddr)
  | pushTop (p : PhysAddr) | release
  deriving DecidableEq

/-- Who may use a page. -/
inductive PageOwner (ι : Type) where
  | nobody
  | stack
  | clients
  | thread (i : ι)

/-- The lock, the top and the memory of a stack, and its threads. `owner` is kept for the
proofs. -/
structure SharedStack (ι : Type) where
  word : Spinlock.Word
  top : PhysAddr
  mem : Memory
  pc : ι → StackPc
  owner : PhysAddr → PageOwner ι

inductive StackTurn (ι : Type) where
  | popPage (i : ι)
  | pushPage (i : ι) (p : PhysAddr)
  /-- The next access of a thread in one of the two. -/
  | run (i : ι)
  /-- A write outside the pages on the stack and in hand. -/
  | store (a : Address) (v : BitVec 8)

def pageOf (a : Address) : PhysAddr := a - a % 4096

theorem pageOf_eq {p : PhysAddr} {a : Address} (hp : p.toNat % 4096 = 0)
    (ha : InRange p 4096 a) : pageOf a = p := by
  unfold InRange at ha
  have hlow : (a % 4096).toNat = a.toNat % 4096 := BitVec.toNat_umod
  have hp' := p.isLt
  unfold pageOf
  generalize a % 4096 = low at hlow ⊢
  bv_omega

namespace StackPc

/-- The thread has the lock. -/
def Inside : StackPc → Prop
  | .outside | .lock | .obtain _ => False
  | .readNull locked | .setNull locked _ | .unlockNull locked => locked = true
  | _ => True

instance (pc : StackPc) : Decidable pc.Inside := by
  unfold Inside
  split <;> infer_instance

/-- The page that is neither on the stack nor with the clients. -/
def hand : StackPc → Option PhysAddr
  | .unlock p | .obtain p | .linkTop p | .writeLink p _ | .pushTop p => some p
  | _ => none

/-- The id in the lock while the thread is inside. -/
def lockWord (current : Spinlock.Word) : StackPc → Spinlock.Word
  | .linkTop _ | .writeLink _ _ | .pushTop _ | .release => 1
  | _ => Lockable.lockId 0 current

/-- What the thread has read is still so. -/
def Fits (top : PhysAddr) (mem : Memory) : StackPc → Prop
  | .readLink p => top = p ∧ p ≠ 0
  | .setTop p next => top = p ∧ p ≠ 0 ∧ read32 mem p = next
  | .writeLink _ t => top = t
  | .pushTop p => read32 mem p = top
  | _ => True

/-- The word from address 0 is the top already, and `obtain_spinlock` in `PushPage` finds no other
call of `PushPage` inside. -/
def InTime (word : Spinlock.Word) (top : PhysAddr) : StackPc → Prop
  | .setNull _ next => next = top
  | .obtain _ => word ≠ 1
  | _ => True

instance (word : Spinlock.Word) (top : PhysAddr) (pc : StackPc) :
    Decidable (pc.InTime word top) := by
  unfold InTime
  split <;> infer_instance

theorem fits_of_outside {pc : StackPc} (h : ¬ pc.Inside) (top : PhysAddr) (mem : Memory) :
    pc.Fits top mem := by
  cases pc with
  | outside => trivial
  | lock => trivial
  | obtain p => trivial
  | readNull locked => trivial
  | setNull locked n => trivial
  | unlockNull locked => trivial
  | _ => exact absurd trivial h

end StackPc

namespace SharedStack
variable {ι : Type}

/-- The lock excludes. -/
structure Locking (current : ι → Spinlock.Word) (word : Spinlock.Word) (pc : ι → StackPc) :
    Prop where
  one : ∀ i j, (pc i).Inside → (pc j).Inside → i = j
  held : ∀ i, (pc i).Inside → word = (pc i).lockWord (current i)
  free : (∀ i, ¬ (pc i).Inside) → word = 0

/-- Each page of `managed` has an owner, and that is a thread exactly while the thread has it
in hand. -/
structure Hands (managed : PhysAddr → Prop) (owner : PhysAddr → PageOwner ι) (pc : ι → StackPc) :
    Prop where
  inHand : ∀ p i, owner p = .thread i ↔ (pc i).hand = some p
  owned : ∀ p, owner p ≠ .nobody ↔ managed p
  page : ∀ p, managed p → p.toNat % 4096 = 0 ∧ p ≠ 0

/-- The list from the top is intact, and has the pages that nobody else has. -/
structure Listed (managed : PhysAddr → Prop) (s : SharedStack ι) (pages : List PhysAddr) :
    Prop where
  links : Chain s.mem s.top pages
  nodup : pages.Nodup
  onStack : ∀ p, s.owner p = .stack ↔ p ∈ pages
  hands : Hands managed s.owner s.pc

structure Sound (managed : PhysAddr → Prop) (current : ι → Spinlock.Word) (s : SharedStack ι) :
    Prop where
  locking : Locking current s.word s.pc
  listed : ∃ pages, s.Listed managed pages
  fits : ∀ i, (s.pc i).Fits s.top s.mem

variable [DecidableEq ι]

def withPc (s : SharedStack ι) (i : ι) (pc : StackPc) : SharedStack ι :=
  { s with pc := Function.update s.pc i pc }

def withOwner (s : SharedStack ι) (p : PhysAddr) (o : PageOwner ι) : SharedStack ι :=
  { s with owner := Function.update s.owner p o }

/-- The next access of thread `i`. A thread that has to wait for the lock has none. -/
def access (current : ι → Spinlock.Word) (s : SharedStack ι) (i : ι) : Option (SharedStack ι) :=
  match s.pc i with
  | .outside => none
  | .lock => do
    let word ← Lockable.lock s.word 0 (current i)
    some ({ s with word := word }.withPc i .readTop)
  | .readTop => some (s.withPc i (if s.top = 0 then .readNull true else .readLink s.top))
  | .readLink p => some (s.withPc i (.setTop p (read32 s.mem p)))
  | .setTop p next =>
    some (({ s with top := next }.withPc i (.unlock p)).withOwner p (.thread i))
  | .unlock p =>
    some (({ s with word := Lockable.unlock s.word 0 (current i) }.withPc i .outside).withOwner
      p .clients)
  | .readNull locked => some (s.withPc i (.setNull locked (read32 s.mem 0)))
  | .setNull locked next => some ({ s with top := next }.withPc i (.unlockNull locked))
  | .unlockNull _ =>
    some ({ s with word := Lockable.unlock s.word 0 (current i) }.withPc i .outside)
  | .obtain p => do
    let word ← Lockable.lock s.word 1 (current i)
    some ({ s with word := word }.withPc i (.linkTop p))
  | .linkTop p => some (s.withPc i (.writeLink p s.top))
  | .writeLink p top => some ({ s with mem := write32 s.mem p top }.withPc i (.pushTop p))
  | .pushTop p => some (({ s with top := p }.withPc i .release).withOwner p .stack)
  | .release => some ({ s with word := Lockable.unlock s.word 1 (current i) }.withPc i .outside)

/-- A call begins with the tests that are made without the lock: `BeginPop` returns 0 if the stack
is empty, and `PushPage` returns if the page is 0. Clients push pages they have. -/
def step (current : ι → Spinlock.Word) (s : SharedStack ι) :
    StackTurn ι → Option (SharedStack ι)
  | .popPage i =>
    match s.pc i with
    | .outside => some (s.withPc i (if s.top = 0 then .readNull false else .lock))
    | _ => none
  | .pushPage i p =>
    match s.pc i, s.owner p with
    | .outside, .clients =>
      if p = 0 then some s else some ((s.withPc i (.obtain p)).withOwner p (.thread i))
    | _, _ => none
  | .run i => s.access current i
  | .store a v =>
    match s.owner (pageOf a) with
    | .nobody | .clients => some { s with mem := Function.update s.mem a v }
    | .stack | .thread _ => none

def InTime (s : SharedStack ι) : StackTurn ι → Prop
  | .run i => (s.pc i).InTime s.word s.top
  | _ => True

instance InTime.decidable (s : SharedStack ι) : ∀ turn, Decidable (s.InTime turn)
  | .run i => inferInstanceAs (Decidable ((s.pc i).InTime s.word s.top))
  | .popPage _ | .pushPage _ _ | .store _ _ => isTrue trivial

section Locks
omit [DecidableEq ι]
variable {current : ι → Spinlock.Word} {word : Spinlock.Word} {pc : ι → StackPc}

theorem lockWord_eq (c : Spinlock.Word) (pc : StackPc) :
    pc.lockWord c = 1 ∨ pc.lockWord c = Lockable.lockId 0 c := by
  cases pc with
  | linkTop p => exact Or.inl rfl
  | writeLink p top => exact Or.inl rfl
  | pushTop p => exact Or.inl rfl
  | release => exact Or.inl rfl
  | _ => exact Or.inr rfl

theorem lockWord_ne_zero (c : Spinlock.Word) (pc : StackPc) : pc.lockWord c ≠ 0 := by
  rcases lockWord_eq c pc with hone | hid
  · rw [hone]
    decide
  · rw [hid]
    exact Lockable.lockId_ne_zero 0 c

theorem Locking.outside_of_free (h : Locking current word pc) (hword : word = 0) (i : ι) :
    ¬ (pc i).Inside :=
  fun hi => lockWord_ne_zero (current i) (pc i) ((h.held i hi).symm.trans hword)

theorem Locking.unlock_inside (h : Locking current word pc) {i : ι} (hi : (pc i).Inside)
    {threadId : Spinlock.Word}
    (hid : (pc i).lockWord (current i) = Lockable.lockId threadId (current i)) :
    Lockable.unlock word threadId (current i) = 0 := if_pos ((h.held i hi).trans hid)

/-- The id of a thread is not in the lock while that thread is outside. -/
theorem Locking.free_of_own (h : Locking current word pc)
    (hinj : Function.Injective fun i => Lockable.lockId 0 (current i))
    (hone : ∀ i, Lockable.lockId 0 (current i) ≠ 1) {i : ι} (hi : ¬ (pc i).Inside)
    (hword : word = 0 ∨ word = Lockable.lockId 0 (current i)) : word = 0 := by
  cases hword with
  | inl hzero => exact hzero
  | inr hid =>
    apply h.free
    intro j hj
    have hheld := h.held j hj
    rw [hid] at hheld
    rcases lockWord_eq (current j) (pc j) with hword | hword
    · exact hone i (hheld.trans hword)
    · exact hi (hinj (hheld.trans hword) ▸ hj)

end Locks

section Updates
variable {current : ι → Spinlock.Word} {word : Spinlock.Word} {pc : ι → StackPc} {i : ι}
  {next : StackPc}

theorem inside_update (hin : next.Inside ↔ (pc i).Inside) (j : ι) :
    (Function.update pc i next j).Inside ↔ (pc j).Inside := by
  by_cases hj : j = i
  · subst hj
    rw [Function.update_self]
    exact hin
  · rw [Function.update_of_ne hj]

/-- The thread stays inside, or outside. -/
theorem Locking.stay (h : Locking current word pc) (hin : next.Inside ↔ (pc i).Inside)
    (hword : next.lockWord (current i) = (pc i).lockWord (current i)) :
    Locking current word (Function.update pc i next) := by
  constructor
  · intro j k hj hk
    exact h.one j k ((inside_update hin j).mp hj) ((inside_update hin k).mp hk)
  · intro j hj
    rw [h.held j ((inside_update hin j).mp hj)]
    by_cases hji : j = i
    · subst hji
      rw [Function.update_self, hword]
    · rw [Function.update_of_ne hji]
  · intro hnone
    exact h.free fun j hj => hnone j ((inside_update hin j).mpr hj)

/-- The thread gets the free lock. -/
theorem Locking.acquire (h : Locking current word pc) (hzero : word = 0) (hin : next.Inside) :
    Locking current (next.lockWord (current i)) (Function.update pc i next) := by
  have honly : ∀ j, (Function.update pc i next j).Inside → j = i := by
    intro j hj
    by_contra hne
    rw [Function.update_of_ne hne] at hj
    exact h.outside_of_free hzero j hj
  constructor
  · intro j k hj hk
    rw [honly j hj, honly k hk]
  · intro j hj
    obtain rfl := honly j hj
    rw [Function.update_self]
  · intro hnone
    have hself := hnone i
    rw [Function.update_self] at hself
    exact absurd hin hself

/-- The thread inside gives the lock back. -/
theorem Locking.release (h : Locking current word pc) (hi : (pc i).Inside)
    (hout : ¬ next.Inside) : Locking current 0 (Function.update pc i next) := by
  have hnone : ∀ j, ¬ (Function.update pc i next j).Inside := by
    intro j hj
    by_cases hji : j = i
    · subst hji
      rw [Function.update_self] at hj
      exact hout hj
    · rw [Function.update_of_ne hji] at hj
      exact hji (h.one j i hj hi)
  exact ⟨fun j _ hj => absurd hj (hnone j), fun j hj => absurd hj (hnone j), fun _ => rfl⟩

end Updates

section Pages
variable {managed : PhysAddr → Prop} {owner : PhysAddr → PageOwner ι} {pc : ι → StackPc} {i : ι}
  {next : StackPc} {p : PhysAddr} {o : PageOwner ι} {pages : List PhysAddr}

theorem Hands.stay (h : Hands managed owner pc) (hhand : next.hand = (pc i).hand) :
    Hands managed owner (Function.update pc i next) := by
  refine ⟨fun q j => ?_, h.owned, h.page⟩
  by_cases hj : j = i
  · subst hj
    rw [Function.update_self, hhand]
    exact h.inHand q j
  · rw [Function.update_of_ne hj]
    exact h.inHand q j

omit [DecidableEq ι] in
theorem Hands.owned_update (h : Hands managed owner pc) (hp : owner p ≠ .nobody)
    (ho : o ≠ .nobody) (q : PhysAddr) : Function.update owner p o q ≠ .nobody ↔ managed q := by
  by_cases hqp : q = p
  · subst hqp
    rw [Function.update_self]
    exact iff_of_true ho ((h.owned q).mp hp)
  · rw [Function.update_of_ne hqp]
    exact h.owned q

omit [DecidableEq ι] in
theorem Hands.page_of_owner (h : Hands managed owner pc) (hp : owner p ≠ .nobody) :
    p.toNat % 4096 = 0 ∧ p ≠ 0 := h.page p ((h.owned p).mp hp)

/-- The thread takes a page that no thread has. -/
theorem Hands.take (h : Hands managed owner pc) (hp : owner p ≠ .nobody)
    (hout : ∀ j, owner p ≠ .thread j) (hnone : (pc i).hand = none) (hnext : next.hand = some p) :
    Hands managed (Function.update owner p (.thread i)) (Function.update pc i next) := by
  refine ⟨fun q j => ?_, h.owned_update hp (by simp), h.page⟩
  by_cases hqp : q = p
  · subst hqp
    rw [Function.update_self]
    by_cases hj : j = i
    · subst hj
      rw [Function.update_self]
      exact iff_of_true rfl hnext
    · rw [Function.update_of_ne hj, ← h.inHand]
      refine iff_of_false (fun heq => hj ?_) (hout j)
      injection heq with hij
      exact hij.symm
  · rw [Function.update_of_ne hqp]
    by_cases hj : j = i
    · subst hj
      rw [Function.update_self, h.inHand, hnone, hnext]
      refine iff_of_false (Option.some_ne_none q).symm fun heq => hqp ?_
      exact (Option.some.inj heq).symm
    · rw [Function.update_of_ne hj]
      exact h.inHand q j

/-- The thread gives its page to the clients or to the stack. -/
theorem Hands.give (h : Hands managed owner pc) (hhand : (pc i).hand = some p)
    (hnext : next.hand = none) (ho : ∀ j, o ≠ .thread j) (hsome : o ≠ .nobody) :
    Hands managed (Function.update owner p o) (Function.update pc i next) := by
  have howner := (h.inHand p i).mpr hhand
  have hp : owner p ≠ .nobody := by
    rw [howner]
    simp
  refine ⟨fun q j => ?_, h.owned_update hp hsome, h.page⟩
  by_cases hj : j = i
  · subst hj
    rw [Function.update_self, hnext]
    refine iff_of_false (fun heq => ?_) (Option.some_ne_none q).symm
    by_cases hqp : q = p
    · subst hqp
      rw [Function.update_self] at heq
      exact ho j heq
    · rw [Function.update_of_ne hqp, h.inHand, hhand] at heq
      exact hqp (Option.some.inj heq).symm
  · rw [Function.update_of_ne hj]
    by_cases hqp : q = p
    · subst hqp
      rw [Function.update_self, ← h.inHand, howner]
      refine iff_of_false (ho j) fun heq => ?_
      injection heq with hij
      exact hj hij.symm
    · rw [Function.update_of_ne hqp]
      exact h.inHand q j

omit [DecidableEq ι] in
theorem onStack_update (h : ∀ q, owner q = .stack ↔ q ∈ pages) (hp : p ∉ pages)
    (ho : o ≠ .stack) (q : PhysAddr) : Function.update owner p o q = .stack ↔ q ∈ pages := by
  by_cases hqp : q = p
  · subst hqp
    rw [Function.update_self]
    exact iff_of_false ho hp
  · rw [Function.update_of_ne hqp]
    exact h q

omit [DecidableEq ι] in
theorem onStack_push (h : ∀ q, owner q = .stack ↔ q ∈ pages) (q : PhysAddr) :
    Function.update owner p .stack q = .stack ↔ q ∈ p :: pages := by
  by_cases hqp : q = p
  · subst hqp
    rw [Function.update_self]
    exact iff_of_true rfl List.mem_cons_self
  · rw [Function.update_of_ne hqp, h q, List.mem_cons]
    exact ⟨Or.inr, fun hq => hq.resolve_left hqp⟩

omit [DecidableEq ι] in
theorem onStack_pop (h : ∀ q, owner q = .stack ↔ q ∈ p :: pages) (hnodup : (p :: pages).Nodup)
    (ho : o ≠ .stack) (q : PhysAddr) : Function.update owner p o q = .stack ↔ q ∈ pages := by
  have hout := (List.nodup_cons.mp hnodup).1
  by_cases hqp : q = p
  · subst hqp
    rw [Function.update_self]
    exact iff_of_false ho hout
  · rw [Function.update_of_ne hqp, h q, List.mem_cons]
    exact ⟨fun hq => hq.resolve_left hqp, Or.inr⟩

end Pages

section Steps
variable {managed : PhysAddr → Prop} {current : ι → Spinlock.Word} {s s' : SharedStack ι} {i : ι}
  {next : StackPc} {pages : List PhysAddr}

theorem fits_stay {pc : ι → StackPc} {top : PhysAddr} {mem : Memory}
    (h : ∀ j, (pc j).Fits top mem) (hnext : next.Fits top mem) (j : ι) :
    (Function.update pc i next j).Fits top mem := by
  by_cases hj : j = i
  · subst hj
    rw [Function.update_self]
    exact hnext
  · rw [Function.update_of_ne hj]
    exact h j

/-- The thread inside may change what the others have no part in. -/
theorem Locking.fits (h : Locking current s.word s.pc) (hi : (s.pc i).Inside) {top : PhysAddr}
    {mem : Memory} (hnext : next.Fits top mem) (j : ι) :
    (Function.update s.pc i next j).Fits top mem := by
  by_cases hj : j = i
  · subst hj
    rw [Function.update_self]
    exact hnext
  · rw [Function.update_of_ne hj]
    exact StackPc.fits_of_outside (fun hin => hj (h.one j i hin hi)) top mem

omit [DecidableEq ι] in
theorem Listed.first (h : s.Listed managed pages) {p : PhysAddr} (htop : s.top = p) (hne : p ≠ 0) :
    ∃ rest, pages = p :: rest ∧ Chain s.mem (read32 s.mem p) rest := by
  have hlinks := h.links
  cases pages with
  | nil => exact absurd (htop.symm.trans hlinks) hne
  | cons q rest =>
    obtain ⟨htop', -, hrest⟩ := hlinks
    obtain rfl := htop.symm.trans htop'
    exact ⟨rest, rfl, hrest⟩

omit [DecidableEq ι] in
theorem Listed.not_mem_of_hand (h : s.Listed managed pages) {p : PhysAddr}
    (hp : (s.pc i).hand = some p) : p ∉ pages := by
  intro hin
  have hstack := (h.onStack p).mpr hin
  rw [(h.hands.inHand p i).mpr hp] at hstack
  simp at hstack

/-- A step that only reads. -/
theorem Sound.stay (h : s.Sound managed current) (hin : next.Inside ↔ (s.pc i).Inside)
    (hword : next.lockWord (current i) = (s.pc i).lockWord (current i))
    (hhand : next.hand = (s.pc i).hand) (hfits : next.Fits s.top s.mem) :
    (s.withPc i next).Sound managed current := by
  obtain ⟨pages, hl⟩ := h.listed
  exact ⟨h.locking.stay hin hword,
    ⟨pages, hl.links, hl.nodup, hl.onStack, hl.hands.stay hhand⟩, fits_stay h.fits hfits⟩

/-- `Lock` or `obtain_spinlock` with the lock free. -/
theorem Sound.acquire (h : s.Sound managed current) (next : StackPc) (hzero : s.word = 0)
    (hin : next.Inside) (hhand : next.hand = (s.pc i).hand) (hfits : next.Fits s.top s.mem) :
    ({ s with word := next.lockWord (current i) }.withPc i next).Sound managed current := by
  obtain ⟨pages, hl⟩ := h.listed
  exact ⟨h.locking.acquire hzero hin,
    ⟨pages, hl.links, hl.nodup, hl.onStack, hl.hands.stay hhand⟩, fits_stay h.fits hfits⟩

theorem Sound.lock (hinj : Function.Injective fun i => Lockable.lockId 0 (current i))
    (hone : ∀ i, Lockable.lockId 0 (current i) ≠ 1) (h : s.Sound managed current)
    (hpc : s.pc i = .lock) (hs : ((Lockable.lock s.word 0 (current i)).bind fun word =>
      some ({ s with word := word }.withPc i .readTop)) = some s') : s'.Sound managed current := by
  obtain ⟨word, hlock, hs⟩ := Option.bind_eq_some_iff.mp hs
  obtain rfl := Option.some.inj hs
  obtain ⟨hword, hid⟩ := Option.ite_none_right_eq_some.mp hlock
  obtain rfl := Option.some.inj hid
  have hout : ¬ (s.pc i).Inside := by rw [hpc]; exact not_false
  have hzero := h.locking.free_of_own hinj hone hout hword
  refine h.acquire .readTop hzero trivial ?_ trivial
  rw [hpc]
  rfl

/-- `PushPage` has to wait for the lock, unless another call of it is inside. -/
theorem Sound.obtain (h : s.Sound managed current) {p : PhysAddr} (hpc : s.pc i = .obtain p)
    (hone : s.word ≠ 1) (hs : ((Lockable.lock s.word 1 (current i)).bind fun word =>
      some ({ s with word := word }.withPc i (.linkTop p))) = some s') :
    s'.Sound managed current := by
  obtain ⟨word, hlock, hs⟩ := Option.bind_eq_some_iff.mp hs
  obtain rfl := Option.some.inj hs
  obtain ⟨hword, hid⟩ := Option.ite_none_right_eq_some.mp hlock
  obtain rfl := Option.some.inj hid
  refine h.acquire (.linkTop p) (hword.resolve_right hone) trivial ?_ trivial
  rw [hpc]
  rfl

theorem Sound.readTop (h : s.Sound managed current) (hpc : s.pc i = .readTop) :
    (s.withPc i (if s.top = 0 then .readNull true else .readLink s.top)).Sound managed current := by
  split
  · refine h.stay ?_ ?_ ?_ trivial
    · rw [hpc]
      exact iff_of_true rfl trivial
    · rw [hpc]
      rfl
    · rw [hpc]
      rfl
  · rename_i htop
    refine h.stay ?_ ?_ ?_ ⟨rfl, htop⟩ <;> rw [hpc] <;> rfl

theorem Sound.setTop (h : s.Sound managed current) {p n : PhysAddr} (hpc : s.pc i = .setTop p n) :
    (({ s with top := n }.withPc i (.unlock p)).withOwner p (.thread i)).Sound managed current := by
  obtain ⟨pages, hl⟩ := h.listed
  have hin : (s.pc i).Inside := by rw [hpc]; trivial
  have hfits := h.fits i
  rw [hpc] at hfits
  obtain ⟨htop, hne, hread⟩ := hfits
  obtain ⟨rest, rfl, hrest⟩ := hl.first htop hne
  rw [hread] at hrest
  have howner := (hl.onStack p).mpr List.mem_cons_self
  refine ⟨h.locking.stay ?_ ?_, ⟨rest, hrest, hl.nodup.of_cons, ?_, ?_⟩, ?_⟩
  · exact iff_of_true trivial hin
  · rw [hpc]
    rfl
  · exact onStack_pop hl.onStack hl.nodup (by simp)
  · refine hl.hands.take ?_ ?_ ?_ rfl
    · simp [howner]
    · simp [howner]
    · show (s.pc i).hand = none
      rw [hpc]
      rfl
  · exact h.locking.fits hin trivial

theorem Sound.unlock (h : s.Sound managed current) {p : PhysAddr} (hpc : s.pc i = .unlock p) :
    (({ s with word := Lockable.unlock s.word 0 (current i) }.withPc i .outside).withOwner
      p .clients).Sound managed current := by
  obtain ⟨pages, hl⟩ := h.listed
  have hin : (s.pc i).Inside := by rw [hpc]; trivial
  have hhand : (s.pc i).hand = some p := by rw [hpc]; rfl
  have hfree : Lockable.unlock s.word 0 (current i) = 0 :=
    h.locking.unlock_inside hin (by rw [hpc]; rfl)
  refine ⟨?_, ⟨pages, hl.links, hl.nodup, ?_, ?_⟩, h.locking.fits hin trivial⟩
  · dsimp only [withPc, withOwner]
    rw [hfree]
    exact h.locking.release hin not_false
  · exact onStack_update hl.onStack (hl.not_mem_of_hand hhand) (by simp)
  · exact hl.hands.give hhand rfl (by simp) (by simp)

theorem Sound.writeLink (h : s.Sound managed current) {p t : PhysAddr}
    (hpc : s.pc i = .writeLink p t) :
    ({ s with mem := write32 s.mem p t }.withPc i (.pushTop p)).Sound managed current := by
  obtain ⟨pages, hl⟩ := h.listed
  have hin : (s.pc i).Inside := by rw [hpc]; trivial
  have hhand : (s.pc i).hand = some p := by rw [hpc]; rfl
  have hfits := h.fits i
  rw [hpc] at hfits
  have htop : s.top = t := hfits
  have hout := hl.not_mem_of_hand hhand
  have howner := (hl.hands.inHand p i).mpr hhand
  refine ⟨h.locking.stay ?_ ?_, ⟨pages, hl.links.congr ?_, hl.nodup, hl.onStack, ?_⟩, ?_⟩
  · exact iff_of_true trivial hin
  · rw [hpc]
    rfl
  · intro q hq
    have hqp : q ≠ p := fun heq => hout (heq ▸ hq)
    have hpage := hl.hands.page_of_owner (p := p) (by simp [howner])
    have hpage' := hl.hands.page_of_owner (p := q) (by simp [(hl.onStack q).mpr hq])
    apply read32_write32_of_clear
    exact (PhysMemAllocator.clear_pages hpage'.1 hpage.1 hqp).mono (by decide) (by decide)
  · refine hl.hands.stay ?_
    rw [hhand]
    rfl
  · refine h.locking.fits hin ?_
    show read32 (write32 s.mem p t) p = s.top
    rw [read32_write32_self, htop]

theorem Sound.pushTop (h : s.Sound managed current) {p : PhysAddr} (hpc : s.pc i = .pushTop p) :
    (({ s with top := p }.withPc i .release).withOwner p .stack).Sound managed current := by
  obtain ⟨pages, hl⟩ := h.listed
  have hin : (s.pc i).Inside := by rw [hpc]; trivial
  have hhand : (s.pc i).hand = some p := by rw [hpc]; rfl
  have hfits := h.fits i
  rw [hpc] at hfits
  have hread : read32 s.mem p = s.top := hfits
  have hout := hl.not_mem_of_hand hhand
  have howner := (hl.hands.inHand p i).mpr hhand
  have hpage := hl.hands.page_of_owner (p := p) (by simp [howner])
  refine ⟨h.locking.stay ?_ ?_, ⟨p :: pages, ⟨rfl, hpage.2, ?_⟩, ?_, ?_, ?_⟩, ?_⟩
  · exact iff_of_true trivial hin
  · rw [hpc]
    rfl
  · show Chain s.mem (read32 s.mem p) pages
    rw [hread]
    exact hl.links
  · exact List.nodup_cons.mpr ⟨hout, hl.nodup⟩
  · exact onStack_push hl.onStack
  · exact hl.hands.give hhand rfl (by simp) (by simp)
  · exact h.locking.fits hin trivial

/-- The thread inside goes, with no page in hand. -/
theorem Sound.leave (h : s.Sound managed current) (hin : (s.pc i).Inside)
    (hhand : (s.pc i).hand = none) :
    ({ s with word := 0 }.withPc i .outside).Sound managed current := by
  obtain ⟨pages, hl⟩ := h.listed
  refine ⟨h.locking.release hin not_false, ⟨pages, hl.links, hl.nodup, hl.onStack, ?_⟩, ?_⟩
  · apply hl.hands.stay
    rw [hhand]
    rfl
  · exact h.locking.fits hin trivial

theorem Sound.release (h : s.Sound managed current) (hpc : s.pc i = .release) :
    ({ s with word := Lockable.unlock s.word 1 (current i) }.withPc i .outside).Sound
      managed current := by
  have hin : (s.pc i).Inside := by rw [hpc]; trivial
  have hfree : Lockable.unlock s.word 1 (current i) = 0 :=
    h.locking.unlock_inside hin (by rw [hpc]; rfl)
  rw [hfree]
  refine h.leave hin ?_
  rw [hpc]
  rfl

theorem Sound.unlockNull (hinj : Function.Injective fun i => Lockable.lockId 0 (current i))
    (hone : ∀ i, Lockable.lockId 0 (current i) ≠ 1) (h : s.Sound managed current)
    {locked : Bool} (hpc : s.pc i = .unlockNull locked) :
    ({ s with word := Lockable.unlock s.word 0 (current i) }.withPc i .outside).Sound
      managed current := by
  have hhand : (s.pc i).hand = none := by rw [hpc]; rfl
  cases locked with
  | true =>
    have hin : (s.pc i).Inside := by rw [hpc]; rfl
    have hfree : Lockable.unlock s.word 0 (current i) = 0 :=
      h.locking.unlock_inside hin (by rw [hpc]; rfl)
    rw [hfree]
    exact h.leave hin hhand
  | false =>
    -- the lock is another thread's, or free, and stays so
    have hout : ¬ (s.pc i).Inside := by rw [hpc]; exact Bool.false_ne_true
    have hother : s.word ≠ Lockable.lockId 0 (current i) := by
      intro hid
      have hzero := h.locking.free_of_own hinj hone hout (Or.inr hid)
      exact Lockable.lockId_ne_zero 0 (current i) (hid.symm.trans hzero)
    have hsame : Lockable.unlock s.word 0 (current i) = s.word := if_neg hother
    rw [hsame]
    refine h.stay (iff_of_false not_false hout) ?_ hhand.symm trivial
    rw [hpc]
    rfl

/-- One access, case by case. -/
theorem Sound.access (hinj : Function.Injective fun i => Lockable.lockId 0 (current i))
    (hone : ∀ i, Lockable.lockId 0 (current i) ≠ 1) (h : s.Sound managed current)
    (htime : (s.pc i).InTime s.word s.top) (hs : s.access current i = some s') :
    s'.Sound managed current := by
  have hfits := h.fits i
  unfold SharedStack.access at hs
  cases hpc : s.pc i with
  | outside => simp [hpc] at hs
  | lock =>
    simp only [hpc] at hs
    exact h.lock hinj hone hpc hs
  | readTop =>
    simp only [hpc] at hs
    obtain rfl := Option.some.inj hs
    exact h.readTop hpc
  | readLink p =>
    simp only [hpc] at hs
    obtain rfl := Option.some.inj hs
    rw [hpc] at hfits
    refine h.stay ?_ ?_ ?_ ⟨hfits.1, hfits.2, rfl⟩ <;> rw [hpc] <;> rfl
  | setTop p n =>
    simp only [hpc] at hs
    obtain rfl := Option.some.inj hs
    exact h.setTop hpc
  | unlock p =>
    simp only [hpc] at hs
    obtain rfl := Option.some.inj hs
    exact h.unlock hpc
  | readNull locked =>
    simp only [hpc] at hs
    obtain rfl := Option.some.inj hs
    refine h.stay ?_ ?_ ?_ trivial <;> rw [hpc] <;> rfl
  | setNull locked n =>
    simp only [hpc] at hs
    rw [hpc] at htime
    obtain rfl : n = s.top := htime
    obtain rfl := Option.some.inj hs
    refine h.stay ?_ ?_ ?_ trivial <;> rw [hpc] <;> rfl
  | unlockNull locked =>
    simp only [hpc] at hs
    obtain rfl := Option.some.inj hs
    exact h.unlockNull hinj hone hpc
  | obtain p =>
    simp only [hpc] at hs
    rw [hpc] at htime
    exact h.obtain hpc htime hs
  | linkTop p =>
    simp only [hpc] at hs
    obtain rfl := Option.some.inj hs
    refine h.stay ?_ ?_ ?_ rfl <;> rw [hpc] <;> rfl
  | writeLink p t =>
    simp only [hpc] at hs
    obtain rfl := Option.some.inj hs
    exact h.writeLink hpc
  | pushTop p =>
    simp only [hpc] at hs
    obtain rfl := Option.some.inj hs
    exact h.pushTop hpc
  | release =>
    simp only [hpc] at hs
    obtain rfl := Option.some.inj hs
    exact h.release hpc

theorem Sound.popPage (h : s.Sound managed current) (hs : s.step current (.popPage i) = some s') :
    s'.Sound managed current := by
  unfold SharedStack.step at hs
  cases hpc : s.pc i with
  | outside =>
    simp only [hpc] at hs
    obtain rfl := Option.some.inj hs
    split
    · refine h.stay ?_ ?_ ?_ trivial
      · rw [hpc]
        exact iff_of_false Bool.false_ne_true not_false
      · rw [hpc]
        rfl
      · rw [hpc]
        rfl
    · refine h.stay ?_ ?_ ?_ trivial <;> rw [hpc] <;> rfl
  | _ => simp [hpc] at hs

theorem Sound.pushPage (h : s.Sound managed current) {p : PhysAddr}
    (hs : s.step current (.pushPage i p) = some s') : s'.Sound managed current := by
  unfold SharedStack.step at hs
  cases hpc : s.pc i with
  | outside =>
    cases howner : s.owner p with
    | clients =>
      simp only [hpc, howner] at hs
      split at hs
      · obtain rfl := Option.some.inj hs
        exact h
      · obtain rfl := Option.some.inj hs
        obtain ⟨pages, hl⟩ := h.listed
        have hout : p ∉ pages := by simp [← hl.onStack, howner]
        refine ⟨h.locking.stay ?_ ?_, ⟨pages, hl.links, hl.nodup, ?_, ?_⟩, ?_⟩
        · rw [hpc]
          rfl
        · rw [hpc]
          rfl
        · exact onStack_update hl.onStack hout (by simp)
        · refine hl.hands.take ?_ ?_ ?_ rfl
          · simp [howner]
          · simp [howner]
          · rw [hpc]
            rfl
        · exact fits_stay h.fits trivial
    | _ => simp [hpc, howner] at hs
  | _ => simp [hpc] at hs

theorem read_store {p : PhysAddr} {a : Address} (hp : p.toNat % 4096 = 0) (hne : pageOf a ≠ p)
    (m : Memory) (v : BitVec 8) : read32 (Function.update m a v) p = read32 m p := by
  refine read32_congr fun x hx => ?_
  have hxa : x ≠ a := by
    rintro rfl
    exact hne (pageOf_eq hp (Nat.lt_of_lt_of_le hx (by decide)))
  rw [Function.update_of_ne hxa]

omit [DecidableEq ι] in
theorem Sound.store_outside (h : s.Sound managed current) {a : Address}
    (hstack : s.owner (pageOf a) ≠ .stack) (hthread : ∀ i, s.owner (pageOf a) ≠ .thread i)
    (v : BitVec 8) : ({ s with mem := Function.update s.mem a v }).Sound managed current := by
  obtain ⟨pages, hl⟩ := h.listed
  have hlisted : ∀ q ∈ pages, read32 (Function.update s.mem a v) q = read32 s.mem q := by
    intro q hq
    have hq' := (hl.onStack q).mpr hq
    have hpage := hl.hands.page_of_owner (p := q) (by simp [hq'])
    exact read_store hpage.1 (fun heq => hstack (heq ▸ hq')) s.mem v
  refine ⟨h.locking, ⟨pages, hl.links.congr hlisted, hl.nodup, hl.onStack, hl.hands⟩, ?_⟩
  intro i
  have hfits := h.fits i
  cases hpc : s.pc i with
  | setTop q n =>
    rw [hpc] at hfits
    obtain ⟨htop, hne, hread⟩ := hfits
    obtain ⟨rest, rfl, -⟩ := hl.first htop hne
    exact ⟨htop, hne, (hlisted q List.mem_cons_self).trans hread⟩
  | pushTop q =>
    rw [hpc] at hfits
    have hhand : (s.pc i).hand = some q := by rw [hpc]; rfl
    have hq := (hl.hands.inHand q i).mpr hhand
    have hpage := hl.hands.page_of_owner (p := q) (by simp [hq])
    have hsame : read32 (Function.update s.mem a v) q = read32 s.mem q :=
      read_store hpage.1 (fun heq => hthread i (heq ▸ hq)) s.mem v
    exact hsame.trans hfits
  | _ =>
    rw [hpc] at hfits
    exact hfits

theorem Sound.store (h : s.Sound managed current) {a : Address} {v : BitVec 8}
    (hs : s.step current (.store a v) = some s') : s'.Sound managed current := by
  unfold SharedStack.step at hs
  cases howner : s.owner (pageOf a) with
  | nobody =>
    simp only [howner] at hs
    obtain rfl := Option.some.inj hs
    exact h.store_outside (by simp [howner]) (by simp [howner]) v
  | clients =>
    simp only [howner] at hs
    obtain rfl := Option.some.inj hs
    exact h.store_outside (by simp [howner]) (by simp [howner]) v
  | stack => simp [howner] at hs
  | thread j => simp [howner] at hs

/-- A step taken in time keeps everything in place. -/
theorem Sound.step (hinj : Function.Injective fun i => Lockable.lockId 0 (current i))
    (hone : ∀ i, Lockable.lockId 0 (current i) ≠ 1) (h : s.Sound managed current)
    {turn : StackTurn ι} (htime : s.InTime turn) (hs : s.step current turn = some s') :
    s'.Sound managed current := by
  cases turn with
  | popPage i => exact h.popPage hs
  | pushPage i p => exact h.pushPage hs
  | run i => exact h.access hinj hone htime hs
  | store a v => exact h.store hs

/-- A step that is not in time puts something out of place at once. -/
theorem Sound.inTime (h : s.Sound managed current) {turn : StackTurn ι}
    (hnext : ∀ s', s.step current turn = some s' → s'.Sound managed current) :
    s.InTime turn := by
  cases turn with
  | run i =>
    have hrun : s.step current (.run i) = s.access current i := rfl
    rw [hrun] at hnext
    unfold SharedStack.access at hnext
    show (s.pc i).InTime s.word s.top
    cases hpc : s.pc i with
    | setNull locked n =>
      simp only [hpc] at hnext
      obtain ⟨pages, hl⟩ := h.listed
      obtain ⟨pages', hl'⟩ := (hnext _ rfl).listed
      refine hl'.links.top_eq hl.links hl'.nodup hl.nodup fun q => ?_
      exact (hl'.onStack q).symm.trans (hl.onStack q)
    | obtain p =>
      simp only [hpc] at hnext
      intro hword
      have hlock : Lockable.lock s.word 1 (current i) = some (Lockable.lockId 1 (current i)) :=
        if_pos (Or.inr hword)
      rw [hlock] at hnext
      have hex : ∃ j, (s.pc j).Inside := by
        by_contra hnone
        have hzero := h.locking.free fun j hj => hnone ⟨j, hj⟩
        rw [hzero] at hword
        exact absurd hword (by decide)
      obtain ⟨j, hj⟩ := hex
      have hji : j ≠ i := by
        rintro rfl
        rw [hpc] at hj
        exact hj
      refine hji ((hnext _ rfl).locking.one j i ?_ ?_)
      · simp only [withPc, Function.update_of_ne hji]
        exact hj
      · simp only [withPc, Function.update_self]
        trivial
    | _ => trivial
  | _ => trivial

/-- The lock is free, no thread is in a call, and the free pages are listed. -/
structure Initial (managed : PhysAddr → Prop) (s : SharedStack ι) : Prop where
  free : s.word = 0
  outside : ∀ i, s.pc i = .outside
  listed : ∃ pages, s.Listed managed pages

omit [DecidableEq ι] in
theorem Initial.sound (h : s.Initial managed) (current : ι → Spinlock.Word) :
    s.Sound managed current := by
  have hnone : ∀ i, ¬ (s.pc i).Inside := by
    intro i
    rw [h.outside i]
    exact not_false
  refine ⟨⟨?_, ?_, fun _ => h.free⟩, h.listed, fun i => ?_⟩
  · exact fun i _ hi => absurd hi (hnone i)
  · exact fun i hi => absurd hi (hnone i)
  · exact StackPc.fits_of_outside (hnone i) s.top s.mem

/-- In every interleaving the list stays intact, with each page in one place and at most one
thread inside, for just as long as every `EndPop` of 0 finds the top at address 0 and no two
`PushPage` are inside together. -/
theorem sound_iff (hinj : Function.Injective fun i => Lockable.lockId 0 (current i))
    (hone : ∀ i, Lockable.lockId 0 (current i) ≠ 1) (hinit : s.Initial managed)
    (turns : List (StackTurn ι)) :
    (∀ before, before <+: turns → ∀ s',
      Transition.run (SharedStack.step current) s before = some s' → s'.Sound managed current) ↔
      Transition.EachStep (SharedStack.step current) InTime s turns := by
  refine Transition.EachStep.reached_iff ?_ (fun _ h => h) ?_ (hinit.sound current)
  · exact fun s turn s' h htime hs => h.step hinj hone htime hs
  · exact fun s turn h hnext => h.inTime hnext

end Steps

/-- Two threads, with one page on the stack. -/
def onePage : SharedStack Bool where
  word := 0
  top := 0x1000000
  mem := fun _ => 0
  pc := fun _ => .outside
  owner := fun p => if p = 0x1000000 then .stack else .nobody

def twoThreads (i : Bool) : Spinlock.Word := if i then 0x2000 else 0x3000

theorem onePage_initial : onePage.Initial fun p => p = 0x1000000 := by
  refine ⟨rfl, fun _ => rfl, [0x1000000], ⟨rfl, by decide, rfl⟩, by simp, ?_, ?_, ?_, ?_⟩
  · simp [onePage]
  · intro p i
    refine iff_of_false ?_ (Option.some_ne_none p).symm
    unfold onePage
    dsimp only
    split <;> simp
  · simp [onePage]
  · rintro p rfl
    decide

/-- One thread finds the stack empty. Before it has stored the 0 that it reads, the other pushes
the page, which is lost. -/
theorem page_lost :
    ¬ ∀ before, before <+: [.popPage false, .run false, .run false, .run false, .run false,
        .run false, .popPage true, .run true, .pushPage false 0x1000000, .run false, .run false,
        .run false, .run false, .run false, .run true] →
      ∀ s', Transition.run (SharedStack.step twoThreads) onePage before = some s' →
        s'.Sound (fun p => p = 0x1000000) twoThreads := by
  have hinj : ∀ i j, Lockable.lockId 0 (twoThreads i) = Lockable.lockId 0 (twoThreads j) →
      i = j := by decide
  rw [sound_iff (fun i j => hinj i j) (by decide) onePage_initial]
  decide +kernel

end SharedStack
end Tysos
