import Tysos.Task.Switch
import Tysos.Memory.Section

/-!
# The first run of a thread

`i386_TaskSwitchInfo::Init` writes the stack of a new thread as if it had been interrupted;
the first `do_switch` to it and the `iret` of `perform_iret` then start it at its entry.
-/

namespace Tysos
open ByteMemory
set_option autoImplicit false

/-- The addresses of the code that `Init` refers to. -/
structure EntryPoints where
  performIret : Word
  exit : Word

namespace TaskSwitchInfo

/-- `&tsi->esp0` and `&tsi->esp0_top`, behind the pointer to the virtual functions. -/
def esp0At (tsi : Address) : Address := tsi + 4

def esp0TopAt (tsi : Address) : Address := tsi + 8

def userSegments : Word × Word := (0x23, 0x1b)
def kernelSegments : Word × Word := (0x10, 0x08)

/-- What is pushed for the `iret`, the `ret` to it, and the registers. -/
def irqFrame (points : EntryPoints) (entryAddress : Word) (segs : Word × Word) : List Word :=
  [Cpu.flagIF, segs.2, entryAddress, points.performIret, segs.1, segs.1, segs.1, segs.1,
    0, 0, 0, 0, 0, 0, 0, 0]

theorem irqFrame_length (points : EntryPoints) (entryAddress : Word) (segs : Word × Word)
    (ws : List Word) :
    ((irqFrame points entryAddress segs).reverse ++ ws).length = 16 + ws.length := by
  rw [List.length_append, List.length_reverse]
  rfl

def initFrame (tsi : Address) (points : EntryPoints) (entryAddress : Word) (segs : Word × Word)
    (st : Memory × Address) : Memory :=
  let st := (irqFrame points entryAddress segs).foldl pushWord st
  write32 st.1 (esp0At tsi) st.2

def init (m : Memory) (tsi : Address) (points : EntryPoints) (entryAddress : Word)
    (stack : Section) (param : Word) (kernelStack : Option Section) : Memory :=
  let st := [0, param, points.exit].foldl pushWord (m, stack.base + stack.length)
  match kernelStack with
  | some k =>
    let top := k.base + k.length
    let m := write32 st.1 (esp0TopAt tsi) top
    initFrame tsi points entryAddress userSegments
      ([userSegments.1, st.2].foldl pushWord (m, top))
  | none => initFrame tsi points entryAddress kernelSegments st

def segments (kernelStack : Option Section) : Word × Word :=
  if kernelStack.isSome then userSegments else kernelSegments

/-- The bytes that belong to the thread alone: its stacks and its `esp0`. -/
def Owns (tsi : Address) (stack : Section) (kernelStack : Option Section) (x : Address) : Prop :=
  InRange stack.base stack.length.toNat x ∨
    (∃ k ∈ kernelStack, InRange k.base k.length.toNat x) ∨ InRange (esp0At tsi) 4 x

/-- The stacks are large enough, and they and the two words of the record are apart. -/
structure Placed (tsi : Address) (stack : Section) (kernelStack : Option Section) : Prop where
  room : (if kernelStack.isSome then 12 else 76) ≤ stack.length.toNat
  kernelRoom : ∀ k ∈ kernelStack, 72 ≤ k.length.toNat
  apart : ∀ k ∈ kernelStack,
    Clear stack.base stack.length.toNat k.base k.length.toNat
  record : Clear stack.base stack.length.toNat (esp0At tsi) 8
  kernelRecord : ∀ k ∈ kernelStack, Clear k.base k.length.toNat (esp0At tsi) 8

/-- What `Init` leaves: the frame at `esp0`, and the words for the entry function at `pSt`. -/
structure Written (m : Memory) (tsi : Address) (points : EntryPoints) (entryAddress param : Word)
    (stack : Section) (kernelStack : Option Section) (esp0 pSt : Address) (ws : List Word) :
    Prop where
  saved : read32 m (esp0At tsi) = esp0
  frame : Words m esp0
    ((irqFrame points entryAddress (segments kernelStack)).reverse ++ ws)
  args : Words m pSt [points.exit, param]
  argsIn : InRange stack.base stack.length.toNat pSt
  outer : kernelStack.isSome → ws = [pSt, (segments kernelStack).1]
  inner : kernelStack = none → pSt = esp0 + 64
  short : ws.length ≤ 3
  frameOwned : ∀ x, InRange esp0 (4 * (16 + ws.length)) x → Owns tsi stack kernelStack x
  argsOwned : ∀ x, InRange pSt 8 x → Owns tsi stack kernelStack x

section Init
variable {m : Memory} {tsi : Address} {points : EntryPoints} {entryAddress param : Word}
  {stack : Section} {kernelStack : Option Section}

theorem inRange_below {base length : Word} {n : Nat} (hn : n ≤ length.toNat) {x : Address}
    (hx : InRange (base + length - BitVec.ofNat 32 n) n x) : InRange base length.toNat x := by
  unfold InRange at hx ⊢
  bv_omega

/-- The top of a stack is clear of the record of the thread. -/
theorem clear_below {base length : Word} {n : Nat} (hn : n ≤ length.toNat)
    (h : Clear base length.toNat (esp0At tsi) 8) :
    Clear (base + length - BitVec.ofNat 32 n) n (esp0At tsi) 4 := by
  intro x hx
  exact (h.mono (Nat.le_refl _) (by decide)) x (inRange_below hn hx)

theorem initFrame_spec (tsi : Address) (points : EntryPoints) (entryAddress : Word)
    (segs : Word × Word) {st : Memory × Address} {ws : List Word} (h : Words st.1 st.2 ws)
    (hlen : ws.length ≤ 3) (hclear : Clear (st.2 - 64) (4 * (16 + ws.length)) (esp0At tsi) 4) :
    read32 (initFrame tsi points entryAddress segs st) (esp0At tsi) = st.2 - 64 ∧
      Words (initFrame tsi points entryAddress segs st) (st.2 - 64)
        ((irqFrame points entryAddress segs).reverse ++ ws) ∧
      ∀ x, ¬ InRange (st.2 - 64) 64 x → ¬ InRange (esp0At tsi) 4 x →
        initFrame tsi points entryAddress segs st x = st.1 x := by
  have hpointer := pushWords_pointer st (irqFrame points entryAddress segs)
  have hwords := pushWords_words h (irqFrame points entryAddress segs) (by simp [irqFrame]; omega)
  have hcount : (irqFrame points entryAddress segs).length = 16 := rfl
  have hsum := irqFrame_length points entryAddress segs ws
  rw [hcount] at hpointer
  rw [hpointer] at hwords
  unfold initFrame
  dsimp only
  rw [hpointer]
  refine ⟨read32_write32_self _ _ _, ?_, fun x hx hx' => ?_⟩
  · refine hwords.write (by omega) ?_
    rw [hsum]
    exact hclear
  · rw [write32_of_not_inRange hx']
    apply pushWords_of_not_inRange
    · rw [hcount]
      decide
    · rw [hcount]
      exact hx

theorem pushArgs_spec (m : Memory) (top : Address) (points : EntryPoints) (param : Word) :
    ([0, param, points.exit].foldl pushWord (m, top)).2 = top - 12 ∧
      Words ([0, param, points.exit].foldl pushWord (m, top)).1 (top - 12)
        [points.exit, param, 0] := by
  have hpointer : ([0, param, points.exit].foldl pushWord (m, top)).2 = top - 12 :=
    pushWords_pointer (m, top) [0, param, points.exit]
  have hempty : Words (m, top).1 (m, top).2 [] := trivial
  have hwords := pushWords_words hempty [0, param, points.exit] (by simp)
  rw [hpointer] at hwords
  exact ⟨hpointer, hwords⟩

theorem init_kernel (m : Memory) (points : EntryPoints) (entryAddress param : Word)
    (h : Placed tsi stack none) : ∃ esp0 pSt ws,
    Written (init m tsi points entryAddress stack param none) tsi points entryAddress param stack
      none esp0 pSt ws := by
  have hroom : 76 ≤ stack.length.toNat := h.room
  obtain ⟨hpointer, hargs⟩ := pushArgs_spec m (stack.base + stack.length) points param
  have hdown : stack.base + stack.length - 12 - 64 = stack.base + stack.length - 76 := by bv_omega
  have hin : ∀ x, InRange (stack.base + stack.length - 76) 76 x →
      InRange stack.base stack.length.toNat x := fun x hx => inRange_below hroom hx
  have hargs' := hargs
  rw [← hpointer] at hargs'
  obtain ⟨hsaved, hframe, -⟩ := initFrame_spec tsi points entryAddress kernelSegments hargs'
    (Nat.le_refl 3) (by
      rw [hpointer, hdown]
      exact clear_below hroom h.record)
  rw [hpointer, hdown] at hsaved hframe
  have hup : stack.base + stack.length - 76 + 64 = stack.base + stack.length - 12 := by bv_omega
  refine ⟨_, stack.base + stack.length - 12, [points.exit, param, 0], hsaved, hframe, ?_, ?_,
    fun hsome => absurd hsome (by decide), fun _ => hup.symm, Nat.le_refl 3,
    fun x hx => Or.inl (hin x hx), fun x hx => Or.inl (hin x ?_)⟩
  · obtain ⟨-, hrest⟩ := words_append.mp hframe
    have hcount : (irqFrame points entryAddress kernelSegments).reverse.length = 16 := rfl
    have hoff : BitVec.ofNat 32 (4 * 16) = (64 : Word) := rfl
    rw [hcount, hoff, hup] at hrest
    obtain ⟨h₁, h₂, -⟩ := hrest
    exact ⟨h₁, h₂, trivial⟩
  · apply hin
    unfold InRange
    bv_omega
  · unfold InRange at hx ⊢
    bv_omega

/-- The frame on the kernel stack and the two words of the record are off the user stack. -/
theorem userStack_kept {k : Section} (h : Placed tsi stack (some k)) {segs : Word × Word}
    {m₀ : Memory} {v : Word} {st : Memory × Address} (hkroom : 72 ≤ k.length.toNat)
    (hkept : ∀ x, ¬ InRange (k.base + k.length - 72) 64 x → ¬ InRange (esp0At tsi) 4 x →
      initFrame tsi points entryAddress segs st x = st.1 x)
    (hbelow : ∀ x, ¬ InRange (k.base + k.length - 8) 8 x →
      st.1 x = write32 m₀ (esp0TopAt tsi) v x)
    {x : Address} (hx : InRange stack.base stack.length.toNat x) :
    initFrame tsi points entryAddress segs st x = m₀ x := by
  have hout : ¬ InRange (k.base + k.length - 72) 72 x :=
    fun hk => h.apart k rfl x hx (inRange_below hkroom hk)
  have hrecord := h.record x hx
  have hframe : ¬ InRange (k.base + k.length - 72) 64 x := by
    unfold InRange at hout ⊢
    omega
  have htop : ¬ InRange (k.base + k.length - 8) 8 x := by
    unfold InRange at hout ⊢
    bv_omega
  have hesp0 : ¬ InRange (esp0At tsi) 4 x := by
    unfold InRange at hrecord ⊢
    omega
  have hesp0Top : ¬ InRange (esp0TopAt tsi) 4 x := by
    unfold esp0At InRange at hrecord
    unfold esp0TopAt InRange
    bv_omega
  rw [hkept x hframe hesp0, hbelow x htop, write32_of_not_inRange hesp0Top]

theorem init_user {k : Section} (m : Memory) (points : EntryPoints) (entryAddress param : Word)
    (h : Placed tsi stack (some k)) : ∃ esp0 pSt ws,
    Written (init m tsi points entryAddress stack param (some k)) tsi points entryAddress param
      stack (some k) esp0 pSt ws := by
  have hroom : 12 ≤ stack.length.toNat := h.room
  have hkroom : 72 ≤ k.length.toNat := h.kernelRoom k rfl
  have hkrecord := h.kernelRecord k rfl
  obtain ⟨hpointer, hargs⟩ := pushArgs_spec m (stack.base + stack.length) points param
  have hin : ∀ x, InRange (stack.base + stack.length - 12) 12 x →
      InRange stack.base stack.length.toNat x := fun x hx => inRange_below hroom hx
  have hkin : ∀ x, InRange (k.base + k.length - 72) 72 x →
      InRange k.base k.length.toNat x := fun x hx => inRange_below hkroom hx
  generalize hst : [0, param, points.exit].foldl pushWord (m, stack.base + stack.length) = st
  rw [hst] at hpointer hargs
  generalize hm : write32 st.1 (esp0TopAt tsi) (k.base + k.length) = m₁
  have hframeTop : ([0x23, stack.base + stack.length - 12].foldl pushWord
      (m₁, k.base + k.length)).2 = k.base + k.length - 8 := pushWords_pointer _ _
  have hempty : Words (m₁, k.base + k.length).1 (m₁, k.base + k.length).2 [] := trivial
  have hwords := pushWords_words hempty [0x23, stack.base + stack.length - 12] (by simp)
  have hbelow : ∀ x, ¬ InRange (k.base + k.length - 8) 8 x →
      ([0x23, stack.base + stack.length - 12].foldl pushWord (m₁, k.base + k.length)).1 x =
        m₁ x := fun x hx => pushWords_of_not_inRange (by simp) hx
  generalize hst' : [0x23, stack.base + stack.length - 12].foldl pushWord
    (m₁, k.base + k.length) = st' at hframeTop hwords hbelow
  have hdown : k.base + k.length - 8 - 64 = k.base + k.length - 72 := by bv_omega
  obtain ⟨hsaved, hframe, hkept⟩ := initFrame_spec tsi points entryAddress userSegments hwords
    (by simp) (by
      rw [hframeTop, hdown]
      exact clear_below hkroom hkrecord)
  rw [hframeTop, hdown] at hsaved hframe hkept
  have hinit : init m tsi points entryAddress stack param (some k) =
      initFrame tsi points entryAddress userSegments st' := by
    unfold init
    dsimp only
    rw [hst, hm, hpointer]
    exact congrArg _ hst'
  rw [hinit]
  refine ⟨_, stack.base + stack.length - 12, [stack.base + stack.length - 12, 0x23], hsaved,
    hframe, ?_, ?_, fun _ => rfl, fun hnone => absurd hnone (by simp), by simp,
    fun x hx => Or.inr (Or.inl ⟨k, rfl, hkin x hx⟩), fun x hx => Or.inl (hin x ?_)⟩
  · have hsame : ∀ x, InRange (stack.base + stack.length - 12) 12 x →
        initFrame tsi points entryAddress userSegments st' x = st.1 x := by
      intro x hx
      rw [← hm] at hbelow
      exact userStack_kept h hkroom hkept hbelow (hin x hx)
    obtain ⟨h₁, h₂, -⟩ := hargs.congr (by simp) hsame
    exact ⟨h₁, h₂, trivial⟩
  · apply hin
    unfold InRange
    bv_omega
  · unfold InRange at hx ⊢
    bv_omega

theorem init_written (m : Memory) (points : EntryPoints) (entryAddress param : Word)
    (h : Placed tsi stack kernelStack) : ∃ esp0 pSt ws,
    Written (init m tsi points entryAddress stack param kernelStack) tsi points entryAddress param
      stack kernelStack esp0 pSt ws := by
  cases kernelStack with
  | none => exact init_kernel m points entryAddress param h
  | some k => exact init_user m points entryAddress param h

end Init

/-- The machine is about to switch to the thread: the address space it switches to shows what
`Init` wrote, and nothing that the switch itself writes for the old thread lies in what the new
one owns. -/
structure Switching (m : Cpu) (view : Word → Memory → Memory) (written : Memory) (tsi : Address)
    (stack : Section) (kernelStack : Option Section) (currentThread thread : Word) : Prop where
  ecx : m.ecx = esp0At tsi
  edi : m.edi = currentThread
  esi : m.esi = thread
  ring : m.cs &&& 3 = 0
  record : esp0At tsi ≠ 0
  nonzero : currentThread ≠ 0
  kept : ∀ x, Owns tsi stack kernelStack x → (m.loadSpace view).mem x = written x
  pushes : ∀ x, Owns tsi stack kernelStack x →
    (m.save.loadSpace view).mem x = (m.loadSpace view).mem x
  oldEsp : m.edx ≠ 0 → ∀ x, Owns tsi stack kernelStack x → ¬ InRange m.edx 4 x
  word : ∀ x, Owns tsi stack kernelStack x → ¬ InRange currentThread 4 x

/-- The thread is at its entry: the registers of a fresh thread, its arguments on its stack. -/
structure Started (m : Cpu) (points : EntryPoints) (entryAddress param : Word)
    (stack : Section) (kernelStack : Option Section) (currentThread thread : Word) : Prop where
  eip : m.eip = entryAddress
  cs : m.cs = if kernelStack.isSome then 0x1b else 0x08
  ss : kernelStack.isSome → m.ss = 0x23
  ds : m.ds = if kernelStack.isSome then 0x23 else 0x10
  es : m.es = if kernelStack.isSome then 0x23 else 0x10
  fs : m.fs = if kernelStack.isSome then 0x23 else 0x10
  gs : m.gs = if kernelStack.isSome then 0x23 else 0x10
  general : m.eax = 0 ∧ m.ecx = 0 ∧ m.edx = 0 ∧ m.ebx = 0 ∧ m.ebp = 0 ∧ m.esi = 0 ∧ m.edi = 0
  intf : m.intf = true
  current : read32 m.mem currentThread = thread
  ret : read32 m.mem m.esp = points.exit
  arg : read32 m.mem (m.esp + 4) = param
  esp : InRange stack.base stack.length.toNat m.esp

section Run
variable {m : Memory} {tsi : Address} {points : EntryPoints} {entryAddress param : Word}
  {stack : Section} {kernelStack : Option Section} {cpu : Cpu}
  {view : Word → Memory → Memory} {currentThread thread : Word}

/-- Once `cr3` is loaded, what the new thread owns is as `Init` wrote it, and the arguments of
`do_switch` are still in their registers. -/
theorem Switching.loaded (h : Switching cpu view m tsi stack kernelStack currentThread thread) :
    (∀ x, Owns tsi stack kernelStack x → (cpu.save.loadSpace view).mem x = m x) ∧
      (cpu.save.loadSpace view).ecx = esp0At tsi ∧ (cpu.save.loadSpace view).edx = cpu.edx ∧
      (cpu.save.loadSpace view).edi = currentThread ∧ (cpu.save.loadSpace view).esi = thread ∧
      (cpu.save.loadSpace view).cs = cpu.cs := by
  have hsave := cpu.pushed_save
  refine ⟨fun x hx => (h.pushes x hx).trans (h.kept x hx), ?_⟩
  rw [Cpu.loadSpace_eq]
  exact ⟨hsave.ecx.trans h.ecx, hsave.edx, hsave.edi.trans h.edi, hsave.esi.trans h.esi, hsave.cs⟩

/-- Up to `.dopop`, what the new thread owns is as `Init` wrote it. -/
theorem Switching.owned (h : Switching cpu view m tsi stack kernelStack currentThread thread)
    {x : Address} (hx : Owns tsi stack kernelStack x) :
    (cpu.save.loadSpace view).exchange.mem x = m x := by
  obtain ⟨hmem, -, hedx, hedi, -, -⟩ := h.loaded
  rw [Cpu.exchange_mem, hmem x hx]
  · rw [hedx]
    exact fun hne => h.oldEsp hne x hx
  · rw [hedi]
    exact fun _ => h.word x hx

theorem Switching.esp (h : Switching cpu view m tsi stack kernelStack currentThread thread) :
    (cpu.save.loadSpace view).exchange.esp = read32 m (esp0At tsi) := by
  obtain ⟨hmem, hecx, hedx, -, -, -⟩ := h.loaded
  have howned : ∀ x, InRange (esp0At tsi) 4 x → Owns tsi stack kernelStack x :=
    fun x hx => Or.inr (Or.inr hx)
  rw [Cpu.exchange_esp, hecx]
  · exact read32_congr fun x hx => hmem x (howned x hx)
  · rw [hecx]
    exact h.record
  · rw [hecx, hedx]
    exact fun hne x hx => h.oldEsp hne x (howned x hx)

theorem Switching.current (h : Switching cpu view m tsi stack kernelStack currentThread thread) :
    read32 (cpu.save.loadSpace view).exchange.mem currentThread = thread := by
  obtain ⟨-, -, -, hedi, hesi, -⟩ := h.loaded
  have hword := Cpu.exchange_current (m := cpu.save.loadSpace view)
    (by rw [hedi]; exact h.nonzero)
  rwa [hedi, hesi] at hword

/-- After `do_switch`, on the way to `perform_iret`. -/
structure Restored (r : Cpu) (points : EntryPoints) (entryAddress param : Word)
    (kernelStack : Option Section) (currentThread thread : Word) (pSt : Address)
    (ws : List Word) : Prop where
  eip : r.eip = points.performIret
  ring : r.cs &&& 3 = 0
  segs : r.ds = (segments kernelStack).1.setWidth 16 ∧
    r.es = (segments kernelStack).1.setWidth 16 ∧
    r.fs = (segments kernelStack).1.setWidth 16 ∧ r.gs = (segments kernelStack).1.setWidth 16
  general : r.eax = 0 ∧ r.ecx = 0 ∧ r.edx = 0 ∧ r.ebx = 0 ∧ r.ebp = 0 ∧ r.esi = 0 ∧ r.edi = 0
  rest : Words r.mem r.esp (entryAddress :: (segments kernelStack).2 :: Cpu.flagIF :: ws)
  args : Words r.mem pSt [points.exit, param]
  current : read32 r.mem currentThread = thread
  inner : kernelStack = none → pSt = r.esp + 12

theorem Restored.of_frame {r : Cpu} {pSt : Address} {ws : List Word}
    (hframe : Words r.mem r.esp
      ((irqFrame points entryAddress (segments kernelStack)).reverse ++ ws))
    (hring : r.cs &&& 3 = 0) (hargs : Words r.mem pSt [points.exit, param])
    (hcurrent : read32 r.mem currentThread = thread)
    (hinner : kernelStack = none → pSt = r.esp + 64) :
    Restored r.restore points entryAddress param kernelStack currentThread thread pSt ws := by
  have hback := Cpu.restore_eq hframe
  have hup : r.esp + 52 + 12 = r.esp + 64 := by bv_omega
  have hrest : Words r.mem (r.esp + 52)
      (entryAddress :: (segments kernelStack).2 :: Cpu.flagIF :: ws) := by
    have hsplit : (irqFrame points entryAddress (segments kernelStack)).reverse ++ ws =
        (irqFrame points entryAddress (segments kernelStack)).reverse.take 13 ++
          entryAddress :: (segments kernelStack).2 :: Cpu.flagIF :: ws := rfl
    rw [hsplit] at hframe
    exact (words_append.mp hframe).2
  rw [hback]
  exact ⟨rfl, hring, ⟨rfl, rfl, rfl, rfl⟩, ⟨rfl, rfl, rfl, rfl, rfl, rfl, rfl⟩, hrest, hargs,
    hcurrent, fun h => (hinner h).trans hup.symm⟩

theorem Restored.started {r : Cpu} {pSt : Address} {ws : List Word}
    (h : Restored r points entryAddress param kernelStack currentThread thread pSt ws)
    (hin : InRange stack.base stack.length.toNat pSt)
    (houter : kernelStack.isSome → ws = [pSt, (segments kernelStack).1]) :
    Started r.iret points entryAddress param stack kernelStack currentThread thread := by
  obtain ⟨hds, hes, hfs, hgs⟩ := h.segs
  obtain ⟨hexit, hparam, -⟩ := h.args
  have hif : decide (Cpu.flagIF &&& Cpu.flagIF ≠ 0) = true := by decide
  cases kernelStack with
  | none =>
    have hpSt := h.inner rfl
    have hsame : ((segments none).2.setWidth 16 : Selector) &&& 3 = r.cs &&& 3 := by
      rw [h.ring]
      decide
    rw [hpSt] at hin hexit hparam
    rw [Cpu.iret_eq_same h.rest hsame]
    exact ⟨rfl, rfl, fun hsome => absurd hsome (by decide), hds, hes, hfs, hgs, h.general,
      hif, h.current, hexit, hparam, hin⟩
  | some k =>
    have hrest := h.rest
    rw [houter rfl] at hrest
    have hother : ((segments (some k)).2.setWidth 16 : Selector) &&& 3 ≠ r.cs &&& 3 := by
      rw [h.ring]
      change ((0x1b : Word).setWidth 16 : Selector) &&& 3 ≠ 0
      decide
    rw [Cpu.iret_eq_outer hrest hother]
    exact ⟨rfl, rfl, fun _ => rfl, hds, hes, hfs, hgs, h.general, hif, h.current, hexit,
      hparam, hin⟩

end Run

end TaskSwitchInfo

open TaskSwitchInfo

/-- After `Init`, the first `do_switch` to the thread returns to `perform_iret`, and its `iret`
starts the thread. -/
theorem first_switch_starts {m : Memory} {tsi : Address} {points : EntryPoints}
    {entryAddress param : Word} {stack : Section} {kernelStack : Option Section}
    (hplaced : Placed tsi stack kernelStack) {cpu : Cpu} {view : Word → Memory → Memory}
    {currentThread thread : Word}
    (hcpu : Switching cpu view (init m tsi points entryAddress stack param kernelStack) tsi stack
      kernelStack currentThread thread) :
    (cpu.doSwitchIn view).eip = points.performIret ∧
      Started (cpu.doSwitchIn view).iret points entryAddress param stack kernelStack
        currentThread thread := by
  obtain ⟨esp0, pSt, ws, hw⟩ := init_written m points entryAddress param hplaced
  have hesp := hcpu.esp
  rw [hw.saved] at hesp
  have hlen := irqFrame_length points entryAddress (segments kernelStack) ws
  have hshort := hw.short
  have hframe := hw.frame.congr (by omega) fun x hx => hcpu.owned
    (hw.frameOwned x (by rwa [hlen] at hx))
  have hargs := hw.args.congr (by simp) fun x hx => hcpu.owned (hw.argsOwned x hx)
  obtain ⟨-, -, -, -, -, hcs⟩ := hcpu.loaded
  have hring : (cpu.save.loadSpace view).exchange.cs &&& 3 = 0 := by
    rw [Cpu.exchange_cs, hcs, hcpu.ring]
  rw [← hesp] at hframe
  have hinner : kernelStack = none → pSt = (cpu.save.loadSpace view).exchange.esp + 64 := by
    rw [hesp]
    exact hw.inner
  have hrestored := Restored.of_frame hframe hring hargs hcpu.current hinner
  rw [Cpu.doSwitchIn_eq]
  exact ⟨hrestored.eip, hrestored.started hw.argsIn hw.outer⟩

/-- A user stack of one page, and a kernel stack of one page. -/
def userStack : Section := ⟨0x47, 0x40000000, 0x1000, 0, 0, 0, 0, 0⟩

def kernelStackOf : Section := ⟨0x4047, 0x200000, 0x1000, 0, 0, 0, 0, 0⟩

def userPoints : EntryPoints := ⟨0x100100, 0x100200⟩

/-- In an address space where nothing is mapped from 1 GB on, about to switch from a thread with
its record at 0x2000 to the directory at 0x7000. -/
def switchingCpu (m : Memory) : Cpu :=
  { eax := 0x7000, ecx := 0x1004, edx := 0x2004, ebx := 0, esp := 0x300000, ebp := 0
    esi := 0x5000, edi := 0x3000, cs := 8, ss := 0x10, ds := 0x10, es := 0x10, fs := 0x10
    gs := 0x10, cr3 := 0x6000, eip := 0, intf := true
    mem := fun x => if 0x40000000 ≤ x then 0 else m x }

/-- The directory at 0x7000 has the pages of `m` from 1 GB on. -/
def userView (m : Memory) (_ : Word) (mem : Memory) : Memory :=
  fun x => if 0x40000000 ≤ x then m x else mem x

theorem userThread_placed : Placed 0x1000 userStack (some kernelStackOf) := by
  refine ⟨by decide, ?_, ?_, ?_, ?_⟩
  · rintro k ⟨⟩
    decide
  · rintro k ⟨⟩ x hx hx'
    unfold InRange kernelStackOf at hx'
    unfold InRange userStack at hx
    bv_omega
  · intro x hx hx'
    unfold InRange esp0At at hx'
    unfold InRange userStack at hx
    bv_omega
  · rintro k ⟨⟩ x hx hx'
    unfold InRange esp0At at hx'
    unfold InRange kernelStackOf at hx
    bv_omega

theorem owns_userThread {x : Address} (h : Owns 0x1000 userStack (some kernelStackOf) x) :
    0x1004 ≤ x ∧ x < 0x1008 ∨ 0x200000 ≤ x ∧ x < 0x201000 ∨ 0x40000000 ≤ x := by
  rcases h with hx | ⟨k, ⟨⟩, hx⟩ | hx
  · unfold InRange userStack at hx
    bv_omega
  · unfold InRange kernelStackOf at hx
    bv_omega
  · unfold InRange esp0At at hx
    bv_omega

theorem userThread_switching (m : Memory) :
    Switching (switchingCpu m) (userView m) m 0x1000 userStack (some kernelStackOf) 0x3000
      0x5000 := by
  have hring : (8 : Selector) &&& 3 = 0 := by decide
  have hsave := (switchingCpu m).pushed_save
  have hload : ∀ c : Cpu, c.eax = 0x7000 →
      (c.loadSpace (userView m)).mem = userView m c.eax c.mem := by
    intro c hc
    have hne : c.eax ≠ 0 := by rw [hc]; decide
    unfold Cpu.loadSpace
    rw [if_pos hne]
  refine ⟨rfl, rfl, rfl, hring, by decide, by decide, fun x _ => ?_, fun x hx => ?_,
    fun _ x hx hin => ?_, fun x hx hin => ?_⟩
  · rw [hload _ rfl]
    unfold userView switchingCpu
    dsimp only
    split_ifs <;> rfl
  · rw [hload _ hsave.eax, hload (switchingCpu m) rfl]
    unfold userView
    split_ifs with hhigh
    · rfl
    · refine hsave.mem x fun hin => ?_
      have hown := owns_userThread hx
      unfold InRange switchingCpu at hin
      bv_omega
  · have hown := owns_userThread hx
    unfold InRange switchingCpu at hin
    bv_omega
  · have hown := owns_userThread hx
    unfold InRange at hin
    bv_omega

/-- The stack of the thread is only mapped in the address space it is switched to. -/
theorem userThread_starts :
    let m := init (fun _ => 0) 0x1000 userPoints 0x40100000 userStack 7 (some kernelStackOf)
    ((switchingCpu m).doSwitchIn (userView m)).eip = 0x100100 ∧
      Started ((switchingCpu m).doSwitchIn (userView m)).iret userPoints 0x40100000 7 userStack
        (some kernelStackOf) 0x3000 0x5000 :=
  first_switch_starts userThread_placed (userThread_switching _)

end Tysos
