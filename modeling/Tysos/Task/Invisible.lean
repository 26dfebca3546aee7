import Tysos.Task.FirstRun
import Tysos.Support.Run
import Mathlib.Logic.Function.Basic

/-!
# What a thread sees of a switch

Threads that compute and call `Switch`, with what each of them had when it called `c_switch`.
`c_switch` loads `edi` and `esi` before `do_switch` saves them, so that a thread gets back the
arguments of its call in these two registers.
-/

namespace Tysos
open ByteMemory
set_option autoImplicit false

/-- The threads: their records, address spaces and stacks, and the addresses `Switch` uses. -/
structure Threads (ι : Type) where
  thread : ι → Word
  tsi : ι → Address
  space : ι → Word
  stackBase : ι → Address
  stackSize : ι → Nat
  currentThread : Address
  tssEsp0 : Address
  /-- The return address of the call in `Switch`, and of the one in `c_switch`. -/
  site : Word
  back : Word

namespace Threads
variable {ι : Type}

def InStack (L : Threads ι) (i : ι) (x : Address) : Prop :=
  InRange (L.stackBase i) (L.stackSize i) x

/-- `&tsi->esp0`, or 0 where there is no record. -/
def esp0Ptr (L : Threads ι) (i : ι) : Address :=
  if L.tsi i = 0 then 0 else TaskSwitchInfo.esp0At (L.tsi i)

/-- The stacks, the `esp0` words and the two words that `Switch` writes are apart. -/
structure Apart (L : Threads ι) : Prop where
  stackPair : ∀ i j, i ≠ j → ∀ x, L.InStack i x → ¬ L.InStack j x
  records : ∀ i j, i ≠ j → Clear (L.esp0Ptr i) 4 (L.esp0Ptr j) 4
  recordStack : ∀ i j x, InRange (L.esp0Ptr i) 4 x → ¬ L.InStack j x
  current : ∀ i, Clear (L.esp0Ptr i) 4 L.currentThread 4
  currentStack : ∀ i x, InRange L.currentThread 4 x → ¬ L.InStack i x
  tss : ∀ i, Clear (L.esp0Ptr i) 4 L.tssEsp0 4
  tssStack : ∀ i x, InRange L.tssEsp0 4 x → ¬ L.InStack i x
  hasRecord : ∀ i, L.esp0Ptr i ≠ 0
  hasCurrent : L.currentThread ≠ 0
  size : ∀ i, L.stackSize i < 2 ^ 32

/-- What a thread has when it calls `c_switch`, and the `Thread` pointer of that call. -/
structure View where
  newThread : Word
  ebx : Word
  ebp : Word
  esi : Word
  edi : Word
  esp : Word
  ds : Selector
  es : Selector
  fs : Selector
  gs : Selector
  mem : Memory

def viewOf (newThread : Word) (m : Cpu) : View :=
  ⟨newThread, m.ebx, m.ebp, m.esi, m.edi, m.esp, m.ds, m.es, m.fs, m.gs, m.mem⟩

/-- `Switch` up to the call of `c_switch`, with the arguments pushed from the last one on. -/
def beforeCall (L : Threads ι) [DecidableEq ι] (i j : ι) (m : Cpu) : Cpu :=
  let m := { m with
    mem := write32 m.mem L.tssEsp0 (read32 m.mem (TaskSwitchInfo.esp0TopAt (L.tsi j))) }
  ((((m.push (L.thread j)).push L.currentThread).push (L.esp0Ptr i)).push (L.esp0Ptr j)).push
    (if j = i then 0 else L.space j)

/-- The call, to where the `ret` of `do_switch` leads, and from there the `ret` of `c_switch`. -/
def afterCall (L : Threads ι) (m : Cpu) : Cpu :=
  let m := (m.push L.site).cSwitch L.back
  if m.eip = L.back then m.ret else m

/-- The machine, the running thread, and the others that are inside a call of `c_switch`. -/
structure World (ι : Type) where
  cpu : Cpu
  running : ι
  parked : ι → Option View

inductive Event (ι : Type) where
  /-- The running thread does something else, and leaves the machine like this. -/
  | compute (m : Cpu)
  | switch (j : ι)

namespace World
variable [DecidableEq ι]

/-- The threads inside a call once the running one has made its own. -/
def waiting (L : Threads ι) (w : World ι) (j : ι) : ι → Option View :=
  Function.update w.parked w.running (some (viewOf (L.thread j) (L.beforeCall w.running j w.cpu)))

def step (L : Threads ι) (w : World ι) : Event ι → Option (World ι)
  | .compute m => some { w with cpu := m }
  | .switch j => some {
      cpu := L.afterCall (L.beforeCall w.running j w.cpu)
      running := j
      parked := Function.update (w.waiting L j) j none }

/-- A thread does not touch the stack or the record of one that waits in `c_switch`, and calls
`Switch` with enough room on its own stack. -/
def Legal (L : Threads ι) (w : World ι) : Event ι → Prop
  | .compute m => ∀ i, (w.parked i).isSome → ∀ x, L.InStack i x ∨ InRange (L.esp0Ptr i) 4 x →
      m.mem x = w.cpu.mem x
  | .switch _ => 76 ≤ (w.cpu.esp - L.stackBase w.running).toNat ∧
      (w.cpu.esp - L.stackBase w.running).toNat ≤ L.stackSize w.running

/-- A thread that the switch returns to had in `edi` and `esi`, at its call, what `c_switch`
loads into them. -/
def ArgsInPlace (L : Threads ι) (w : World ι) : Event ι → Prop
  | .compute _ => True
  | .switch j => ∀ v, w.waiting L j j = some v → v.edi = L.currentThread ∧ v.esi = v.newThread

/-- The registers and the stack from the stack pointer up are as they were at the call. -/
structure Restored (L : Threads ι) (j : ι) (v : View) (m : Cpu) : Prop where
  eip : m.eip = L.site
  ebx : m.ebx = v.ebx
  ebp : m.ebp = v.ebp
  esi : m.esi = v.esi
  edi : m.edi = v.edi
  esp : m.esp = v.esp
  ds : m.ds = v.ds
  es : m.es = v.es
  fs : m.fs = v.fs
  gs : m.gs = v.gs
  stack : ∀ x, L.InStack j x → (v.esp - L.stackBase j).toNat ≤ (x - L.stackBase j).toNat →
    m.mem x = v.mem x

/-- What a thread comes back to: the arguments of its call are in `edi` and `esi`. -/
def loaded (L : Threads ι) (v : View) : View :=
  { v with edi := L.currentThread, esi := v.newThread }

/-- A thread that the switch returns to in `c_switch` finds everything as it was. -/
def Invisible (L : Threads ι) (w : World ι) : Event ι → Prop
  | .compute _ => True
  | .switch j => ∀ v, w.waiting L j j = some v →
      Restored L j v (L.afterCall (L.beforeCall w.running j w.cpu))

/-- What memory keeps of a thread in `c_switch`. -/
structure Kept (L : Threads ι) (m : Memory) (j : ι) (v : View) : Prop where
  esp0 : read32 m (L.esp0Ptr j) = v.esp - 56
  room : 56 ≤ (v.esp - L.stackBase j).toNat ∧ (v.esp - L.stackBase j).toNat ≤ L.stackSize j
  frame : ∃ sp edx ecx eax, Words m (v.esp - 56) [L.currentThread, v.newThread, v.ebp, sp, v.ebx,
    edx, ecx, eax, v.ds.setWidth 32, v.es.setWidth 32, v.fs.setWidth 32, v.gs.setWidth 32, L.back,
    L.site]
  stack : ∀ x, L.InStack j x → (v.esp - L.stackBase j).toNat ≤ (x - L.stackBase j).toNat →
    m x = v.mem x

variable {L : Threads ι} {w w' : World ι}

omit [DecidableEq ι] in
theorem inStack_below {j : ι} {esp : Address} {n : Nat} (hn : n ≤ (esp - L.stackBase j).toNat)
    (hsize : (esp - L.stackBase j).toNat ≤ L.stackSize j) {x : Address}
    (hx : InRange (esp - BitVec.ofNat 32 n) n x) :
    L.InStack j x ∧ (x - L.stackBase j).toNat < (esp - L.stackBase j).toNat := by
  unfold InStack
  unfold InRange at hx ⊢
  generalize L.stackBase j = b at *
  generalize L.stackSize j = s at *
  bv_omega

omit [DecidableEq ι] in
theorem Kept.congr {m m' : Memory} {j : ι} {v : View} (h : Kept L m j v)
    (hsame : ∀ x, L.InStack j x ∨ InRange (L.esp0Ptr j) 4 x → m' x = m x) : Kept L m' j v := by
  obtain ⟨sp, edx, ecx, eax, hframe⟩ := h.frame
  refine ⟨?_, h.room, ⟨sp, edx, ecx, eax, hframe.congr (by simp) fun x hx => ?_⟩,
    fun x hx hle => ?_⟩
  · rw [read32_congr fun x hx => hsame x (Or.inr hx)]
    exact h.esp0
  · exact hsame x (Or.inl (inStack_below h.room.1 h.room.2 hx).1)
  · rw [hsame x (Or.inl hx)]
    exact h.stack x hx hle

/-- At the call, the arguments are on the stack of the running thread. -/
theorem beforeCall_words (L : Threads ι) (i j : ι) (m : Cpu) :
    (L.beforeCall i j m).esp = m.esp - 20 ∧
      Words (L.beforeCall i j m).mem (L.beforeCall i j m).esp [if j = i then 0 else L.space j,
        L.esp0Ptr j, L.esp0Ptr i, L.currentThread, L.thread j] := by
  unfold beforeCall
  dsimp only
  generalize hm₀ : ({ m with
    mem := write32 m.mem L.tssEsp0 (read32 m.mem (TaskSwitchInfo.esp0TopAt (L.tsi j))) } : Cpu) =
      m₀
  have hesp : m₀.esp = m.esp := by rw [← hm₀]
  have hempty : Words m₀.mem m₀.esp [] := trivial
  have h₁ := hempty.push (by simp) (L.thread j)
  have h₂ := h₁.push (by simp) L.currentThread
  have h₃ := h₂.push (by simp) (L.esp0Ptr i)
  have h₄ := h₃.push (by simp) (L.esp0Ptr j)
  refine ⟨?_, h₄.push (by simp) _⟩
  simp only [Cpu.push_esp, hesp]
  bv_omega

theorem beforeCall_mem {i j : ι} {m : Cpu} {x : Address} (htss : ¬ InRange L.tssEsp0 4 x)
    (hstack : ¬ InRange (m.esp - 20) 20 x) : (L.beforeCall i j m).mem x = m.mem x := by
  have hstart : Cpu.Pushed { m with
      mem := write32 m.mem L.tssEsp0 (read32 m.mem (TaskSwitchInfo.esp0TopAt (L.tsi j))) } { m with
      mem := write32 m.mem L.tssEsp0 (read32 m.mem (TaskSwitchInfo.esp0TopAt (L.tsi j))) } 0 :=
    ⟨rfl, rfl, rfl, rfl, rfl, rfl, rfl, by simp, fun _ _ => rfl⟩
  have hpushed := ((((hstart.push (by decide) (L.thread j)).push (by decide)
    L.currentThread).push (by decide) (L.esp0Ptr i)).push (by decide) (L.esp0Ptr j)).push
    (by decide) (if j = i then 0 else L.space j)
  exact (hpushed.mem x hstack).trans (write32_of_not_inRange htss)

/-- The machine when `do_switch` has saved the registers of the caller. -/
def savedAt (L : Threads ι) (c : Cpu) : Cpu := ((c.push L.site).loadArgs.push L.back).save

omit [DecidableEq ι] in
theorem cSwitch_eq (L : Threads ι) (c : Cpu) :
    (c.push L.site).cSwitch L.back = (savedAt L c).exchange.restore := by
  unfold Cpu.cSwitch Cpu.doSwitch savedAt
  rfl

omit [DecidableEq ι] in
theorem savedAt_spec (L : Threads ι) {c : Cpu} {space new old current thread : Word}
    (h : Words c.mem c.esp [space, new, old, current, thread]) :
    (savedAt L c).esp = c.esp - 56 ∧ (savedAt L c).ecx = new ∧ (savedAt L c).edx = old ∧
      (savedAt L c).edi = current ∧ (savedAt L c).esi = thread ∧
      (∃ sp edx ecx eax, Words (savedAt L c).mem (c.esp - 56) [current, thread, c.ebp, sp, c.ebx,
        edx, ecx, eax, c.ds.setWidth 32, c.es.setWidth 32, c.fs.setWidth 32, c.gs.setWidth 32,
        L.back, L.site]) ∧
      ∀ x, ¬ InRange (c.esp - 56) 56 x → (savedAt L c).mem x = c.mem x := by
  have hcall : Words (c.push L.site).mem (c.push L.site).esp
    [L.site, space, new, old, current, thread] := h.push (by simp) L.site
  have hargs := Cpu.loadArgs_eq hcall
  have hempty : Words c.mem c.esp [] := trivial
  have hback := (hempty.push (by simp) L.site).push (by simp) L.back
  unfold savedAt
  rw [hargs]
  generalize hm : Cpu.push L.back ({ c.push L.site with
    eax := space, ecx := new, edx := old, edi := current, esi := thread } : Cpu) = m
  have hmesp : m.esp = c.esp - 8 := by
    rw [← hm, Cpu.push_esp]
    change c.esp - 4 - 4 = c.esp - 8
    bv_omega
  have hmem : m.mem = write32 (write32 c.mem (c.esp - 4) L.site) (c.esp - 4 - 4) L.back := by
    rw [← hm]
    rfl
  have hwords : Words m.mem m.esp [L.back, L.site] := by
    have hdown : c.esp - 4 - 4 = c.esp - 8 := by bv_omega
    rw [hdown] at hback hmem
    rw [hmem, hmesp]
    exact hback
  have hsave := m.pushed_save
  have hframe := Cpu.save_words hwords (by simp)
  have hesp : m.save.esp = c.esp - 56 := by
    rw [hsave.esp, hmesp]
    bv_omega
  rw [hesp] at hframe
  refine ⟨hesp, ?_, ?_, ?_, ?_, ⟨m.esp - 16, m.edx, m.ecx, m.eax, ?_⟩, fun x hx => ?_⟩
  · rw [hsave.ecx, ← hm]
    rfl
  · rw [hsave.edx, ← hm]
    rfl
  · rw [hsave.edi, ← hm]
    rfl
  · rw [hsave.esi, ← hm]
    rfl
  · have hregs : m.frame = [current, thread, c.ebp, m.esp - 16, c.ebx, m.edx, m.ecx, m.eax,
        c.ds.setWidth 32, c.es.setWidth 32, c.fs.setWidth 32, c.gs.setWidth 32] := by
      rw [← hm]
      rfl
    rw [hregs] at hframe
    exact hframe
  · rw [hsave.mem x, hmem]
    · rw [write32_of_not_inRange, write32_of_not_inRange]
      · unfold InRange at hx ⊢
        bv_omega
      · unfold InRange at hx ⊢
        bv_omega
    · rw [hmesp]
      unfold InRange at hx ⊢
      bv_omega

/-- The waiting threads are kept, and none of them is the running one. -/
structure Inv (L : Threads ι) (w : World ι) : Prop where
  kept : ∀ j v, w.parked j = some v → Kept L w.cpu.mem j v
  running : w.parked w.running = none

section Switch
variable {j : ι}

/-- The machine between `save` and `restore`. -/
def exchanged (L : Threads ι) (w : World ι) (j : ι) : Cpu :=
  (savedAt L (L.beforeCall w.running j w.cpu)).exchange

theorem exchanged_mem {x : Address}
    (hrecord : ¬ InRange (L.esp0Ptr w.running) 4 x) (hcurrent : ¬ InRange L.currentThread 4 x) :
    (exchanged L w j).mem x = (savedAt L (L.beforeCall w.running j w.cpu)).mem x := by
  obtain ⟨-, -, hedx, hedi, -⟩ := savedAt_spec L (beforeCall_words L w.running j w.cpu).2
  apply Cpu.exchange_mem
  · rw [hedx]
    exact fun _ => hrecord
  · rw [hedi]
    exact fun _ => hcurrent

/-- What lies outside the stack of the running thread is only changed in three words. -/
theorem exchanged_mem_of_out (hlegal : Legal L w (.switch j)) {x : Address}
    (hstack : ¬ L.InStack w.running x) (hrecord : ¬ InRange (L.esp0Ptr w.running) 4 x)
    (hcurrent : ¬ InRange L.currentThread 4 x) (htss : ¬ InRange L.tssEsp0 4 x) :
    (exchanged L w j).mem x = w.cpu.mem x := by
  obtain ⟨hesp, hwords⟩ := beforeCall_words L w.running j w.cpu
  obtain ⟨-, -, -, -, -, -, hsaved⟩ := savedAt_spec L hwords
  have hbelow : ¬ InRange (w.cpu.esp - 76) 76 x :=
    fun hin => hstack (inStack_below hlegal.1 hlegal.2 hin).1
  rw [exchanged_mem hrecord hcurrent, hsaved x, beforeCall_mem htss]
  · unfold InRange at hbelow ⊢
    bv_omega
  · rw [hesp]
    unfold InRange at hbelow ⊢
    bv_omega

theorem kept_self (hapart : L.Apart) (hlegal : Legal L w (.switch j)) :
    Kept L (exchanged L w j).mem w.running
      (viewOf (L.thread j) (L.beforeCall w.running j w.cpu)) := by
  obtain ⟨hesp, hwords⟩ := beforeCall_words L w.running j w.cpu
  obtain ⟨hsesp, -, hedx, hedi, -, ⟨sp, edx, ecx, eax, hframe⟩, hsaved⟩ := savedAt_spec L hwords
  have hroom : 56 ≤ ((L.beforeCall w.running j w.cpu).esp - L.stackBase w.running).toNat ∧
      ((L.beforeCall w.running j w.cpu).esp - L.stackBase w.running).toNat ≤
        L.stackSize w.running := by
    obtain ⟨hlow, hhigh⟩ := hlegal
    rw [hesp]
    generalize L.stackBase w.running = b at *
    bv_omega
  have hout : ∀ x, L.InStack w.running x → (exchanged L w j).mem x =
      (savedAt L (L.beforeCall w.running j w.cpu)).mem x := fun x hx =>
    exchanged_mem (fun hin => hapart.recordStack _ _ x hin hx)
      (fun hin => hapart.currentStack _ x hin hx)
  refine ⟨?_, hroom, ⟨sp, edx, ecx, eax, ?_⟩, fun x hx hle => ?_⟩
  · have hstored := Cpu.exchange_saved (m := savedAt L (L.beforeCall w.running j w.cpu))
      (by rw [hedx]; exact hapart.hasRecord _) (by rw [hedx, hedi]; exact fun _ => hapart.current _)
    rw [hedx, hsesp] at hstored
    exact hstored
  · exact hframe.congr (by simp) fun x hx => hout x (inStack_below hroom.1 hroom.2 hx).1
  · rw [hout x hx]
    apply hsaved
    intro hin
    exact Nat.not_lt.mpr hle (inStack_below hroom.1 hroom.2 hin).2

theorem kept_waiting (hapart : L.Apart) (hinv : Inv L w) (hlegal : Legal L w (.switch j)) {k : ι}
    {v : View} (hk : w.waiting L j k = some v) : Kept L (exchanged L w j).mem k v := by
  unfold waiting at hk
  by_cases hki : k = w.running
  · subst hki
    rw [Function.update_self] at hk
    obtain rfl := Option.some.inj hk
    exact kept_self hapart hlegal
  · rw [Function.update_of_ne hki] at hk
    refine (hinv.kept k v hk).congr fun x hx => ?_
    rcases hx with hx | hx
    · exact exchanged_mem_of_out hlegal (fun hin => hapart.stackPair _ _ hki x hx hin)
        (fun hin => hapart.recordStack _ _ x hin hx) (fun hin => hapart.currentStack _ x hin hx)
        (fun hin => hapart.tssStack _ x hin hx)
    · exact exchanged_mem_of_out hlegal (fun hin => hapart.recordStack _ _ x hx hin)
        (hapart.records _ _ hki x hx) (hapart.current _ x hx) (hapart.tss _ x hx)

theorem exchanged_esp (hapart : L.Apart) {v : View} (hk : w.waiting L j j = some v)
    (hkept : Kept L (exchanged L w j).mem j v) : (exchanged L w j).esp = v.esp - 56 := by
  obtain ⟨-, hwords⟩ := beforeCall_words L w.running j w.cpu
  obtain ⟨hsesp, hecx, hedx, hedi, -⟩ := savedAt_spec L hwords
  by_cases hji : j = w.running
  · unfold waiting at hk
    rw [hji, Function.update_self] at hk
    obtain rfl := Option.some.inj hk
    unfold exchanged
    rw [Cpu.exchange_esp_self]
    · rw [hji] at hsesp ⊢
      exact hsesp
    · rw [hecx]
      exact hapart.hasRecord j
    · rw [hecx, hedx, hji]
  · have hclear := hapart.records j w.running hji
    have hesp := Cpu.exchange_esp (m := savedAt L (L.beforeCall w.running j w.cpu))
      (by rw [hecx]; exact hapart.hasRecord j) (by rw [hecx, hedx]; exact fun _ => hclear)
    rw [hecx] at hesp
    rw [← hkept.esp0]
    refine hesp.trans (read32_congr fun x hx => ?_)
    exact (exchanged_mem (hclear x hx) (hapart.current j x hx)).symm

theorem afterCall_of_eip (heip : (exchanged L w j).restore.eip = L.back) :
    L.afterCall (L.beforeCall w.running j w.cpu) = (exchanged L w j).restore.ret := by
  unfold afterCall
  rw [cSwitch_eq]
  exact if_pos heip

omit [DecidableEq ι] in
/-- With the frame of a waiting thread on top of the stack, the two `ret` lead back into it. -/
theorem restored_of_frame {m : Cpu} {v : View} (hesp : m.esp = v.esp - 56)
    (hframe : ∃ sp edx ecx eax, Words m.mem m.esp [L.currentThread, v.newThread, v.ebp, sp, v.ebx,
      edx, ecx, eax, v.ds.setWidth 32, v.es.setWidth 32, v.fs.setWidth 32, v.gs.setWidth 32, L.back,
      L.site])
    (hstack : ∀ x, L.InStack j x →
      (v.esp - L.stackBase j).toNat ≤ (x - L.stackBase j).toNat → m.mem x = v.mem x) :
    m.restore.eip = L.back ∧ Restored L j (loaded L v) m.restore.ret := by
  obtain ⟨sp, edx, ecx, eax, hframe⟩ := hframe
  have hback := Cpu.restore_eq hframe
  have hsite : read32 m.mem (m.esp + 52) = L.site := by
    have hsplit : [L.currentThread, v.newThread, v.ebp, sp, v.ebx, edx, ecx, eax,
        v.ds.setWidth 32, v.es.setWidth 32, v.fs.setWidth 32, v.gs.setWidth 32, L.back, L.site] =
        [L.currentThread, v.newThread, v.ebp, sp, v.ebx, edx, ecx, eax, v.ds.setWidth 32,
          v.es.setWidth 32, v.fs.setWidth 32, v.gs.setWidth 32, L.back] ++ [L.site] := rfl
    rw [hsplit] at hframe
    exact (words_append.mp hframe).2.1
  have hup : v.esp - 56 + 52 + 4 = v.esp := by bv_omega
  have hsel : ∀ s : Selector, (s.setWidth 32).setWidth 16 = s := by
    intro s
    rw [BitVec.setWidth_setWidth_of_le s (by decide), BitVec.setWidth_eq]
  rw [hback, hesp]
  unfold Cpu.ret Cpu.top Cpu.drop
  rw [hesp] at hsite
  exact ⟨rfl, hsite, rfl, rfl, rfl, rfl, hup, hsel v.ds, hsel v.es, hsel v.fs, hsel v.gs, hstack⟩

omit [DecidableEq ι] in
theorem Restored.iff_of_loaded {m : Cpu} {v : View} (h : Restored L j (loaded L v) m) :
    Restored L j v m ↔ v.edi = L.currentThread ∧ v.esi = v.newThread := by
  constructor
  · intro hrestored
    exact ⟨hrestored.edi.symm.trans h.edi, hrestored.esi.symm.trans h.esi⟩
  · rintro ⟨hedi, hesi⟩
    exact ⟨h.eip, h.ebx, h.ebp, h.esi.trans hesi.symm, h.edi.trans hedi.symm, h.esp, h.ds, h.es,
      h.fs, h.gs, h.stack⟩

/-- Whatever the registers held at the call, this is what a switch brings a thread back to. -/
theorem restored_of_kept (hapart : L.Apart) {v : View} (hk : w.waiting L j j = some v)
    (hkept : Kept L (exchanged L w j).mem j v) :
    Restored L j (loaded L v) (L.afterCall (L.beforeCall w.running j w.cpu)) := by
  have hesp := exchanged_esp hapart hk hkept
  have hframe := hkept.frame
  rw [← hesp] at hframe
  obtain ⟨heip, hrestored⟩ := restored_of_frame hesp hframe hkept.stack
  rw [afterCall_of_eip heip]
  exact hrestored

theorem afterCall_mem (L : Threads ι) (w : World ι) (j : ι) :
    (L.afterCall (L.beforeCall w.running j w.cpu)).mem = (exchanged L w j).mem := by
  unfold afterCall
  rw [cSwitch_eq]
  dsimp only
  split
  · rw [Cpu.ret_mem, Cpu.restore_mem]
    unfold exchanged
    rfl
  · rw [Cpu.restore_mem]
    unfold exchanged
    rfl

end Switch

theorem Inv.step (hapart : L.Apart) (hinv : Inv L w) {e : Event ι} (hlegal : Legal L w e)
    (hstep : w.step L e = some w') : Inv L w' := by
  cases e with
  | compute m =>
    obtain rfl := Option.some.inj hstep
    refine ⟨fun j v hj => ?_, hinv.running⟩
    have hparked : (w.parked j).isSome := by
      rw [hj]
      rfl
    exact (hinv.kept j v hj).congr (hlegal j hparked)
  | switch j =>
    obtain rfl := Option.some.inj hstep
    refine ⟨fun k v hk => ?_, Function.update_self _ _ _⟩
    rw [afterCall_mem]
    have hkj : k ≠ j := by
      rintro rfl
      simp at hk
    have hwait : w.waiting L j k = some v := by
      rw [← hk]
      exact (Function.update_of_ne hkj _ _).symm
    exact kept_waiting hapart hinv hlegal hwait

theorem invisible_iff (hapart : L.Apart) (hinv : Inv L w) {e : Event ι} (hlegal : Legal L w e) :
    Invisible L w e ↔ ArgsInPlace L w e := by
  cases e with
  | compute m => exact Iff.rfl
  | switch j =>
    have hone : ∀ v, w.waiting L j j = some v →
        (Restored L j v (L.afterCall (L.beforeCall w.running j w.cpu)) ↔
          v.edi = L.currentThread ∧ v.esi = v.newThread) := by
      intro v hv
      exact (restored_of_kept hapart hv (kept_waiting hapart hinv hlegal hv)).iff_of_loaded
    constructor
    · exact fun h v hv => (hone v hv).mp (h v hv)
    · exact fun h v hv => (hone v hv).mpr (h v hv)

/-- Every thread that a switch of the run returns to finds its registers and its stack as they
were exactly if each of them already had in `edi` and `esi` what its call loads into them. -/
theorem switches_invisible (hapart : L.Apart) (hstart : ∀ i, w.parked i = none)
    {events : List (Event ι)} (hlegal : Transition.EachStep (step L) (Legal L) w events) :
    Transition.EachStep (step L) (Invisible L) w events ↔
      Transition.EachStep (step L) (ArgsInPlace L) w events := by
  have hinv : Inv L w := by
    refine ⟨fun j v hj => ?_, hstart w.running⟩
    rw [hstart j] at hj
    exact absurd hj (by simp)
  refine Transition.EachStep.iff_under ?_ ?_ hinv hlegal
  · exact fun w e w' hinv hlegal _ hstep => hinv.step hapart hlegal hstep
  · exact fun w e hinv hlegal => invisible_iff hapart hinv hlegal

/-- One thread with a stack of a page. -/
def oneThread : Threads Unit :=
  { thread := fun _ => 0x5000, tsi := fun _ => 0x1000, space := fun _ => 0x6000
    stackBase := fun _ => 0x200000, stackSize := fun _ => 0x1000
    currentThread := 0x3000, tssEsp0 := 0x4000, site := 0x100100, back := 0x100200 }

theorem oneThread_apart : oneThread.Apart := by
  have hstack : ∀ x, oneThread.InStack () x → 0x200000 ≤ x ∧ x < 0x201000 := by
    intro x hx
    unfold InStack InRange oneThread at hx
    bv_omega
  have hword : ∀ a x : Address, a < 0x10000 → InRange a 4 x → ¬ oneThread.InStack () x := by
    intro a x ha hx hin
    have hbound := hstack x hin
    unfold InRange at hx
    bv_omega
  have hsize : 0x1000 < 2 ^ 32 := by decide
  have hptr : ∀ i, oneThread.esp0Ptr i = 0x1004 := fun _ => rfl
  refine ⟨fun i j hij => absurd rfl hij, fun i j hij => absurd rfl hij, fun i _ x hx => ?_,
    fun i => ?_, fun _ x hx => hword _ x (by decide) hx, fun i => ?_,
    fun _ x hx => hword _ x (by decide) hx, fun i => ?_, by decide, fun _ => hsize⟩
  · rw [hptr i] at hx
    exact hword _ x (by decide) hx
  · rw [hptr i]
    exact clear_of_le (by decide) (by decide)
  · rw [hptr i]
    exact clear_of_le (by decide) (by decide)
  · rw [hptr i]
    decide

/-- The thread, with these values in the registers, before a call of `Switch`. -/
def calling (edi esi : Word) : World Unit :=
  ⟨{ eax := 0, ecx := 0, edx := 0, ebx := 0, esp := 0x200800, ebp := 0, esi := esi, edi := edi
     cs := 8, ss := 0x10, ds := 0x10, es := 0x10, fs := 0x10, gs := 0x10, cr3 := 0, eip := 0
     intf := true, mem := fun _ => 0 }, (), fun _ => none⟩

theorem calling_legal (edi esi : Word) :
    Transition.EachStep (step oneThread) (Legal oneThread) (calling edi esi) [.switch ()] := by
  have hroom : 76 ≤ (0x200800 - 0x200000 : Word).toNat ∧
      (0x200800 - 0x200000 : Word).toNat ≤ 0x1000 := by decide
  exact ⟨hroom, fun _ _ => trivial⟩

/-- Two threads with a stack of a page each. -/
def twoThreads : Threads Bool :=
  { thread := fun i => if i then 0x5100 else 0x5000, tsi := fun i => if i then 0x1100 else 0x1000
    space := fun _ => 0x6000, stackBase := fun i => if i then 0x300000 else 0x200000
    stackSize := fun _ => 0x1000, currentThread := 0x3000, tssEsp0 := 0x4000, site := 0x100100
    back := 0x100200 }

theorem twoThreads_apart : twoThreads.Apart := by
  have hfirst : ∀ x, twoThreads.InStack false x → 0x200000 ≤ x ∧ x < 0x201000 := by
    intro x hx
    have hin : InRange 0x200000 0x1000 x := hx
    unfold InRange at hin
    bv_omega
  have hsecond : ∀ x, twoThreads.InStack true x → 0x300000 ≤ x ∧ x < 0x301000 := by
    intro x hx
    have hin : InRange 0x300000 0x1000 x := hx
    unfold InRange at hin
    bv_omega
  have hword : ∀ a i x, a < 0x10000 → InRange a 4 x → ¬ twoThreads.InStack i x := by
    intro a i x ha hx hin
    unfold InRange at hx
    cases i with
    | false =>
      have hbound := hfirst x hin
      bv_omega
    | true =>
      have hbound := hsecond x hin
      bv_omega
  have hlow : ∀ i, twoThreads.esp0Ptr i < 0x10000 := by decide
  have hsize : 0x1000 < 2 ^ 32 := by decide
  have hpair : ∀ x, twoThreads.InStack false x → ¬ twoThreads.InStack true x := by
    intro x hx hin
    have hbound := hfirst x hx
    have hbound' := hsecond x hin
    bv_omega
  have hrecords : Clear (twoThreads.esp0Ptr false) 4 (twoThreads.esp0Ptr true) 4 :=
    clear_of_le (by decide) (by decide)
  refine ⟨fun i j hij x hx hin => ?_, fun i j hij => ?_, fun i j x hx => hword _ j x (hlow i) hx,
    fun i => ?_, fun i x hx => hword _ i x (by decide) hx, fun i => ?_,
    fun i x hx => hword _ i x (by decide) hx, by decide, by decide, fun _ => hsize⟩
  · match i, j, hij with
    | false, true, _ => exact hpair x hx hin
    | true, false, _ => exact hpair x hin hx
  · match i, j, hij with
    | false, true, _ => exact hrecords
    | true, false, _ => exact hrecords.symm
  · cases i <;> exact clear_of_le (by decide) (by decide)
  · cases i <;> exact clear_of_le (by decide) (by decide)

/-- The first thread is about to call `Switch`, with the arguments already in `edi` and `esi`. -/
def leaving : World Bool :=
  ⟨{ eax := 0, ecx := 0, edx := 0, ebx := 7, esp := 0x200800, ebp := 0x200900, esi := 0x5100
     edi := 0x3000, cs := 8, ss := 0x10, ds := 0x10, es := 0x10, fs := 0x10, gs := 0x10, cr3 := 0
     eip := 0, intf := true, mem := fun _ => 0 }, false, fun _ => none⟩

/-- The second one has begun to run on its own stack. -/
def other : Cpu :=
  { eax := 1, ecx := 2, edx := 3, ebx := 4, esp := 0x300800, ebp := 0, esi := 5, edi := 6, cs := 8
    ss := 0x10, ds := 0x10, es := 0x10, fs := 0x10, gs := 0x10, cr3 := 0x6000, eip := 0
    intf := true, mem := (twoThreads.afterCall (twoThreads.beforeCall false true leaving.cpu)).mem }

def thereAndBack : List (Event Bool) := [.switch true, .compute other, .switch false]

theorem thereAndBack_legal :
    Transition.EachStep (step twoThreads) (Legal twoThreads) leaving thereAndBack := by
  refine ⟨⟨by decide, by decide⟩, fun w₁ h₁ => ?_⟩
  obtain rfl := Option.some.inj h₁
  refine ⟨fun _ _ _ _ => rfl, fun w₂ h₂ => ?_⟩
  obtain rfl := Option.some.inj h₂
  exact ⟨⟨by decide, by decide⟩, fun _ _ => trivial⟩

theorem there_and_back_invisible :
    Transition.EachStep (step twoThreads) (Invisible twoThreads) leaving thereAndBack := by
  refine (switches_invisible twoThreads_apart (fun _ => rfl) thereAndBack_legal).mpr
    ⟨fun v hv => ?_, fun w₁ h₁ => ⟨trivial, fun w₂ h₂ => ⟨fun v hv => ?_, fun _ _ => trivial⟩⟩⟩
  -- nothing of the second thread waits
  · cases hv
  · obtain rfl := Option.some.inj h₁
    obtain rfl := Option.some.inj h₂
    obtain rfl := Option.some.inj hv
    exact ⟨rfl, rfl⟩

/-- A thread with 0 in `edi` finds the address of `CurrentThread` there. -/
theorem switch_changes_edi :
    ¬ ∀ (L : Threads Unit) (w : World Unit) (events : List (Event Unit)), L.Apart →
      (∀ i, w.parked i = none) → Transition.EachStep (step L) (Legal L) w events →
        Transition.EachStep (step L) (Invisible L) w events := by
  intro h
  have hview := (h oneThread (calling 0 0) [.switch ()] oneThread_apart (fun _ => rfl)
    (calling_legal 0 0)).1 _ rfl
  have hedi : (oneThread.afterCall (oneThread.beforeCall () () (calling 0 0).cpu)).edi =
      0x3000 := by
    decide +kernel
  have hzero : (oneThread.afterCall (oneThread.beforeCall () () (calling 0 0).cpu)).edi = 0 :=
    hview.edi
  rw [hzero] at hedi
  exact absurd hedi (by decide)

end World
end Threads
end Tysos
