import Tysos.Interrupts.Gate
import Tysos.Support.Stack

/-!
# The interrupt handlers

`int_stub.asm` and `pit_8253_asm.asm`: what they put on the stack, the call of the function
that does the work, and what they take off again. The words that the processor itself puts
there are `frame`.
-/

namespace Tysos
open ByteMemory
set_option autoImplicit false

namespace Cpu

/-- The part of the task state segment that an interrupt from an outer ring uses. -/
structure Tss where
  esp0 : Word
  ss0 : Selector

def SameRing (g : Gate) (m : Cpu) : Prop := m.cs &&& 3 = g.selector &&& 3

instance (g : Gate) (m : Cpu) : Decidable (SameRing g m) := inferInstanceAs (Decidable (_ = _))

/-- The last that the processor does, on `m` with the frame on its stack. -/
def throughGate (g : Gate) (m stacked : Cpu) : Cpu :=
  { stacked with eip := g.handler, cs := g.selector, intf := m.intf && g.trap }

/-- The processor goes through a gate; `flags` is its flags register. An interrupt gate turns
interrupts off. -/
def interrupt (g : Gate) (tss : Tss) (flags : Word) (m : Cpu) : Cpu :=
  let stacked := if SameRing g m then m
    else ({ m with esp := tss.esp0, ss := tss.ss0 }.pushSel m.ss).push m.esp
  throughGate g m (((stacked.push flags).pushSel m.cs).push m.eip)

/-- `call` pushes the address of the instruction after it. -/
def call (back : Word) (m : Cpu) : Cpu := m.push back

/-- How both exception handlers begin. -/
def faultSave (m : Cpu) : Cpu :=
  let m := m.push m.ebp
  let m := { m with ebp := m.esp }
  m.pushad

/-- `int_0eh_handler` up to its call; `cr2` has the address that faulted. -/
def int0ehEnter (cr2 : Word) (m : Cpu) : Cpu :=
  let m := m.faultSave
  let m := m.push (read32 m.mem (m.ebp + 4))
  let m := { m with eax := cr2 }
  m.push m.eax

/-- `int_0eh_handler` from its call on. -/
def int0ehLeave (m : Cpu) : Cpu :=
  let m := { m with esp := m.esp + 8 }
  let m := m.popad
  let m := { m with ebp := m.top }.drop
  let m := { m with esp := m.esp + 4 }
  m.iret

/-- `int_0dh_handler` up to its call, from which there is no way back. -/
def int0dhEnter (m : Cpu) : Cpu :=
  let m := m.faultSave
  let m := m.push (read32 m.mem (m.ebp + 4))
  let m := m.push (read32 m.mem (m.ebp + 8))
  m.push (read32 m.mem (m.ebp + 12))

/-- `pit_8253_handler` up to its call. -/
def pit8253Enter (m : Cpu) : Cpu :=
  ((((m.pushSel m.ds).pushSel m.es).pushSel m.fs).pushSel m.gs).pushad

/-- `pit_8253_handler` from its call on. -/
def pit8253Leave (m : Cpu) : Cpu :=
  let m := m.popad
  let m := { m with gs := m.top.setWidth 16 }.drop
  let m := { m with fs := m.top.setWidth 16 }.drop
  let m := { m with es := m.top.setWidth 16 }.drop
  let m := { m with ds := m.top.setWidth 16 }.drop
  m.iret

/-- `m'` is `m` with `n` bytes more on the stack. -/
structure Grown (m m' : Cpu) (n : Nat) : Prop where
  regs : ∃ sp mem, m' = { m with esp := sp, mem := mem }
  esp : m'.esp.toNat + n = m.esp.toNat
  mem : Kept m.esp.toNat (2 ^ 32) m.mem m'.mem

section
variable {m m' : Cpu} {n : Nat} {ws : List Word}

theorem Grown.refl (m : Cpu) : Grown m m 0 := ⟨⟨_, _, rfl⟩, rfl, Kept.refl _ _ _⟩

theorem Grown.push (h : Grown m m' n) (hn : n + 4 ≤ m.esp.toNat) (v : Word) :
    Grown m (m'.push v) (n + 4) := by
  have hesp := h.esp
  constructor
  · obtain ⟨sp, mem, rfl⟩ := h.regs
    exact ⟨_, _, rfl⟩
  · rw [push_esp]
    bv_omega
  · refine h.mem.trans ?_
    exact (kept_push (by omega) v m'.mem).mono (by omega)

theorem Grown.trans {m'' : Cpu} {k : Nat} (h : Grown m m' n) (h' : Grown m' m'' k) :
    Grown m m'' (n + k) := by
  have hesp := h.esp
  have hesp' := h'.esp
  refine ⟨?_, by omega, h.mem.trans (h'.mem.mono (by omega))⟩
  obtain ⟨sp, mem, rfl⟩ := h.regs
  obtain ⟨sp', mem', rfl⟩ := h'.regs
  exact ⟨_, _, rfl⟩

theorem grown_pushad (h : 32 ≤ m.esp.toNat) : Grown m m.pushad 32 := by
  have h₂ := ((Grown.refl m).push (by omega) m.eax).push (by omega) m.ecx
  have h₄ := (h₂.push (by omega) m.edx).push (by omega) m.ebx
  have h₆ := (h₄.push (by omega) m.esp).push (by omega) m.ebp
  exact (h₆.push (by omega) m.esi).push (by omega) m.edi

theorem pushad_words (h : Words m.mem m.esp ws) (hlen : 4 * (ws.length + 8) ≤ 2 ^ 32) :
    Words m.pushad.mem m.pushad.esp
      (m.edi :: m.esi :: m.ebp :: m.esp :: m.ebx :: m.edx :: m.ecx :: m.eax :: ws) := by
  have h₁ := h.push (by omega) m.eax
  have h₂ := h₁.push (by simp; omega) m.ecx
  have h₃ := h₂.push (by simp; omega) m.edx
  have h₄ := h₃.push (by simp; omega) m.ebx
  have h₅ := h₄.push (by simp; omega) m.esp
  have h₆ := h₅.push (by simp; omega) m.ebp
  have h₇ := h₆.push (by simp; omega) m.esi
  exact h₇.push (by simp; omega) m.edi

theorem popad_eq {edi esi ebp sp ebx edx ecx eax : Word} (h : Words m.mem m.esp
    (edi :: esi :: ebp :: sp :: ebx :: edx :: ecx :: eax :: ws)) :
    m.popad = { m with
      edi := edi, esi := esi, ebp := ebp, ebx := ebx, edx := edx, ecx := ecx, eax := eax
      esp := m.esp + 32 } := by
  obtain ⟨h₁, h₂, h₃, -, h₅, h₆, h₇, h₈, -⟩ := h
  have hesp : m.esp + 4 + 4 + 4 + 4 + 4 + 4 + 4 + 4 = m.esp + 32 := by bv_omega
  unfold popad drop top
  dsimp only
  rw [h₁, h₂, h₃, h₅, h₆, h₇, h₈, hesp]

end

/-- Where the frame of an interrupt goes. -/
def frameBase (g : Gate) (tss : Tss) (m : Cpu) : Address :=
  if SameRing g m then m.esp else tss.esp0

def interruptFrame (g : Gate) (flags : Word) (m : Cpu) : List Word :=
  m.eip :: m.cs.setWidth 32 :: flags ::
    if SameRing g m then [] else [m.esp, m.ss.setWidth 32]

/-- The processor has gone through the gate, and the words `ws` are on top of its frame. The
stack ends at `top`. -/
structure Entered (g : Gate) (tss : Tss) (flags : Word) (top : Nat) (ws : List Word) (m e : Cpu) :
    Prop where
  regs : ∃ sp mem eip intf, e = { m with
    esp := sp, mem := mem, eip := eip, cs := g.selector
    ss := if SameRing g m then m.ss else tss.ss0, intf := intf }
  words : Words e.mem e.esp (ws ++ interruptFrame g flags m)
  esp : e.esp.toNat + 4 * (ws.length + (interruptFrame g flags m).length) =
    (frameBase g tss m).toNat
  mem : Kept (frameBase g tss m).toNat top m.mem e.mem

/-- `c` is `e` with `n` bytes more on the stack, the last of them `ws`, and with other values in
`ebp` and `eax`. -/
structure Saved (n : Nat) (ebp eax : Word) (ws : List Word) (e c : Cpu) : Prop where
  regs : ∃ sp mem, c = { e with esp := sp, mem := mem, ebp := ebp, eax := eax }
  words : Words c.mem c.esp ws
  esp : c.esp.toNat + n = e.esp.toNat
  mem : Kept e.esp.toNat (2 ^ 32) e.mem c.mem

/-- What a function compiled for the C calling convention leaves as it was, when it is called
with `args` bytes of arguments on a stack that ends at `top`. -/
structure Returned (args top : Nat) (c r : Cpu) : Prop where
  regs : ∃ eax ecx edx eip intf mem, r =
    { c with eax := eax, ecx := ecx, edx := edx, eip := eip, intf := intf, mem := mem }
  mem : Kept (c.esp.toNat + args) top c.mem r.mem

section
variable {g : Gate} {tss : Tss} {flags : Word} {top : Nat} {m e c r : Cpu} {ws : List Word}

theorem interruptFrame_length_le (g : Gate) (flags : Word) (m : Cpu) :
    (interruptFrame g flags m).length ≤ 5 := by
  unfold interruptFrame
  split <;> simp

/-- The words the processor pushes, one after the other. -/
theorem entered_interrupt (g : Gate) (tss : Tss) (flags : Word) (m : Cpu)
    (hroom : 20 ≤ (frameBase g tss m).toNat) (htop : top ≤ 2 ^ 32) :
    Entered g tss flags top [] m (m.interrupt g tss flags) := by
  unfold frameBase at hroom
  have hnil (k : Cpu) : Words k.mem k.esp [] := trivial
  by_cases hring : SameRing g m
  · rw [if_pos hring] at hroom
    have hg := (((Grown.refl m).push (by omega) flags).push (by omega)
      (m.cs.setWidth 32)).push (by omega) m.eip
    have hw := (((hnil m).push (by simp) flags).push (by simp)
      (m.cs.setWidth 32)).push (by simp) m.eip
    unfold interrupt
    rw [if_pos hring]
    refine ⟨?_, ?_, ?_, ?_⟩
    · rw [if_pos hring]
      obtain ⟨sp, mem, heq⟩ := hg.regs
      exact ⟨sp, mem, _, _, congrArg (throughGate g m) heq⟩
    · unfold interruptFrame
      rw [if_pos hring]
      exact hw
    · unfold interruptFrame frameBase
      rw [if_pos hring, if_pos hring]
      exact hg.esp
    · unfold frameBase
      rw [if_pos hring]
      exact hg.mem.below htop
  · rw [if_neg hring] at hroom
    let o : Cpu := { m with esp := tss.esp0, ss := tss.ss0 }
    have hroom' : 20 ≤ o.esp.toNat := hroom
    have hg₂ := ((Grown.refl o).push (by omega) (m.ss.setWidth 32)).push (by omega) m.esp
    have hg := ((hg₂.push (by omega) flags).push (by omega) (m.cs.setWidth 32)).push (by omega)
      m.eip
    have hw₂ := ((hnil o).push (by simp) (m.ss.setWidth 32)).push (by simp) m.esp
    have hw := ((hw₂.push (by simp) flags).push (by simp) (m.cs.setWidth 32)).push (by simp)
      m.eip
    unfold interrupt
    rw [if_neg hring]
    refine ⟨?_, ?_, ?_, ?_⟩
    · rw [if_neg hring]
      obtain ⟨sp, mem, heq⟩ := hg.regs
      exact ⟨sp, mem, _, _, congrArg (throughGate g m) heq⟩
    · unfold interruptFrame
      rw [if_neg hring]
      exact hw
    · unfold interruptFrame frameBase
      rw [if_neg hring, if_neg hring]
      exact hg.esp
    · unfold frameBase
      rw [if_neg hring]
      exact hg.mem.below htop

theorem Entered.push (h : Entered g tss flags top ws m e) (hroom : 4 ≤ e.esp.toNat)
    (htop : top ≤ 2 ^ 32) (v : Word) : Entered g tss flags top (v :: ws) m (e.push v) := by
  have hesp := h.esp
  have hlt := (frameBase g tss m).isLt
  have hg := (Grown.refl e).push hroom v
  have hge := hg.esp
  refine ⟨?_, ?_, ?_, ?_⟩
  · obtain ⟨sp, mem, eip, intf, rfl⟩ := h.regs
    exact ⟨_, _, _, _, rfl⟩
  · refine h.words.push ?_ v
    rw [List.length_append]
    omega
  · rw [List.length_cons]
    omega
  · refine h.mem.trans ((hg.mem.mono ?_).below htop)
    omega

/-- The word on top is taken off again, once memory has changed below. -/
theorem Entered.pop {v : Word} (h : Entered g tss flags top (v :: ws) m e)
    (hr : ∃ mem eip intf, r = { e with esp := e.esp + 4, mem := mem, eip := eip, intf := intf })
    (hmem : Kept e.esp.toNat top e.mem r.mem) (hbase : (frameBase g tss m).toNat ≤ top)
    (htop : top ≤ 2 ^ 32) : Entered g tss flags top ws m r := by
  have hesp := h.esp
  have hlt := (frameBase g tss m).isLt
  rw [List.length_cons] at hesp
  obtain ⟨mem, eip, intf, rfl⟩ := hr
  have hsp : (e.esp + 4).toNat = e.esp.toNat + 4 := by bv_omega
  refine ⟨?_, ?_, ?_, h.mem.trans (hmem.mono (by omega))⟩
  · obtain ⟨sp, mem', eip', intf', hregs⟩ := h.regs
    rw [hregs]
    exact ⟨_, _, _, _, rfl⟩
  · have hw := hmem.words h.words (Nat.le_refl _) (by simp; omega) htop
    exact hw.2
  · dsimp only
    omega

/-- `iret` with nothing on the stack but the frame. -/
theorem Entered.iret_eq (h : Entered g tss flags top [] m e)
    (hflags : m.intf = decide (flags &&& flagIF ≠ 0)) : e.iret = { m with mem := e.mem } := by
  obtain ⟨sp, mem, eip, intf, hregs⟩ := h.regs
  have hcs : ((m.cs.setWidth 32).setWidth 16 : Selector) = m.cs := by simp
  have hss : ((m.ss.setWidth 32).setWidth 16 : Selector) = m.ss := by simp
  have hesp := h.esp
  have hwords := h.words
  unfold interruptFrame frameBase at hesp
  unfold interruptFrame at hwords
  have hsel : e.cs = g.selector := by rw [hregs]
  by_cases hring : SameRing g m
  · rw [if_pos hring] at hesp hwords
    have hret : ((m.cs.setWidth 32).setWidth 16 : Selector) &&& 3 = e.cs &&& 3 := by
      rw [hcs, hsel]
      exact hring
    have heq := iret_eq_same hwords hret
    have hsp : e.esp + 12 = m.esp := by
      rw [if_pos hring] at hesp
      simp only [List.length_cons, List.length_nil] at hesp
      bv_omega
    rw [heq, hcs, hsp, ← hflags]
    rw [hregs, if_pos hring]
  · rw [if_neg hring] at hwords
    have hret : ((m.cs.setWidth 32).setWidth 16 : Selector) &&& 3 ≠ e.cs &&& 3 := by
      rw [hcs, hsel]
      exact hring
    have heq := iret_eq_outer hwords hret
    rw [heq, hcs, hss, ← hflags]
    rw [hregs]

theorem Saved.push {n : Nat} {ebp eax : Word} (h : Saved n ebp eax ws e c)
    (hroom : n + 4 ≤ e.esp.toNat) (hlen : 4 * (ws.length + 1) ≤ 2 ^ 32) (v : Word) :
    Saved (n + 4) ebp eax (v :: ws) e (c.push v) := by
  have hesp := h.esp
  have hg := (Grown.refl c).push (by omega) v
  have hge := hg.esp
  refine ⟨?_, h.words.push hlen v, by omega, h.mem.trans (hg.mem.mono (by omega))⟩
  obtain ⟨sp, mem, rfl⟩ := h.regs
  exact ⟨_, _, rfl⟩

theorem Saved.setEax {n : Nat} {ebp eax : Word} (h : Saved n ebp eax ws e c) (v : Word) :
    Saved n ebp v ws e { c with eax := v } := by
  refine ⟨?_, h.words, h.esp, h.mem⟩
  obtain ⟨sp, mem, rfl⟩ := h.regs
  exact ⟨_, _, rfl⟩

/-- The words `faultSave` puts on the stack. -/
def faultFrame (e : Cpu) : List Word :=
  [e.edi, e.esi, e.esp - 4, e.esp - 4, e.ebx, e.edx, e.ecx, e.eax, e.ebp]

theorem saved_faultSave (h : Words e.mem e.esp ws) (hroom : 36 ≤ e.esp.toNat)
    (hlen : e.esp.toNat + 4 * ws.length ≤ 2 ^ 32) :
    Saved 36 (e.esp - 4) e.eax (e.faultFrame ++ ws) e e.faultSave := by
  let p : Cpu := { e.push e.ebp with ebp := e.esp - 4 }
  have hg := (Grown.refl e).push (by omega) e.ebp
  have hp : p.esp.toNat + 4 = e.esp.toNat := hg.esp
  have hpush := grown_pushad (m := p) (by omega)
  have hpesp := hpush.esp
  have hw : Words p.mem p.esp (e.ebp :: ws) := h.push (by omega) e.ebp
  refine ⟨?_, ?_, ?_, ?_⟩
  · obtain ⟨sp, mem, heq⟩ := hpush.regs
    exact ⟨sp, mem, heq⟩
  · exact pushad_words hw (by simp; omega)
  · have heq : e.faultSave.esp.toNat = p.pushad.esp.toNat := rfl
    omega
  · exact hg.mem.trans (hpush.mem.mono (by omega))

/-- The words pushed since are still there to be read through `ebp`. -/
theorem Saved.argument {n : Nat} {ebp eax : Word} {ws' : List Word} (h : Saved n ebp eax ws' e c)
    (hw : Words e.mem e.esp ws) (hlen : e.esp.toNat + 4 * ws.length ≤ 2 ^ 32) :
    Words c.mem e.esp ws := h.mem.words hw (Nat.le_refl _) hlen (Nat.le_refl _)

theorem saved_int0ehEnter {error : Word} (h : Words e.mem e.esp (error :: ws))
    (hroom : 44 ≤ e.esp.toNat) (hlen : e.esp.toNat + 4 * (ws.length + 1) ≤ 2 ^ 32) (cr2 : Word) :
    Saved 44 (e.esp - 4) cr2 (cr2 :: error :: (e.faultFrame ++ error :: ws)) e
      (e.int0ehEnter cr2) := by
  have hs := saved_faultSave h (by omega) (by simpa using hlen)
  have hread : read32 e.faultSave.mem (e.faultSave.ebp + 4) = error := by
    have hebp : e.faultSave.ebp = e.esp - 4 := by
      obtain ⟨sp, mem, heq⟩ := hs.regs
      rw [heq]
    have hsp : e.esp - 4 + 4 = e.esp := by bv_omega
    rw [hebp, hsp]
    exact (hs.argument h (by simpa using hlen)).1
  have herror := hs.push (by omega) (by simp [faultFrame]; omega) error
  have hargs := (herror.setEax cr2).push (by omega) (by simp [faultFrame]; omega) cr2
  unfold int0ehEnter
  dsimp only
  rw [hread]
  exact hargs

theorem saved_int0dhEnter {error eip cs : Word} (h : Words e.mem e.esp (error :: eip :: cs :: ws))
    (hroom : 48 ≤ e.esp.toNat) (hlen : e.esp.toNat + 4 * (ws.length + 3) ≤ 2 ^ 32) :
    Saved 48 (e.esp - 4) e.eax (cs :: eip :: error :: (e.faultFrame ++ error :: eip :: cs :: ws)) e
      e.int0dhEnter := by
  have hlen' : e.esp.toNat + 4 * (error :: eip :: cs :: ws).length ≤ 2 ^ 32 := by simpa using hlen
  have hs := saved_faultSave h (by omega) hlen'
  have hs₁ := hs.push (by omega) (by simp [faultFrame]; omega) error
  have hs₂ := hs₁.push (by omega) (by simp [faultFrame]; omega) eip
  have hs₃ := hs₂.push (by omega) (by simp [faultFrame]; omega) cs
  have hebp : e.faultSave.ebp = e.esp - 4 := by
    obtain ⟨sp, mem, heq⟩ := hs.regs
    rw [heq]
  have hat₁ : e.esp - 4 + 4 = e.esp := by bv_omega
  have hat₂ : e.esp - 4 + 8 = e.esp + 4 := by bv_omega
  have hat₃ : e.esp - 4 + 12 = e.esp + 4 + 4 := by bv_omega
  have hread₁ : read32 e.faultSave.mem e.esp = error := (hs.argument h hlen').1
  have hread₂ : read32 (e.faultSave.push error).mem (e.esp + 4) = eip := (hs₁.argument h hlen').2.1
  have hread₃ : read32 ((e.faultSave.push error).push eip).mem (e.esp + 4 + 4) = cs :=
    (hs₂.argument h hlen').2.2.1
  unfold int0dhEnter
  simp only [push_ebp, hebp, hat₁, hat₂, hat₃, hread₁, hread₂, hread₃]
  exact hs₃

theorem saved_pit8253Enter (h : Words e.mem e.esp ws) (hroom : 48 ≤ e.esp.toNat)
    (hlen : e.esp.toNat + 4 * ws.length ≤ 2 ^ 32) :
    Saved 48 e.ebp e.eax (e.edi :: e.esi :: e.ebp :: (e.esp - 16) :: e.ebx :: e.edx :: e.ecx ::
      e.eax :: e.gs.setWidth 32 :: e.fs.setWidth 32 :: e.es.setWidth 32 :: e.ds.setWidth 32 :: ws)
      e e.pit8253Enter := by
  have hsel := (((Grown.refl e).push (by omega) (e.ds.setWidth 32)).push (by omega)
    (e.es.setWidth 32)).push (by omega) (e.fs.setWidth 32)
  have hg := hsel.push (by omega) (e.gs.setWidth 32)
  have hw₂ := (h.push (by omega) (e.ds.setWidth 32)).push (by simp; omega) (e.es.setWidth 32)
  have hw := (hw₂.push (by simp; omega) (e.fs.setWidth 32)).push (by simp; omega)
    (e.gs.setWidth 32)
  let p := (((e.pushSel e.ds).pushSel e.es).pushSel e.fs).pushSel e.gs
  have hpesp : p.esp.toNat + 16 = e.esp.toNat := hg.esp
  have hall := hg.trans (grown_pushad (m := p) (by omega))
  have hsp : p.esp = e.esp - 16 := by bv_omega
  have hwords := pushad_words (m := p) hw (by simp; omega)
  rw [hsp] at hwords
  refine ⟨?_, hwords, hall.esp, hall.mem⟩
  obtain ⟨sp, mem, heq⟩ := hall.regs
  exact ⟨sp, mem, heq⟩

/-- The words above the arguments are still there when the function returns. -/
theorem Returned.words {n : Nat} {ebp eax : Word} (args : Nat) (ws' : List Word)
    (hr : Returned (4 * args) top c r) (hs : Saved n ebp eax (ws' ++ ws) e c)
    (hargs : ws'.length = args) (htop : top ≤ 2 ^ 32) (hlt : c.esp.toNat + 4 * args < 2 ^ 32)
    (hlen : c.esp.toNat + 4 * (args + ws.length) ≤ top) :
    Words r.mem (c.esp + BitVec.ofNat 32 (4 * args)) ws := by
  have hw := (words_append.mp hs.words).2
  rw [hargs] at hw
  exact hr.mem.words hw (by bv_omega) (by bv_omega) htop

theorem int0ehLeave_eq {cr2 error : Word} (hs : Saved 44 (e.esp - 4) cr2
    (cr2 :: error :: (e.faultFrame ++ error :: ws)) e c) (hr : Returned 8 top c r)
    (htop : top ≤ 2 ^ 32) (hlen : e.esp.toNat + 4 * (ws.length + 1) ≤ top) :
    r.int0ehLeave = Cpu.iret { e with
      esp := e.esp + 4, mem := r.mem, eip := r.eip, intf := r.intf } := by
  have hesp := hs.esp
  have hw : Words r.mem (c.esp + 8) (e.faultFrame ++ error :: ws) :=
    hr.words 2 [cr2, error] hs rfl htop (by omega) (by
      simp [faultFrame]
      omega)
  obtain ⟨sp, mem, hc⟩ := hs.regs
  obtain ⟨eax, ecx, edx, eip, intf, rmem, hregs⟩ := hr.regs
  have hspr : r.esp = c.esp := by rw [hregs]
  have hat : Words r.mem (r.esp + 8) (e.faultFrame ++ error :: ws) := by
    rw [hspr]
    exact hw
  have hpop := popad_eq (m := { r with esp := r.esp + 8 }) hat
  have hebp : read32 r.mem (c.esp + 8 + 32) = e.ebp := by
    have hsplit : Words r.mem (c.esp + 8) ([e.edi, e.esi, e.esp - 4, e.esp - 4, e.ebx, e.edx,
      e.ecx, e.eax] ++ e.ebp :: error :: ws) := hw
    exact (words_append.mp hsplit).2.1
  have hsp : c.esp + 8 + 32 + 4 + 4 = e.esp + 4 := by bv_omega
  unfold int0ehLeave
  dsimp only
  rw [hpop]
  unfold drop Cpu.top
  dsimp only
  rw [hspr, hebp, hsp]
  rw [hregs, hc]

theorem pit8253Leave_eq (hs : Saved 48 e.ebp e.eax (e.edi :: e.esi :: e.ebp :: (e.esp - 16) ::
      e.ebx :: e.edx :: e.ecx :: e.eax :: e.gs.setWidth 32 :: e.fs.setWidth 32 ::
      e.es.setWidth 32 :: e.ds.setWidth 32 :: ws) e c)
    (hr : Returned 0 top c r) (htop : top ≤ 2 ^ 32) (hlen : e.esp.toNat + 4 * ws.length ≤ top) :
    r.pit8253Leave = Cpu.iret { e with mem := r.mem, eip := r.eip, intf := r.intf } := by
  have hesp := hs.esp
  have hw : Words r.mem (c.esp + 0) _ :=
    hr.words 0 [] hs rfl htop (by omega) (by simp; omega)
  have hzero : c.esp + 0 = c.esp := by simp
  rw [hzero] at hw
  obtain ⟨sp, mem, hc⟩ := hs.regs
  obtain ⟨eax, ecx, edx, eip, intf, rmem, hregs⟩ := hr.regs
  have hspr : r.esp = c.esp := by rw [hregs]
  have hat := hw
  rw [← hspr] at hat
  have hpop := popad_eq hat
  have hsplit : Words r.mem c.esp ([e.edi, e.esi, e.ebp, e.esp - 16, e.ebx, e.edx, e.ecx, e.eax] ++
    _ :: _ :: _ :: _ :: ws) := hw
  obtain ⟨hgs, hfs, hes, hds, -⟩ := (words_append.mp hsplit).2
  have h32 : (BitVec.ofNat 32 (4 * [e.edi, e.esi, e.ebp, e.esp - 16, e.ebx, e.edx, e.ecx,
    e.eax].length)) = 32 := rfl
  rw [h32] at hgs hfs hes hds
  have hsp : c.esp + 32 + 4 + 4 + 4 + 4 = e.esp := by bv_omega
  have hsel (s : Selector) : ((s.setWidth 32).setWidth 16 : Selector) = s := by simp
  unfold pit8253Leave
  dsimp only
  rw [hpop]
  unfold drop Cpu.top
  dsimp only
  rw [hspr, hgs, hfs, hes, hds, hsp, hsel, hsel, hsel, hsel]
  rw [hregs, hc]

theorem pageFault_returns {error cr2 : Word} (h : Entered g tss flags top [error] m e)
    (hr : Returned 8 top (e.int0ehEnter cr2) r) (hroom : 44 ≤ e.esp.toNat)
    (hbase : (frameBase g tss m).toNat ≤ top) (htop : top ≤ 2 ^ 32)
    (hflags : m.intf = decide (flags &&& flagIF ≠ 0)) :
    r.int0ehLeave = { m with mem := r.mem } ∧ Kept (frameBase g tss m).toNat top m.mem r.mem := by
  have hesp := h.esp
  rw [List.length_singleton] at hesp
  have hwords : Words e.mem e.esp (error :: interruptFrame g flags m) := h.words
  have hs := saved_int0ehEnter hwords hroom (by omega) cr2
  have hcesp := hs.esp
  have hkept : Kept e.esp.toNat top e.mem r.mem :=
    (hs.mem.below htop).trans (hr.mem.mono (by omega))
  have hframe := h.pop (r := { e with
    esp := e.esp + 4, mem := r.mem, eip := r.eip, intf := r.intf }) ⟨_, _, _, rfl⟩ hkept hbase htop
  rw [int0ehLeave_eq hs hr htop (by omega), hframe.iret_eq hflags]
  exact ⟨rfl, hframe.mem⟩

/-- What the two functions find where the C calling convention has their arguments: the address
and the error code for `page_fault`, and `cs`, `eip` and the error code for `gp_fault`. -/
theorem fault_arguments (g : Gate) (tss : Tss) (flags error cr2 : Word) (m : Cpu)
    (hroom : 72 ≤ (frameBase g tss m).toNat) :
    Words (((m.interrupt g tss flags).push error).int0ehEnter cr2).mem
        (((m.interrupt g tss flags).push error).int0ehEnter cr2).esp [cr2, error] ∧
      Words ((m.interrupt g tss flags).push error).int0dhEnter.mem
        ((m.interrupt g tss flags).push error).int0dhEnter.esp
        [m.cs.setWidth 32, m.eip, error] := by
  have hin := entered_interrupt g tss flags m (by omega) (Nat.le_refl (2 ^ 32))
  have hlen := interruptFrame_length_le g flags m
  have hlt := (frameBase g tss m).isLt
  have hesp := hin.esp
  rw [List.length_nil] at hesp
  have he := hin.push (by omega) (Nat.le_refl _) error
  have hesp' := he.esp
  rw [List.length_singleton] at hesp'
  obtain ⟨ws, hws⟩ : ∃ ws, interruptFrame g flags m = m.eip :: m.cs.setWidth 32 :: flags :: ws :=
    ⟨_, rfl⟩
  have hframe := he.words
  rw [hws, List.singleton_append] at hframe
  rw [hws] at hesp' hlen
  simp only [List.length_cons] at hesp' hlen
  constructor
  · have hs := saved_int0ehEnter hframe (by omega) (by simp only [List.length_cons]; omega) cr2
    have hsplit : Words _ _ ([cr2, error] ++ _) := hs.words
    exact (words_append.mp hsplit).1
  · have hs := saved_int0dhEnter hframe (by omega) (by simp only [List.length_cons]; omega)
    have hsplit : Words _ _ ([m.cs.setWidth 32, m.eip, error] ++ _) := hs.words
    exact (words_append.mp hsplit).1

theorem timer_returns (h : Entered g tss flags top [] m e)
    (hr : Returned 0 top e.pit8253Enter r) (hroom : 48 ≤ e.esp.toNat)
    (hbase : (frameBase g tss m).toNat ≤ top) (htop : top ≤ 2 ^ 32)
    (hflags : m.intf = decide (flags &&& flagIF ≠ 0)) :
    r.pit8253Leave = { m with mem := r.mem } ∧ Kept (frameBase g tss m).toNat top m.mem r.mem := by
  have hesp := h.esp
  rw [List.length_nil] at hesp
  have hs := saved_pit8253Enter h.words hroom (by simp; omega)
  have hcesp := hs.esp
  have hkept : Kept e.esp.toNat top e.mem r.mem :=
    (hs.mem.below htop).trans (hr.mem.mono (by omega))
  have hframe : Entered g tss flags top [] m
      { e with mem := r.mem, eip := r.eip, intf := r.intf } := by
    refine ⟨?_, hkept.words h.words (Nat.le_refl _) (by simp; omega) htop, h.esp,
      h.mem.trans (hkept.mono (by omega))⟩
    obtain ⟨sp, mem, eip, intf, hregs⟩ := h.regs
    rw [hregs]
    exact ⟨_, _, _, _, rfl⟩
  rw [pit8253Leave_eq hs hr htop (by simp; omega), hframe.iret_eq hflags]
  exact ⟨rfl, hframe.mem⟩

end

/-- A function, from what its caller calls it with to its return, or a whole interrupt. Of the
stack a function may change what is below `floor`. -/
inductive Mode where
  | body (floor : Nat)
  | interrupt

/-- Compiled code loads no selectors and no `cr3`, so it does not switch to another thread. -/
structure Followed (floor top : Nat) (m m' : Cpu) : Prop where
  regs : ∃ eax ecx edx ebx esp ebp esi edi eip intf mem, m' = { m with
    eax := eax, ecx := ecx, edx := edx, ebx := ebx, esp := esp, ebp := ebp, esi := esi, edi := edi
    eip := eip, intf := intf, mem := mem }
  mem : Kept floor top m.mem m'.mem

/-- What a function has put back when it returns. -/
structure PutBack (c r : Cpu) : Prop where
  esp : r.esp = c.esp
  ebx : r.ebx = c.ebx
  ebp : r.ebp = c.ebp
  esi : r.esi = c.esi
  edi : r.edi = c.edi

def timerGate (handler : Word) : Gate := ⟨handler, Interrupt.selectorCode0Rpl0, 0, false⟩

/-- Interrupts and the functions that they call, which are themselves broken into by others at
any point. -/
inductive Exec (handlers : Interrupt.Handlers) (timer : Word) (tss : Tss) (top : Nat) :
    Mode → Cpu → Cpu → Prop where
  | finish (floor : Nat) (m : Cpu) : Exec handlers timer tss top (.body floor) m m
  | own {floor : Nat} {m m' m'' : Cpu} : Followed floor top m m' →
      Exec handlers timer tss top (.body floor) m' m'' →
      Exec handlers timer tss top (.body floor) m m''
  | broken {floor : Nat} {m m' m'' : Cpu} : m.esp.toNat ≤ floor →
      Exec handlers timer tss top .interrupt m m' →
      Exec handlers timer tss top (.body floor) m' m'' →
      Exec handlers timer tss top (.body floor) m m''
  | pageFault {m c r : Cpu} (flags error cr2 back : Word)
      (hbase : (frameBase (Interrupt.pageFaultGate handlers) tss m).toNat ≤ top)
      (hroom : 72 ≤ (frameBase (Interrupt.pageFaultGate handlers) tss m).toNat)
      (hflags : m.intf = decide (flags &&& flagIF ≠ 0))
      (hc : c = ((m.interrupt (Interrupt.pageFaultGate handlers) tss flags).push
        error).int0ehEnter cr2) :
      Exec handlers timer tss top (.body (c.esp.toNat + 8)) (c.call back) r → PutBack c r →
      Exec handlers timer tss top .interrupt m r.int0ehLeave
  | timer {m c r : Cpu} (flags back : Word) (hintf : m.intf = true)
      (hbase : (frameBase (timerGate timer) tss m).toNat ≤ top)
      (hroom : 72 ≤ (frameBase (timerGate timer) tss m).toNat)
      (hflags : m.intf = decide (flags &&& flagIF ≠ 0))
      (hc : c = (m.interrupt (timerGate timer) tss flags).pit8253Enter) :
      Exec handlers timer tss top (.body c.esp.toNat) (c.call back) r → PutBack c r →
      Exec handlers timer tss top .interrupt m r.pit8253Leave

section
variable {m m' m'' c r : Cpu} {floor top : Nat}

theorem Followed.refl (floor top : Nat) (m : Cpu) : Followed floor top m m :=
  ⟨⟨_, _, _, _, _, _, _, _, _, _, _, rfl⟩, Kept.refl _ _ _⟩

theorem Followed.trans (h : Followed floor top m m') (h' : Followed floor top m' m'') :
    Followed floor top m m'' := by
  refine ⟨?_, h.mem.trans h'.mem⟩
  obtain ⟨_, _, _, _, _, _, _, _, _, _, _, rfl⟩ := h.regs
  obtain ⟨_, _, _, _, _, _, _, _, _, _, _, rfl⟩ := h'.regs
  exact ⟨_, _, _, _, _, _, _, _, _, _, _, rfl⟩

/-- A call of such a function, seen from its caller. -/
theorem Followed.returned {back : Word} (args : Nat)
    (h : Followed (c.esp.toNat + args) top (c.call back) r) (hp : PutBack c r)
    (hroom : 4 ≤ c.esp.toNat) (htop : top ≤ 2 ^ 32) : Returned args top c r := by
  constructor
  · obtain ⟨eax, ecx, edx, ebx, esp, ebp, esi, edi, eip, intf, mem, rfl⟩ := h.regs
    obtain ⟨hesp, hebx, hebp, hesi, hedi⟩ := hp
    refine ⟨eax, ecx, edx, eip, intf, mem, ?_⟩
    dsimp only at hesp hebx hebp hesi hedi
    rw [hesp, hebx, hebp, hesi, hedi]
    rfl
  · have hpush : Kept c.esp.toNat (2 ^ 32) c.mem (c.call back).mem := kept_push hroom back c.mem
    exact ((hpush.mono (Nat.le_add_right _ _)).below htop).trans h.mem

end

/-- Where the stack of the handler begins: where the kernel is, or at the `esp0` of the TSS. -/
def stackBase (tss : Tss) (m : Cpu) : Address := if m.cs &&& 3 = 0 then m.esp else tss.esp0

/-- The interrupt is over, and nothing but memory has changed; of the stack in use, not even
that. -/
structure Transparent (tss : Tss) (top : Nat) (m m' : Cpu) : Prop where
  regs : ∃ mem, m' = { m with mem := mem }
  mem : Kept (stackBase tss m).toNat top m.mem m'.mem

def Mode.Sound (tss : Tss) (top : Nat) : Mode → Cpu → Cpu → Prop
  | .body floor, m, m' => m.cs &&& 3 = 0 → Followed floor top m m'
  | .interrupt, m, m' => Transparent tss top m m'

section
variable {handlers : Interrupt.Handlers} {timer : Word} {tss : Tss} {top : Nat} {m m' c r : Cpu}
  {floor : Nat}

theorem Transparent.followed (h : Transparent tss top m m') (hring : m.cs &&& 3 = 0)
    (hfloor : m.esp.toNat ≤ floor) : Followed floor top m m' := by
  have hmem := h.mem
  unfold stackBase at hmem
  rw [if_pos hring] at hmem
  refine ⟨?_, hmem.mono hfloor⟩
  obtain ⟨mem, rfl⟩ := h.regs
  exact ⟨_, _, _, _, _, _, _, _, _, _, _, rfl⟩

theorem Transparent.of_eq {mem : Memory} (h : m' = { m with mem := mem })
    (hmem : Kept (stackBase tss m).toNat top m.mem mem) : Transparent tss top m m' := by
  refine ⟨⟨mem, h⟩, ?_⟩
  rw [h]
  exact hmem

theorem Followed.cs_eq (h : Followed floor top m m') : m'.cs = m.cs := by
  obtain ⟨_, _, _, _, _, _, _, _, _, _, _, rfl⟩ := h.regs
  rfl

theorem Saved.cs_eq {n : Nat} {ebp eax : Word} {ws : List Word} (h : Saved n ebp eax ws m m') :
    m'.cs = m.cs := by
  obtain ⟨_, _, rfl⟩ := h.regs
  rfl

theorem Entered.ring_zero {g : Gate} {flags : Word} {ws : List Word}
    (h : Entered g tss flags top ws m c) (hg : g.selector = Interrupt.selectorCode0Rpl0) :
    c.cs &&& 3 = 0 := by
  obtain ⟨_, _, _, _, rfl⟩ := h.regs
  dsimp only
  rw [hg]
  rfl

theorem frameBase_eq {g : Gate} (hg : g.selector = Interrupt.selectorCode0Rpl0) :
    frameBase g tss m = stackBase tss m := by
  have hzero : Interrupt.selectorCode0Rpl0 &&& 3 = 0 := by decide
  have hiff : SameRing g m ↔ m.cs &&& 3 = 0 := by
    unfold SameRing
    rw [hg, hzero]
  exact if_congr hiff rfl rfl

/-- By induction on how the interrupts are nested. -/
theorem Exec.sound (htop : top ≤ 2 ^ 32) {mode : Mode}
    (h : Exec handlers timer tss top mode m m') : mode.Sound tss top m m' := by
  induction h with
  | finish floor m => exact fun _ => Followed.refl floor top m
  | own hstep _ ih =>
    intro hring
    exact hstep.trans (ih (by rw [hstep.cs_eq]; exact hring))
  | broken hfloor _ _ ihi ihb =>
    intro hring
    have hstep := Transparent.followed ihi hring hfloor
    exact hstep.trans (ihb (by rw [hstep.cs_eq]; exact hring))
  | @pageFault m c r flags error cr2 back hbase hroom hflags hc _ hp ih =>
    have hin := entered_interrupt (Interrupt.pageFaultGate handlers) tss flags m (by omega) htop
    have hlen := interruptFrame_length_le (Interrupt.pageFaultGate handlers) flags m
    have hesp := hin.esp
    rw [List.length_nil] at hesp
    have he := hin.push (by omega) htop error
    have hesp' := he.esp
    rw [List.length_singleton] at hesp'
    have hwords : Words _ _ (error :: interruptFrame (Interrupt.pageFaultGate handlers) flags m) :=
      he.words
    have hs := saved_int0ehEnter hwords (by omega) (by omega) cr2
    rw [← hc] at hs
    have hcesp := hs.esp
    have hcs : (c.call back).cs = c.cs := rfl
    have hret := (ih (by rw [hcs, hs.cs_eq]; exact he.ring_zero rfl)).returned 8 hp (by omega) htop
    rw [hc] at hret
    have hres := pageFault_returns he hret (by omega) hbase htop hflags
    rw [frameBase_eq rfl] at hres
    exact Transparent.of_eq hres.1 hres.2
  | @timer m c r flags back hintf hbase hroom hflags hc _ hp ih =>
    have hin := entered_interrupt (timerGate timer) tss flags m (by omega) htop
    have hlen := interruptFrame_length_le (timerGate timer) flags m
    have hesp := hin.esp
    rw [List.length_nil] at hesp
    have hs := saved_pit8253Enter hin.words (by omega) (by simp; omega)
    rw [← hc] at hs
    have hcesp := hs.esp
    have hcs : (c.call back).cs = c.cs := rfl
    have hret := Followed.returned 0
      (ih (by rw [hcs, hs.cs_eq]; exact hin.ring_zero rfl)) hp (by omega) htop
    rw [hc] at hret
    have hres := timer_returns hin hret (by omega) hbase htop hflags
    rw [frameBase_eq rfl] at hres
    exact Transparent.of_eq hres.1 hres.2

/-- However interrupts break into one another, each leaves what it broke into as it was. -/
theorem Exec.transparent (htop : top ≤ 2 ^ 32)
    (h : Exec handlers timer tss top .interrupt m m') : Transparent tss top m m' := h.sound htop

end

section User

/-- A thread in ring 3. -/
def userCpu : Cpu :=
  { eax := 1, ecx := 2, edx := 3, ebx := 4, esp := 0x50000000, ebp := 0x50000010, esi := 5, edi := 6
    cs := 0x1b, ss := 0x23, ds := 0x23, es := 0x23, fs := 0x23, gs := 0x23
    cr3 := 0x5000, eip := 0x40001000, intf := true, mem := fun _ => 0 }

theorem fault_arguments_user : Words
    (((userCpu.interrupt (Interrupt.pageFaultGate ⟨0x101000, 0x102000⟩) ⟨0x9000, 0x10⟩ 0x200).push
      4).int0ehEnter 0x40400000).mem
    (((userCpu.interrupt (Interrupt.pageFaultGate ⟨0x101000, 0x102000⟩) ⟨0x9000, 0x10⟩ 0x200).push
      4).int0ehEnter 0x40400000).esp [0x40400000, 4] :=
  (fault_arguments (Interrupt.pageFaultGate ⟨0x101000, 0x102000⟩) ⟨0x9000, 0x10⟩ 0x200 4 0x40400000
    userCpu (by decide)).1

/-- A function that only returns. -/
theorem exec_returning (handlers : Interrupt.Handlers) (timer : Word) (tss : Tss) (top : Nat)
    (floor : Nat) (c : Cpu) (back : Word) :
    Exec handlers timer tss top (.body floor) (c.call back) { c.call back with esp := c.esp } := by
  have hret : Followed floor top (c.call back) { c.call back with esp := c.esp } :=
    ⟨⟨_, _, _, _, _, _, _, _, _, _, _, rfl⟩, Kept.refl _ _ _⟩
  exact .own hret (.finish _ _)

def faultCpu : Cpu :=
  ((userCpu.interrupt (Interrupt.pageFaultGate ⟨0x101000, 0x102000⟩) ⟨0x9000, 0x10⟩ 0x200).push
    4).int0ehEnter 0x40400000

/-- A timer interrupt, whose function does nothing, comes when that function has begun. -/
theorem exec_inside : ∃ b, Exec ⟨0x101000, 0x102000⟩ 0x103000 ⟨0x9000, 0x10⟩ 0x9000 .interrupt
    (faultCpu.call 0x101020) b ∧ ∃ mem, b = { faultCpu.call 0x101020 with mem := mem } := by
  let c := ((faultCpu.call 0x101020).interrupt (timerGate 0x103000) ⟨0x9000, 0x10⟩
    0x200).pit8253Enter
  have hexec : Exec ⟨0x101000, 0x102000⟩ 0x103000 ⟨0x9000, 0x10⟩ 0x9000 .interrupt
      (faultCpu.call 0x101020) _ :=
    .timer 0x200 0x100500 rfl (by decide) (by decide) (by decide) rfl
      (exec_returning _ _ _ _ _ c 0x100500) ⟨rfl, rfl, rfl, rfl, rfl⟩
  exact ⟨_, hexec, (hexec.sound (by decide)).regs⟩

/-- A page fault in ring 3, a timer interrupt inside it, and a page table filled in after that. -/
theorem transparent_nested : ∃ m', Exec ⟨0x101000, 0x102000⟩ 0x103000 ⟨0x9000, 0x10⟩ 0x9000
    .interrupt userCpu m' ∧ Transparent ⟨0x9000, 0x10⟩ 0x9000 userCpu m' := by
  obtain ⟨b, hinside, mem, rfl⟩ := exec_inside
  let r : Cpu :=
    { faultCpu with eax := 0x7000, mem := write32 mem 0x20000 0x7007 }
  have hrest : Followed (faultCpu.esp.toNat + 8) 0x9000
      { faultCpu.call 0x101020 with mem := mem } r := by
    refine ⟨⟨_, _, _, _, _, _, _, _, _, _, _, rfl⟩, fun x _ hx => ?_⟩
    refine write32_of_not_inRange fun hin => ?_
    unfold InRange at hin
    bv_omega
  have hbody : Exec ⟨0x101000, 0x102000⟩ 0x103000 ⟨0x9000, 0x10⟩ 0x9000
      (.body (faultCpu.esp.toNat + 8)) (faultCpu.call 0x101020) r :=
    .broken (by decide) hinside (.own hrest (.finish _ _))
  have hback : PutBack faultCpu r := ⟨rfl, rfl, rfl, rfl, rfl⟩
  have hexec : Exec ⟨0x101000, 0x102000⟩ 0x103000 ⟨0x9000, 0x10⟩ 0x9000 .interrupt userCpu _ :=
    .pageFault 0x200 4 0x40400000 0x101020 (by decide) (by decide) (by decide) rfl hbody hback
  exact ⟨_, hexec, hexec.transparent (by decide)⟩

end User

end Cpu
end Tysos
