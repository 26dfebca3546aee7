import Tysos.Support.ByteMemory

/-!
# The switch code

The registers and the instructions that `i386_switcher.asm` uses, and its three routines.
What is saved on the stack of the old thread are the words `frame`, under the return address
of `do_switch`.
-/

namespace Tysos
open ByteMemory
set_option autoImplicit false

abbrev Word := BitVec 32
abbrev Selector := BitVec 16

structure Cpu where
  eax : Word
  ecx : Word
  edx : Word
  ebx : Word
  esp : Word
  ebp : Word
  esi : Word
  edi : Word
  cs : Selector
  ss : Selector
  ds : Selector
  es : Selector
  fs : Selector
  gs : Selector
  cr3 : Word
  eip : Word
  intf : Bool
  mem : Memory

namespace Cpu

def push (v : Word) (m : Cpu) : Cpu :=
  { m with esp := m.esp - 4, mem := write32 m.mem (m.esp - 4) v }

section Push
variable (v : Word) (m : Cpu)

@[simp] theorem push_eax : (m.push v).eax = m.eax := rfl
@[simp] theorem push_ecx : (m.push v).ecx = m.ecx := rfl
@[simp] theorem push_edx : (m.push v).edx = m.edx := rfl
@[simp] theorem push_ebx : (m.push v).ebx = m.ebx := rfl
@[simp] theorem push_ebp : (m.push v).ebp = m.ebp := rfl
@[simp] theorem push_esi : (m.push v).esi = m.esi := rfl
@[simp] theorem push_edi : (m.push v).edi = m.edi := rfl
@[simp] theorem push_ds : (m.push v).ds = m.ds := rfl
@[simp] theorem push_es : (m.push v).es = m.es := rfl
@[simp] theorem push_fs : (m.push v).fs = m.fs := rfl
@[simp] theorem push_gs : (m.push v).gs = m.gs := rfl
@[simp] theorem push_esp : (m.push v).esp = m.esp - 4 := rfl

end Push

def pushSel (s : Selector) (m : Cpu) : Cpu := m.push (s.setWidth 32)

def top (m : Cpu) : Word := read32 m.mem m.esp

def drop (m : Cpu) : Cpu := { m with esp := m.esp + 4 }

def pushad (m : Cpu) : Cpu :=
  ((((((((m.push m.eax).push m.ecx).push m.edx).push m.ebx).push m.esp).push m.ebp).push
    m.esi).push m.edi)

/-- The word for `esp` is skipped. -/
def popad (m : Cpu) : Cpu :=
  let m := { m with edi := m.top }.drop
  let m := { m with esi := m.top }.drop
  let m := { m with ebp := m.top }.drop
  let m := m.drop
  let m := { m with ebx := m.top }.drop
  let m := { m with edx := m.top }.drop
  let m := { m with ecx := m.top }.drop
  { m with eax := m.top }.drop

def ret (m : Cpu) : Cpu := { m with eip := m.top }.drop

/-- The first half of `do_switch`: all registers on the stack. -/
def save (m : Cpu) : Cpu :=
  ((((({ m with intf := false }.pushSel m.gs).pushSel m.fs).pushSel m.es).pushSel m.ds).pushad)

def loadCr3 (m : Cpu) : Cpu := if m.eax ≠ 0 then { m with cr3 := m.eax } else m

def storeEsp (m : Cpu) : Cpu :=
  if m.edx ≠ 0 then { m with mem := write32 m.mem m.edx m.esp } else m

def loadEsp (m : Cpu) : Cpu :=
  if m.ecx ≠ 0 then { m with esp := read32 m.mem m.ecx } else m

def storeCurrent (m : Cpu) : Cpu :=
  if m.edi ≠ 0 then { m with mem := write32 m.mem m.edi m.esi } else m

/-- The middle of `do_switch`, from the first `test` to `.dopop`. -/
def exchange (m : Cpu) : Cpu := m.loadCr3.storeEsp.loadEsp.storeCurrent

/-- The rest of `do_switch`, from `.dopop` on. -/
def restore (m : Cpu) : Cpu :=
  let m := m.popad
  let m := { m with ds := m.top.setWidth 16 }.drop
  let m := { m with es := m.top.setWidth 16 }.drop
  let m := { m with fs := m.top.setWidth 16 }.drop
  let m := { m with gs := m.top.setWidth 16 }.drop
  { m with intf := true }.ret

theorem save_eq (m : Cpu) : m.save =
    ((((((((((({ m with intf := false }.push (m.gs.setWidth 32)).push (m.fs.setWidth 32)).push
      (m.es.setWidth 32)).push (m.ds.setWidth 32)).push m.eax).push m.ecx).push m.edx).push
      m.ebx).push (m.esp - 4 - 4 - 4 - 4)).push m.ebp).push m.esi).push m.edi := by
  simp [save, pushad, pushSel]

def doSwitch (m : Cpu) : Cpu := m.save.exchange.restore

/-- The five `mov` of `c_switch`. -/
def loadArgs (m : Cpu) : Cpu :=
  { m with
    eax := read32 m.mem (m.esp + 4)
    ecx := read32 m.mem (m.esp + 8)
    edx := read32 m.mem (m.esp + 12)
    edi := read32 m.mem (m.esp + 16)
    esi := read32 m.mem (m.esp + 20) }

/-- `c_switch` up to the `ret` of `do_switch`; `back` is the address of its own `ret`. -/
def cSwitch (back : Word) (m : Cpu) : Cpu := (m.loadArgs.push back).doSwitch

theorem loadArgs_eq {m : Cpu} {ret space new old current thread : Word} {ws : List Word}
    (h : Words m.mem m.esp (ret :: space :: new :: old :: current :: thread :: ws)) :
    m.loadArgs =
      { m with eax := space, ecx := new, edx := old, edi := current, esi := thread } := by
  obtain ⟨-, heax, hecx, hedx, hedi, hesi, -⟩ := h
  have h₂ : m.esp + 4 + 4 = m.esp + 8 := by bv_omega
  have h₃ : m.esp + 8 + 4 = m.esp + 12 := by bv_omega
  have h₄ : m.esp + 12 + 4 = m.esp + 16 := by bv_omega
  have h₅ : m.esp + 16 + 4 = m.esp + 20 := by bv_omega
  rw [h₂] at hecx hedx hedi hesi
  rw [h₃] at hedx hedi hesi
  rw [h₄] at hedi hesi
  rw [h₅] at hesi
  unfold loadArgs
  rw [heax, hecx, hedx, hedi, hesi]

/-- Bit 9 of the flags register. -/
def flagIF : Word := 0x200

/-- `iret`, which takes the stack from its frame as well when it goes to an outer ring. -/
def iret (m : Cpu) : Cpu :=
  let ring := m.cs &&& 3
  let m := { m with eip := m.top }.drop
  let m := { m with cs := m.top.setWidth 16 }.drop
  let m := { m with intf := m.top &&& flagIF ≠ 0 }.drop
  if m.cs &&& 3 = ring then m
  else { m with esp := m.top, ss := (read32 m.mem (m.esp + 4)).setWidth 16 }

theorem iret_eq_same {m : Cpu} {eip cs flags : Word} {ws : List Word}
    (h : Words m.mem m.esp (eip :: cs :: flags :: ws))
    (hring : (cs.setWidth 16 : Selector) &&& 3 = m.cs &&& 3) :
    m.iret = { m with
      eip := eip, cs := cs.setWidth 16, intf := flags &&& flagIF ≠ 0, esp := m.esp + 12 } := by
  obtain ⟨h₁, h₂, h₃, -⟩ := h
  have hesp : m.esp + 4 + 4 + 4 = m.esp + 12 := by bv_omega
  unfold iret drop top
  dsimp only
  rw [h₁, h₂, h₃, if_pos hring, hesp]

theorem iret_eq_outer {m : Cpu} {eip cs flags esp ss : Word} {ws : List Word}
    (h : Words m.mem m.esp (eip :: cs :: flags :: esp :: ss :: ws))
    (hring : (cs.setWidth 16 : Selector) &&& 3 ≠ m.cs &&& 3) :
    m.iret = { m with
      eip := eip, cs := cs.setWidth 16, intf := flags &&& flagIF ≠ 0, esp := esp
      ss := ss.setWidth 16 } := by
  obtain ⟨h₁, h₂, h₃, h₄, h₅, -⟩ := h
  unfold iret drop top
  dsimp only
  rw [h₁, h₂, h₃, h₄, h₅, if_neg hring]

/-- The words `save` puts on the stack, from the lowest address up. -/
def frame (m : Cpu) : List Word :=
  [m.edi, m.esi, m.ebp, m.esp - 16, m.ebx, m.edx, m.ecx, m.eax, m.ds.setWidth 32,
    m.es.setWidth 32, m.fs.setWidth 32, m.gs.setWidth 32]

/-- `m'` is `m` with `n` bytes more on the stack. -/
structure Pushed (m m' : Cpu) (n : Nat) : Prop where
  eax : m'.eax = m.eax
  ecx : m'.ecx = m.ecx
  edx : m'.edx = m.edx
  esi : m'.esi = m.esi
  edi : m'.edi = m.edi
  cs : m'.cs = m.cs
  ss : m'.ss = m.ss
  esp : m'.esp = m.esp - BitVec.ofNat 32 n
  mem : ∀ x, ¬ InRange (m.esp - BitVec.ofNat 32 n) n x → m'.mem x = m.mem x

theorem Pushed.push {m m' : Cpu} {n : Nat} (h : Pushed m m' n) (hn : n + 4 < 2 ^ 32)
    (v : Word) : Pushed m (m'.push v) (n + 4) := by
  have hesp : m'.esp - 4 = m.esp - BitVec.ofNat 32 (n + 4) := by
    rw [h.esp]
    bv_omega
  refine ⟨h.eax, h.ecx, h.edx, h.esi, h.edi, h.cs, h.ss, hesp, fun x hx => ?_⟩
  have hword : ¬ InRange (m'.esp - 4) 4 x := by
    rw [hesp]
    unfold InRange at hx ⊢
    omega
  have hold : ¬ InRange (m.esp - BitVec.ofNat 32 n) n x := by
    unfold InRange at hx ⊢
    bv_omega
  exact (write32_of_not_inRange hword).trans (h.mem x hold)

theorem pushed_save (m : Cpu) : Pushed m m.save 48 := by
  rw [save_eq]
  have h₀ : Pushed m { m with intf := false } 0 :=
    ⟨rfl, rfl, rfl, rfl, rfl, rfl, rfl, by simp, fun _ _ => rfl⟩
  have hsel := (((h₀.push (by decide) (m.gs.setWidth 32)).push (by decide)
    (m.fs.setWidth 32)).push (by decide) (m.es.setWidth 32)).push (by decide) (m.ds.setWidth 32)
  have h₄ := (((hsel.push (by decide) m.eax).push (by decide) m.ecx).push (by decide) m.edx).push
    (by decide) m.ebx
  exact (((h₄.push (by decide) (m.esp - 4 - 4 - 4 - 4)).push (by decide) m.ebp).push (by decide)
    m.esi).push (by decide) m.edi

theorem save_words {m : Cpu} {ws : List Word} (h : Words m.mem m.esp ws)
    (hlen : 4 * (ws.length + 12) ≤ 2 ^ 32) : Words m.save.mem m.save.esp (m.frame ++ ws) := by
  have h₁ := h.push (by omega) (m.gs.setWidth 32)
  have h₂ := h₁.push (by simp; omega) (m.fs.setWidth 32)
  have h₃ := h₂.push (by simp; omega) (m.es.setWidth 32)
  have h₄ := h₃.push (by simp; omega) (m.ds.setWidth 32)
  have h₅ := h₄.push (by simp; omega) m.eax
  have h₆ := h₅.push (by simp; omega) m.ecx
  have h₇ := h₆.push (by simp; omega) m.edx
  have h₈ := h₇.push (by simp; omega) m.ebx
  have hsp : m.esp - 4 - 4 - 4 - 4 = m.esp - 16 := by bv_omega
  have h₉ := h₈.push (by simp; omega) (m.esp - 4 - 4 - 4 - 4)
  have h₁₀ := h₉.push (by simp; omega) m.ebp
  have h₁₁ := h₁₀.push (by simp; omega) m.esi
  have h₁₂ := h₁₁.push (by simp; omega) m.edi
  unfold frame
  rw [save_eq, ← hsp]
  exact h₁₂

/-- Memory with the stack pointer of the old thread stored. -/
def memSaved (m : Cpu) : Memory :=
  if m.edx ≠ 0 then write32 m.mem m.edx m.esp else m.mem

theorem exchange_eq (m : Cpu) : m.exchange = { m with
    cr3 := if m.eax ≠ 0 then m.eax else m.cr3
    esp := if m.ecx ≠ 0 then read32 m.memSaved m.ecx else m.esp
    mem := if m.edi ≠ 0 then write32 m.memSaved m.edi m.esi else m.memSaved } := by
  have hcr3 : m.loadCr3 = { m with cr3 := if m.eax ≠ 0 then m.eax else m.cr3 } := by
    unfold loadCr3
    split <;> rfl
  have hstore : m.loadCr3.storeEsp = { m.loadCr3 with mem := m.memSaved } := by
    rw [hcr3]
    unfold storeEsp memSaved
    dsimp only
    split <;> rfl
  unfold exchange
  rw [hstore, hcr3]
  unfold loadEsp
  dsimp only
  split <;> unfold storeCurrent <;> dsimp only <;> split <;> rfl

theorem memSaved_of_not {m : Cpu} {x : Address} (h : m.edx ≠ 0 → ¬ InRange m.edx 4 x) :
    m.memSaved x = m.mem x := by
  unfold memSaved
  split
  · rename_i hedx
    exact write32_of_not_inRange (h hedx)
  · rfl

theorem exchange_mem {m : Cpu} {x : Address} (hedx : m.edx ≠ 0 → ¬ InRange m.edx 4 x)
    (hedi : m.edi ≠ 0 → ¬ InRange m.edi 4 x) : m.exchange.mem x = m.mem x := by
  rw [exchange_eq]
  dsimp only
  split
  · rename_i h
    exact (write32_of_not_inRange (hedi h)).trans (memSaved_of_not hedx)
  · exact memSaved_of_not hedx

theorem exchange_esp {m : Cpu} (hecx : m.ecx ≠ 0)
    (hedx : m.edx ≠ 0 → Clear m.ecx 4 m.edx 4) : m.exchange.esp = read32 m.mem m.ecx := by
  rw [exchange_eq]
  dsimp only
  rw [if_pos hecx]
  exact read32_congr fun x hx => memSaved_of_not fun h => hedx h x hx

/-- In a switch to itself the stack pointer stored is the one loaded. -/
theorem exchange_esp_self {m : Cpu} (hecx : m.ecx ≠ 0) (hedx : m.edx = m.ecx) :
    m.exchange.esp = m.esp := by
  have hne : m.edx ≠ 0 := hedx ▸ hecx
  rw [exchange_eq]
  dsimp only
  rw [if_pos hecx, memSaved, if_pos hne, hedx, read32_write32_self]

theorem exchange_saved {m : Cpu} (hedx : m.edx ≠ 0)
    (hedi : m.edi ≠ 0 → Clear m.edx 4 m.edi 4) : read32 m.exchange.mem m.edx = m.esp := by
  have hsaved : read32 m.memSaved m.edx = m.esp := by
    rw [memSaved, if_pos hedx, read32_write32_self]
  rw [exchange_eq]
  dsimp only
  split
  · rename_i h
    rw [read32_write32_of_clear (hedi h), hsaved]
  · exact hsaved

theorem exchange_current {m : Cpu} (hedi : m.edi ≠ 0) :
    read32 m.exchange.mem m.edi = m.esi := by
  rw [exchange_eq]
  dsimp only
  rw [if_pos hedi, read32_write32_self]

theorem exchange_cs (m : Cpu) : m.exchange.cs = m.cs := by
  rw [exchange_eq]

/-- `restore` takes the frame off the stack and goes where the word behind it says. -/
theorem restore_eq {m : Cpu} {edi esi ebp sp ebx edx ecx eax ds es fs gs eip : Word}
    {ws : List Word} (h : Words m.mem m.esp
      (edi :: esi :: ebp :: sp :: ebx :: edx :: ecx :: eax :: ds :: es :: fs :: gs :: eip :: ws)) :
    m.restore = { m with
      edi := edi, esi := esi, ebp := ebp, ebx := ebx, edx := edx, ecx := ecx, eax := eax
      ds := ds.setWidth 16, es := es.setWidth 16, fs := fs.setWidth 16, gs := gs.setWidth 16
      eip := eip, intf := true, esp := m.esp + 52 } := by
  obtain ⟨h₁, h₂, h₃, h₄, h₅, h₆, h₇, h₈, h₉, h₁₀, h₁₁, h₁₂, h₁₃, -⟩ := h
  have hesp : m.esp + 4 + 4 + 4 + 4 + 4 + 4 + 4 + 4 + 4 + 4 + 4 + 4 + 4 = m.esp + 52 := by bv_omega
  unfold restore popad ret drop top
  dsimp only
  rw [h₁, h₂, h₃, h₅, h₆, h₇, h₈, h₉, h₁₀, h₁₁, h₁₂, h₁₃, hesp]

theorem restore_mem (m : Cpu) : m.restore.mem = m.mem := by
  unfold restore popad ret drop
  dsimp only

theorem ret_mem (m : Cpu) : m.ret.mem = m.mem := rfl

/-- The load of `cr3` where the other address space shows another memory: `view` says which, by
the address of its directory and the memory there was before. -/
def loadSpace (view : Word → Memory → Memory) (m : Cpu) : Cpu :=
  if m.eax ≠ 0 then { m with cr3 := m.eax, mem := view m.eax m.mem } else m

/-- `do_switch` between address spaces. -/
def doSwitchIn (view : Word → Memory → Memory) (m : Cpu) : Cpu :=
  (m.save.loadSpace view).storeEsp.loadEsp.storeCurrent.restore

section Space
variable (view : Word → Memory → Memory) (m : Cpu)

theorem loadCr3_loadSpace : (m.loadSpace view).loadCr3 = m.loadSpace view := by
  unfold loadSpace
  split
  · rename_i heax
    exact if_pos heax
  · rename_i heax
    exact if_neg heax

theorem doSwitchIn_eq : m.doSwitchIn view = (m.save.loadSpace view).exchange.restore := by
  unfold doSwitchIn exchange
  rw [loadCr3_loadSpace]

/-- Within one address space it is the switch that loads `cr3` and no other memory. -/
theorem doSwitchIn_same : m.doSwitchIn (fun _ mem => mem) = m.doSwitch := by
  unfold doSwitchIn doSwitch exchange loadSpace loadCr3
  rfl

/-- The load changes nothing but `cr3` and the memory. -/
theorem loadSpace_eq : m.loadSpace view =
    { m with cr3 := (m.loadSpace view).cr3, mem := (m.loadSpace view).mem } := by
  unfold loadSpace
  split <;> rfl

end Space

end Cpu
end Tysos
