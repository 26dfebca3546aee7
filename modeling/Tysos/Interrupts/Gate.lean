import Tysos.Task.Switch
import Mathlib.Data.BitVec
import Mathlib.Logic.Function.Basic

/-!
# The interrupt descriptor table

`AddGate` writes the entries, and the processor reads a gate back from one. The table has 256
of them; a `none` result is a write outside it.
-/

namespace Tysos
set_option autoImplicit false

structure IdtEntry where
  offsetLow : BitVec 16
  segSelector : BitVec 16
  flags : BitVec 16
  offsetHigh : BitVec 16
  deriving DecidableEq, Repr

/-- What the processor takes from an entry that is present. -/
structure Gate where
  handler : Word
  selector : Selector
  privilege : BitVec 2
  trap : Bool
  deriving DecidableEq, Repr

abbrev Idt := Nat → IdtEntry

namespace IdtEntry

/-- Bit 15 of the flags is the present bit. The five bits from 8 on are the kind of the entry,
where 14 is an interrupt gate and 15 a trap gate; other kinds are not used here. -/
def gate (e : IdtEntry) : Option Gate :=
  if e.flags.getLsbD 15 ∧ e.flags.extractLsb' 9 4 = 0x7 then
    some ⟨e.offsetHigh ++ e.offsetLow, e.segSelector, e.flags.extractLsb' 13 2,
      e.flags.getLsbD 8⟩
  else none

end IdtEntry

/-- The bytes of a table in `.idt`. -/
def emptyIdt : Idt := fun _ => ⟨0, 0, 0, 0⟩

namespace Interrupt
open Function

def selectorCode0Rpl0 : BitVec 16 := 0x8

def entry (handler : Word) (userMode trapGate : Bool) : IdtEntry :=
  let flags : BitVec 16 := 0x8e00
  let flags := if userMode then flags ||| 0x6000 else flags
  let flags := if trapGate then flags ||| 0x100 else flags
  { offsetLow := (handler &&& 0xffff).setWidth 16
    segSelector := selectorCode0Rpl0
    flags := flags
    offsetHigh := ((handler >>> 16) &&& 0xffff).setWidth 16 }

/-- Interrupts are off while the entry is written, and on afterwards. -/
def addGate (vector : Nat) (handler : Word) (userMode trapGate : Bool) (idt : Idt) :
    Option Idt :=
  if vector < 256 then some (update idt vector (entry handler userMode trapGate)) else none

/-- The addresses of the two exception handlers. -/
structure Handlers where
  int0eh : Word
  int0dh : Word

def init (h : Handlers) (idt : Idt) : Option Idt :=
  (addGate 0x0e h.int0eh false true idt).bind fun idt => addGate 0x0d h.int0dh false false idt

/-- The ring a gate may be called from. -/
def ring (userMode : Bool) : BitVec 2 := if userMode then 3 else 0

theorem halves (v : Word) :
    (((v >>> 16) &&& 0xffff).setWidth 16 : BitVec 16) ++ ((v &&& 0xffff).setWidth 16 : BitVec 16)
      = v := by
  apply BitVec.eq_of_toNat_eq
  have hv := v.isLt
  rw [BitVec.toNat_append, BitVec.toNat_setWidth, BitVec.toNat_setWidth, BitVec.toNat_and,
    BitVec.toNat_and, BitVec.toNat_ushiftRight]
  have hmask : (0xffff : Word).toNat = 2 ^ 16 - 1 := rfl
  rw [hmask, Nat.and_two_pow_sub_one_eq_mod, Nat.and_two_pow_sub_one_eq_mod,
    Nat.shiftRight_eq_div_pow, Nat.mod_mod, Nat.mod_mod]
  rw [← Nat.shiftLeft_add_eq_or_of_lt (Nat.mod_lt _ (by decide)), Nat.shiftLeft_eq]
  omega

/-- The processor reads back what `AddGate` was given. -/
theorem entry_gate (handler : Word) (userMode trapGate : Bool) :
    (entry handler userMode trapGate).gate =
      some ⟨handler, selectorCode0Rpl0, ring userMode, trapGate⟩ := by
  have hflags : ∀ u t : Bool, (entry 0 u t).flags.getLsbD 15 = true ∧
      (entry 0 u t).flags.extractLsb' 9 4 = 0x7 ∧
      (entry 0 u t).flags.extractLsb' 13 2 = ring u ∧ (entry 0 u t).flags.getLsbD 8 = t := by
    decide
  obtain ⟨hpresent, hkind, hring, htrap⟩ := hflags userMode trapGate
  unfold IdtEntry.gate
  have hsame : (entry handler userMode trapGate).flags = (entry 0 userMode trapGate).flags := rfl
  rw [hsame, if_pos ⟨hpresent, hkind⟩, hring, htrap]
  exact congrArg (fun w => some (Gate.mk w selectorCode0Rpl0 (ring userMode) trapGate))
    (halves handler)

section
variable {vector : Nat} {handler : Word} {userMode trapGate : Bool} {idt idt' : Idt}

theorem addGate_gate (h : addGate vector handler userMode trapGate idt = some idt') (v : Nat) :
    (idt' v).gate =
      if v = vector then some ⟨handler, selectorCode0Rpl0, ring userMode, trapGate⟩
      else (idt v).gate := by
  unfold addGate at h
  split at h
  · obtain rfl := Option.some.inj h
    by_cases hv : v = vector
    · subst hv
      rw [update_self, if_pos rfl, entry_gate]
    · rw [update_of_ne hv, if_neg hv]
  · exact nomatch h

end

def protectionGate (h : Handlers) : Gate := ⟨h.int0dh, selectorCode0Rpl0, 0, false⟩

def pageFaultGate (h : Handlers) : Gate := ⟨h.int0eh, selectorCode0Rpl0, 0, true⟩

/-- The gates of the exceptions once `Init` has run on the table as it is loaded. -/
def exceptionGate (h : Handlers) (v : Nat) : Option Gate :=
  if v = 0x0d then some (protectionGate h)
  else if v = 0x0e then some (pageFaultGate h)
  else none

theorem init_gate {h : Handlers} {idt : Idt} (hi : init h emptyIdt = some idt) (v : Nat) :
    (idt v).gate = exceptionGate h v := by
  obtain ⟨idt₁, h₁, h₂⟩ := Option.bind_eq_some_iff.mp hi
  have hempty : (emptyIdt v).gate = none := by simp [IdtEntry.gate, emptyIdt]
  rw [addGate_gate h₂, addGate_gate h₁, hempty]
  rfl

end Interrupt
end Tysos
