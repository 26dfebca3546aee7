import Mathlib.Data.BitVec
import Mathlib.Data.List.Basic
import Mathlib.Algebra.Group.Nat.Defs

/-!
# The interrupt controller

The pair of 8259A chips, and the class `Pic_8259a` that programs it. A chip takes the four
bytes that set it up in order, one at its command port and the others at its data port; after
that the data port is its mask. The commands the driver does not send change nothing here.
-/

namespace Tysos
set_option autoImplicit false

/-- What the next byte at the data port is. -/
inductive Icw where
  | mask
  | icw2
  | icw3
  | icw4
  deriving DecidableEq, Repr

@[ext] structure Chip where
  expects : Icw
  single : Bool
  needsIcw4 : Bool
  base : BitVec 8
  cascade : BitVec 8
  mode : BitVec 8
  mask : BitVec 8
  inService : BitVec 8
  deriving DecidableEq, Repr

namespace Chip

/-- The line in service that comes first. -/
def highest (c : Chip) : Option Nat := (List.range 8).find? c.inService.getLsbD

def clearLine (n : Nat) (v : BitVec 8) : BitVec 8 := v &&& ~~~(BitVec.twoPow 8 n)

/-- An end of interrupt that names no line. -/
def endHighest (c : Chip) : Chip :=
  match c.highest with
  | none => c
  | some n => { c with inService := clearLine n c.inService }

def command (v : BitVec 8) (c : Chip) : Chip :=
  if v.getLsbD 4 then
    { c with
      expects := .icw2
      single := v.getLsbD 1
      needsIcw4 := v.getLsbD 0
      mode := if v.getLsbD 0 then c.mode else 0
      mask := 0 }
  else if v = 0x20 then c.endHighest
  else c

def data (v : BitVec 8) (c : Chip) : Chip :=
  match c.expects with
  | .mask => { c with mask := v }
  | .icw2 =>
    { c with
      base := v &&& 0xf8
      expects := if c.single then (if c.needsIcw4 then .icw4 else .mask) else .icw3 }
  | .icw3 => { c with cascade := v, expects := if c.needsIcw4 then .icw4 else .mask }
  | .icw4 => { c with mode := v, expects := .mask }

/-- A request on line `n` gets through: it is not masked, and nothing that comes before it or
is the line itself is in service. -/
def Eligible (c : Chip) (n : Nat) : Prop :=
  c.expects = .mask ∧ c.mask.getLsbD n = false ∧ ∀ j ≤ n, c.inService.getLsbD j = false

instance (c : Chip) (n : Nat) : Decidable (c.Eligible n) :=
  inferInstanceAs (Decidable (_ ∧ _ ∧ _))

/-- Bit 1 of the mode is the automatic end of interrupt. -/
def acknowledge (n : Nat) (c : Chip) : Chip :=
  if c.mode.getLsbD 1 then c else { c with inService := c.inService ||| BitVec.twoPow 8 n }

theorem getLsbD_clearLine (n j : Nat) (v : BitVec 8) :
    (clearLine n v).getLsbD j = (v.getLsbD j && !decide (j = n)) := by
  unfold clearLine
  rw [BitVec.getLsbD_and, BitVec.getLsbD_not, BitVec.getLsbD_twoPow]
  by_cases hj : j < 8
  · by_cases hn : j = n
    · subst hn
      simp [hj]
    · have hne : ¬ n = j := fun h => hn h.symm
      simp [hj, hn, hne]
  · have hv : v.getLsbD j = false := BitVec.getLsbD_of_ge v j (by omega)
    simp [hv]

theorem getLsbD_setLine (n j : Nat) (v : BitVec 8) (hn : n < 8) :
    (v ||| BitVec.twoPow 8 n).getLsbD j = (decide (j = n) || v.getLsbD j) := by
  rw [BitVec.getLsbD_or, BitVec.getLsbD_twoPow, Bool.or_comm]
  by_cases h : j = n
  · subst h
    simp [hn]
  · have hne : ¬ n = j := fun h' => h h'.symm
    simp [h, hne]

theorem highest_eq_some {c : Chip} {n : Nat} (h : c.inService.getLsbD n = true)
    (hbelow : ∀ j, j < n → c.inService.getLsbD j = false) : c.highest = some n := by
  have hn : n < 8 := by
    by_contra hge
    rw [BitVec.getLsbD_of_ge _ _ (by omega)] at h
    exact Bool.false_ne_true h
  unfold highest
  rw [List.find?_range_eq_some]
  refine ⟨h, List.mem_range.mpr hn, fun j hj => ?_⟩
  simp [hbelow j hj]

theorem endHighest_eq {c : Chip} {n : Nat} (h : c.inService.getLsbD n = true)
    (hbelow : ∀ j, j < n → c.inService.getLsbD j = false) :
    c.endHighest = { c with inService := clearLine n c.inService } := by
  unfold endHighest
  rw [highest_eq_some h hbelow]

end Chip

/-- The two chips; the output of the slave is line 2 of the master. -/
@[ext] structure Pics where
  master : Chip
  slave : Chip
  deriving DecidableEq, Repr

namespace Pics

def out (port : BitVec 16) (val : BitVec 8) (p : Pics) : Pics :=
  if port = 0x20 then { p with master := p.master.command val }
  else if port = 0x21 then { p with master := p.master.data val }
  else if port = 0xa0 then { p with slave := p.slave.command val }
  else if port = 0xa1 then { p with slave := p.slave.data val }
  else p

/-- Only the masks are read by the driver. -/
def inb (port : BitVec 16) (p : Pics) : BitVec 8 :=
  if port = 0x21 then p.master.mask
  else if port = 0xa1 then p.slave.mask
  else 0

/-- The processor can be given an interrupt for the line. Line 2 of the master has no device. -/
def Deliverable (p : Pics) (irq : Nat) : Prop :=
  if irq < 8 then irq ≠ 2 ∧ p.master.Eligible irq
  else irq < 16 ∧ p.slave.Eligible (irq - 8) ∧ p.master.Eligible 2

instance (p : Pics) (irq : Nat) : Decidable (p.Deliverable irq) :=
  inferInstanceAs (Decidable (ite _ _ _))

def acknowledge (irq : Nat) (p : Pics) : Pics :=
  if irq < 8 then { p with master := p.master.acknowledge irq }
  else ⟨p.master.acknowledge 2, p.slave.acknowledge (irq - 8)⟩

/-- The vector for the line. The slave gives its own where the master has a slave on line 2 and
the slave has that number; bit 0 of the mode has the chips give vectors of this form. -/
def vector (irq : Nat) (p : Pics) : Option (BitVec 8) :=
  if irq < 8 then
    if p.master.mode.getLsbD 0 then some (p.master.base ||| BitVec.ofNat 8 irq) else none
  else if p.master.cascade.getLsbD 2 && p.slave.cascade &&& 7 == 2 then
    if p.slave.mode.getLsbD 0 then some (p.slave.base ||| BitVec.ofNat 8 (irq - 8)) else none
  else none

end Pics

/-- The line of the master that a request comes in on. -/
def masterLine (irq : Nat) : Nat := if irq < 8 then irq else 2

namespace Pic8259a
open Pics Chip

def masterCommand : BitVec 16 := 0x20
def masterData : BitVec 16 := 0x21
def slaveCommand : BitVec 16 := 0xa0
def slaveData : BitVec 16 := 0xa1

def eoi : BitVec 8 := 0x20
def remapBase : BitVec 8 := 0x20
def cascade : BitVec 8 := 0x02
def initIcw4 : BitVec 8 := 0x11
def interval4 : BitVec 8 := 0x4
def icw4Is8086 : BitVec 8 := 0x01

/-- The constructor. -/
def create (p : Pics) : Pics :=
  let p := p.out masterCommand initIcw4
  let p := p.out slaveCommand initIcw4
  let p := p.out masterData remapBase
  let p := p.out slaveData (remapBase + 8)
  let p := p.out masterData interval4
  let p := p.out slaveData cascade
  let p := p.out masterData icw4Is8086
  let p := p.out slaveData icw4Is8086
  p.out masterData 0xff

/-- `(unsigned char)(~(0x1 << n))`, with the shift on a 32-bit `int`. -/
def lineMask (n : Nat) : BitVec 8 := (~~~((1 : BitVec 32) <<< n)).setWidth 8

/-- Read a mask, clear a bit and write it back. -/
def unmask (port : BitVec 16) (n : Nat) (p : Pics) : Pics :=
  p.out port (p.inb port &&& lineMask n)

/-- The call `_enable(2)` is the first branch again. A shift by the width of an `int` or more
is undefined. -/
def enable_ (irq : Nat) (p : Pics) : Option Pics :=
  if irq < 8 then some (unmask masterData irq p)
  else if irq - 8 < 32 then some (unmask slaveData (irq - 8) (unmask masterData 2 p))
  else none

def endInterrupt (irq : Nat) (p : Pics) : Pics :=
  let p := p.out masterCommand eoi
  if 8 ≤ irq then p.out slaveCommand eoi else p

end Pic8259a

namespace Chip

/-- The four bytes that set the chip up have been taken. -/
structure SetUp (c : Chip) (base cascade : BitVec 8) : Prop where
  expects : c.expects = .mask
  base : c.base = base
  cascade : c.cascade = cascade
  mode : c.mode = 1

section
variable {c : Chip} {base cascade : BitVec 8}

theorem SetUp.data (h : c.SetUp base cascade) (v : BitVec 8) : c.data v = { c with mask := v } := by
  unfold Chip.data
  rw [h.expects]

theorem SetUp.withMask (h : c.SetUp base cascade) (v : BitVec 8) :
    ({ c with mask := v } : Chip).SetUp base cascade := ⟨h.expects, h.base, h.cascade, h.mode⟩

theorem SetUp.withInService (h : c.SetUp base cascade) (v : BitVec 8) :
    ({ c with inService := v } : Chip).SetUp base cascade :=
  ⟨h.expects, h.base, h.cascade, h.mode⟩

theorem SetUp.acknowledge (h : c.SetUp base cascade) (n : Nat) :
    c.acknowledge n = { c with inService := c.inService ||| BitVec.twoPow 8 n } := by
  unfold Chip.acknowledge
  rw [h.mode]
  rfl

theorem SetUp.eligible_iff (h : c.SetUp base cascade) (n : Nat) :
    c.Eligible n ↔ c.mask.getLsbD n = false ∧ ∀ j ≤ n, c.inService.getLsbD j = false := by
  unfold Eligible
  rw [h.expects]
  exact and_iff_right rfl

end

end Chip

namespace Pics

/-- Both chips are set up as the constructor does it. -/
structure SetUp (p : Pics) : Prop where
  master : p.master.SetUp 0x20 0x4
  slave : p.slave.SetUp 0x28 0x2

theorem SetUp.vector_eq {p : Pics} (h : p.SetUp) (irq : Nat) :
    p.vector irq = some (if irq < 8 then 0x20 ||| BitVec.ofNat 8 irq
      else 0x28 ||| BitVec.ofNat 8 (irq - 8)) := by
  unfold vector
  rw [h.master.mode, h.master.base, h.master.cascade, h.slave.mode, h.slave.base,
    h.slave.cascade]
  split <;> rfl

/-- The vectors of the sixteen lines follow one another. -/
theorem SetUp.vector_toNat {p : Pics} (h : p.SetUp) {irq : Nat} (hirq : irq < 16) :
    ∃ v, p.vector irq = some v ∧ v.toNat = irq + 0x20 := by
  have hall : ∀ n < 16, (if n < 8 then 0x20 ||| BitVec.ofNat 8 n
      else 0x28 ||| BitVec.ofNat 8 (n - 8)).toNat = n + 0x20 := by decide
  exact ⟨_, h.vector_eq irq, hall irq hirq⟩

end Pics

namespace Pic8259a
open Chip

/-- Whatever was going on in the chips before, the constructor sets them up; it masks all lines
of the master and none of the slave. -/
theorem create_eq (p : Pics) : create p =
    ⟨⟨.mask, false, true, 0x20, 0x4, 1, 0xff, p.master.inService⟩,
      ⟨.mask, false, true, 0x28, 0x2, 1, 0, p.slave.inService⟩⟩ := rfl

theorem create_setUp (p : Pics) : (create p).SetUp := by
  rw [create_eq]
  exact ⟨⟨rfl, rfl, rfl, rfl⟩, ⟨rfl, rfl, rfl, rfl⟩⟩

theorem getLsbD_lineMask {j : Nat} (hj : j < 8) (n : Nat) :
    (lineMask n).getLsbD j = !decide (j = n) := by
  unfold lineMask
  have hone : (1 : BitVec 32) = BitVec.twoPow 32 0 := rfl
  rw [BitVec.getLsbD_setWidth, BitVec.getLsbD_not, BitVec.getLsbD_shiftLeft, hone,
    BitVec.getLsbD_twoPow]
  by_cases h : j = n
  · subst h
    simp [hj]
  · by_cases hlt : j < n
    · simp [hj, h, hlt]
      omega
    · have hpos : ¬ 0 = j - n := by omega
      simp [hj, h, hpos]
      omega

section
variable {p : Pics}

theorem endInterrupt_eq (irq : Nat) (p : Pics) : endInterrupt irq p =
    ⟨p.master.endHighest, if 8 ≤ irq then p.slave.endHighest else p.slave⟩ := by
  unfold endInterrupt
  split <;> rfl

theorem unmask_master (h : p.SetUp) (n : Nat) : unmask masterData n p =
    { p with master := { p.master with mask := p.master.mask &&& lineMask n } } := by
  have hdata := h.master.data (p.master.mask &&& lineMask n)
  exact congrArg (fun c => ({ p with master := c } : Pics)) hdata

theorem unmask_slave (h : p.SetUp) (n : Nat) : unmask slaveData n p =
    { p with slave := { p.slave with mask := p.slave.mask &&& lineMask n } } := by
  have hdata := h.slave.data (p.slave.mask &&& lineMask n)
  exact congrArg (fun c => ({ p with slave := c } : Pics)) hdata

/-- All that a call of `_enable` changes: masks, and those as follows. -/
structure Enabled (irq : Nat) (p p' : Pics) : Prop where
  setUp : p'.SetUp
  masterInService : p'.master.inService = p.master.inService
  slaveInService : p'.slave.inService = p.slave.inService
  masterMask : ∀ n < 8, p'.master.mask.getLsbD n =
    (p.master.mask.getLsbD n && !decide (n = masterLine irq))
  slaveMask : ∀ n < 8, p'.slave.mask.getLsbD n =
    (p.slave.mask.getLsbD n && !decide (n + 8 = irq))

theorem enable_spec (h : p.SetUp) {irq : Nat} {p' : Pics} (he : enable_ irq p = some p') :
    Enabled irq p p' := by
  unfold enable_ at he
  have hmaster (m : Nat) : ∀ n < 8, (p.master.mask &&& lineMask m).getLsbD n =
      (p.master.mask.getLsbD n && !decide (n = m)) := by
    intro n hn
    rw [BitVec.getLsbD_and, getLsbD_lineMask hn]
  have hset (m : Nat) : (unmask masterData m p).SetUp := by
    rw [unmask_master h]
    exact ⟨h.master.withMask _, h.slave⟩
  split at he
  · rename_i hlt
    obtain rfl := Option.some.inj he
    refine ⟨hset irq, ?_, ?_, ?_, ?_⟩
    · rw [unmask_master h]
    · rw [unmask_master h]
    · rw [unmask_master h, masterLine, if_pos hlt]
      exact hmaster irq
    · intro n hn
      have hne : ¬ n + 8 = irq := by omega
      rw [unmask_master h]
      simp [hne]
  · rename_i hge
    split at he
    · obtain rfl := Option.some.inj he
      have hline : masterLine irq = 2 := if_neg hge
      refine ⟨?_, ?_, ?_, ?_, ?_⟩
      · rw [unmask_slave (hset 2)]
        exact ⟨(hset 2).master, (hset 2).slave.withMask _⟩
      · rw [unmask_slave (hset 2), unmask_master h]
      · rw [unmask_slave (hset 2), unmask_master h]
      · rw [unmask_slave (hset 2), unmask_master h, hline]
        exact hmaster 2
      · intro n hn
        have hiff : n = irq - 8 ↔ n + 8 = irq := by omega
        rw [unmask_slave (hset 2), unmask_master h]
        dsimp only
        rw [BitVec.getLsbD_and, getLsbD_lineMask hn]
        simp [hiff]
    · exact nomatch he

end

end Pic8259a
end Tysos
