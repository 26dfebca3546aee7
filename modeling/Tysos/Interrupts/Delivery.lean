import Tysos.Interrupts.Pic
import Tysos.Interrupts.Gate
import Tysos.Support.Nesting

/-!
# Interrupts from enabling to the end of their handlers

The chips, the descriptor table and the interrupt flag together, from `Init` and the
constructor of the controller on. A handler calls `EndInterrupt` while it is the innermost of
those that have not, as `pit_stub` does before it may switch to another thread.
-/

namespace Tysos
open Nesting Interrupt
set_option autoImplicit false

/-- What `Enable` asks a `HardwareInterruptHooker`. -/
structure Hook where
  irq : Nat
  handlerFunction : Word
  runInUserMode : Bool
  handlerIsInterruptable : Bool
  deriving DecidableEq, Repr

structure Irqs where
  pics : Pics
  idt : Idt
  intf : Bool

namespace Irqs

def enable (hook : Hook) (s : Irqs) : Option Irqs :=
  (addGate (hook.irq + Pic8259a.remapBase.toNat) hook.handlerFunction hook.runInUserMode
    hook.handlerIsInterruptable s.idt).bind fun idt =>
      (Pic8259a.enable_ hook.irq s.pics).map fun pics => ⟨pics, idt, true⟩

def endInterrupt (irq : Nat) (s : Irqs) : Irqs :=
  { s with pics := Pic8259a.endInterrupt irq s.pics }

/-- The gate the processor goes through for the line. -/
def gateFor (irq : Nat) (s : Irqs) : Option Gate :=
  (s.pics.vector irq).bind fun v => (s.idt v.toNat).gate

def Accepts (s : Irqs) (irq : Nat) : Prop := s.intf = true ∧ s.pics.Deliverable irq

instance (s : Irqs) (irq : Nat) : Decidable (s.Accepts irq) := inferInstanceAs (Decidable (_ ∧ _))

/-- An interrupt gate turns interrupts off. -/
def accept (irq : Nat) (g : Gate) (s : Irqs) : Irqs :=
  { s with pics := s.pics.acknowledge irq, intf := s.intf && g.trap }

/-- The states reached, with the hooks enabled so far, the last one first, and the lines whose
handlers have not called `EndInterrupt`, the innermost first. Only the innermost calls it, and an
interrupt without a gate is not accepted. -/
inductive Reachable (handlers : Handlers) : Irqs → List Hook → List Nat → Prop where
  | boot (pics : Pics) (idt : Idt) (intf : Bool) (hidt : init handlers emptyIdt = some idt)
      (hmaster : pics.master.inService = 0) (hslave : pics.slave.inService = 0) :
      Reachable handlers ⟨Pic8259a.create pics, idt, intf⟩ [] []
  | enable {s s' : Irqs} {hooks : List Hook} {active : List Nat} (hook : Hook) :
      Reachable handlers s hooks active → s.enable hook = some s' →
      Reachable handlers s' (hook :: hooks) active
  | accept {s : Irqs} {hooks : List Hook} {active : List Nat} (irq : Nat) (g : Gate) :
      Reachable handlers s hooks active → s.Accepts irq → s.gateFor irq = some g →
      Reachable handlers (s.accept irq g) hooks (irq :: active)
  | endInterrupt {s : Irqs} {hooks : List Hook} {active : List Nat} (irq : Nat) :
      Reachable handlers s hooks (irq :: active) →
      Reachable handlers (s.endInterrupt irq) hooks active
  /-- `EnableAll`, `DisableAll`, or the return of a handler. -/
  | setInterrupts {s : Irqs} {hooks : List Hook} {active : List Nat} (b : Bool) :
      Reachable handlers s hooks active → Reachable handlers { s with intf := b } hooks active

end Irqs

def Hook.gate (h : Hook) : Gate :=
  ⟨h.handlerFunction, selectorCode0Rpl0, ring h.runInUserMode, h.handlerIsInterruptable⟩

/-- The gates of a table with these hooks. -/
def gateOf (handlers : Handlers) (hooks : List Hook) (v : Nat) : Option Gate :=
  match hooks.find? (fun h => h.irq + 0x20 == v) with
  | some h => some h.gate
  | none => exceptionGate handlers v

theorem gateOf_cons (handlers : Handlers) (h : Hook) (hooks : List Hook) (v : Nat) :
    gateOf handlers (h :: hooks) v =
      if v = h.irq + 0x20 then some h.gate else gateOf handlers hooks v := by
  unfold gateOf
  rw [List.find?_cons]
  by_cases hv : v = h.irq + 0x20
  · have hb : (h.irq + 0x20 == v) = true := by simp [hv]
    rw [hb, if_pos hv]
  · have hb : (h.irq + 0x20 == v) = false := by
      rw [beq_eq_false_iff_ne]
      exact fun h' => hv h'.symm
    rw [hb, if_neg hv]

/-- The vectors of the lines hold the gates of the hooks only. -/
theorem gateOf_line (handlers : Handlers) (hooks : List Hook) (irq : Nat) :
    gateOf handlers hooks (irq + 0x20) = (hooks.find? (fun h => h.irq == irq)).map Hook.gate := by
  induction hooks with
  | nil =>
    have hd : ¬ irq + 0x20 = 0x0d := by omega
    have he : ¬ irq + 0x20 = 0x0e := by omega
    simp [gateOf, exceptionGate, hd, he]
  | cons h hooks ih =>
    rw [gateOf_cons, List.find?_cons]
    by_cases heq : h.irq = irq
    · subst heq
      simp
    · have hb : (h.irq == irq) = false := beq_eq_false_iff_ne.mpr heq
      have hv : ¬ irq + 0x20 = h.irq + 0x20 := by omega
      rw [hb, if_neg hv, ih]

theorem gateOf_exception (handlers : Handlers) (hooks : List Hook) {v : Nat} (hv : v < 0x20) :
    gateOf handlers hooks v = exceptionGate handlers v := by
  have hnone : hooks.find? (fun h => h.irq + 0x20 == v) = none := by
    rw [List.find?_eq_none]
    intro h _
    rw [beq_iff_eq]
    omega
  unfold gateOf
  rw [hnone]

theorem masterLine_lt (irq : Nat) : masterLine irq < 8 := by
  unfold masterLine
  split
  · assumption
  · decide

theorem masterLine_of_ge {irq : Nat} (h : 8 ≤ irq) : masterLine irq = 2 := if_neg (by omega)

namespace Irqs

/-- What holds of every reachable state. -/
structure Inv (handlers : Handlers) (s : Irqs) (hooks : List Hook) (active : List Nat) :
    Prop where
  setUp : s.pics.SetUp
  nest : ∃ n : Nest Nat, n.active = active.map masterLine ∧ n.Shown s.pics.master.inService.getLsbD
  slaveInService : ∀ n, s.pics.slave.inService.getLsbD n = true ↔ n + 8 ∈ active
  lines : ∀ irq ∈ active, irq < 16 ∧ irq ≠ 2
  masterMask : ∀ n < 8, s.pics.master.mask.getLsbD n = false ↔
    ∃ h ∈ hooks, masterLine h.irq = n
  slaveMask : ∀ n < 8, s.pics.slave.mask.getLsbD n = false
  gates : ∀ v, (s.idt v).gate = gateOf handlers hooks v

section
variable {handlers : Handlers} {s : Irqs} {hooks : List Hook} {active : List Nat}

theorem inv_boot {pics : Pics} {idt : Idt} {intf : Bool} (hidt : init handlers emptyIdt = some idt)
    (hmaster : pics.master.inService = 0) (hslave : pics.slave.inService = 0) :
    Inv handlers ⟨Pic8259a.create pics, idt, intf⟩ [] [] where
  setUp := Pic8259a.create_setUp pics
  nest := by
    refine ⟨Nest.empty, rfl, Nest.shown_empty fun n => ?_⟩
    rw [Pic8259a.create_eq, hmaster]
    exact BitVec.getLsbD_zero
  slaveInService := by
    intro n
    rw [Pic8259a.create_eq, hslave]
    simp
  lines := by
    intro irq h
    exact absurd h List.not_mem_nil
  masterMask := by
    intro n hn
    have hset : ∀ n < 8, (0xff : BitVec 8).getLsbD n = true := by decide
    rw [Pic8259a.create_eq, hset n hn]
    simp
  slaveMask := fun n _ => BitVec.getLsbD_zero
  gates := init_gate hidt

theorem Inv.enable (h : Inv handlers s hooks active) {hook : Hook} {s' : Irqs}
    (he : s.enable hook = some s') : Inv handlers s' (hook :: hooks) active := by
  obtain ⟨idt, hidt, hrest⟩ := Option.bind_eq_some_iff.mp he
  obtain ⟨pics, hpics, rfl⟩ := Option.map_eq_some_iff.mp hrest
  have hspec := Pic8259a.enable_spec h.setUp hpics
  refine ⟨hspec.setUp, ?_, ?_, h.lines, ?_, ?_, ?_⟩
  · dsimp only
    rw [hspec.masterInService]
    exact h.nest
  · dsimp only
    rw [hspec.slaveInService]
    exact h.slaveInService
  · intro n hn
    dsimp only
    rw [hspec.masterMask n hn, Bool.and_eq_false_iff, h.masterMask n hn, Bool.not_eq_false',
      decide_eq_true_iff, List.exists_mem_cons_iff, or_comm, eq_comm]
  · intro n hn
    dsimp only
    rw [hspec.slaveMask n hn, h.slaveMask n hn]
    rfl
  · intro v
    have hbase : hook.irq + Pic8259a.remapBase.toNat = hook.irq + 0x20 := rfl
    rw [addGate_gate hidt, h.gates, hbase, gateOf_cons]
    rfl

/-- A handler for a line of the slave is not inside another one. -/
theorem Inv.slave_not_active {irq : Nat} (h : Inv handlers s hooks (irq :: active))
    (hirq : 8 ≤ irq) (k : Nat) : k + 8 ∉ active := by
  obtain ⟨n, hactive, -⟩ := h.nest
  have hsorted := n.sorted
  rw [hactive, List.map_cons, List.pairwise_cons] at hsorted
  intro hin
  have hlt := hsorted.1 _ (List.mem_map_of_mem hin)
  rw [masterLine_of_ge hirq, masterLine_of_ge (Nat.le_add_left 8 k)] at hlt
  exact absurd hlt (Nat.lt_irrefl 2)

/-- The slave has at most one line in service, that of the innermost handler. -/
theorem Inv.slave_of_head {irq : Nat} (h : Inv handlers s hooks (irq :: active))
    (hirq : 8 ≤ irq) {n : Nat} : s.pics.slave.inService.getLsbD n = true ↔ n = irq - 8 := by
  rw [h.slaveInService, List.mem_cons]
  constructor
  · intro hmem
    have heq := hmem.resolve_right (h.slave_not_active hirq n)
    omega
  · intro heq
    exact Or.inl (by omega)

theorem mayBegin_iff {n : Nest Nat}
    (hactive : n.active = active.map masterLine) {irq : Nat} :
    n.MayBegin (masterLine irq) ↔ ∀ a ∈ active, masterLine irq < masterLine a := by
  unfold Nest.MayBegin
  rw [hactive, List.forall_mem_map]

/-- A line is let through by the master, as far as what is in service goes. -/
theorem Inv.clear_iff (h : Inv handlers s hooks active) (irq : Nat) :
    (∀ j ≤ masterLine irq, s.pics.master.inService.getLsbD j = false) ↔
      ∀ a ∈ active, masterLine irq < masterLine a := by
  obtain ⟨n, hactive, hshown⟩ := h.nest
  rw [← mayBegin_iff hactive, hshown.mayBegin_iff]

theorem Inv.slave_clear (h : Inv handlers s hooks active) {irq : Nat} (hirq : 8 ≤ irq)
    (hbefore : ∀ a ∈ active, masterLine irq < masterLine a) (n : Nat) :
    s.pics.slave.inService.getLsbD n = false := by
  cases hn : s.pics.slave.inService.getLsbD n with
  | false => rfl
  | true =>
    have hlt := hbefore _ ((h.slaveInService n).mp hn)
    rw [masterLine_of_ge hirq, masterLine_of_ge (Nat.le_add_left 8 n)] at hlt
    exact absurd hlt (Nat.lt_irrefl 2)

theorem Inv.deliverable_iff (h : Inv handlers s hooks active) {irq : Nat} (hirq : irq < 16)
    (hne : irq ≠ 2) : s.pics.Deliverable irq ↔
      (∃ hook ∈ hooks, masterLine hook.irq = masterLine irq) ∧
        ∀ a ∈ active, masterLine irq < masterLine a := by
  have hmaster : s.pics.master.Eligible (masterLine irq) ↔
      (∃ hook ∈ hooks, masterLine hook.irq = masterLine irq) ∧
        ∀ a ∈ active, masterLine irq < masterLine a := by
    rw [h.setUp.master.eligible_iff, h.masterMask _ (masterLine_lt irq), h.clear_iff]
  unfold Pics.Deliverable
  by_cases hlt : irq < 8
  · have hline : masterLine irq = irq := if_pos hlt
    rw [if_pos hlt, ← hmaster, hline]
    exact and_iff_right hne
  · have hline : masterLine irq = 2 := masterLine_of_ge (Nat.not_lt.mp hlt)
    rw [if_neg hlt, ← hmaster, hline]
    constructor
    · intro hall
      exact hall.2.2
    · intro htwo
      refine ⟨hirq, ?_, htwo⟩
      rw [← hline] at htwo
      rw [h.setUp.slave.eligible_iff]
      exact ⟨h.slaveMask _ (by omega),
        fun j _ => h.slave_clear (by omega) (hmaster.mp htwo).2 j⟩

theorem line_of_accepts {irq : Nat} (ha : s.Accepts irq) : irq < 16 ∧ irq ≠ 2 := by
  have hdel := ha.2
  unfold Pics.Deliverable at hdel
  split at hdel
  · exact ⟨by omega, hdel.1⟩
  · exact ⟨hdel.1, by omega⟩

/-- The master takes the request on its line, and the slave that of a line of its own. -/
theorem Inv.acknowledge_eq (h : Inv handlers s hooks active) (irq : Nat) :
    s.pics.acknowledge irq =
      ⟨{ s.pics.master with
          inService := s.pics.master.inService ||| BitVec.twoPow 8 (masterLine irq) },
        if irq < 8 then s.pics.slave
        else { s.pics.slave with
          inService := s.pics.slave.inService ||| BitVec.twoPow 8 (irq - 8) }⟩ := by
  unfold Pics.acknowledge masterLine
  split
  · rw [h.setUp.master.acknowledge]
  · rw [h.setUp.master.acknowledge, h.setUp.slave.acknowledge]

theorem Inv.accept (h : Inv handlers s hooks active) {irq : Nat} {g : Gate}
    (ha : s.Accepts irq) : Inv handlers (s.accept irq g) hooks (irq :: active) := by
  have hline := line_of_accepts ha
  have hbefore := ((h.deliverable_iff hline.1 hline.2).mp ha.2).2
  obtain ⟨n, hactive, hshown⟩ := h.nest
  have hmay : n.MayBegin (masterLine irq) := (mayBegin_iff hactive).mpr hbefore
  have hlt := masterLine_lt irq
  unfold Irqs.accept
  rw [h.acknowledge_eq]
  refine ⟨⟨h.setUp.master.withInService _, ?_⟩, ?_, ?_, ?_, h.masterMask, ?_, h.gates⟩
  · dsimp only
    split
    · exact h.setUp.slave
    · exact h.setUp.slave.withInService _
  · exact ⟨n.start _ hmay, congrArg (List.cons (masterLine irq)) hactive,
      hshown.start hmay fun b => Chip.getLsbD_setLine _ b _ hlt⟩
  · intro k
    rw [List.mem_cons]
    split
    · rw [h.slaveInService]
      constructor
      · exact Or.inr
      · rintro (heq | hmem)
        · omega
        · exact hmem
    · rw [Chip.getLsbD_setLine _ _ _ (by omega), Bool.or_eq_true, decide_eq_true_iff,
        h.slaveInService]
      have hiff : k = irq - 8 ↔ k + 8 = irq := by omega
      rw [hiff]
  · intro a hmem
    rcases List.mem_cons.mp hmem with rfl | hmem
    · exact hline
    · exact h.lines a hmem
  · dsimp only
    split
    · exact h.slaveMask
    · exact h.slaveMask

/-- What `EndInterrupt` clears are the lines of the innermost handler. -/
theorem Inv.endInterrupt_eq {irq : Nat} (h : Inv handlers s hooks (irq :: active)) :
    Pic8259a.endInterrupt irq s.pics =
      ⟨{ s.pics.master with
          inService := Chip.clearLine (masterLine irq) s.pics.master.inService },
        if 8 ≤ irq then { s.pics.slave with
          inService := Chip.clearLine (irq - 8) s.pics.slave.inService }
        else s.pics.slave⟩ := by
  obtain ⟨n, hactive, hshown⟩ := h.nest
  rw [List.map_cons] at hactive
  obtain ⟨hset, hbelow⟩ := hshown.least hactive
  have hmaster : s.pics.master.endHighest = { s.pics.master with
      inService := Chip.clearLine (masterLine irq) s.pics.master.inService } :=
    Chip.endHighest_eq hset hbelow
  rw [Pic8259a.endInterrupt_eq, hmaster]
  split
  · rename_i hirq
    have hslave : s.pics.slave.endHighest = { s.pics.slave with
        inService := Chip.clearLine (irq - 8) s.pics.slave.inService } := by
      refine Chip.endHighest_eq ((h.slave_of_head hirq).mpr rfl) fun j hj => ?_
      rw [← Bool.not_eq_true, h.slave_of_head hirq]
      omega
    rw [hslave]
  · rfl

theorem Inv.endInterrupt {irq : Nat} (h : Inv handlers s hooks (irq :: active)) :
    Inv handlers (s.endInterrupt irq) hooks active := by
  obtain ⟨n, hactive, hshown⟩ := h.nest
  rw [List.map_cons] at hactive
  unfold Irqs.endInterrupt
  rw [h.endInterrupt_eq]
  refine ⟨⟨h.setUp.master.withInService _, ?_⟩, ?_, ?_, ?_, h.masterMask, ?_, h.gates⟩
  · dsimp only
    split
    · exact h.setUp.slave.withInService _
    · exact h.setUp.slave
  · exact ⟨n.finish, congrArg List.tail hactive,
      hshown.finish hactive fun b => Chip.getLsbD_clearLine _ b _⟩
  · intro k
    dsimp only
    split
    · rename_i hirq
      rw [Chip.getLsbD_clearLine, Bool.and_eq_true, h.slave_of_head hirq]
      constructor
      · rintro ⟨heq, hne⟩
        simp [heq] at hne
      · exact fun hin => absurd hin (h.slave_not_active hirq k)
    · rw [h.slaveInService, List.mem_cons]
      constructor
      · rintro (heq | hin)
        · omega
        · exact hin
      · exact Or.inr
  · exact fun a hmem => h.lines a (List.mem_cons_of_mem irq hmem)
  · dsimp only
    split
    · exact h.slaveMask
    · exact h.slaveMask

theorem Reachable.inv (h : Reachable handlers s hooks active) : Inv handlers s hooks active := by
  induction h with
  | boot pics idt intf hidt hmaster hslave => exact inv_boot hidt hmaster hslave
  | enable hook _ he ih => exact ih.enable he
  | accept irq g _ ha _ ih => exact ih.accept ha
  | endInterrupt irq _ ih => exact ih.endInterrupt
  | setInterrupts b _ ih =>
    exact ⟨ih.setUp, ih.nest, ih.slaveInService, ih.lines, ih.masterMask, ih.slaveMask, ih.gates⟩

/-- The chips have in service just what the handlers under way have not ended, each of them
before those it broke into. -/
theorem Reachable.in_service (h : Reachable handlers s hooks active) :
    (active.map masterLine).Pairwise (· < ·) ∧
      (∀ n, s.pics.master.inService.getLsbD n = true ↔ n ∈ active.map masterLine) ∧
      ∀ n, s.pics.slave.inService.getLsbD n = true ↔ n + 8 ∈ active := by
  obtain ⟨n, hactive, hshown⟩ := h.inv.nest
  refine ⟨?_, ?_, h.inv.slaveInService⟩
  · rw [← hactive]
    exact n.sorted
  · rw [← hactive]
    exact hshown

/-- The constructor leaves the slave unmasked, so that one hook for it, or for the line it comes
in on, is one for all its lines. -/
theorem Reachable.deliverable (h : Reachable handlers s hooks active) {irq : Nat} (hirq : irq < 16)
    (hne : irq ≠ 2) : s.pics.Deliverable irq ↔
      (∃ hook ∈ hooks, masterLine hook.irq = masterLine irq) ∧
        ∀ a ∈ active, masterLine irq < masterLine a :=
  h.inv.deliverable_iff hirq hne

theorem Inv.gateFor (h : Inv handlers s hooks active) {irq : Nat} (hirq : irq < 16) :
    s.gateFor irq = (hooks.find? (fun h => h.irq == irq)).map Hook.gate := by
  obtain ⟨v, hv, hnat⟩ := h.setUp.vector_toNat hirq
  unfold Irqs.gateFor
  rw [hv, Option.bind_some, h.gates, hnat, gateOf_line]

/-- An interrupt goes through the gate of the last hook for its line. Only lines of the slave
can be accepted that have none. -/
theorem Reachable.accepted_gate (h : Reachable handlers s hooks active) {irq : Nat}
    (ha : s.Accepts irq) :
    s.gateFor irq = (hooks.find? (fun h => h.irq == irq)).map Hook.gate ∧
      (s.gateFor irq = none ↔ 8 ≤ irq ∧ ∀ hook ∈ hooks, hook.irq ≠ irq) ∧
      ∀ v < 0x20, (s.idt v).gate = exceptionGate handlers v := by
  have hline := line_of_accepts ha
  have hgate := h.inv.gateFor hline.1
  refine ⟨hgate, ?_, fun v hv => ?_⟩
  · rw [hgate, Option.map_eq_none_iff, List.find?_eq_none]
    simp only [beq_iff_eq]
    constructor
    · intro hnone
      refine ⟨?_, hnone⟩
      by_contra hlt
      obtain ⟨⟨hook, hin, heq⟩, -⟩ := (h.inv.deliverable_iff hline.1 hline.2).mp ha.2
      have hirq : masterLine irq = irq := if_pos (by omega)
      rw [hirq] at heq
      unfold masterLine at heq
      split at heq
      · exact hnone hook hin heq
      · exact hline.2 heq.symm
    · exact And.right
  · rw [h.inv.gates, gateOf_exception handlers hooks hv]

end

section Clock

/-- What `Pit_8253` asks for with this handler. -/
def pitHook (handlerFunction : Word) : Hook where
  irq := 0
  handlerFunction := handlerFunction
  runInUserMode := false
  handlerIsInterruptable := false

/-- A chip as the boot code leaves it. -/
def maskedChip : Chip := ⟨.mask, false, false, 0, 0, 0, 0xff, 0⟩

def bootHandlers : Handlers := ⟨0x101000, 0x102000⟩

/-- A clock on the slave, whose handler can be interrupted. -/
def clockHook : Hook := ⟨8, 0x103000, false, true⟩

/-- The constructors have run, and line 8 has its hook. -/
def clockEnabled : Irqs :=
  { pics := ⟨⟨.mask, false, true, 0x20, 0x4, 1, 0xfb, 0⟩, ⟨.mask, false, true, 0x28, 0x2, 1, 0, 0⟩⟩
    idt := Function.update (Function.update (Function.update emptyIdt
      0x0e (entry 0x101000 false true)) 0x0d (entry 0x102000 false false))
      0x28 (entry 0x103000 false true)
    intf := true }

def bothEnabled : Irqs :=
  { pics := ⟨⟨.mask, false, true, 0x20, 0x4, 1, 0xfa, 0⟩, ⟨.mask, false, true, 0x28, 0x2, 1, 0, 0⟩⟩
    idt := Function.update clockEnabled.idt 0x20 (entry 0x104000 false false)
    intf := true }

def inClock : Irqs := bothEnabled.accept 8 clockHook.gate

/-- The timer has broken into the handler of the clock. -/
def inTimer : Irqs := inClock.accept 0 (pitHook 0x104000).gate

theorem clockEnabled_reachable : Reachable bootHandlers clockEnabled [clockHook] [] :=
  .enable clockHook (.boot ⟨maskedChip, maskedChip⟩ _ true rfl rfl rfl) rfl

theorem bothEnabled_reachable :
    Reachable bootHandlers bothEnabled [pitHook 0x104000, clockHook] [] :=
  .enable (pitHook 0x104000) clockEnabled_reachable rfl

theorem inClock_reachable :
    Reachable bootHandlers inClock [pitHook 0x104000, clockHook] [8] :=
  .accept 8 clockHook.gate bothEnabled_reachable (by decide) (by decide)

theorem inTimer_reachable :
    Reachable bootHandlers inTimer [pitHook 0x104000, clockHook] [0, 8] :=
  .accept 0 (pitHook 0x104000).gate inClock_reachable (by decide) (by decide)

/-- Two handlers are in service, the one inside the other, and after `EndInterrupt` of the timer
the clock alone. -/
theorem in_service_nested :
    (∀ n, inTimer.pics.master.inService.getLsbD n = true ↔ n = 0 ∨ n = 2) ∧
      (∀ n, (inTimer.endInterrupt 0).pics.master.inService.getLsbD n = true ↔ n = 2) ∧
      ∀ n, (inTimer.endInterrupt 0).pics.slave.inService.getLsbD n = true ↔ n = 0 := by
  have hended := inTimer_reachable.endInterrupt
  refine ⟨fun n => ?_, fun n => ?_, fun n => ?_⟩
  · have hlines : [0, 8].map masterLine = [0, 2] := by decide
    rw [inTimer_reachable.in_service.2.1, hlines]
    simp
  · have hlines : [8].map masterLine = [2] := by decide
    rw [hended.in_service.2.1, hlines, List.mem_singleton]
  · rw [hended.in_service.2.2, List.mem_singleton]
    omega

/-- Line 9 has no hook, and is let through all the same; the clock keeps it back and the timer
not, and the timer keeps back everything. -/
theorem deliverable_nested :
    bothEnabled.pics.Deliverable 9 ∧ ¬ inClock.pics.Deliverable 9 ∧ inClock.pics.Deliverable 0 ∧
      ¬ inTimer.pics.Deliverable 0 ∧ (inTimer.endInterrupt 0).pics.Deliverable 0 := by
  have hended := inTimer_reachable.endInterrupt
  have hbefore : bothEnabled.pics.Deliverable 9 ↔ _ :=
    bothEnabled_reachable.deliverable (by decide) (by decide)
  have hclock : inClock.pics.Deliverable 9 ↔ _ :=
    inClock_reachable.deliverable (by decide) (by decide)
  have htimer : inClock.pics.Deliverable 0 ↔ _ :=
    inClock_reachable.deliverable (by decide) (by decide)
  have hinside : inTimer.pics.Deliverable 0 ↔ _ :=
    inTimer_reachable.deliverable (by decide) (by decide)
  have hafter : (inTimer.endInterrupt 0).pics.Deliverable 0 ↔ _ :=
    hended.deliverable (by decide) (by decide)
  rw [hbefore, hclock, htimer, hinside, hafter]
  decide

theorem accepted_gate_nested :
    inClock.gateFor 0 = some (pitHook 0x104000).gate ∧ bothEnabled.gateFor 9 = none := by
  have h₀ : inClock.Accepts 0 := by decide
  have h₉ : bothEnabled.Accepts 9 := by decide
  exact ⟨(inClock_reachable.accepted_gate h₀).1,
    (bothEnabled_reachable.accepted_gate h₉).2.1.mpr (by decide)⟩

end Clock

end Irqs
end Tysos
