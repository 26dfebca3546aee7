import Tysos.PhysMem.Pool
import Tysos.Support.Run
import Mathlib.Data.List.Perm.Basic

/-!
# The stack of free pages in the long run

Pushes and pops in any order, with other writes to memory in between, beside the list of pages
that are on the stack. `PopPage` passes the 0 that `BeginPop` returns for the empty stack on to
`EndPop`, so that the new top is whatever the word at address 0 holds.
-/

namespace Tysos
open ByteMemory
set_option autoImplicit false

/-- `elsewhere m` stands for writes by others, after which memory is `m`. -/
inductive StackCall where
  | pushPage (p : PhysAddr)
  | popPage
  | elsewhere (m : Memory)

/-- A stack in its memory, with the pages on it from the top, all pages pushed so far and all
pages other than 0 returned so far. -/
structure StackHistory where
  stack : PhysMemStack
  mem : Memory
  pages : List PhysAddr
  pushed : List PhysAddr
  returned : List PhysAddr

namespace StackHistory

/-- What the constructor leaves, in any memory. -/
def init (m : Memory) : StackHistory := ⟨⟨0⟩, m, [], [], []⟩

def step (s : StackHistory) : StackCall → Option StackHistory
  | .pushPage p =>
    let (stack, mem) := s.stack.pushPage s.mem p
    some { s with stack := stack, mem := mem, pages := p :: s.pages, pushed := p :: s.pushed }
  | .popPage =>
    let (stack, p) := s.stack.popPage s.mem
    some { s with
      stack := stack
      pages := s.pages.tail
      returned := if p = 0 then s.returned else p :: s.returned }
  | .elsewhere m => some { s with mem := m }

/-- Pages are pushed that are not on the stack, and nobody else writes to a page that is. -/
def Legal (s : StackHistory) : StackCall → Prop
  | .pushPage p => p ≠ 0 ∧ p.toNat % 4096 = 0 ∧ p ∉ s.pages
  | .popPage => True
  | .elsewhere m => ∀ p ∈ s.pages, ∀ x, InRange p 4096 x → m x = s.mem x

/-- `PopPage` returns the last page pushed, or 0 where there is none, and an empty stack stays
empty. -/
def PopsLast (s : StackHistory) : StackCall → Prop
  | .popPage => (s.stack.popPage s.mem).2 = s.pages.headD 0 ∧
      (s.pages = [] → (s.stack.popPage s.mem).1.top = 0)
  | _ => True

/-- An empty stack is popped only while the word at address 0 is 0. -/
def ZeroBelow (s : StackHistory) : StackCall → Prop
  | .popPage => s.stack.top = 0 → read32 s.mem 0 = 0
  | _ => True

/-- Every push has been returned, once, or is still on the stack. -/
def Accounted (s : StackHistory) : Prop := (s.returned ++ s.pages).Perm s.pushed

structure Linked (s : StackHistory) : Prop where
  links : Chain s.mem s.stack.top s.pages
  nodup : s.pages.Nodup
  aligned : ∀ p ∈ s.pages, p.toNat % 4096 = 0
  accounted : s.Accounted

theorem linked_init (m : Memory) : (init m).Linked :=
  ⟨rfl, List.nodup_nil, by simp [init], List.Perm.refl _⟩

variable {s s' : StackHistory}

theorem Linked.popPage_cons (h : s.Linked) {p : PhysAddr} {ps : List PhysAddr}
    (hp : s.pages = p :: ps) :
    s.stack.top ≠ 0 ∧ s.stack.popPage s.mem = (⟨read32 s.mem p⟩, p) := by
  have hlinks := h.links
  rw [hp] at hlinks
  obtain ⟨htop, hne, -⟩ := hlinks
  refine ⟨htop ▸ hne, ?_⟩
  unfold PhysMemStack.popPage PhysMemStack.beginPop
  rw [htop, if_neg hne]
  rfl

theorem Linked.popPage_nil (h : s.Linked) (hp : s.pages = []) :
    s.stack.top = 0 ∧ s.stack.popPage s.mem = (⟨read32 s.mem 0⟩, 0) := by
  have hlinks := h.links
  rw [hp] at hlinks
  have htop : s.stack.top = 0 := hlinks
  refine ⟨htop, ?_⟩
  unfold PhysMemStack.popPage PhysMemStack.beginPop
  rw [if_pos htop]
  rfl

/-- The step lemma. -/
theorem Linked.popsLast_iff (h : s.Linked) (c : StackCall) : s.PopsLast c ↔ s.ZeroBelow c := by
  cases c with
  | pushPage p => exact Iff.rfl
  | elsewhere m => exact Iff.rfl
  | popPage =>
    cases hp : s.pages with
    | nil =>
      obtain ⟨htop, hpop⟩ := h.popPage_nil hp
      simp only [PopsLast, ZeroBelow, hp, hpop, htop, List.headD_nil, true_and, true_implies]
    | cons p ps =>
      obtain ⟨hne, hpop⟩ := h.popPage_cons hp
      refine iff_of_true ⟨?_, fun hnil => ?_⟩ fun htop => absurd htop hne
      · rw [hpop, hp]
        rfl
      · rw [hp] at hnil
        exact absurd hnil (List.cons_ne_nil p ps)

theorem Linked.pushPage (h : s.Linked) {p : PhysAddr} (hl : s.Legal (.pushPage p))
    (hs : s.step (.pushPage p) = some s') : s'.Linked := by
  obtain ⟨hne, hal, hout⟩ := hl
  have hpush : s.stack.pushPage s.mem p = (⟨p⟩, write32 s.mem p s.stack.top) := if_neg hne
  simp only [StackHistory.step, hpush] at hs
  obtain rfl := Option.some.inj hs
  refine ⟨?_, List.nodup_cons.mpr ⟨hout, h.nodup⟩, ?_, ?_⟩
  · refine h.links.push hne fun q hq => ?_
    have hqp : q ≠ p := fun heq => hout (heq ▸ hq)
    exact (PhysMemAllocator.clear_pages (h.aligned q hq) hal hqp).mono (by decide) (by decide)
  · intro q hq
    rcases List.mem_cons.mp hq with rfl | hq
    · exact hal
    · exact h.aligned q hq
  · exact List.perm_middle.trans (h.accounted.cons p)

theorem Linked.popPage (h : s.Linked) (hz : s.ZeroBelow .popPage)
    (hs : s.step .popPage = some s') : s'.Linked := by
  cases hp : s.pages with
  | nil =>
    obtain ⟨htop, hpop⟩ := h.popPage_nil hp
    simp only [StackHistory.step, hpop, hp, if_true, List.tail_nil] at hs
    obtain rfl := Option.some.inj hs
    have haccounted := h.accounted
    unfold Accounted at haccounted
    rw [hp] at haccounted
    exact ⟨hz htop, List.nodup_nil, by simp, haccounted⟩
  | cons p ps =>
    obtain ⟨-, hpop⟩ := h.popPage_cons hp
    have hlinks := h.links
    have hnodup := h.nodup
    have haligned := h.aligned
    have haccounted := h.accounted
    unfold Accounted at haccounted
    rw [hp] at hlinks hnodup haligned haccounted
    simp only [StackHistory.step, hpop, hp, if_neg hlinks.2.1, List.tail_cons] at hs
    obtain rfl := Option.some.inj hs
    exact ⟨hlinks.2.2, hnodup.of_cons, fun q hq => haligned q (List.mem_cons_of_mem p hq),
      List.perm_middle.symm.trans haccounted⟩

theorem Linked.elsewhere (h : s.Linked) {m : Memory} (hl : s.Legal (.elsewhere m)) :
    ({ s with mem := m } : StackHistory).Linked := by
  refine ⟨h.links.congr fun p hp => read32_congr fun x hx => ?_, h.nodup, h.aligned, h.accounted⟩
  exact hl p hp x (Nat.lt_of_lt_of_le hx (by decide))

theorem Linked.step (h : s.Linked) {c : StackCall} (hl : s.Legal c) (hz : s.ZeroBelow c)
    (hs : s.step c = some s') : s'.Linked := by
  cases c with
  | pushPage p => exact h.pushPage hl hs
  | popPage => exact h.popPage hz hs
  | elsewhere m =>
    obtain rfl := Option.some.inj hs
    exact h.elsewhere hl

/-- The stack is last in, first out, and returns what was pushed and nothing else, exactly when
it is never popped empty over a word at address 0 that is not 0. -/
theorem lifo_iff (m : Memory) {calls : List StackCall}
    (hlegal : Transition.EachStep StackHistory.step Legal (init m) calls) :
    (Transition.EachStep StackHistory.step PopsLast (init m) calls ∧
        ∀ s, Transition.run StackHistory.step (init m) calls = some s → s.Accounted) ↔
      Transition.EachStep StackHistory.step ZeroBelow (init m) calls := by
  have hiff : Transition.EachStep StackHistory.step PopsLast (init m) calls ↔
      Transition.EachStep StackHistory.step ZeroBelow (init m) calls := by
    refine Transition.EachStep.iff_under ?_ ?_ (linked_init m) hlegal
    · exact fun s c s' h hl hp hs => h.step hl ((h.popsLast_iff c).mp hp) hs
    · exact fun s c h _ => h.popsLast_iff c
  constructor
  · exact fun h => hiff.mp h.1
  · intro hzero
    refine ⟨hiff.mpr hzero, fun s hr => ?_⟩
    have hboth := hlegal.and hzero
    have hend := hboth.run_invariant (fun s c s' h hc hs => Linked.step h hc.1 hc.2 hs)
      (linked_init m) hr
    exact hend.accounted

/-- One page goes through the stack, which is then popped once more, in cleared memory. -/
theorem one_page_lifo :
    Transition.EachStep StackHistory.step PopsLast (init fun _ => 0)
        [.pushPage 0x1000, .popPage, .popPage] ∧
      ∀ s, Transition.run StackHistory.step (init fun _ => 0)
        [.pushPage 0x1000, .popPage, .popPage] = some s → s.Accounted := by
  apply (lifo_iff (fun _ => 0) _).mpr
  · refine ⟨trivial, fun s hs => ?_⟩
    obtain rfl := Option.some.inj hs
    refine ⟨fun htop => absurd htop (by decide), fun s' hs' => ?_⟩
    obtain rfl := Option.some.inj hs'
    exact ⟨fun _ => by decide, fun _ _ => trivial⟩
  · exact ⟨⟨by decide, by decide, by simp [init]⟩,
      fun _ _ => ⟨trivial, fun _ _ => ⟨trivial, fun _ _ => trivial⟩⟩⟩

/-- Where the first word of memory is not 0, popping the empty stack makes that word the top. -/
theorem empty_pop_leaves_top :
    ¬ ∀ (m : Memory) (calls : List StackCall),
      Transition.EachStep StackHistory.step Legal (init m) calls →
      Transition.EachStep StackHistory.step PopsLast (init m) calls ∧
        ∀ s, Transition.run StackHistory.step (init m) calls = some s → s.Accounted := by
  intro h
  have hpop := (h (fun _ => 1) [.popPage] ⟨trivial, fun _ _ => trivial⟩).1.1
  have htop := hpop.2 rfl
  revert htop
  decide

end StackHistory
end Tysos
