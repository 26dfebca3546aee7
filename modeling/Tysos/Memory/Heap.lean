import Tysos.Memory.SectionList
import Tysos.Support.ByteMemory
import Tysos.Support.Run
import Mathlib.Data.List.Chain

/-!
# The kernel heap

`sbrk`, with the section `kheap` it keeps in the kernel's section list. Once the section has a
place the break `Base + Length` moves between `Base` and `Base + ExpandUp`.
-/

namespace Tysos
open ByteMemory
set_option autoImplicit false

def Section.flagHeap : BitVec 32 := 0x10

/-- What `sbrk` works on. `heap` says whether `k.Heap` points to `kheap` or is NULL; an item
`none` of the kernel sections is `kheap` itself. -/
structure HeapSpace where
  kheap : Section
  heap : Bool
  kernelItems : List (Option Section)
  processSections : List Section
  deriving DecidableEq, Repr

namespace HeapSpace

/-- `k.Sections` as it reads at the moment. -/
def sections (s : HeapSpace) : SectionList :=
  ⟨s.kernelItems.map fun item => item.getD s.kheap, s.processSections⟩

def heapRequest (kheap : Section) : Section :=
  { kheap with
    base := 0
    length := 0
    expandDown := 0
    expandUp := (kernelEnd - kernelStart) / 2 &&& pageMask
    upperPadding := pageSize
    lowerPadding := pageSize
    flags := Section.flagDefined ||| Section.flagRead ||| Section.flagWrite |||
      Section.flagKernelSection ||| Section.flagHeap }

/-- The loop that asks for half as much each time; and whether a place was found. -/
def placeLoop (l : SectionList) : Nat → Section → Section × Bool
  | 0, kheap => (kheap, false)
  | k + 1, kheap =>
    if kheap.expandUp ≥ pageSize then
      match l.findFree kheap with
      | some ks => (ks, true)
      | none => placeLoop l k { kheap with expandUp := kheap.expandUp / 2 }
    else (kheap, false)

/-- The first part of `sbrk`. A 32-bit size can be halved 32 times. -/
def create (s : HeapSpace) : HeapSpace :=
  if s.heap then s
  else
    match placeLoop s.sections 32 (heapRequest s.kheap) with
    | (ks, true) => { s with kheap := ks, heap := true, kernelItems := s.kernelItems ++ [none] }
    | (kheap, false) => { s with kheap := kheap }

def moveBreak (heap : Section) (d : BitVec 32) : Section × Option Uintptr :=
  if d.toInt ≥ 0 then
    if heap.expandUp - heap.length < d then (heap, none)
    else ({ heap with length := heap.length + d }, some (heap.base + heap.length))
  else
    let shrD := -d
    if heap.length < shrD then (heap, none)
    else ({ heap with length := heap.length - shrD }, some (heap.base + heap.length))

/-- A result `none` is the pointer -1, with `errno` set to `ENOMEM`. -/
def sbrk (s : HeapSpace) (d : BitVec 32) : HeapSpace × Option Uintptr :=
  let s := s.create
  if s.heap then ({ s with kheap := (moveBreak s.kheap d).1 }, (moveBreak s.kheap d).2)
  else (s, none)

theorem placeLoop_succ (l : SectionList) {k : Nat} {kheap : Section}
    (h : kheap.expandUp.toNat < 2 ^ k) : placeLoop l (k + 1) kheap = placeLoop l k kheap := by
  induction k generalizing kheap with
  | zero =>
    have hsmall : ¬ kheap.expandUp ≥ pageSize := by
      have hps : pageSize.toNat = 4096 := rfl
      rw [ge_iff_le, BitVec.le_def]
      omega
    simp [placeLoop, hsmall]
  | succ k ih =>
    have hhalf : ({ kheap with expandUp := kheap.expandUp / 2 } : Section).expandUp.toNat <
        2 ^ k := by
      rw [BitVec.toNat_udiv]
      exact Nat.div_lt_of_lt_mul (by simpa [Nat.pow_succ, Nat.mul_comm] using h)
    unfold placeLoop
    rw [ih hhalf]

/-- The break of a heap may move by `d`: it stays in the part from `Base` to
`Base + ExpandUp`. -/
def InReach (heap : Section) (d : BitVec 32) : Prop :=
  0 ≤ (heap.length.toNat : Int) + d.toInt ∧
    (heap.length.toNat : Int) + d.toInt ≤ heap.expandUp.toNat

/-- The heap, if there is one, has its break in its reach. -/
def Ready (s : HeapSpace) : Prop := s.heap = true → s.kheap.length ≤ s.kheap.expandUp

/-- What a call promises of the heap it finds. -/
structure MovesBreak (heap heap' : Section) (d : BitVec 32) (ret : Option Uintptr) : Prop where
  base : heap'.base = heap.base
  expandUp : heap'.expandUp = heap.expandUp
  below : heap'.length ≤ heap'.expandUp
  fails : ret = none ↔ ¬ InReach heap d
  unchanged : ret = none → heap' = heap
  previous : ∀ p, ret = some p → p = heap.base + heap.length
  moved : ∀ p, ret = some p → (heap'.length.toNat : Int) = heap.length.toNat + d.toInt

theorem msb_of_nonneg {d : BitVec 32} (h : 0 ≤ d.toInt) : d.msb = false := by
  rw [BitVec.msb_eq_toInt, decide_eq_false_iff_not, not_lt]
  exact h

theorem MovesBreak.refused {heap : Section} {d : BitVec 32} (h : heap.length ≤ heap.expandUp)
    (hout : ¬ InReach heap d) : MovesBreak heap heap d none :=
  ⟨rfl, rfl, h, iff_of_true rfl hout, fun _ => rfl, by simp, by simp⟩

theorem MovesBreak.given {heap : Section} {d length : BitVec 32} (hin : InReach heap d)
    (hlen : (length.toNat : Int) = heap.length.toNat + d.toInt) :
    MovesBreak heap { heap with length := length } d (some (heap.base + heap.length)) := by
  refine ⟨rfl, rfl, ?_, iff_of_false (by simp) (not_not_intro hin), by simp,
    fun p hp => (Option.some.inj hp).symm, fun p _ => hlen⟩
  have hmax := hin.2
  rw [BitVec.le_def]
  dsimp only
  omega

theorem moveBreak_spec {heap : Section} (h : heap.length ≤ heap.expandUp) (d : BitVec 32) :
    MovesBreak heap (moveBreak heap d).1 d (moveBreak heap d).2 := by
  have hroom : (heap.expandUp - heap.length).toNat = heap.expandUp.toNat - heap.length.toNat :=
    BitVec.toNat_sub_of_le h
  have hle : heap.length.toNat ≤ heap.expandUp.toNat := h
  have hup := heap.expandUp.isLt
  unfold moveBreak
  by_cases hd : d.toInt ≥ 0
  -- up, by no more than is left below `ExpandUp`
  · have hint := BitVec.toInt_eq_toNat_of_msb (msb_of_nonneg hd)
    rw [if_pos hd]
    by_cases hlack : heap.expandUp - heap.length < d
    · rw [if_pos hlack]
      rw [BitVec.lt_def] at hlack
      refine MovesBreak.refused h fun hreach => ?_
      have hmax := hreach.2
      omega
    · rw [if_neg hlack]
      rw [BitVec.lt_def] at hlack
      have hsum : (heap.length + d).toNat = heap.length.toNat + d.toNat := by
        rw [BitVec.toNat_add]
        exact Nat.mod_eq_of_lt (by omega)
      exact MovesBreak.given ⟨by omega, by omega⟩ (by omega)
  -- down, by no more than the length
  · have hint : (-d).toNat = -d.toInt := by
      have hcases := BitVec.toInt_eq_toNat_cond d
      have hneg : (-d).toNat = (2 ^ 32 - d.toNat) % 2 ^ 32 := BitVec.toNat_neg d
      have hlt := d.isLt
      split at hcases <;> omega
    rw [if_neg hd]
    dsimp only
    by_cases hlack : heap.length < -d
    · rw [if_pos hlack]
      rw [BitVec.lt_def] at hlack
      refine MovesBreak.refused h fun hreach => ?_
      have hmin := hreach.1
      omega
    · rw [if_neg hlack]
      have hsub : (heap.length - -d).toNat = heap.length.toNat - (-d).toNat :=
        BitVec.toNat_sub_of_le (BitVec.not_lt.mp hlack)
      rw [BitVec.lt_def] at hlack
      exact MovesBreak.given ⟨by omega, by omega⟩ (by omega)

theorem placeLoop_length (l : SectionList) (k : Nat) (kheap : Section) :
    (placeLoop l k kheap).1.length = kheap.length := by
  induction k generalizing kheap with
  | zero => rfl
  | succ k ih =>
    unfold placeLoop
    split
    · cases hf : l.findFree kheap with
      | none => exact ih _
      | some ks =>
        obtain ⟨c, -, -, -, rfl⟩ := SectionList.findfreeLoop_eq_some hf
        rfl
    · rfl

theorem create_of_heap {s : HeapSpace} (h : s.heap = true) : s.create = s := if_pos h

theorem Ready.create {s : HeapSpace} (h : s.Ready) : s.create.Ready := by
  by_cases hs : s.heap = true
  · rw [create_of_heap hs]
    exact h
  · intro _
    have hzero : s.create.kheap.length = 0 := by
      have hlen := placeLoop_length s.sections 32 (heapRequest s.kheap)
      unfold HeapSpace.create
      rw [if_neg hs]
      split <;> rename_i hp <;> rw [hp] at hlen <;> exact hlen
    rw [hzero, BitVec.le_def]
    exact Nat.zero_le _

/-- The call keeps its promise to the heap, which it may first have to create. -/
def CallMoves (s : HeapSpace) (d : BitVec 32) : Prop :=
  s.create.heap = true → MovesBreak s.create.kheap (s.sbrk d).1.kheap d (s.sbrk d).2

def step (s : HeapSpace) (d : BitVec 32) : Option HeapSpace := some (s.sbrk d).1

theorem sbrk_of_heap {s : HeapSpace} (h : s.create.heap = true) (d : BitVec 32) :
    s.sbrk d = ({ s.create with kheap := (moveBreak s.create.kheap d).1 },
      (moveBreak s.create.kheap d).2) := if_pos h

theorem sbrk_of_no_heap {s : HeapSpace} (h : ¬ s.create.heap = true) (d : BitVec 32) :
    s.sbrk d = (s.create, none) := if_neg h

theorem Ready.callMoves {s : HeapSpace} (h : s.Ready) (d : BitVec 32) : s.CallMoves d := by
  intro hheap
  rw [sbrk_of_heap hheap]
  exact moveBreak_spec (h.create hheap) d

theorem Ready.sbrk {s : HeapSpace} (h : s.Ready) (d : BitVec 32) : (s.sbrk d).1.Ready := by
  by_cases hheap : s.create.heap = true
  · intro _
    exact (h.callMoves d hheap).below
  · rw [sbrk_of_no_heap hheap]
    exact h.create

theorem sbrk_heap {s : HeapSpace} (h : s.heap = true) (d : BitVec 32) :
    (s.sbrk d).1.heap = true := by
  have hcreate := create_of_heap h
  rw [sbrk_of_heap (by rw [hcreate, h]), hcreate]
  exact h

/-- The calls that succeed, each with the break it returns. -/
def granted : HeapSpace → List (BitVec 32) → List (Uintptr × BitVec 32)
  | _, [] => []
  | s, d :: ds =>
    match (s.sbrk d).2 with
    | some p => (p, d) :: granted (s.sbrk d).1 ds
    | none => granted (s.sbrk d).1 ds

/-- Two calls that grow the heap one after the other are given neighbouring ranges. -/
def Adjoins (e₁ e₂ : Uintptr × BitVec 32) : Prop :=
  0 ≤ e₁.2.toInt → 0 ≤ e₂.2.toInt →
    e₂.1 = e₁.1 + e₁.2 ∧ Clear e₁.1 e₁.2.toNat e₂.1 e₂.2.toNat

/-- The next success returns the break as it is now, and what it adds is in reach. -/
theorem head_granted {s : HeapSpace} (h : s.Ready) (hs : s.heap = true) {ds : List (BitVec 32)}
    {e : Uintptr × BitVec 32} (he : e ∈ (granted s ds).head?) :
    e.1 = s.kheap.base + s.kheap.length ∧ InReach s.kheap e.2 := by
  induction ds generalizing s with
  | nil => simp [granted] at he
  | cons d ds ih =>
    have hcreate := create_of_heap hs
    have hmoves := h.callMoves d (by rw [hcreate, hs])
    rw [hcreate] at hmoves
    unfold granted at he
    cases hret : (s.sbrk d).2 with
    | none =>
      rw [hret] at he hmoves
      have hrest := ih (h.sbrk d) (sbrk_heap hs d) he
      rw [hmoves.unchanged rfl] at hrest
      exact hrest
    | some p =>
      rw [hret] at he hmoves
      obtain rfl : (p, d) = e := by simpa using he
      refine ⟨hmoves.previous p rfl, ?_⟩
      by_contra hout
      exact absurd (hmoves.fails.mpr hout) (by simp)

theorem granted_chain {s : HeapSpace} (h : s.Ready) (ds : List (BitVec 32)) :
    (granted s ds).IsChain Adjoins := by
  induction ds generalizing s with
  | nil => exact List.IsChain.nil
  | cons d ds ih =>
    have hrest := ih (h.sbrk d)
    unfold granted
    cases hret : (s.sbrk d).2 with
    | none => exact hrest
    | some p =>
      refine List.isChain_cons.mpr ⟨fun e he => ?_, hrest⟩
      have hheap : s.create.heap = true := by
        by_contra hno
        rw [sbrk_of_no_heap hno] at hret
        exact absurd hret (by simp)
      have hmoves := h.callMoves d hheap
      have hafter : (s.sbrk d).1.heap = true := by
        rw [sbrk_of_heap hheap]
        exact hheap
      obtain ⟨hbreak, hreach⟩ := head_granted (h.sbrk d) hafter he
      intro hd he₂
      have hmoved := hmoves.moved p hret
      have hmax := hreach.2
      have hprev := hmoves.previous p hret
      have hup := (s.sbrk d).1.kheap.expandUp.isLt
      have hdn : d.toInt = d.toNat := BitVec.toInt_eq_toNat_of_msb (msb_of_nonneg hd)
      have hen : e.2.toInt = e.2.toNat := BitVec.toInt_eq_toNat_of_msb (msb_of_nonneg he₂)
      have hlen : (s.sbrk d).1.kheap.length = s.create.kheap.length + d := by
        apply BitVec.eq_of_toNat_eq
        rw [BitVec.toNat_add]
        have hlt := (s.sbrk d).1.kheap.length.isLt
        omega
      have hnext : e.1 = p + d := by
        rw [hbreak, hmoves.base, hlen, hprev]
        ac_rfl
      refine ⟨hnext, fun x hx hx' => ?_⟩
      unfold InRange at hx hx'
      rw [hnext] at hx'
      bv_omega

/-- The heap is where it was, with the break in its reach. -/
structure SameReach (s s' : HeapSpace) : Prop where
  heap : s'.heap = true
  base : s'.kheap.base = s.kheap.base
  expandUp : s'.kheap.expandUp = s.kheap.expandUp
  below : s'.kheap.length ≤ s'.kheap.expandUp

theorem SameReach.sbrk {s s' : HeapSpace} (h : s.SameReach s') (d : BitVec 32) :
    s.SameReach (s'.sbrk d).1 := by
  have hready : s'.Ready := fun _ => h.below
  have hcreate := create_of_heap h.heap
  have hmoves := hready.callMoves d (by rw [hcreate, h.heap])
  rw [hcreate] at hmoves
  exact ⟨sbrk_heap h.heap d, hmoves.base.trans h.base, hmoves.expandUp.trans h.expandUp,
    hmoves.below⟩

theorem run_sameReach {s₀ s s' : HeapSpace} (h : s₀.SameReach s) {ds : List (BitVec 32)}
    (hr : Transition.run step s ds = some s') : s₀.SameReach s' := by
  induction ds generalizing s with
  | nil =>
    obtain rfl := Option.some.inj hr
    exact h
  | cons d ds ih => exact ih (h.sbrk d) hr

/-- Every call of a run moves the break as it should or fails, the heap stays where it is, and
the ranges handed out one after the other lie side by side. -/
theorem break_is_contiguous {s₀ : HeapSpace} (h₀ : s₀.Ready) (ds : List (BitVec 32)) :
    Transition.EachStep step CallMoves s₀ ds ∧
      (s₀.heap = true → ∀ s, Transition.run step s₀ ds = some s → s₀.SameReach s) ∧
      (granted s₀ ds).IsChain Adjoins := by
  refine ⟨?_, fun hs s hr => run_sameReach ⟨hs, rfl, rfl, h₀ hs⟩ hr, granted_chain h₀ ds⟩
  induction ds generalizing s₀ with
  | nil => trivial
  | cons d ds ih =>
    refine ⟨h₀.callMoves d, fun s' hs' => ?_⟩
    obtain rfl := Option.some.inj hs'
    exact ih (h₀.sbrk d)

/-- A heap of two pages, as `create` places it where there is no other section. -/
def twoPages : HeapSpace :=
  ⟨⟨0x4017, 0x00101000, 0x2000, 0, 0x1fd7f000, 0x1000, 0x1000, 0⟩, true, [none], []⟩

/-- Calls that move the break of `twoPages` up and down, and one that is refused. -/
def twoPagesCalls : List (BitVec 32) := [0x1000, 0x200, 0x7fffffff, 0x800, -0x1800, 0x400]

theorem twoPages_contiguous :
    Transition.EachStep step CallMoves twoPages twoPagesCalls ∧
      (∀ s, Transition.run step twoPages twoPagesCalls = some s → twoPages.SameReach s) ∧
      [(0x00103000, 0x1000), (0x00104000, 0x200), (0x00104200, 0x800), (0x00104a00, -0x1800),
        (0x00103200, 0x400)].IsChain Adjoins := by
  have hready : twoPages.Ready := fun _ => by decide
  obtain ⟨hcalls, hreach, hchain⟩ := break_is_contiguous hready twoPagesCalls
  exact ⟨hcalls, hreach rfl, hchain⟩

end HeapSpace
end Tysos
