import Tysos.Memory.SectionList
import Tysos.Sched.Scheduler
import Tysos.Task.FirstRun

/-!
# Creating a thread

`Thread::Create`: a place for the stack, for a process in user mode one for the kernel stack, and
then the thread is added to its process. The two places are found and recorded one after the
other, in different lists.
-/

namespace Tysos
open ByteMemory
set_option autoImplicit false

/-- The fields of a `Thread` that `Create` sets. -/
structure CreatedThread where
  name : String
  tsi : Address
  priority : BitVec 32
  defaultSlice : BitVec 64
  location : Int
  stack : Section
  kernelStack : Option Section

structure Process where
  userMode : Bool
  priority : BitVec 32
  defaultSlice : BitVec 32
  sections : SectionList
  threads : List CreatedThread

/-- What `Create` gets from `new`: the address of the switch record, and the `MemSource` of the
two sections, which nobody sets. -/
structure NewObjects where
  tsi : Address
  stackSource : BitVec 32
  kernelStackSource : BitVec 32

namespace Process

def stackFlags : BitVec 32 :=
  Section.flagDefined ||| Section.flagRead ||| Section.flagWrite ||| Section.flagAutoExpand

def stackRequest (userMode : Bool) (stacksize : Uintptr) (source : BitVec 32) : Section where
  flags := if userMode = false then stackFlags ||| Section.flagKernelSection else stackFlags
  base := 0
  length := pageSize
  expandDown := if stacksize = 0 then pageSize * 5 else stacksize
  expandUp := 0
  lowerPadding := pageSize
  upperPadding := pageSize
  memSource := source

def kernelStackRequest (source : BitVec 32) : Section where
  flags := stackFlags ||| Section.flagKernelSection
  base := 0
  length := pageSize
  expandDown := 0
  expandUp := 0
  lowerPadding := 0
  upperPadding := 0
  memSource := source

/-- The arguments of `Create`, with the addresses its code refers to. -/
structure CreateArgs where
  entryAddress : Word
  param : Word
  name : Option String
  stacksize : Uintptr
  points : EntryPoints

/-- The end of `Create`: the switch record is initialised and the thread is added. -/
def addThread (p : Process) (m : Memory) (args : CreateArgs) (new : NewObjects) (stack : Section)
    (kernelStack : Option Section) : Process × Memory × Option CreatedThread :=
  let ret : CreatedThread :=
    { name := args.name.getD "Unnamed thread"
      tsi := new.tsi
      priority := p.priority
      defaultSlice := p.defaultSlice.signExtend 64
      location := locReleased
      stack := stack
      kernelStack := kernelStack }
  ({ p with threads := p.threads ++ [ret] },
    TaskSwitchInfo.init m new.tsi args.points args.entryAddress stack args.param kernelStack,
    some ret)

def create (p : Process) (m : Memory) (args : CreateArgs) (new : NewObjects) :
    Process × Memory × Option CreatedThread :=
  match p.sections.findFree (stackRequest p.userMode args.stacksize new.stackSource) with
  | none => (p, m, none)
  | some stack =>
    let p := { p with sections := p.sections.add stack }
    if p.userMode then
      match p.sections.findFree (kernelStackRequest new.kernelStackSource) with
      | none => (p, m, none)
      | some kernelStack =>
        let p := { p with sections := p.sections.add kernelStack }
        p.addThread m args new stack (some kernelStack)
    else p.addThread m args new stack none

/-- The process has gained the thread `t` and its stacks, at places that were free before. -/
structure Gained (p p' : Process) (t : CreatedThread) (stack kernelStack : Section) : Prop where
  stack : p.sections.findFree stack = some t.stack
  kernelStack : if p.userMode then p.sections.findFree kernelStack = t.kernelStack
    else t.kernelStack = none
  kernelSections : p'.sections.kernelSections = p.sections.kernelSections ++
    if p.userMode then t.kernelStack.toList else [t.stack]
  processSections : p'.sections.processSections = p.sections.processSections ++
    if p.userMode then [t.stack] else []
  threads : p'.threads = p.threads ++ [t]

/-- Without a thread nothing has changed; with one, the process has gained it and its stacks. -/
def AllOrNothing (p p' : Process) (stack kernelStack : Section) : Option CreatedThread → Prop
  | none => p'.sections = p.sections ∧ p'.threads = p.threads
  | some t => p.Gained p' t stack kernelStack

section
variable {l : SectionList} {request r : Section}

theorem has_of_findFree (h : l.findFree request = some r) (flag : BitVec 32) :
    r.has flag = request.has flag := by
  obtain ⟨c, -, -, -, rfl⟩ := SectionList.findfreeLoop_eq_some h
  rfl

theorem stackFlags_kernel :
    (stackFlags ||| Section.flagKernelSection) &&& Section.flagKernelSection ≠ 0 := by decide

theorem stackRequest_kernel (userMode : Bool) (stacksize : Uintptr) (source : BitVec 32) :
    (stackRequest userMode stacksize source).has Section.flagKernelSection = !userMode := by
  have huser : stackFlags &&& Section.flagKernelSection = 0 := by decide
  unfold Section.has stackRequest
  cases userMode with
  | false => exact decide_eq_true stackFlags_kernel
  | true => exact decide_eq_false (not_not.mpr huser)

theorem kernelStackRequest_kernel (source : BitVec 32) :
    (kernelStackRequest source).has Section.flagKernelSection = true :=
  decide_eq_true stackFlags_kernel

theorem findFree_add_process (h : r.has Section.flagKernelSection = false)
    (hkernel : request.has Section.flagKernelSection = true) :
    (l.add r).findFree request = l.findFree request := by
  unfold SectionList.findFree SectionList.ofKind SectionList.add
  rw [h, hkernel]
  rfl

theorem add_kernel (h : r.has Section.flagKernelSection = true) :
    l.add r = { l with kernelSections := l.kernelSections ++ [r] } := by
  unfold SectionList.add
  rw [if_pos h]

theorem add_process (h : r.has Section.flagKernelSection = false) :
    l.add r = { l with processSections := l.processSections ++ [r] } := by
  unfold SectionList.add
  rw [h, if_neg Bool.false_ne_true]

end

/-- `Create` is all or nothing unless the stack of a user thread finds a place and its kernel
stack does not. -/
theorem create_all_or_nothing_iff (p : Process) (m : Memory) (args : CreateArgs)
    (new : NewObjects) :
    p.AllOrNothing (p.create m args new).1
        (stackRequest p.userMode args.stacksize new.stackSource)
        (kernelStackRequest new.kernelStackSource) (p.create m args new).2.2 ↔
      (p.userMode = true →
        (p.sections.findFree
          (stackRequest p.userMode args.stacksize new.stackSource)).isSome = true →
        (p.sections.findFree (kernelStackRequest new.kernelStackSource)).isSome = true) := by
  have hkind := stackRequest_kernel p.userMode args.stacksize new.stackSource
  unfold create
  cases hstack : p.sections.findFree (stackRequest p.userMode args.stacksize new.stackSource) with
  | none => exact iff_of_true ⟨rfl, rfl⟩ fun _ hnone => absurd hnone (by simp)
  | some stack =>
    have hflag := has_of_findFree hstack Section.flagKernelSection
    rw [hkind] at hflag
    dsimp only
    cases huser : p.userMode with
    | false =>
      rw [huser, Bool.not_false] at hflag
      rw [huser] at hstack
      refine iff_of_true ?_ fun h => absurd h (by simp)
      rw [add_kernel hflag]
      exact ⟨hstack, by rw [huser]; rfl, by rw [huser]; rfl,
        by rw [huser]; exact (List.append_nil _).symm, rfl⟩
    | true =>
      rw [huser, Bool.not_true] at hflag
      rw [huser] at hstack
      have hkernel := findFree_add_process (l := p.sections) hflag
        (kernelStackRequest_kernel new.kernelStackSource)
      rw [if_pos rfl, hkernel]
      cases hsecond : p.sections.findFree (kernelStackRequest new.kernelStackSource) with
      | none =>
        -- the stack of the thread stays in the list
        refine iff_of_false ?_ fun h => absurd (h rfl rfl) (by simp)
        rintro ⟨hsections, -⟩
        rw [add_process hflag] at hsections
        have hlength := congrArg (fun l => l.processSections.length) hsections
        simp at hlength
      | some kernelStack =>
        have hflag' := has_of_findFree hsecond Section.flagKernelSection
        rw [kernelStackRequest_kernel] at hflag'
        refine iff_of_true ?_ fun _ _ => rfl
        dsimp only
        rw [add_process hflag, add_kernel hflag']
        exact ⟨hstack, by rw [huser]; exact hsecond, by rw [huser]; rfl, by rw [huser]; rfl, rfl⟩

/-- A process in user mode whose kernel list has one section, of the length given. -/
def crowded (length : Uintptr) : Process where
  userMode := true
  priority := 5
  defaultSlice := 10000000
  sections := ⟨[⟨0x4007, 0x100000, length, 0, 0, 0, 0, 0⟩], []⟩
  threads := []

/-- With the kernel's range full, a stack is left over in the process that has no thread. -/
theorem stack_left_over : ¬ ∀ (p : Process) (m : Memory) (args : CreateArgs) (new : NewObjects),
    p.AllOrNothing (p.create m args new).1
      (stackRequest p.userMode args.stacksize new.stackSource)
      (kernelStackRequest new.kernelStackSource) (p.create m args new).2.2 := by
  intro h
  have hall := h (crowded 0x3fafffff) (fun _ => 0) ⟨0, 0, none, 0, ⟨0, 0⟩⟩ ⟨0, 0, 0⟩
  rw [create_all_or_nothing_iff] at hall
  revert hall
  decide

end Process
end Tysos
