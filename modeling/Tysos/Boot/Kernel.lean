import Tysos.Boot.Parse
import Tysos.Memory.Heap

/-!
# The sections of the kernel

`Kernel::InitKernel` finds a place for an array of `Section`, fills in one of them for each ELF
section that is not empty and adds it to the list; the array itself is the first section. The
place is free by the multiboot tables, and nothing is done to keep it.
-/

namespace Tysos
open ByteMemory
set_option autoImplicit false

/-- A section header with its flags. -/
structure KernelShdr extends Elf32Shdr where
  shFlags : BitVec 32
  deriving DecidableEq

namespace Section

def flagExecute : BitVec 32 := 0x8

/-- The words of a `Section` in memory, with the address of its name. -/
def words (s : Section) (name : Address) : List (BitVec 32) :=
  [name, s.flags, s.base, s.length, s.expandDown, s.expandUp, s.lowerPadding, s.upperPadding,
    s.memSource]

/-- `sizeof(Section)`. -/
def size : Nat := 36

theorem words_fit (s : Section) (name : Address) : 4 * (s.words name).length ≤ 2 ^ 32 :=
  Nat.le_of_ble_eq_true rfl

end Section

namespace Kernel

def shfWrite : BitVec 32 := 0x1
def shfExecinstr : BitVec 32 := 0x4

/-- `elf_section_headers`. -/
def elfSectionHeaders (base length : BitVec 32) : Section where
  flags := Section.flagDefined ||| Section.flagBits ||| Section.flagRead ||| Section.flagWrite |||
    Section.flagKernelSection
  base := base
  length := length
  expandDown := 0
  expandUp := 0
  lowerPadding := 0
  upperPadding := 0
  memSource := base

def sectionOf (e : KernelShdr) : Section :=
  let flags := Section.flagDefined ||| Section.flagBits ||| Section.flagKernelSection |||
    Section.flagRead
  let flags := if e.shFlags &&& shfWrite ≠ 0 then flags ||| Section.flagWrite else flags
  let flags := if e.shFlags &&& shfExecinstr ≠ 0 then flags ||| Section.flagExecute else flags
  { flags := flags
    base := e.shAddr
    length := e.shSize
    expandDown := 0
    expandUp := 0
    lowerPadding := 0
    upperPadding := 0
    memSource := e.shAddr }

/-- `&sects[i]`. -/
def record (sects : Address) (i : Nat) : Address := sects + BitVec.ofNat 32 (Section.size * i)

/-- The loop over the headers from `i` on; `strings` is `e_str->sh_addr`. -/
def addSections (sects strings : Address) :
    List KernelShdr → Nat → Memory × List Section → Memory × List Section
  | [], _, st => st
  | e :: es, i, (m, sections) =>
    if e.shSize = 0 then addSections sects strings es (i + 1) (m, sections)
    else
      let s := sectionOf e
      addSections sects strings es (i + 1)
        (writeWords m (record sects i) (s.words (strings + e.shName)), sections ++ [s])

/-- `mb->header.elf_num * sizeof(Section)`. -/
def recordsLength (es : List KernelShdr) : BitVec 32 := BitVec.ofNat 32 (Section.size * es.length)

/-- The memory and the list of sections it leaves. Without a place there are no sections. -/
def initKernel (mb : Multiboot) (es : List KernelShdr) (strings : Address) (m : Memory) :
    Memory × SectionList :=
  let base := mb.findRange (recordsLength es)
  if base = 0 then (m, ⟨[], []⟩)
  else
    let st := addSections base strings es 0 (m, [elfSectionHeaders base (recordsLength es)])
    (st.1, ⟨st.2, []⟩)

section AddSections
variable {sects strings : Address} {es : List KernelShdr} {i : Nat} {m : Memory}
  {sections : List Section}

theorem addSections_sections :
    (addSections sects strings es i (m, sections)).2 =
      sections ++ (es.filter fun e => e.shSize ≠ 0).map sectionOf := by
  induction es generalizing i m sections with
  | nil => exact (List.append_nil sections).symm
  | cons e es ih =>
    unfold addSections
    by_cases hzero : e.shSize = 0
    · rw [if_pos hzero, ih, List.filter_cons_of_neg (by simpa using hzero)]
    · rw [if_neg hzero, ih, List.filter_cons_of_pos (by simpa using hzero), List.map_cons,
        List.append_assoc]
      rfl

theorem inRange_record_succ {n : Nat} {x : Address} :
    InRange (record sects i) (Section.size * (n + 1)) x ↔
      InRange (record sects i) Section.size x ∨
        InRange (record sects (i + 1)) (Section.size * n) x := by
  unfold InRange record Section.size at *
  bv_omega

/-- Nothing but the records from `i` on is written. -/
theorem addSections_of_not_inRange {x : Address} (hlen : Section.size * (i + es.length) < 2 ^ 32)
    (hx : ¬ InRange (record sects i) (Section.size * es.length) x) :
    (addSections sects strings es i (m, sections)).1 x = m x := by
  induction es generalizing i m sections with
  | nil => rfl
  | cons e es ih =>
    rw [List.length_cons] at hlen hx
    have hnext : Section.size * (i + 1 + es.length) < 2 ^ 32 := by
      rw [Nat.add_assoc, Nat.add_comm 1]
      exact hlen
    rw [inRange_record_succ] at hx
    unfold addSections
    by_cases hzero : e.shSize = 0
    · rw [if_pos hzero]
      exact ih hnext fun hin => hx (Or.inr hin)
    · rw [if_neg hzero]
      dsimp only
      rw [ih hnext fun hin => hx (Or.inr hin)]
      exact writeWords_of_not_inRange (Section.words_fit _ _) fun hin => hx (Or.inl hin)

/-- Each record that was filled in is still there at the end. -/
theorem addSections_words (hlen : Section.size * (i + es.length) < 2 ^ 32) {j : Nat}
    {e : KernelShdr} (he : es[j]? = some e) (hsize : e.shSize ≠ 0) :
    Words (addSections sects strings es i (m, sections)).1 (record sects (i + j))
      ((sectionOf e).words (strings + e.shName)) := by
  induction es generalizing i j m sections with
  | nil => cases he
  | cons e₀ es ih =>
    rw [List.length_cons] at hlen
    have hnext : Section.size * (i + 1 + es.length) < 2 ^ 32 := by
      rw [Nat.add_assoc, Nat.add_comm 1]
      exact hlen
    unfold addSections
    cases j with
    | zero =>
      obtain rfl : e₀ = e := Option.some.inj he
      rw [if_neg hsize]
      have hwritten := writeWords_words (Section.words_fit (sectionOf e₀) (strings + e₀.shName)) m
        (record sects i)
      refine hwritten.congr (Section.words_fit _ _) fun x hx => ?_
      refine addSections_of_not_inRange hnext fun hin => ?_
      have hwords : 4 * ((sectionOf e₀).words (strings + e₀.shName)).length = 36 := rfl
      rw [hwords] at hx
      unfold InRange record Section.size at *
      bv_omega
    | succ j =>
      have hrest : es[j]? = some e := he
      have hplace : i + (j + 1) = i + 1 + j := by omega
      rw [hplace]
      by_cases hzero : e₀.shSize = 0
      · rw [if_pos hzero]
        exact ih hnext hrest
      · rw [if_neg hzero]
        exact ih hnext hrest

end AddSections

end Kernel
end Tysos
