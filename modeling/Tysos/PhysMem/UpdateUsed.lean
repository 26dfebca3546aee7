import Tysos.PhysMem.Allocator

/-!
# UpdateUsed

`UpdateUsed` is to take the pages of all sections with contents out of the bitmap. Its flag
test never succeeds, so that it leaves the allocator as it is.
-/

namespace Tysos
open ByteMemory
set_option autoImplicit false

namespace PhysMemAllocator

/-- The test of two different flag bits, combined with `&`, is always false. -/
theorem flags_and_eq_zero (flags : BitVec 32) :
    (flags &&& Section.flagDefined) &&& (flags &&& Section.flagBits) = 0 := by
  have hbits : Section.flagDefined &&& Section.flagBits = 0 := by decide
  rw [BitVec.and_assoc, BitVec.and_comm flags Section.flagBits, ← BitVec.and_assoc _ _ flags,
    hbits, BitVec.ofNat_eq_ofNat, BitVec.zero_and, BitVec.and_zero]

theorem useSection_eq (report : BtrReport) (s : Section) (al : PhysMemAllocator) :
    useSection report s al = some al := by
  unfold useSection
  rw [flags_and_eq_zero]
  exact if_neg (by simp)

theorem getItem_isSome_iff (l : SectionList) (i : Nat) :
    (∃ s, l.getItem i = some s) ↔
      i < l.kernelSections.length ∨ i - l.kernelSections.length < l.kernelSections.length := by
  unfold SectionList.getItem
  split
  · rename_i h
    exact ⟨fun _ => Or.inl h, fun _ => ⟨_, List.getElem?_eq_getElem h⟩⟩
  · rename_i h
    constructor
    · rintro ⟨s, hs⟩
      exact Or.inr (List.getElem?_eq_some_iff.mp hs).1
    · intro hi
      exact ⟨_, List.getElem?_eq_getElem (hi.resolve_left h)⟩

/-- From index `i` on, for `k` sections, the loop comes back with the allocator it was given,
if all these indices lead to a node. -/
theorem updateUsedLoop_eq (report : BtrReport) (l : SectionList) (i k : Nat)
    (al : PhysMemAllocator) :
    updateUsedLoop report l i k al =
      if k = 0 ∨ i + k ≤ 2 * l.kernelSections.length then some al else none := by
  induction k generalizing i with
  | zero => simp [updateUsedLoop]
  | succ k ih =>
    unfold updateUsedLoop
    cases hs : l.getItem i with
    | none =>
      have hnot : ¬ ∃ s, l.getItem i = some s := by simp [hs]
      rw [getItem_isSome_iff] at hnot
      rw [if_neg (by omega)]
      rfl
    | some s =>
      have hin := (getItem_isSome_iff l i).mp ⟨s, hs⟩
      simp only [Option.bind_eq_bind, Option.bind_some, useSection_eq, ih]
      by_cases hle : i + 1 + k ≤ 2 * l.kernelSections.length
      · rw [if_pos (Or.inr hle), if_pos (Or.inr (by omega))]
      · by_cases hk : k = 0
        · rw [if_pos (Or.inl hk), if_pos (Or.inr (by omega))]
        · rw [if_neg (by omega), if_neg (by omega)]

theorem updateUsed_eq (report : BtrReport) (l : SectionList) (al : PhysMemAllocator) :
    updateUsed report l al =
      if l.processSections.length ≤ l.kernelSections.length then some al else none := by
  unfold updateUsed
  rw [updateUsedLoop_eq]
  unfold SectionList.count
  by_cases hle : l.processSections.length ≤ l.kernelSections.length
  · rw [if_pos hle, if_pos (by omega)]
  · rw [if_neg hle, if_neg (by omega)]

/-- The bit of page `k` is set. -/
def PageFree (al : PhysMemAllocator) (k : Nat) : Prop :=
  al.bmp.isSet al.mem (BitVec.ofNat 32 k) = true

instance (al : PhysMemAllocator) (k : Nat) : Decidable (al.PageFree k) :=
  inferInstanceAs (Decidable (_ = true))

/-- Page `k` meets `[Base, Base + Length)` of a section with contents. -/
def PageUsed (l : SectionList) (k : Nat) : Prop :=
  ∃ s ∈ l.kernelSections ++ l.processSections, s.has Section.flagDefined = true ∧
    s.has Section.flagBits = true ∧ ∃ x, s.Live x ∧ k * 4096 ≤ x ∧ x < k * 4096 + 4096

/-- What `UpdateUsed` promises for the pages below 16 MB. -/
def Reserves (l : SectionList) (al al' : PhysMemAllocator) : Prop :=
  ∀ k < 4096, (PageUsed l k → ¬ al'.PageFree k) ∧
    (¬ PageUsed l k → (al'.PageFree k ↔ al.PageFree k))

/-- `UpdateUsed` keeps its promise exactly when there is nothing to do, and no more process
than kernel sections to run through. -/
theorem updateUsed_reserves_iff (l : SectionList) (al : PhysMemAllocator) :
    (∃ al', updateUsed lockBtrReport l al = some al' ∧ Reserves l al al') ↔
      l.processSections.length ≤ l.kernelSections.length ∧
        ∀ k < 4096, PageUsed l k → ¬ al.PageFree k := by
  rw [updateUsed_eq]
  constructor
  · rintro ⟨al', he, hres⟩
    obtain ⟨hle, hal⟩ := Option.ite_none_right_eq_some.mp he
    obtain rfl := Option.some.inj hal
    exact ⟨hle, fun k hk => (hres k hk).1⟩
  · rintro ⟨hle, hused⟩
    exact ⟨al, if_pos hle, fun k hk => ⟨hused k hk, fun _ => Iff.rfl⟩⟩

/-- With every page free, the page of a kernel section with contents stays free. -/
theorem updateUsed_leaves_kernel_free :
    ¬ ∀ (l : SectionList) (al : PhysMemAllocator),
      ∃ al', updateUsed lockBtrReport l al = some al' ∧ Reserves l al al' := by
  intro h
  obtain ⟨al', he, hres⟩ := h ⟨[⟨0x4083, 0x100000, 0x1000, 0, 0, 0, 0, 0x100000⟩], []⟩
    ⟨fun _ => 0xff, ⟨0⟩, ⟨0x200000, 0, 0x1000000, 0x1000, 0x200⟩⟩
  rw [updateUsed_eq] at he
  obtain rfl := Option.some.inj he
  refine (hres 0x100 (by decide)).1 ?_ (by decide)
  exact ⟨_, List.mem_singleton.mpr rfl, by decide, by decide, 0x100000, by decide, by decide,
    by decide⟩

end PhysMemAllocator
end Tysos
