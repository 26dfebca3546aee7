import Tysos.Lists.IList
import Tysos.Memory.SectionList
import Tysos.Support.ListEdit

/-!
# Section lists by index

The functions of `SectionList` that turn an index into one of the kernel list or the process
list, over lists of section addresses and the sections at these addresses. Past the kernel
sections `GetItem`, `SetItem` and `RemoveAt` ask the kernel list once more, and `IndexOf`
returns the place in the process list as it is.
-/

namespace Tysos
open IList ListEdit
set_option autoImplicit false

variable {T : Type}

structure SectionTable (T : Type) where
  kernelSections : IList T
  processSections : IList T
  sections : T → Section

/-- The calls of `IList` that go by an index or return one. -/
inductive IndexCall (T : Type) where
  | getItem (index : Nat)
  | setItem (index : Nat) (item : T)
  | removeAt (index : Nat)
  | indexOf (item : T)

namespace SectionTable

def count (l : SectionTable T) : Int := l.kernelSections.count + l.processSections.count

def getItem (l : SectionTable T) (index : Int) : Option T :=
  if index < l.kernelSections.count then l.kernelSections.getItem index
  else l.kernelSections.getItem (index - l.kernelSections.count)

def removeAt (l : SectionTable T) (index : Int) : Option (SectionTable T) :=
  if index < l.kernelSections.count then do
    some { l with kernelSections := ← l.kernelSections.removeAt index }
  else do
    some { l with kernelSections := ← l.kernelSections.removeAt (index - l.kernelSections.count) }

variable [DecidableEq T]

/-- `SetItem` of the kernel list. -/
def setKernelItem (l : SectionTable T) (index : Int) (item : T) : Option (SectionTable T) := do
  let (k, sections) ← l.kernelSections.setItem l.sections index item
  some { l with kernelSections := k, sections := sections }

def setItem (l : SectionTable T) (index : Int) (item : T) : Option (SectionTable T) :=
  if index < l.kernelSections.count then l.setKernelItem index item
  else l.setKernelItem (index - l.kernelSections.count) item

def indexOf (l : SectionTable T) (item : T) : Option Int := do
  let i ← l.kernelSections.indexOf item
  if i ≥ 0 then some i else l.processSections.indexOf item

omit [DecidableEq T] in
/-- The two lists stand for `ks` and `ps`. -/
structure Holds (l : SectionTable T) (ks ps : List T) : Prop where
  kernel : l.kernelSections.Holds ks
  process : l.processSections.Holds ps

/-- Section `x` has the contents of the one at place `j` of `vs`. -/
def Reads (l : SectionTable T) (vs : List T) (j : Nat) (x : T) : Prop :=
  vs[j]?.map l.sections = some (l.sections x)

/-- The call does to the sections, and says of them, what it would on the list `ks ++ ps`. -/
def Concatenates (l : SectionTable T) (ks ps : List T) : IndexCall T → Prop
  | .getItem i => l.getItem i = (ks ++ ps)[i]?
  | .setItem i x => ∃ l' ks' ps', l.setItem i x = some l' ∧ l'.Holds ks' ps' ∧
      (ks' ++ ps').map l'.sections = ((ks ++ ps).map l.sections).set i (l.sections x)
  | .removeAt i => ∃ l' ks' ps', l.removeAt i = some l' ∧ l'.Holds ks' ps' ∧
      ks' ++ ps' = (ks ++ ps).eraseIdx i
  | .indexOf x => l.indexOf x = some (position (ks ++ ps) x) ∧
      (x ∈ ks ++ ps → (l.indexOf x).bind l.getItem = some x)

/-- The index is below `Count()`. -/
def InRange (l : SectionTable T) : IndexCall T → Prop
  | .getItem i | .setItem i _ | .removeAt i => i < l.count
  | .indexOf _ => True

/-- The call is about the kernel sections, or what it finds in their list is what it should have
found among those of the process. A linked list shows new contents wherever the section is. -/
def Lands (l : SectionTable T) (ks ps : List T) : IndexCall T → Prop
  | .getItem i => i < ks.length ∨ l.kernelSections.stored ks (i - ks.length) = ps[i - ks.length]?
  | .setItem i x =>
    if i < ks.length then
      l.kernelSections.isArray ∨ ∀ n ≠ i, (ks ++ ps)[n]? = ks[i]? → l.Reads ks i x
    else
      l.Reads ps (i - ks.length) x ∧
        if i - ks.length < ks.length then l.Reads ks (i - ks.length) x else l.kernelSections.isArray
  | .removeAt i => i < ks.length ∨
      i - ks.length < ks.length ∧
        ∀ n, i - ks.length ≤ n → n < i → (ks ++ ps)[n]? = (ks ++ ps)[n + 1]?
  | .indexOf x => x ∈ ks ∨ x ∉ ps ∨ ks = [] ∧ l.kernelSections.stored ks (ps.idxOf x) = some x

section
variable {l : SectionTable T} {ks ps : List T}

omit [DecidableEq T]

theorem Holds.count (h : l.Holds ks ps) : l.count = (ks ++ ps).length := by
  unfold SectionTable.count
  rw [h.kernel.count, h.process.count, List.length_append, Int.natCast_add]

theorem Holds.lt_count (h : l.Holds ks ps) (i : Nat) :
    (i : Int) < l.kernelSections.count ↔ i < ks.length := by
  rw [h.kernel.count, Int.ofNat_lt]

theorem Holds.sub_count (h : l.Holds ks ps) {i : Nat} (hi : ¬ i < ks.length) :
    (i : Int) - l.kernelSections.count = (i - ks.length : Nat) := by
  rw [h.kernel.count]
  omega

theorem Holds.getItem (h : l.Holds ks ps) (i : Nat) :
    l.getItem i = l.kernelSections.stored ks (if i < ks.length then i else i - ks.length) := by
  unfold SectionTable.getItem
  by_cases hi : i < ks.length
  · rw [if_pos ((h.lt_count i).mpr hi), if_pos hi, h.kernel.getItem]
  · rw [if_neg (mt (h.lt_count i).mp hi), if_neg hi, h.sub_count hi, h.kernel.getItem]

theorem getItem_sections (h : l.Holds ks ps) {q : LinkedList T}
    (hq : l.kernelSections = linked q) (i : Nat) :
    (l.getItem i).map l.sections =
      (⟨ks.map l.sections, ps.map l.sections⟩ : SectionList).getItem i := by
  rw [h.getItem, hq]
  unfold SectionList.getItem
  rw [List.length_map]
  by_cases hi : i < ks.length
  · rw [if_pos hi, if_pos hi, List.getElem?_map]
    rfl
  · rw [if_neg hi, if_neg hi, List.getElem?_map]
    rfl

theorem Holds.removeAt (h : l.Holds ks ps) (i : Nat) :
    ∃ l', l.removeAt i = some l' ∧
      l'.Holds (ks.eraseIdx (if i < ks.length then i else i - ks.length)) ps := by
  unfold SectionTable.removeAt
  by_cases hi : i < ks.length
  · obtain ⟨k, he, hk⟩ := h.kernel.removeAt i
    rw [if_pos ((h.lt_count i).mpr hi), if_pos hi, he]
    exact ⟨_, rfl, hk, h.process⟩
  · obtain ⟨k, he, hk⟩ := h.kernel.removeAt (i - ks.length)
    rw [if_neg (mt (h.lt_count i).mp hi), if_neg hi, h.sub_count hi, he]
    exact ⟨_, rfl, hk, h.process⟩

end

section
variable {l : SectionTable T} {ks ps : List T}

theorem getItem_iff (h : l.Holds ks ps) (i : Nat) :
    l.Concatenates ks ps (.getItem i) ↔ l.Lands ks ps (.getItem i) := by
  change l.getItem i = (ks ++ ps)[i]? ↔ i < ks.length ∨ _
  rw [h.getItem]
  by_cases hi : i < ks.length
  · rw [if_pos hi, List.getElem?_append_left hi, h.kernel.stored_eq hi]
    exact iff_of_true rfl (Or.inl hi)
  · rw [if_neg hi, List.getElem?_append_right (Nat.not_lt.mp hi), or_iff_right hi]

omit [DecidableEq T] in
theorem Holds.items_unique (h : l.Holds ks ps) {ks' ps' : List T} (h' : l.Holds ks' ps') :
    ks' ++ ps' = ks ++ ps := by
  rw [h.kernel.unique h'.kernel, h.process.unique h'.process]

theorem removeAt_iff (h : l.Holds ks ps) {i : Nat} (hi : i < (ks ++ ps).length) :
    l.Concatenates ks ps (.removeAt i) ↔ l.Lands ks ps (.removeAt i) := by
  obtain ⟨l', he, hl'⟩ := h.removeAt i
  have hresult : l.Concatenates ks ps (.removeAt i) ↔
      ks.eraseIdx (if i < ks.length then i else i - ks.length) ++ ps =
        (ks ++ ps).eraseIdx i := by
    constructor
    · rintro ⟨l'', ks', ps', he'', hl'', heq⟩
      obtain rfl := Option.some.inj (he.symm.trans he'')
      exact (hl''.items_unique hl').trans heq
    · exact fun heq => ⟨l', _, _, he, hl', heq⟩
  rw [hresult]
  change _ ↔ i < ks.length ∨ _
  by_cases hlt : i < ks.length
  · rw [if_pos hlt, List.eraseIdx_append_of_lt_length hlt]
    exact iff_of_true rfl (Or.inl hlt)
  rw [if_neg hlt, or_iff_right hlt]
  by_cases hj : i - ks.length < ks.length
  · rw [and_iff_right hj, ← List.eraseIdx_append_of_lt_length hj, eraseIdx_eq_iff (by omega)]
  · -- nothing is removed at all
    refine iff_of_false (fun heq => ?_) fun hand => hj hand.1
    have hlen := congrArg List.length heq
    rw [List.eraseIdx_of_length_le (Nat.not_lt.mp hj), List.length_eraseIdx_of_lt hi] at hlen
    omega

theorem Holds.setItem (h : l.Holds ks ps) (i : Nat) (x : T) :
    l.setItem i x =
      l.setKernelItem ((if i < ks.length then i else i - ks.length : Nat) : Int) x := by
  unfold SectionTable.setItem
  by_cases hi : i < ks.length
  · rw [if_pos ((h.lt_count i).mpr hi), if_pos hi]
  · rw [if_neg (mt (h.lt_count i).mp hi), if_neg hi, h.sub_count hi]

theorem concatenates_setItem_iff {l' : SectionTable T} {ks' : List T} {i : Nat} {x : T}
    (he : l.setItem i x = some l') (hl' : l'.Holds ks' ps) :
    l.Concatenates ks ps (.setItem i x) ↔
      (ks' ++ ps).map l'.sections = ((ks ++ ps).map l.sections).set i (l.sections x) := by
  constructor
  · rintro ⟨l'', ks'', ps'', he'', hl'', heq⟩
    obtain rfl := Option.some.inj (he.symm.trans he'')
    rwa [hl'.items_unique hl''] at heq
  · exact fun heq => ⟨l', ks', ps, he, hl', heq⟩

theorem setItem_iff_of_array {a : ArrayList T} (h : l.Holds ks ps)
    (ha : l.kernelSections = array a) {i : Nat} (hi : i < (ks ++ ps).length) (x : T) :
    l.Concatenates ks ps (.setItem i x) ↔ l.Lands ks ps (.setItem i x) := by
  have hk : (array a).Holds ks := ha ▸ h.kernel
  obtain ⟨k, hset, hk'⟩ :=
    hk.setItem_array l.sections (if i < ks.length then i else i - ks.length) x
  have he : l.setItem i x = some { l with kernelSections := k } := by
    rw [h.setItem]
    unfold setKernelItem
    rw [ha, hset]
    rfl
  have hmap : ((ks ++ ps).map l.sections).length = (ks ++ ps).length := List.length_map _
  rw [concatenates_setItem_iff he ⟨hk', h.process⟩]
  simp only [Lands, ha, isArray, true_or]
  by_cases hlt : i < ks.length
  · rw [if_pos hlt, if_pos hlt, ← List.set_append_left i x hlt, List.map_set]
    exact iff_of_true rfl trivial
  rw [if_neg hlt, if_neg hlt]
  have hread : l.Reads ps (i - ks.length) x ↔
      ((ks ++ ps).map l.sections)[i]? = some (l.sections x) := by
    rw [List.getElem?_map, List.getElem?_append_right (Nat.not_lt.mp hlt)]
    exact Iff.rfl
  rw [hread]
  by_cases hj : i - ks.length < ks.length
  · have hjlt : i - ks.length < (ks ++ ps).length := by omega
    have hread' : l.Reads ks (i - ks.length) x ↔
        ((ks ++ ps).map l.sections)[i - ks.length]? = some (l.sections x) := by
      rw [List.getElem?_map, List.getElem?_append_left hj]
      exact Iff.rfl
    rw [if_pos hj, hread', ← List.set_append_left _ x hj, List.map_set]
    exact set_eq_set_iff (hmap ▸ hi) (hmap ▸ hjlt) (by omega)
  · rw [if_neg hj, List.set_eq_of_length_le (Nat.not_lt.mp hj), and_true]
    exact eq_set_iff (hmap ▸ hi)

theorem setItem_iff_of_linked {q : LinkedList T} (h : l.Holds ks ps)
    (hq : l.kernelSections = linked q) {i : Nat} (hi : i < (ks ++ ps).length) (x : T) :
    l.Concatenates ks ps (.setItem i x) ↔ l.Lands ks ps (.setItem i x) := by
  have hk : (linked q).Holds ks := hq ▸ h.kernel
  have hset := hk.setItem_linked l.sections (if i < ks.length then i else i - ks.length) x
  have hkernel : l.setItem i x = (ks[if i < ks.length then i else i - ks.length]?).map fun old =>
      { l with sections := Function.update l.sections old (l.sections x) } := by
    rw [h.setItem]
    unfold setKernelItem
    rw [hq, hset]
    cases ks[if i < ks.length then i else i - ks.length]? with
    | none => rfl
    | some old => simp [← hq]
  simp only [Lands, hq, isArray, Bool.false_eq_true, false_or]
  by_cases hlt : i < ks.length
  · rw [if_pos hlt, List.getElem?_eq_getElem hlt] at hkernel
    rw [concatenates_setItem_iff hkernel ⟨h.kernel, h.process⟩, map_update_eq_set_iff hi,
      if_pos hlt, List.getElem?_append_left hlt, List.getElem?_eq_getElem hlt,
      and_iff_left (Or.inl rfl)]
    refine forall_congr' fun n => imp_congr_right fun _ => imp_congr_right fun _ => ?_
    simp [Reads, List.getElem?_eq_getElem hlt]
  rw [if_neg hlt] at hkernel
  rw [if_neg hlt]
  by_cases hj : i - ks.length < ks.length
  · rw [List.getElem?_eq_getElem hj] at hkernel
    rw [concatenates_setItem_iff hkernel ⟨h.kernel, h.process⟩, map_update_eq_set_iff hi, if_pos hj,
      List.getElem?_append_right (Nat.not_lt.mp hlt)]
    have hread : l.Reads ks (i - ks.length) x ↔ l.sections ks[i - ks.length] = l.sections x := by
      simp [Reads, List.getElem?_eq_getElem hj]
    rw [hread]
    constructor
    · rintro ⟨hother, hself⟩
      have hsame : l.sections ks[i - ks.length] = l.sections x := by
        refine hother (i - ks.length) (by omega) ?_
        rw [List.getElem?_append_left hj, List.getElem?_eq_getElem hj]
      refine ⟨?_, hsame⟩
      rcases hself with hr | hv
      · simp [Reads, hr, hsame]
      · exact hv
    · exact fun hand => ⟨fun _ _ _ => hand.2, Or.inr hand.1⟩
  · rw [if_neg hj]
    refine iff_of_false ?_ fun hand => hand.2
    rintro ⟨l', ks', ps', he, -⟩
    rw [hkernel, List.getElem?_eq_none (Nat.not_lt.mp hj)] at he
    exact absurd he (by simp)

theorem indexOf_iff (h : l.Holds ks ps) (x : T) :
    l.Concatenates ks ps (.indexOf x) ↔ l.Lands ks ps (.indexOf x) := by
  have hindex : l.indexOf x =
      if x ∈ ks then some (ks.idxOf x : Int) else some (position ps x) := by
    unfold SectionTable.indexOf
    rw [h.kernel.indexOf, h.process.indexOf]
    simp only [Option.bind_eq_bind, Option.bind_some, position]
    by_cases hx : x ∈ ks <;> simp [hx]
  change (_ = some (position (ks ++ ps) x) ∧ _) ↔ x ∈ ks ∨ x ∉ ps ∨ ks = [] ∧ _
  rw [hindex]
  by_cases hx : x ∈ ks
  · have hlt := List.idxOf_lt_length_of_mem hx
    rw [if_pos hx]
    refine iff_of_true ⟨?_, fun _ => ?_⟩ (Or.inl hx)
    · unfold position
      rw [if_pos (List.mem_append_left ps hx), List.idxOf_append_of_mem hx]
    · rw [Option.bind_some, h.getItem, if_pos hlt, h.kernel.stored_eq hlt,
        List.getElem?_eq_getElem hlt, List.getElem_idxOf hlt]
  rw [if_neg hx, or_iff_right hx]
  by_cases hp : x ∈ ps
  · rw [or_iff_right (not_not_intro hp)]
    unfold position
    rw [if_pos hp, if_pos (List.mem_append_right ks hp), List.idxOf_append_of_notMem hx,
      imp_iff_right (List.mem_append_right ks hp), Option.bind_some, h.getItem]
    cases ks with
    | nil => simp
    | cons k ks => simp; omega
  · have hout : x ∉ ks ++ ps := fun hm => (List.mem_append.mp hm).elim hx hp
    unfold position
    rw [if_neg hp, if_neg hout]
    exact iff_of_true ⟨rfl, fun hm => absurd hm hout⟩ (Or.inl hp)

/-- A call by index, or for one, does what it would on the kernel sections followed by those of
the process exactly when it lands where it should. -/
theorem concatenates_iff (h : l.Holds ks ps) {c : IndexCall T} (hc : l.InRange c) :
    l.Concatenates ks ps c ↔ l.Lands ks ps c := by
  have hlt : ∀ i : Nat, (i : Int) < l.count → i < (ks ++ ps).length := by
    intro i hi
    rw [h.count] at hi
    exact Int.ofNat_lt.mp hi
  cases c with
  | getItem i => exact getItem_iff h i
  | setItem i x =>
    cases hk : l.kernelSections with
    | array a => exact setItem_iff_of_array h hk (hlt i hc) x
    | linked q => exact setItem_iff_of_linked h hk (hlt i hc) x
  | removeAt i => exact removeAt_iff h (hlt i hc)
  | indexOf x => exact indexOf_iff h x

end

/-- A section list of two linked lists with one section each. -/
def oneAndOne : SectionTable Nat where
  kernelSections := .linked ((LinkedList.empty.add 1).getD LinkedList.empty)
  processSections := .linked ((LinkedList.empty.add 2).getD LinkedList.empty)
  sections := fun _ => ⟨0, 0, 0, 0, 0, 0, 0, 0⟩

theorem holds_single (x : Nat) :
    (IList.linked ((LinkedList.empty.add x).getD LinkedList.empty)).Holds [x] := by
  obtain ⟨q, he, hq⟩ := LinkedList.holds_empty.add x
  rw [he]
  exact hq

theorem oneAndOne_holds : oneAndOne.Holds [1] [2] := ⟨holds_single 1, holds_single 2⟩

theorem oneAndOne_count : oneAndOne.count = 2 := oneAndOne_holds.count

/-- The one section of the process is found in neither direction, the kernel's is in both. -/
theorem oneAndOne_concatenates :
    (oneAndOne.Concatenates [1] [2] (.getItem 0) ∧ oneAndOne.Concatenates [1] [2] (.indexOf 1)) ∧
      ¬ oneAndOne.Concatenates [1] [2] (.indexOf 2) := by
  have hfirst : oneAndOne.InRange (.getItem 0) := by
    change (0 : Int) < oneAndOne.count
    rw [oneAndOne_count]
    decide
  refine ⟨⟨(concatenates_iff oneAndOne_holds hfirst).mpr (Or.inl (by decide)),
    (concatenates_iff oneAndOne_holds (c := .indexOf 1) trivial).mpr (Or.inl (by decide))⟩,
    fun h => ?_⟩
  have hland := (concatenates_iff oneAndOne_holds (c := .indexOf 2) trivial).mp h
  revert hland
  simp [Lands]

/-- `GetItem(1)` is the kernel section once more. -/
theorem getItem_repeats_kernel :
    ¬ ∀ (l : SectionTable Nat) (ks ps : List Nat) (c : IndexCall Nat), l.Holds ks ps →
      l.InRange c → l.Concatenates ks ps c := by
  intro h
  have hsecond : oneAndOne.InRange (.getItem 1) := by
    change (1 : Int) < oneAndOne.count
    rw [oneAndOne_count]
    decide
  have hget : oneAndOne.getItem (1 : Nat) = some 2 := h oneAndOne [1] [2] (.getItem 1)
    oneAndOne_holds hsecond
  rw [oneAndOne_holds.getItem] at hget
  revert hget
  simp [oneAndOne, stored]

end SectionTable
end Tysos
