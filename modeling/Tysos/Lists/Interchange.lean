import Tysos.Lists.ArrayList
import Tysos.Lists.LinkedList
import Tysos.Support.Run

/-!
# ArrayList beside LinkedList

The same calls made to an `ArrayList` and to a `LinkedList`, from both empty. They answer the
same until a `Remove` finds its item before the end of the array.
-/

namespace Tysos
set_option autoImplicit false

/-- The calls of `IList` that change a list. -/
inductive ListCall (T : Type) where
  | add (item : T)
  | insert (item : T) (index : Int)
  | remove (item : T)
  | removeAt (index : Int)
  | clear

variable {T : Type} [DecidableEq T]

/-- The items are known by their addresses. -/
def sameItem (item : T) (other : T) : Bool := decide (item = other)

/-- The call, with what `Remove` returns. -/
def ArrayList.call (capacity : Nat) (a : ArrayList T) : ListCall T → ArrayList T × Option Bool
  | .add item => (a.add capacity item, none)
  | .insert item index => (a.insert capacity item index, none)
  | .remove item => ((a.remove (sameItem item)).1, some (a.remove (sameItem item)).2)
  | .removeAt index => (a.removeAt index, none)
  | .clear => (a.clear, none)

def LinkedList.call (l : LinkedList T) : ListCall T → Option (LinkedList T × Option Bool)
  | .add item => do some (← l.add item, none)
  | .insert item index => do some (← l.insert item index, none)
  | .remove item => do
    let (l, found) ← l.remove (sameItem item)
    some (l, some found)
  | .removeAt index => do some (← l.removeAt index, none)
  | .clear => do some (← l.clear, none)

structure TwoLists (T : Type) where
  array : ArrayList T
  linked : LinkedList T

namespace TwoLists

def step (capacity : Nat) (s : TwoLists T) (c : ListCall T) : Option (TwoLists T) := do
  let (linked, _) ← s.linked.call c
  some ⟨(s.array.call capacity c).1, linked⟩

/-- The index is in range, and there is room for what is added. -/
def Legal (capacity : Nat) (s : TwoLists T) : ListCall T → Prop
  | .add _ => s.linked.count < capacity
  | .insert _ index => 0 ≤ index ∧ index ≤ s.linked.count ∧ s.linked.count < capacity
  | .removeAt index => 0 ≤ index ∧ index < s.linked.count
  | .remove _ | .clear => True

instance (capacity : Nat) (s : TwoLists T) : (c : ListCall T) → Decidable (Legal capacity s c)
  | .add _ => inferInstanceAs (Decidable (_ < _))
  | .insert _ _ => inferInstanceAs (Decidable (_ ∧ _ ∧ _))
  | .removeAt _ => inferInstanceAs (Decidable (_ ∧ _))
  | .remove _ | .clear => isTrue trivial

/-- `Count`, `GetItem`, `IndexOf` and `Contains` answer the same. -/
structure SameView (a : ArrayList T) (l : LinkedList T) : Prop where
  count : a.count = l.count
  getItem : ∀ i, 0 ≤ i → i < a.count → l.getItem i = some (a.getItem i)
  indexOf : ∀ item, l.indexOf (sameItem item) = some (a.indexOf (sameItem item))
  contains : ∀ item, l.contains (sameItem item) = some (a.contains (sameItem item))

/-- The call returns the same from both, and afterwards they answer the same. -/
def Agrees (capacity : Nat) (s : TwoLists T) (c : ListCall T) : Prop :=
  ∃ l result, s.linked.call c = some (l, result) ∧ (s.array.call capacity c).2 = result ∧
    SameView (s.array.call capacity c).1 l

/-- `Remove` is called for an item that is not in the array before its last place. -/
def RemovesLast (s : TwoLists T) : ListCall T → Prop
  | .remove item => ∀ i, 0 ≤ i → i + 1 < s.array.count → s.array.getItem i ≠ item
  | _ => True

instance (s : TwoLists T) : (c : ListCall T) → Decidable (RemovesLast s c)
  | .remove item =>
    decidable_of_iff (∀ k < (s.array.count - 1).toNat, s.array.getItem (k : Int) ≠ item)
      ⟨fun h i h₀ hi => by simpa [Int.toNat_of_nonneg h₀] using h i.toNat (by omega),
        fun h k hk => h k (Int.natCast_nonneg k) (by omega)⟩
  | .add _ | .insert _ _ | .removeAt _ | .clear => isTrue trivial

/-- Both stand for the same items. -/
def Same (s : TwoLists T) : Prop := ∃ vs, s.array.Holds vs ∧ s.linked.Holds vs

omit [DecidableEq T] in
theorem exists_split {vs : List T} {i : Int} (h₀ : 0 ≤ i) (hi : i ≤ vs.length) :
    ∃ us ws, vs = us ++ ws ∧ i = us.length := by
  refine ⟨vs.take i.toNat, vs.drop i.toNat, (List.take_append_drop _ _).symm, ?_⟩
  rw [List.length_take]
  omega

omit [DecidableEq T] in
theorem indexOf_eq {a : ArrayList T} {l : LinkedList T} {vs : List T} (ha : a.Holds vs)
    (hl : l.Holds vs) (is : T → Bool) : l.indexOf is = some (a.indexOf is) := by
  rcases ha.indexOf is with ⟨he, hall⟩ | ⟨us, v, ws, rfl, hv, hus, he⟩
  · rcases hl.indexOf is with ⟨he', -⟩ | ⟨us, v, ws, rfl, hv, -, -⟩
    · rw [he, he']
    · have hno := hall v (by simp)
      rw [hv] at hno
      exact absurd hno (by decide)
  · rcases hl.indexOf is with ⟨-, hall⟩ | ⟨us', v', ws', heq, hv', hus', he'⟩
    · have hno := hall v (by simp)
      rw [hv] at hno
      exact absurd hno (by decide)
    · rw [he, he', ← ArrayList.findIdx_eq hv' hus', ← heq, ArrayList.findIdx_eq hv hus]

theorem sameView_of_holds {a : ArrayList T} {l : LinkedList T} {vs : List T} (ha : a.Holds vs)
    (hl : l.Holds vs) : SameView a l := by
  refine ⟨ha.count.trans hl.count_eq.symm, fun i h₀ hi => ?_, fun item => indexOf_eq ha hl _,
    fun item => ?_⟩
  · rw [ha.count] at hi
    obtain ⟨i, rfl⟩ := Int.eq_ofNat_of_zero_le h₀
    obtain ⟨us, v, ws, rfl, rfl⟩ := ListEdit.exists_split (Int.ofNat_lt.mp hi)
    rw [hl.getItem, ha.getItem]
  · unfold LinkedList.contains
    rw [indexOf_eq ha hl]
    rfl

variable {s s' : TwoLists T} {capacity : Nat}

theorem RemovesLast.tail_eq_nil {item v : T} {us ws : List T} (h : s.RemovesLast (.remove item))
    (ha : s.array.Holds (us ++ v :: ws)) (hv : sameItem item v = true) : ws = [] := by
  have hitem : s.array.getItem us.length = item := by
    rw [ha.getItem]
    exact (of_decide_eq_true hv).symm
  have hcount := ha.count
  cases ws with
  | nil => rfl
  | cons w ws =>
    simp only [List.length_append, List.length_cons] at hcount
    exact absurd hitem (h us.length (by omega) (by omega))

/-- What a call does to the items, where the array does not lose one too many. -/
theorem Same.call (h : s.Same) {c : ListCall T} (hlegal : s.Legal capacity c)
    (hlast : s.RemovesLast c) :
    ∃ l result vs, s.linked.call c = some (l, result) ∧ (s.array.call capacity c).2 = result ∧
      (s.array.call capacity c).1.Holds vs ∧ l.Holds vs := by
  obtain ⟨vs, ha, hl⟩ := h
  have hcount := hl.count_eq
  cases c with
  | add item =>
    have hroom : s.linked.count < capacity := hlegal
    obtain ⟨l, he, hl'⟩ := hl.add item
    refine ⟨l, none, vs ++ [item], by simp [LinkedList.call, he], rfl, ?_, hl'⟩
    exact ha.add (by omega) item
  | insert item index =>
    obtain ⟨h₀, hi, hroom⟩ := hlegal
    have hle : index ≤ vs.length := hcount ▸ hi
    obtain ⟨us, ws, rfl, rfl⟩ := exists_split h₀ hle
    obtain ⟨l, he, hl'⟩ := hl.insert item
    refine ⟨l, none, us ++ item :: ws, by simp [LinkedList.call, he], rfl, ?_, hl'⟩
    exact ha.insert (by omega) item
  | remove item =>
    obtain ⟨l, he, hl'⟩ := hl.remove (sameItem item)
    refine ⟨l, some (vs.any (sameItem item)), vs.eraseP (sameItem item),
      by simp [LinkedList.call, he], ?_⟩
    unfold ArrayList.call
    dsimp only
    rcases ha.indexOf (sameItem item) with ⟨-, hall⟩ | ⟨us, v, ws, rfl, hv, hus, -⟩
    · have hany : vs.any (sameItem item) = false := by simpa using hall
      have herase : vs.eraseP (sameItem item) = vs :=
        List.eraseP_of_forall_not (by simpa using hall)
      rw [herase] at hl' ⊢
      rw [ha.remove_none hall, hany]
      exact ⟨rfl, ha, hl'⟩
    · have hnil := hlast.tail_eq_nil ha hv
      subst hnil
      obtain ⟨hfound, hrest⟩ := ha.remove_some hv hus
      have herase : (us ++ [v]).eraseP (sameItem item) = us := by
        rw [List.eraseP_append_right _ (by simpa using hus), List.eraseP_cons_of_pos hv,
          List.append_nil]
      rw [herase] at hl' ⊢
      refine ⟨?_, by simpa using hrest, hl'⟩
      rw [hfound]
      simp [hv]
  | removeAt index =>
    obtain ⟨h₀, hi⟩ := hlegal
    rw [hcount] at hi
    obtain ⟨i, rfl⟩ := Int.eq_ofNat_of_zero_le h₀
    obtain ⟨l, he, hl'⟩ := hl.removeAt_eraseIdx i
    exact ⟨l, none, vs.eraseIdx i, by simp [LinkedList.call, he], rfl, ha.removeAt_eraseIdx i, hl'⟩
  | clear =>
    obtain ⟨l, he, hl'⟩ := hl.clear
    exact ⟨l, none, [], by simp [LinkedList.call, he], rfl, ArrayList.holds_clear _, hl'⟩

theorem first_before_last {a : ArrayList T} {vs : List T} (ha : a.Holds vs) {item : T} {i : Int}
    (h₀ : 0 ≤ i) (hi : i + 1 < a.count) (hitem : a.getItem i = item) :
    ∃ us v w ws, vs = us ++ v :: w :: ws ∧ sameItem item v = true ∧
      ∀ u ∈ us, sameItem item u = false := by
  have hcount := ha.count
  obtain ⟨i, rfl⟩ := Int.eq_ofNat_of_zero_le h₀
  have hget : vs[i]? = some item := by
    rw [ha.item i (by omega), ← hitem]
    rfl
  have hself : sameItem item item = true := decide_eq_true rfl
  rcases ha.indexOf (sameItem item) with ⟨-, hall⟩ | ⟨us, v, ws, rfl, hv, hus, -⟩
  · have hno := hall item (List.mem_of_getElem? hget)
    rw [hself] at hno
    exact absurd hno (by decide)
  · cases ws with
    | cons w ws => exact ⟨us, v, w, ws, rfl, hv, hus⟩
    | nil =>
      rw [List.length_append, List.length_singleton] at hcount
      rw [List.getElem?_append_left (by omega)] at hget
      have hno := hus item (List.mem_of_getElem? hget)
      rw [hself] at hno
      exact absurd hno (by decide)

/-- An item found before the last place goes together with the next one. -/
theorem Same.not_agrees (h : s.Same) {item : T} {i : Int} (h₀ : 0 ≤ i)
    (hi : i + 1 < s.array.count) (hitem : s.array.getItem i = item) :
    ¬ s.Agrees capacity (.remove item) := by
  rintro ⟨l, result, hcall, -, hview⟩
  obtain ⟨vs, ha, hl⟩ := h
  obtain ⟨us, v, w, ws, rfl, hv, hus⟩ := first_before_last ha h₀ hi hitem
  obtain ⟨l', he, hl'⟩ := hl.remove (sameItem item)
  have hcall' : s.linked.call (.remove item) =
      some (l', some ((us ++ v :: w :: ws).any (sameItem item))) := by
    simp [LinkedList.call, he]
  obtain rfl : l' = l := (Prod.ext_iff.mp (Option.some.inj (hcall'.symm.trans hcall))).1
  have hrest := (ha.remove_some hv hus).2
  have herase : (us ++ v :: w :: ws).eraseP (sameItem item) = us ++ w :: ws := by
    rw [List.eraseP_append_right _ (by simpa using hus), List.eraseP_cons_of_pos hv]
  rw [herase] at hl'
  have hcount := hview.count
  rw [hl'.count_eq] at hcount
  have hshort : ((s.array.call capacity (.remove item)).1.count : Int) = (us ++ ws).length :=
    hrest.count
  rw [hshort] at hcount
  simp only [List.length_append, List.length_cons] at hcount
  omega

theorem Same.agrees_iff (h : s.Same) {c : ListCall T} (hlegal : s.Legal capacity c) :
    s.Agrees capacity c ↔ s.RemovesLast c := by
  constructor
  · intro hagrees
    cases c with
    | remove item => exact fun i h₀ hi hitem => h.not_agrees h₀ hi hitem hagrees
    | _ => trivial
  · intro hlast
    obtain ⟨l, result, vs, hcall, hresult, ha, hl⟩ := h.call hlegal hlast
    exact ⟨l, result, hcall, hresult, sameView_of_holds ha hl⟩

theorem Same.step (h : s.Same) {c : ListCall T} (hlegal : s.Legal capacity c)
    (hlast : s.RemovesLast c) (hstep : s.step capacity c = some s') : s'.Same := by
  obtain ⟨l, result, vs, hcall, -, ha, hl⟩ := h.call hlegal hlast
  unfold TwoLists.step at hstep
  rw [hcall] at hstep
  obtain rfl := Option.some.inj hstep
  exact ⟨vs, ha, hl⟩

/-- Both lists empty; the array's words are whatever they are. -/
def bothEmpty (arr : Int → T) : TwoLists T := ⟨ArrayList.empty arr, LinkedList.empty⟩

/-- The two lists agree on every call exactly when every `Remove` is for an item that is at the
end of the list or not in it. -/
theorem interchangeable_iff (capacity : Nat) (arr : Int → T) {calls : List (ListCall T)}
    (hlegal : Transition.EachStep (step capacity) (Legal capacity) (bothEmpty arr) calls) :
    Transition.EachStep (step capacity) (Agrees capacity) (bothEmpty arr) calls ↔
      Transition.EachStep (step capacity) RemovesLast (bothEmpty arr) calls := by
  have hempty : (bothEmpty arr).Same := ⟨[], ArrayList.holds_empty arr, LinkedList.holds_empty⟩
  refine Transition.EachStep.iff_under ?_ ?_ hempty hlegal
  · intro s c s' hs hl hagrees hstep
    exact hs.step hl ((hs.agrees_iff hl).mp hagrees) hstep
  · exact fun s c hs hl => hs.agrees_iff hl

def noItems : TwoLists Nat := bothEmpty fun _ => 0

/-- Items are put at the end, in between and at the front, and taken out by their index and as the
last one. -/
def mixedCalls : List (ListCall Nat) :=
  [.add 0x1000, .add 0x2000, .insert 0x3000 1, .insert 0x4000 0, .removeAt 2, .remove 0x2000,
    .insert 0x2000 1, .remove 0x5000]

theorem mixedCalls_interchangeable :
    Transition.EachStep (step 4) (Agrees 4) noItems mixedCalls := by
  have hlegal : Transition.EachStep (step 4) (Legal 4) noItems mixedCalls := by
    decide +kernel
  have hlast : Transition.EachStep (step 4) RemovesLast noItems mixedCalls := by
    decide +kernel
  exact (interchangeable_iff 4 (fun _ => 0) hlegal).mpr hlast

/-- Removing the first of two items empties the array. -/
theorem remove_first_differs :
    ¬ ∀ (capacity : Nat) (arr : Int → Nat) (calls : List (ListCall Nat)),
      Transition.EachStep (step capacity) (Legal capacity) (bothEmpty arr) calls →
        Transition.EachStep (step capacity) (Agrees capacity) (bothEmpty arr) calls := by
  intro h
  have hlegal : Transition.EachStep (step 4) (Legal 4) noItems
      [.add 0x1000, .add 0x2000, .remove 0x1000] := by
    refine ⟨?_, fun s hs => ⟨?_, fun _ _ => ⟨trivial, fun _ _ => trivial⟩⟩⟩
    · change (0 : Int) < 4
      decide
    · obtain rfl := Option.some.inj hs
      change (1 : Int) < 4
      decide
  obtain ⟨l, result, hcall, -, hview⟩ :=
    ((((h 4 (fun _ => 0) _ hlegal).2 _ rfl).2 _ rfl).1)
  have hcount := congrArg (Option.map fun r => r.1.count) hcall
  have hone : some (1 : Int) = some l.count := hcount
  have hzero : (0 : Int) = l.count := hview.count
  rw [← hzero] at hone
  exact absurd (Option.some.inj hone) (by decide)

end TwoLists
end Tysos
