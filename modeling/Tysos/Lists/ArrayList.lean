import Mathlib.Logic.Function.Basic
import Mathlib.Data.List.Basic
import Tysos.Support.ListEdit

/-!
# ArrayList

The array of item addresses of `arraylist.h` with its shifting loops. `arr i` is the word at
`arr + i`; the loops go one place further than the items, to the word after the last item.
-/

namespace Tysos
set_option autoImplicit false

variable {T : Type}

structure ArrayList (T : Type) where
  count : Int
  arr : Int → T

namespace ArrayList

/-- The constructor leaves the array as it is. -/
def empty (arr : Int → T) : ArrayList T := ⟨0, arr⟩

def shiftDownLoop (arr : Int → T) (d s : Int) : Nat → Int → T
  | 0 => arr
  | k + 1 => shiftDownLoop (Function.update arr d (arr s)) (d + 1) (s + 1) k

/-- The loop runs for `c`, `c - 1` and so on down to 0. -/
def shiftDown (arr : Int → T) (d s c : Int) : Int → T := shiftDownLoop arr d s (c + 1).toNat

def shiftUpLoop (arr : Int → T) (d s : Int) : Nat → Int → T
  | 0 => arr
  | k + 1 => shiftUpLoop (Function.update arr d (arr s)) (d - 1) (s - 1) k

def shiftUp (arr : Int → T) (d s c : Int) : Int → T :=
  shiftUpLoop arr (d + c) (s + c) (c + 1).toNat

def add (capacity : Nat) (a : ArrayList T) (item : T) : ArrayList T :=
  if a.count < capacity then ⟨a.count + 1, Function.update a.arr a.count item⟩ else a

def clear (a : ArrayList T) : ArrayList T := { a with count := 0 }

def getItem (a : ArrayList T) (index : Int) : T := a.arr index

def setItem (a : ArrayList T) (index : Int) (item : T) : ArrayList T :=
  { a with arr := Function.update a.arr index item }

def indexOfLoop (arr : Int → T) (is : T → Bool) : Nat → Int → Int
  | 0, _ => -1
  | k + 1, i => if is (arr i) then i else indexOfLoop arr is k (i + 1)

def indexOf (a : ArrayList T) (is : T → Bool) : Int := indexOfLoop a.arr is a.count.toNat 0

def contains (a : ArrayList T) (is : T → Bool) : Bool := decide (0 ≤ a.indexOf is)

def insert (capacity : Nat) (a : ArrayList T) (item : T) (index : Int) : ArrayList T :=
  if 0 ≤ index ∧ index ≤ a.count ∧ a.count < capacity then
    let a := { a with arr := shiftUp a.arr (index + 1) index (a.count - index) }
    let a := a.setItem index item
    { a with count := a.count + 1 }
  else a

def removeAt (a : ArrayList T) (index : Int) : ArrayList T :=
  if 0 ≤ index ∧ index < a.count then
    ⟨a.count - 1, shiftDown a.arr index (index + 1) (a.count - index - 1)⟩
  else a

/-- `Remove` calls `RemoveAt` before it looks whether there is an item, and once more after. -/
def remove (a : ArrayList T) (is : T → Bool) : ArrayList T × Bool :=
  let loc := a.indexOf is
  let a := a.removeAt loc
  if 0 ≤ loc then (a.removeAt loc, true) else (a, false)

theorem shiftDownLoop_apply (arr : Int → T) (d : Int) (k : Nat) (i : Int) :
    shiftDownLoop arr d (d + 1) k i = if d ≤ i ∧ i < d + k then arr (i + 1) else arr i := by
  induction k generalizing arr d with
  | zero =>
    rw [if_neg (by omega)]
    rfl
  | succ k ih =>
    unfold shiftDownLoop
    rw [ih]
    by_cases hi : i = d
    · rw [if_neg (by omega), if_pos (by omega), hi, Function.update_self]
    · by_cases hin : d + 1 ≤ i ∧ i < d + 1 + k
      · rw [if_pos hin, if_pos (by omega), Function.update_of_ne (by omega)]
      · rw [if_neg hin, if_neg (by omega), Function.update_of_ne hi]

theorem shiftUpLoop_apply (arr : Int → T) (s : Int) (k : Nat) (i : Int) :
    shiftUpLoop arr (s + 1) s k i =
      if s + 1 - k < i ∧ i ≤ s + 1 then arr (i - 1) else arr i := by
  induction k generalizing arr s with
  | zero =>
    rw [if_neg (by omega)]
    rfl
  | succ k ih =>
    unfold shiftUpLoop
    have hd : s + 1 - 1 = s - 1 + 1 := by omega
    rw [hd, ih]
    by_cases hi : i = s + 1
    · rw [if_neg (by omega), if_pos (by omega), hi, Function.update_self]
      congr 1
      omega
    · by_cases hin : s - 1 + 1 - k < i ∧ i ≤ s - 1 + 1
      · rw [if_pos hin, if_pos (by omega), Function.update_of_ne (by omega)]
      · rw [if_neg hin, if_neg (by omega), Function.update_of_ne hi]

/-- The first `count` words of the array are the items `vs`. -/
structure Holds (a : ArrayList T) (vs : List T) : Prop where
  count : a.count = vs.length
  item : ∀ i : Nat, i < vs.length → vs[i]? = some (a.arr i)

theorem holds_empty (arr : Int → T) : (empty arr).Holds [] :=
  ⟨rfl, fun i hi => absurd hi (Nat.not_lt_zero i)⟩

variable {a : ArrayList T} {us vs : List T} {v : T}

theorem Holds.add (h : a.Holds vs) {capacity : Nat} (hcap : vs.length < capacity) (v : T) :
    (a.add capacity v).Holds (vs ++ [v]) := by
  have hlt : a.count < capacity := by
    rw [h.count]
    exact Int.ofNat_lt.mpr hcap
  unfold ArrayList.add
  rw [if_pos hlt]
  refine ⟨by simp [h.count], fun i hi => ?_⟩
  rw [List.length_append, List.length_singleton] at hi
  dsimp only
  by_cases heq : i = vs.length
  · rw [heq, h.count, Function.update_self, List.getElem?_concat_length]
  · have hne : (i : Int) ≠ a.count := by
      rw [h.count]
      omega
    rw [Function.update_of_ne hne, List.getElem?_append_left (by omega)]
    exact h.item i (by omega)

theorem Holds.insert (h : a.Holds (us ++ vs)) {capacity : Nat}
    (hcap : (us ++ vs).length < capacity) (v : T) :
    (a.insert capacity v us.length).Holds (us ++ v :: vs) := by
  have hcount := h.count
  rw [List.length_append] at hcap
  rw [List.length_append, Int.natCast_add] at hcount
  have hguard : (0 : Int) ≤ us.length ∧ (us.length : Int) ≤ a.count ∧ a.count < capacity := by
    omega
  unfold ArrayList.insert
  rw [if_pos hguard]
  have hbound : (a.count - us.length + 1).toNat = vs.length + 1 := by omega
  have hstart : (us.length : Int) + (a.count - us.length) = a.count := by omega
  have hfirst : (us.length : Int) + 1 + (a.count - us.length) = a.count + 1 := by omega
  unfold setItem shiftUp
  rw [hbound, hstart, hfirst]
  refine ⟨by simp [hcount]; omega, fun i hi => ?_⟩
  simp only [List.length_append, List.length_cons] at hi
  dsimp only
  rcases Nat.lt_trichotomy i us.length with hlt | heq | hgt
  · have hold := h.item i (by rw [List.length_append]; omega)
    rw [List.getElem?_append_left hlt] at hold ⊢
    rw [Function.update_of_ne (by omega), shiftUpLoop_apply, if_neg (by omega)]
    exact hold
  · rw [heq, Function.update_self, List.getElem?_append_right (Nat.le_refl _), Nat.sub_self]
    rfl
  · obtain ⟨j, rfl⟩ : ∃ j, i = j + 1 := ⟨i - 1, by omega⟩
    have hold := h.item j (by rw [List.length_append]; omega)
    rw [List.getElem?_append_right (by omega)] at hold ⊢
    rw [Function.update_of_ne (by omega), shiftUpLoop_apply, if_pos (by omega)]
    have hsub : j + 1 - us.length = (j - us.length) + 1 := by omega
    have hpred : ((j + 1 : Nat) : Int) - 1 = j := by omega
    rw [hsub, List.getElem?_cons_succ, hpred]
    exact hold

theorem Holds.removeAt (h : a.Holds (us ++ v :: vs)) :
    (a.removeAt us.length).Holds (us ++ vs) := by
  have hcount := h.count
  simp only [List.length_append, List.length_cons] at hcount
  have hguard : (0 : Int) ≤ us.length ∧ (us.length : Int) < a.count := by omega
  unfold ArrayList.removeAt
  rw [if_pos hguard]
  have hbound : (a.count - us.length - 1 + 1).toNat = vs.length + 1 := by omega
  unfold shiftDown
  rw [hbound]
  refine ⟨by simp [hcount]; omega, fun i hi => ?_⟩
  rw [List.length_append] at hi
  dsimp only
  rw [shiftDownLoop_apply]
  by_cases hlt : i < us.length
  · have hold := h.item i (by simp; omega)
    rw [List.getElem?_append_left hlt] at hold ⊢
    rw [if_neg (by omega)]
    exact hold
  · have hold := h.item (i + 1) (by simp; omega)
    rw [List.getElem?_append_right (by omega)] at hold ⊢
    have hsub : i + 1 - us.length = (i - us.length) + 1 := by omega
    rw [hsub, List.getElem?_cons_succ] at hold
    rw [if_pos (by omega)]
    exact hold

theorem holds_clear (a : ArrayList T) : a.clear.Holds [] :=
  ⟨rfl, fun i hi => absurd hi (Nat.not_lt_zero i)⟩

theorem Holds.getItem (h : a.Holds (us ++ v :: vs)) : a.getItem us.length = v := by
  have hitem := h.item us.length (by simp)
  rw [List.getElem?_append_right (Nat.le_refl _), Nat.sub_self] at hitem
  exact (Option.some.inj hitem).symm

theorem indexOfLoop_spec (is : T → Bool) {arr : Int → T} {vs : List T} {i : Nat}
    (hitem : ∀ j < vs.length, vs[j]? = some (arr (i + j : Nat))) :
    (indexOfLoop arr is vs.length i = -1 ∧ ∀ v ∈ vs, is v = false) ∨
      ∃ us v ws, vs = us ++ v :: ws ∧ is v = true ∧ (∀ u ∈ us, is u = false) ∧
        indexOfLoop arr is vs.length i = (i + us.length : Nat) := by
  induction vs generalizing i with
  | nil => exact Or.inl ⟨rfl, by simp⟩
  | cons v vs ih =>
    have hfirst : arr i = v := by
      have hzero := hitem 0 (Nat.succ_pos _)
      exact (Option.some.inj hzero).symm
    have hnext : ((i : Int) + 1) = (i + 1 : Nat) := by simp
    simp only [List.length_cons, indexOfLoop, hfirst, hnext]
    cases hv : is v with
    | true => exact Or.inr ⟨[], v, vs, rfl, hv, by simp, by simp⟩
    | false =>
      have hrest : ∀ j < vs.length, vs[j]? = some (arr (i + 1 + j : Nat)) := by
        intro j hj
        have hj' := hitem (j + 1) (Nat.succ_lt_succ hj)
        rw [List.getElem?_cons_succ] at hj'
        rw [hj', Nat.add_right_comm i 1 j, Nat.add_assoc]
      rcases ih hrest with ⟨he, hall⟩ | ⟨us, w, ws, rfl, hw, hus, he⟩
      · exact Or.inl ⟨by simpa using he, by simpa [hv] using hall⟩
      · refine Or.inr ⟨v :: us, w, ws, rfl, hw, by simpa [hv] using hus, ?_⟩
        rw [if_neg (by simp), he, List.length_cons]
        congr 1
        omega

theorem Holds.indexOf (h : a.Holds vs) (is : T → Bool) :
    (a.indexOf is = -1 ∧ ∀ v ∈ vs, is v = false) ∨
      ∃ us v ws, vs = us ++ v :: ws ∧ is v = true ∧ (∀ u ∈ us, is u = false) ∧
        a.indexOf is = us.length := by
  have hcount : a.count.toNat = vs.length := by
    rw [h.count, Int.toNat_natCast]
  have hitem : ∀ j < vs.length, vs[j]? = some (a.arr (0 + j : Nat)) := by simpa using h.item
  have hspec := indexOfLoop_spec is hitem
  unfold ArrayList.indexOf
  rw [hcount]
  simpa using hspec

theorem findIdx_eq {is : T → Bool} (hv : is v = true) (hus : ∀ u ∈ us, is u = false) :
    (us ++ v :: vs).findIdx is = us.length := by
  induction us with
  | nil => simp [List.findIdx_cons, hv]
  | cons u us ih =>
    have hu := hus u List.mem_cons_self
    have hrest := ih fun w hw => hus w (List.mem_cons_of_mem u hw)
    simp [List.findIdx_cons, hu, hrest]

theorem removeAt_of_out {index : Int} (h : index < 0 ∨ a.count ≤ index) :
    a.removeAt index = a := if_neg (by omega)

theorem Holds.removeAt_eraseIdx (h : a.Holds vs) (i : Nat) :
    (a.removeAt i).Holds (vs.eraseIdx i) := by
  rcases Nat.lt_or_ge i vs.length with hi | hi
  · obtain ⟨us, v, ws, rfl, rfl⟩ := ListEdit.exists_split hi
    rw [ListEdit.eraseIdx_append]
    exact h.removeAt
  · have hcount := h.count
    rw [List.eraseIdx_of_length_le hi, removeAt_of_out (Or.inr (by omega))]
    exact h

theorem Holds.remove_none (h : a.Holds vs) {is : T → Bool} (hall : ∀ v ∈ vs, is v = false) :
    a.remove is = (a, false) := by
  rcases h.indexOf is with ⟨he, -⟩ | ⟨us, v, ws, rfl, hv, -, -⟩
  · unfold ArrayList.remove
    rw [he]
    dsimp only
    rw [removeAt_of_out (Or.inl (by decide))]
    rfl
  · have hno := hall v (by simp)
    rw [hv] at hno
    exact absurd hno (by decide)

/-- With an item found at the end, the second `RemoveAt` has nothing left to remove; further
up it takes out the next item as well. -/
theorem Holds.remove_some (h : a.Holds (us ++ v :: vs)) {is : T → Bool} (hv : is v = true)
    (hus : ∀ u ∈ us, is u = false) :
    (a.remove is).2 = true ∧ (a.remove is).1.Holds (us ++ vs.tail) := by
  have hloc : a.indexOf is = us.length := by
    rcases h.indexOf is with ⟨-, hall⟩ | ⟨us', v', ws, heq, hv', hus', he⟩
    · have hno := hall v (by simp)
      rw [hv] at hno
      exact absurd hno (by decide)
    · rw [he, ← findIdx_eq hv hus, heq, findIdx_eq hv' hus']
  have hpos : (0 : Int) ≤ us.length := Int.natCast_nonneg _
  have hfirst := h.removeAt
  unfold ArrayList.remove
  rw [hloc]
  dsimp only
  rw [if_pos hpos]
  refine ⟨rfl, ?_⟩
  cases vs with
  | nil =>
    have hend : (a.removeAt us.length).count ≤ us.length := by
      rw [hfirst.count]
      simp
    dsimp only
    rw [removeAt_of_out (Or.inr hend)]
    exact hfirst
  | cons w ws => exact hfirst.removeAt

end ArrayList
end Tysos
