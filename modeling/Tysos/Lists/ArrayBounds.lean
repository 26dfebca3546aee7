import Tysos.Lists.ArrayList
import Tysos.Support.Run
import Mathlib.Tactic.Ring

/-!
# The array of an ArrayList

Which elements of `arr` the operations read and write. Both loops make one round more than
there are items to move: the last round of `ShiftDown` and the first of `ShiftUp` read the
element after the last item.
-/

namespace Tysos
open Transition
set_option autoImplicit false

variable {T : Type}

namespace ArrayList

/-- The statements `arr[d] = arr[s]` and `arr[d] = &item`. -/
inductive Move (T : Type) where
  | copy (d s : Int)
  | store (d : Int) (item : T)
  deriving DecidableEq

namespace Move

def perform (arr : Int → T) : Move T → Int → T
  | copy d s => Function.update arr d (arr s)
  | store d item => Function.update arr d item

def Inside (capacity : Nat) : Move T → Prop
  | copy d s => (0 ≤ d ∧ d < capacity) ∧ 0 ≤ s ∧ s < capacity
  | store d _ => 0 ≤ d ∧ d < capacity

/-- With `count` items before the call and `count'` after it, no element that was not an item
is copied to where there is one then. -/
def Spares (count count' : Int) : Move T → Prop
  | copy d s => count ≤ s → d < 0 ∨ count' ≤ d
  | store _ _ => True

end Move

/-- `k` rounds of a loop that goes on by `δ` in both places. -/
def shiftMoves (δ d s : Int) : Nat → List (Move T)
  | 0 => []
  | k + 1 => .copy d s :: shiftMoves δ (d + δ) (s + δ) k

def shiftDownMoves (d s c : Int) : List (Move T) := shiftMoves 1 d s (c + 1).toNat

def shiftUpMoves (d s c : Int) : List (Move T) := shiftMoves (-1) (d + c) (s + c) (c + 1).toNat

def addMoves (capacity : Nat) (a : ArrayList T) (item : T) : List (Move T) :=
  if a.count < capacity then [.store a.count item] else []

def insertMoves (capacity : Nat) (a : ArrayList T) (item : T) (index : Int) : List (Move T) :=
  if 0 ≤ index ∧ index ≤ a.count ∧ a.count < capacity then
    shiftUpMoves (index + 1) index (a.count - index) ++ [.store index item]
  else []

def removeAtMoves (a : ArrayList T) (index : Int) : List (Move T) :=
  if 0 ≤ index ∧ index < a.count then shiftDownMoves index (index + 1) (a.count - index - 1)
  else []

inductive Edit (T : Type) where
  | add (item : T)
  | insert (item : T) (index : Int)
  | removeAt (index : Int)
  | clear

def edit (capacity : Nat) (a : ArrayList T) : Edit T → ArrayList T
  | .add item => a.add capacity item
  | .insert item index => a.insert capacity item index
  | .removeAt index => a.removeAt index
  | .clear => a.clear

def step (capacity : Nat) (a : ArrayList T) (e : Edit T) : Option (ArrayList T) :=
  some (a.edit capacity e)

def moves (capacity : Nat) (a : ArrayList T) : Edit T → List (Move T)
  | .add item => a.addMoves capacity item
  | .insert item index => a.insertMoves capacity item index
  | .removeAt index => a.removeAtMoves index
  | .clear => []

theorem shiftDownLoop_eq (arr : Int → T) (d s : Int) (k : Nat) :
    shiftDownLoop arr d s k = (shiftMoves 1 d s k).foldl Move.perform arr := by
  induction k generalizing arr d s with
  | zero => rfl
  | succ k ih => exact ih (Function.update arr d (arr s)) (d + 1) (s + 1)

theorem shiftUpLoop_eq (arr : Int → T) (d s : Int) (k : Nat) :
    shiftUpLoop arr d s k = (shiftMoves (-1) d s k).foldl Move.perform arr := by
  induction k generalizing arr d s with
  | zero => rfl
  | succ k ih => exact ih (Function.update arr d (arr s)) (d - 1) (s - 1)

theorem add_arr (capacity : Nat) (a : ArrayList T) (item : T) :
    (a.add capacity item).arr = (a.addMoves capacity item).foldl Move.perform a.arr := by
  unfold add addMoves
  split <;> rfl

theorem insert_arr (capacity : Nat) (a : ArrayList T) (item : T) (index : Int) :
    (a.insert capacity item index).arr =
      (a.insertMoves capacity item index).foldl Move.perform a.arr := by
  unfold insert insertMoves
  split
  · unfold shiftUpMoves
    rw [List.foldl_append, ← shiftUpLoop_eq]
    rfl
  · rfl

theorem removeAt_arr (a : ArrayList T) (index : Int) :
    (a.removeAt index).arr = (a.removeAtMoves index).foldl Move.perform a.arr := by
  unfold removeAt removeAtMoves
  split
  · exact shiftDownLoop_eq _ _ _ _
  · rfl

/-- The array after a call is what the moves make of it. -/
theorem edit_arr (capacity : Nat) (a : ArrayList T) (e : Edit T) :
    (a.edit capacity e).arr = (a.moves capacity e).foldl Move.perform a.arr := by
  cases e with
  | add item => exact a.add_arr capacity item
  | insert item index => exact a.insert_arr capacity item index
  | removeAt index => exact a.removeAt_arr index
  | clear => rfl

theorem mem_shiftMoves {δ d s : Int} {k : Nat} {m : Move T} :
    m ∈ shiftMoves δ d s k ↔ ∃ j : Nat, j < k ∧ m = .copy (d + j * δ) (s + j * δ) := by
  induction k generalizing d s with
  | zero => simp [shiftMoves]
  | succ k ih =>
    unfold shiftMoves
    rw [List.mem_cons, ih]
    constructor
    · rintro (rfl | ⟨j, hj, rfl⟩)
      · exact ⟨0, Nat.succ_pos k, by simp⟩
      · refine ⟨j + 1, Nat.succ_lt_succ hj, ?_⟩
        push_cast
        congr 1 <;> ring
    · rintro ⟨j, hj, rfl⟩
      cases j with
      | zero => exact Or.inl (by simp)
      | succ j =>
        refine Or.inr ⟨j, Nat.lt_of_succ_lt_succ hj, ?_⟩
        push_cast
        congr 1 <;> ring

variable {capacity : Nat} {a : ArrayList T} {item : T} {index : Int} {m : Move T}

theorem mem_addMoves :
    m ∈ a.addMoves capacity item ↔ a.count < capacity ∧ m = .store a.count item := by
  unfold addMoves
  rw [List.mem_ite_nil_right, List.mem_singleton]

/-- The first round copies the element after the last item one place up. -/
theorem mem_insertMoves : m ∈ a.insertMoves capacity item index ↔
    (0 ≤ index ∧ index ≤ a.count ∧ a.count < capacity) ∧
      ((∃ j : Nat, j ≤ a.count - index ∧ m = .copy (a.count + 1 - j) (a.count - j)) ∨
        m = .store index item) := by
  unfold insertMoves shiftUpMoves
  rw [List.mem_ite_nil_right, List.mem_append, mem_shiftMoves, List.mem_singleton]
  apply and_congr_right
  intro hguard
  apply or_congr_left
  apply exists_congr
  intro j
  have hd : index + 1 + (a.count - index) + j * (-1) = a.count + 1 - j := by omega
  have hs : index + (a.count - index) + j * (-1) = a.count - j := by omega
  have hrounds : j < (a.count - index + 1).toNat ↔ (j : Int) ≤ a.count - index := by omega
  rw [hd, hs, hrounds]

/-- The last round copies the element after the last item one place down. -/
theorem mem_removeAtMoves : m ∈ a.removeAtMoves index ↔ (0 ≤ index ∧ index < a.count) ∧
    ∃ j : Nat, j < a.count - index ∧ m = .copy (index + j) (index + 1 + j) := by
  unfold removeAtMoves shiftDownMoves
  rw [List.mem_ite_nil_right, mem_shiftMoves]
  apply and_congr_right
  intro hguard
  apply exists_congr
  intro j
  have hrounds : j < (a.count - index - 1 + 1).toNat ↔ (j : Int) < a.count - index := by omega
  rw [mul_one, hrounds]

theorem add_count : (a.add capacity item).count =
    if a.count < capacity then a.count + 1 else a.count := by
  unfold add
  split <;> rfl

theorem insert_count : (a.insert capacity item index).count =
    if 0 ≤ index ∧ index ≤ a.count ∧ a.count < capacity then a.count + 1 else a.count := by
  unfold insert
  split <;> rfl

theorem removeAt_count : (a.removeAt index).count =
    if 0 ≤ index ∧ index < a.count then a.count - 1 else a.count := by
  unfold removeAt
  split <;> rfl

/-- What the count can be. -/
def Fits (capacity : Nat) (a : ArrayList T) : Prop := 0 ≤ a.count ∧ a.count ≤ capacity

theorem Fits.edit (h : a.Fits capacity) (e : Edit T) : (a.edit capacity e).Fits capacity := by
  obtain ⟨hpos, hle⟩ := h
  unfold Fits
  cases e with
  | add item =>
    have hcount : (a.edit capacity (.add item)).count = _ := add_count
    rw [hcount]
    split <;> omega
  | insert item index =>
    have hcount : (a.edit capacity (.insert item index)).count = _ := insert_count
    rw [hcount]
    split <;> omega
  | removeAt index =>
    have hcount : (a.edit capacity (.removeAt index)).count = _ := removeAt_count
    rw [hcount]
    split <;> omega
  | clear => exact ⟨Int.le_refl 0, Int.natCast_nonneg capacity⟩

theorem fits_empty (capacity : Nat) (arr : Int → T) : (empty arr).Fits capacity :=
  ⟨Int.le_refl 0, Int.natCast_nonneg capacity⟩

theorem Fits.run (h : a.Fits capacity) (edits : List (Edit T)) :
    ∃ a', run (step capacity) a edits = some a' ∧ a'.Fits capacity := by
  induction edits generalizing a with
  | nil => exact ⟨a, rfl, h⟩
  | cons e edits ih => exact ih (h.edit e)

/-- Of the elements past the items none gets into the items. -/
theorem moves_spare (capacity : Nat) (a : ArrayList T) (e : Edit T) :
    ∀ m ∈ a.moves capacity e, m.Spares a.count (a.edit capacity e).count := by
  intro m hm
  cases e with
  | add item =>
    obtain ⟨-, rfl⟩ := mem_addMoves.mp hm
    trivial
  | insert item index =>
    obtain ⟨hguard, ⟨j, hj, rfl⟩ | rfl⟩ := mem_insertMoves.mp hm
    · have hcount : (a.edit capacity (.insert item index)).count = a.count + 1 :=
        insert_count.trans (if_pos hguard)
      rw [hcount]
      unfold Move.Spares
      omega
    · trivial
  | removeAt index =>
    obtain ⟨hguard, j, hj, rfl⟩ := mem_removeAtMoves.mp hm
    have hcount : (a.edit capacity (.removeAt index)).count = a.count - 1 :=
      removeAt_count.trans (if_pos hguard)
    rw [hcount]
    unfold Move.Spares
    omega
  | clear => cases hm

/-- No `Insert` that has an effect is made with one place left, and no such `RemoveAt` with
none left. -/
def Roomy (capacity : Nat) (a : ArrayList T) : Edit T → Prop
  | .insert _ index => 0 ≤ index ∧ index ≤ a.count ∧ a.count < capacity → a.count + 1 ≠ capacity
  | .removeAt index => 0 ≤ index ∧ index < a.count → a.count ≠ capacity
  | .add _ | .clear => True

theorem insert_inside_iff : (∀ m ∈ a.insertMoves capacity item index, m.Inside capacity) ↔
    a.Roomy capacity (.insert item index) := by
  constructor
  · intro hinside hguard
    have hfirst : Move.copy (a.count + 1) a.count ∈ a.insertMoves capacity item index := by
      apply mem_insertMoves.mpr
      exact ⟨hguard, Or.inl ⟨0, by omega, by simp⟩⟩
    have hlt := (hinside _ hfirst).1.2
    omega
  · intro hroom m hm
    obtain ⟨hguard, ⟨j, hj, rfl⟩ | rfl⟩ := mem_insertMoves.mp hm
    · have hne := hroom hguard
      unfold Move.Inside
      omega
    · unfold Move.Inside
      omega

theorem removeAt_inside_iff (h : a.Fits capacity) :
    (∀ m ∈ a.removeAtMoves index, m.Inside capacity) ↔ a.Roomy capacity (.removeAt index) := by
  constructor
  · intro hinside hguard
    have hlast : Move.copy (a.count - 1) a.count ∈ a.removeAtMoves index := by
      apply mem_removeAtMoves.mpr
      refine ⟨hguard, (a.count - index - 1).toNat, by omega, ?_⟩
      congr 1 <;> omega
    have hlt := (hinside _ hlast).2.2
    omega
  · intro hroom m hm
    obtain ⟨hguard, j, hj, rfl⟩ := mem_removeAtMoves.mp hm
    have hne := hroom hguard
    have hle := h.2
    unfold Move.Inside
    omega

theorem moves_inside_iff (h : a.Fits capacity) (e : Edit T) :
    (∀ m ∈ a.moves capacity e, m.Inside capacity) ↔ a.Roomy capacity e := by
  cases e with
  | add item =>
    refine iff_of_true (fun m hm => ?_) trivial
    obtain ⟨hlt, rfl⟩ := mem_addMoves.mp hm
    exact ⟨h.1, hlt⟩
  | insert item index => exact insert_inside_iff
  | removeAt index => exact removeAt_inside_iff h
  | clear => exact iff_of_true (fun m hm => absurd hm List.not_mem_nil) trivial

/-- A call stays in the array and copies nothing into the items but items. -/
structure Stays (capacity : Nat) (a : ArrayList T) (e : Edit T) : Prop where
  inside : ∀ m ∈ a.moves capacity e, m.Inside capacity
  spares : ∀ m ∈ a.moves capacity e, m.Spares a.count (a.edit capacity e).count

theorem stays_iff (h : a.Fits capacity) (e : Edit T) :
    a.Stays capacity e ↔ a.Roomy capacity e := by
  constructor
  · intro hstays
    exact (moves_inside_iff h e).mp hstays.inside
  · intro hroom
    exact ⟨(moves_inside_iff h e).mpr hroom, moves_spare capacity a e⟩

/-- The calls made to an empty list stay in its array exactly when all of them are made with
room; and whatever was called before, the same holds of the next call. -/
theorem run_stays_iff (capacity : Nat) (arr : Int → T) (edits : List (Edit T)) :
    (EachStep (step capacity) (Stays capacity) (empty arr) edits ↔
      EachStep (step capacity) (Roomy capacity) (empty arr) edits) ∧
    ∃ a, run (step capacity) (empty arr) edits = some a ∧
      ∀ e, a.Stays capacity e ↔ a.Roomy capacity e := by
  have hempty := fits_empty capacity arr
  obtain ⟨a, hrun, ha⟩ := hempty.run edits
  refine ⟨?_, a, hrun, fun e => stays_iff ha e⟩
  refine EachStep.iff ?_ ?_ hempty hrun
  · intro s e s' hs _ he
    obtain rfl := Option.some.inj he
    exact hs.edit e
  · intro s e s' hs _
    exact stays_iff hs e

/-- With one item in a list of two places, an `Insert` before it also writes behind the array;
with two items there, a `RemoveAt` also reads there. -/
theorem shift_passes_end :
    (∃ a, run (step 2) (empty fun _ => 0) [.add 5] = some a ∧
      Move.copy 2 1 ∈ a.moves 2 (.insert 6 0) ∧ ¬ (Move.copy 2 1 : Move Nat).Inside 2 ∧
      ¬ a.Stays 2 (.insert 6 0)) ∧
    ∃ a, run (step 2) (empty fun _ => 0) [.add 5, .add 6] = some a ∧
      Move.copy 1 2 ∈ a.moves 2 (.removeAt 0) ∧ ¬ (Move.copy 1 2 : Move Nat).Inside 2 ∧
      ¬ a.Stays 2 (.removeAt 0) := by
  have hwrite : ¬ (Move.copy 2 1 : Move Nat).Inside 2 := by
    intro h
    exact absurd h.1.2 (by decide)
  have hread : ¬ (Move.copy 1 2 : Move Nat).Inside 2 := by
    intro h
    exact absurd h.2.2 (by decide)
  have hinsert : Move.copy 2 1 ∈ (⟨1, Function.update (fun _ => 0) 0 5⟩ : ArrayList Nat).moves 2
      (.insert 6 0) := List.mem_cons_self
  have hremove : Move.copy 1 2 ∈ (⟨2, Function.update (Function.update (fun _ => 0) 0 5) 1 6⟩ :
      ArrayList Nat).moves 2 (.removeAt 0) := List.mem_cons_of_mem _ List.mem_cons_self
  refine ⟨⟨_, rfl, hinsert, hwrite, ?_⟩, _, rfl, hremove, hread, ?_⟩
  · intro hstays
    exact hwrite (hstays.inside _ hinsert)
  · intro hstays
    exact hread (hstays.inside _ hremove)

end ArrayList
end Tysos
