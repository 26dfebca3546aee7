import Mathlib.Algebra.Order.Floor.Div
import Mathlib.Data.List.Basic

/-!
# Round robin

A queue of entries, each with the time it has left. The head is chosen, and charged a quantum
in advance: when that is all it has left it goes to the back with a new slice.
-/

namespace RoundRobin
set_option autoImplicit false

universe u
variable {α : Type u}

def step (quantum : Nat) (slice : α → Nat) : List (α × Nat) → List (α × Nat)
  | [] => []
  | (a, left) :: q =>
    if left ≤ quantum then q ++ [(a, slice a)] else (a, left - quantum) :: q

theorem step_cons (quantum : Nat) (slice : α → Nat) (a : α) (left : Nat) (q : List (α × Nat)) :
    step quantum slice ((a, left) :: q) =
      if left ≤ quantum then q ++ [(a, slice a)] else (a, left - quantum) :: q := rfl

/-- What is chosen in the next `k` steps. -/
def chosen (quantum : Nat) (slice : α → Nat) : Nat → List (α × Nat) → List α
  | 0, _ => []
  | _ + 1, [] => []
  | k + 1, (a, left) :: q => a :: chosen quantum slice k (step quantum slice ((a, left) :: q))

/-- How often in a row the head is chosen. -/
def turns (quantum left : Nat) : Nat := max 1 (left ⌈/⌉ quantum)

/-- Once through the queue. -/
def round (quantum : Nat) (q : List (α × Nat)) : List α :=
  q.flatMap fun x => List.replicate (turns quantum x.2) x.1

/-- The queue with new slices. -/
def fresh (slice : α → Nat) (q : List (α × Nat)) : List (α × Nat) :=
  q.map fun x => (x.1, slice x.1)

theorem turns_of_le {quantum left : Nat} (h : left ≤ quantum) : turns quantum left = 1 := by
  unfold turns
  rw [Nat.ceilDiv_eq_add_pred_div]
  apply Nat.max_eq_left
  rcases Nat.eq_zero_or_pos quantum with rfl | hpos
  · rw [Nat.div_zero]
    exact Nat.zero_le 1
  · apply Nat.le_of_lt_succ
    rw [Nat.div_lt_iff_lt_mul hpos]
    omega

theorem turns_of_gt {quantum left : Nat} (hpos : 0 < quantum) (h : quantum < left) :
    turns quantum left = turns quantum (left - quantum) + 1 := by
  unfold turns
  rw [Nat.ceilDiv_eq_add_pred_div, Nat.ceilDiv_eq_add_pred_div]
  have hsum : left + quantum - 1 = left - quantum + quantum - 1 + quantum := by omega
  have hone : 1 ≤ (left - quantum + quantum - 1) / quantum := by
    rw [Nat.le_div_iff_mul_le hpos]
    omega
  rw [hsum, Nat.add_div_right _ hpos, Nat.max_eq_right (by omega), Nat.max_eq_right hone]

theorem round_cons (quantum : Nat) (x : α × Nat) (q : List (α × Nat)) :
    round quantum (x :: q) = List.replicate (turns quantum x.2) x.1 ++ round quantum q :=
  List.flatMap_cons

theorem round_concat (quantum : Nat) (q : List (α × Nat)) (x : α × Nat) :
    round quantum (q ++ [x]) = round quantum q ++ List.replicate (turns quantum x.2) x.1 := by
  unfold round
  rw [List.flatMap_append, List.flatMap_singleton]

theorem round_ne_nil (quantum : Nat) {q : List (α × Nat)} (hq : q ≠ []) :
    round quantum q ≠ [] := by
  cases q with
  | nil => exact absurd rfl hq
  | cons x q =>
    have hpos : turns quantum x.2 ≠ 0 := by
      unfold turns
      omega
    rw [round_cons]
    simp [hpos]

section Repeated
variable (a b l : List α)

theorem append_repeated (k : Nat) : a ++ (List.replicate k (b ++ a)).flatten =
    (List.replicate k (a ++ b)).flatten ++ a := by
  induction k with
  | zero => simp
  | succ k ih =>
    calc a ++ (List.replicate (k + 1) (b ++ a)).flatten
        = a ++ b ++ (a ++ (List.replicate k (b ++ a)).flatten) := by
          rw [List.replicate_succ, List.flatten_cons]
          simp only [List.append_assoc]
      _ = a ++ b ++ ((List.replicate k (a ++ b)).flatten ++ a) := by rw [ih]
      _ = (List.replicate (k + 1) (a ++ b)).flatten ++ a := by
          rw [List.replicate_succ, List.flatten_cons]
          simp only [List.append_assoc]

/-- What comes after `k` repetitions is not among the first `k`. -/
theorem take_repeated {l : List α} (hl : l ≠ []) (a b : List α) (k : Nat) :
    (a ++ (List.replicate k l).flatten ++ b).take k =
      (a ++ (List.replicate k l).flatten).take k := by
  apply List.take_append_of_le_length
  have hlen : 1 ≤ l.length := List.length_pos_iff.mpr hl
  have hmul : k * 1 ≤ k * l.length := Nat.mul_le_mul_left k hlen
  have hflat : (List.replicate k l).flatten.length = k * l.length := by simp
  rw [List.length_append, hflat]
  omega

end Repeated

/-- The first round is by what each entry has left, and every later one by its slice. -/
theorem chosen_eq {quantum : Nat} (hpos : 0 < quantum) (slice : α → Nat) (k : Nat)
    {q : List (α × Nat)} (hq : q ≠ []) : chosen quantum slice k q =
      (round quantum q ++ (List.replicate k (round quantum (fresh slice q))).flatten).take k := by
  induction k generalizing q with
  | zero => rfl
  | succ k ih =>
    cases q with
    | nil => exact absurd rfl hq
    | cons x q =>
      obtain ⟨a, left⟩ := x
      have hfresh : round quantum (fresh slice ((a, left) :: q)) =
          List.replicate (turns quantum (slice a)) a ++ round quantum (fresh slice q) :=
        round_cons quantum (a, slice a) (fresh slice q)
      have hne := round_ne_nil quantum (List.cons_ne_nil (a, slice a) (fresh slice q))
      rw [round_cons] at hne
      unfold chosen
      rw [hfresh, round_cons, List.replicate_succ', List.flatten_concat]
      by_cases hle : left ≤ quantum
      -- the head goes to the back of the queue
      · have hback : step quantum slice ((a, left) :: q) = q ++ [(a, slice a)] := if_pos hle
        have hfresh' : round quantum (fresh slice (q ++ [(a, slice a)])) =
            round quantum (fresh slice q) ++ List.replicate (turns quantum (slice a)) a := by
          unfold fresh
          rw [List.map_append]
          exact round_concat quantum _ _
        rw [hback, ih (by simp), hfresh', round_concat, List.append_assoc, append_repeated,
          turns_of_le hle, List.replicate_one, List.singleton_append, List.cons_append,
          List.take_succ_cons, ← List.append_assoc, ← List.append_assoc, take_repeated hne,
          take_repeated hne]
      -- the head stays where it is
      · have hstay : step quantum slice ((a, left) :: q) = (a, left - quantum) :: q := if_neg hle
        have hsame : fresh slice ((a, left - quantum) :: q) = fresh slice ((a, left) :: q) := rfl
        rw [hstay, ih (by simp), hsame, hfresh, round_cons, turns_of_gt hpos (Nat.not_le.mp hle),
          List.replicate_succ, List.cons_append, List.cons_append, List.take_succ_cons,
          ← List.append_assoc, take_repeated hne]

end RoundRobin
