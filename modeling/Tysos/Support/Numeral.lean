import Mathlib.Data.Nat.Digits.Lemmas

/-!
# Numerals

The digits of a number as they come from repeated division, the last one first, with one digit
at least, and the value of digits read from the first one on.
-/

namespace Numeral
set_option autoImplicit false

/-- The digits of `n`, the last one first. -/
def lowFirst (b n : Nat) : List Nat := if n = 0 then [0] else Nat.digits b n

def value (b : Nat) (ds : List Nat) : Nat := ds.foldl (fun v d => d + b * v) 0

variable {b n : Nat}

theorem lowFirst_ne_nil (b n : Nat) : lowFirst b n ≠ [] := by
  unfold lowFirst
  by_cases hn : n = 0
  · rw [if_pos hn]
    exact List.cons_ne_nil _ _
  · rw [if_neg hn]
    exact Nat.digits_ne_nil_iff_ne_zero.mpr hn

theorem lowFirst_step (hb : 1 < b) (n : Nat) :
    lowFirst b n = (n % b) :: if n / b = 0 then [] else lowFirst b (n / b) := by
  by_cases hn : n = 0
  · subst hn
    simp [lowFirst]
  · have hdef := Nat.digits_def' hb (Nat.pos_of_ne_zero hn)
    unfold lowFirst
    rw [if_neg hn, hdef]
    by_cases hdiv : n / b = 0
    · rw [if_pos hdiv, hdiv, Nat.digits_zero]
    · rw [if_neg hdiv, if_neg hdiv]

theorem lt_of_mem_lowFirst (hb : 1 < b) {d : Nat} (hd : d ∈ lowFirst b n) : d < b := by
  unfold lowFirst at hd
  by_cases hn : n = 0
  · rw [if_pos hn, List.mem_singleton] at hd
    omega
  · rw [if_neg hn] at hd
    exact Nat.digits_lt_base hb hd

theorem length_lowFirst_le (hb : 1 < b) {k : Nat} (hk : 0 < k) (hn : n < b ^ k) :
    (lowFirst b n).length ≤ k := by
  unfold lowFirst
  split
  · exact hk
  · exact (Nat.digits_length_le_iff hb n).mpr hn

end Numeral
