import Mathlib.Data.Nat.Basic
import Mathlib.Order.Basic

/-!
# Divided clocks

A clock of `rate` cycles a second is divided by `reload`. Its frequency, rounded down, is
`rate / reload`, and the length of one period in units of which there are `unit` a second,
worked out from that frequency, is `unit / (rate / reload)`: not the exact quotient, but never
as much as one unit short of it, and too long by less than one part in the frequency.
-/

namespace Rounding
set_option autoImplicit false

variable {rate reload unit : Nat}

/-- The divider found from a frequency gives back the frequency that it gives. -/
theorem div_div_div_self (n k : Nat) (hk : 0 < k) (h : k ≤ n) : n / (n / (n / k)) = n / k := by
  have hq : 0 < n / k := Nat.div_pos h hk
  have hle : k ≤ n / (n / k) := by
    rw [Nat.le_div_iff_mul_le hq, Nat.mul_comm]
    exact Nat.div_mul_le_self n k
  have hpos : 0 < n / (n / k) := Nat.lt_of_lt_of_le hk hle
  apply Nat.le_antisymm
  · exact Nat.div_le_div_left hle hk
  · rw [Nat.le_div_iff_mul_le hpos, Nat.mul_comm]
    exact Nat.div_mul_le_self n (n / k)

def period (unit rate reload : Nat) : Nat := unit / (rate / reload)

theorem period_not_short (hr : 0 < reload) (hf : reload ≤ rate) :
    unit * reload < (period unit rate reload + 1) * rate := by
  have hfreq : 0 < rate / reload := Nat.div_pos hf hr
  have hunit : unit < (period unit rate reload + 1) * (rate / reload) := by
    rw [Nat.mul_comm]
    exact Nat.lt_mul_div_succ unit hfreq
  have hrate : rate / reload * reload ≤ rate := Nat.div_mul_le_self rate reload
  calc unit * reload < (period unit rate reload + 1) * (rate / reload) * reload :=
        Nat.mul_lt_mul_of_pos_right hunit hr
    _ = (period unit rate reload + 1) * (rate / reload * reload) := Nat.mul_assoc _ _ _
    _ ≤ (period unit rate reload + 1) * rate := Nat.mul_le_mul_left _ hrate

theorem period_not_long {f : Nat} (hr : 0 < reload) (hf : f ≤ rate / reload) :
    f * (period unit rate reload * rate) ≤ (f + 1) * (unit * reload) := by
  rcases Nat.eq_zero_or_pos f with rfl | hpos
  · simp
  · have hperiod : period unit rate reload * (rate / reload) ≤ unit := Nat.div_mul_le_self unit _
    have hrate : rate ≤ (rate / reload + 1) * reload := by
      rw [Nat.mul_comm]
      exact Nat.le_of_lt (Nat.lt_mul_div_succ rate hr)
    have hratio : f * (rate / reload + 1) ≤ (f + 1) * (rate / reload) := by
      rw [Nat.mul_add, Nat.mul_one, Nat.add_mul, Nat.one_mul]
      omega
    calc f * (period unit rate reload * rate)
        ≤ f * (period unit rate reload * ((rate / reload + 1) * reload)) :=
          Nat.mul_le_mul_left _ (Nat.mul_le_mul_left _ hrate)
      _ = f * (rate / reload + 1) * (period unit rate reload * reload) := by ac_rfl
      _ ≤ (f + 1) * (rate / reload) * (period unit rate reload * reload) :=
          Nat.mul_le_mul_right _ hratio
      _ = (f + 1) * (period unit rate reload * (rate / reload) * reload) := by ac_rfl
      _ ≤ (f + 1) * (unit * reload) :=
          Nat.mul_le_mul_left _ (Nat.mul_le_mul_right _ hperiod)

end Rounding
