import Tysos.Support.Rounding
import Tysos.Support.Run
import Mathlib.Data.BitVec

/-!
# The timer

Counter 0 of the 8253, and the class `Pit_8253` that sets it and counts its interrupts. A
control word makes the counter wait for the two bytes of a new count, the lower one first, and
the periods start anew with that count.
-/

namespace Tysos
open Rounding
set_option autoImplicit false

@[ext] structure Counter where
  mode : BitVec 3
  bcd : Bool
  /-- The lower byte of a count that has not got its upper one. -/
  low : Option (BitVec 8)
  reload : BitVec 16
  deriving DecidableEq, Repr

namespace Counter

/-- Control words for other counters, and the other forms of access to a count, are not used. -/
def out (port : BitVec 16) (val : BitVec 8) (c : Counter) : Counter :=
  if port = 0x43 then
    if val.extractLsb' 6 2 = 0 ∧ val.extractLsb' 4 2 = 3 then
      { c with mode := val.extractLsb' 1 3, bcd := val.getLsbD 0, low := none }
    else c
  else if port = 0x40 then
    match c.low with
    | none => { c with low := some val }
    | some low => { c with low := none, reload := val ++ low }
  else c

/-- The input cycles between two interrupts, in mode 2 and with a binary count. -/
def cycles (c : Counter) : Option Nat :=
  if c.mode = 2 ∧ c.bcd = false then some (if c.reload = 0 then 0x10000 else c.reload.toNat)
  else none

end Counter

structure Pit8253 where
  reloadNs : BitVec 64
  freq : BitVec 32
  runningTime : BitVec 64
  deriving DecidableEq, Repr

/-- The object and the counter it programs. -/
structure Timer where
  pit : Pit8253
  counter : Counter
  deriving DecidableEq, Repr

namespace Pit8253

def defaultFreq : BitVec 32 := 0x40
def pitInputFreq : BitVec 32 := 0x1234DD
def commandPort : BitVec 16 := 0x43
def ratePort : BitVec 16 := 0x40
def defaultMode : BitVec 8 := 0x34

def reloadFor (freq : BitVec 32) : BitVec 32 :=
  let reload := pitInputFreq / freq
  let reload := if reload < 5 then 5 else reload
  if reload > 65535 then 65535 else reload

end Pit8253

namespace Timer
open Pit8253

/-- A frequency of 0 is a division by zero. -/
def setFrequency (freq : BitVec 32) (t : Timer) : Option Timer :=
  if freq = 0 then none
  else
    let reload := reloadFor freq
    let freq := pitInputFreq / reload
    let pit := { t.pit with freq := freq, reloadNs := (1000000000 / freq).setWidth 64 }
    let counter := t.counter.out commandPort defaultMode
    let counter := counter.out ratePort ((reload &&& 0xff).setWidth 8)
    let counter := counter.out ratePort (((reload >>> 8) &&& 0xff).setWidth 8)
    some ⟨pit, counter⟩

/-- The constructor; `_running_time` is not set. -/
def create (t : Timer) : Option Timer := t.setFrequency defaultFreq

def getFrequency (t : Timer) : BitVec 32 := t.pit.freq
def getInterval (t : Timer) : BitVec 64 := t.pit.reloadNs
def getRunningTime (t : Timer) : BitVec 64 := t.pit.runningTime

def increaseRunningTime (delta : BitVec 64) (t : Timer) : Timer :=
  { t with pit := { t.pit with runningTime := t.pit.runningTime + delta } }

end Timer

/-- The input frequency of the timer and the nanoseconds of a second. -/
def inputHz : Nat := 1193181
def nsPerSecond : Nat := 1000000000

namespace Pit8253

theorem reloadFor_toNat (freq : BitVec 32) :
    (reloadFor freq).toNat = min 65535 (max 5 (inputHz / freq.toNat)) := by
  have hdiv : (pitInputFreq / freq).toNat = inputHz / freq.toNat := BitVec.toNat_udiv
  have hfive : (5 : BitVec 32).toNat = 5 := rfl
  have hmax : (65535 : BitVec 32).toNat = 65535 := rfl
  unfold reloadFor
  simp only [gt_iff_lt, BitVec.lt_def]
  split <;> split <;> omega

theorem reloadFor_pos (freq : BitVec 32) : 5 ≤ (reloadFor freq).toNat := by
  rw [reloadFor_toNat]
  omega

theorem reloadFor_le (freq : BitVec 32) : (reloadFor freq).toNat ≤ 65535 := by
  rw [reloadFor_toNat]
  omega

/-- The frequency set, for one that is asked for. -/
theorem freq_toNat (freq : BitVec 32) :
    (pitInputFreq / reloadFor freq).toNat = inputHz / (reloadFor freq).toNat :=
  BitVec.toNat_udiv

theorem freq_bounds (freq : BitVec 32) : 18 ≤ inputHz / (reloadFor freq).toNat ∧
    inputHz / (reloadFor freq).toNat ≤ 238636 := by
  have hlow := reloadFor_pos freq
  have hhigh := reloadFor_le freq
  constructor
  · rw [Nat.le_div_iff_mul_le (by omega)]
    unfold inputHz
    omega
  · have hmono : inputHz / (reloadFor freq).toNat ≤ inputHz / 5 :=
      Nat.div_le_div_left hlow (by decide)
    exact hmono

/-- Asked for the frequency it has set, it finds the same count. -/
theorem reloadFor_idem (freq : BitVec 32) (hfreq : freq ≠ 0) :
    reloadFor (pitInputFreq / reloadFor freq) = reloadFor freq := by
  have hpos : 0 < freq.toNat := by bv_omega
  apply BitVec.eq_of_toNat_eq
  rw [reloadFor_toNat (pitInputFreq / reloadFor freq), freq_toNat]
  have hr := reloadFor_toNat freq
  rcases Nat.lt_or_ge (inputHz / freq.toNat) 5 with hlow | hlow
  · have hfive : (reloadFor freq).toNat = 5 := by omega
    rw [hfive]
    decide
  · rcases Nat.lt_or_ge 65535 (inputHz / freq.toNat) with hhigh | hhigh
    · have hmax : (reloadFor freq).toNat = 65535 := by omega
      rw [hmax]
      decide
    · have heq : (reloadFor freq).toNat = inputHz / freq.toNat := by omega
      have hle : freq.toNat ≤ inputHz := by
        by_contra hgt
        rw [Nat.div_eq_of_lt (by omega)] at hlow
        omega
      rw [heq, div_div_div_self inputHz freq.toNat hpos hle]
      omega

end Pit8253

namespace Timer
open Pit8253

/-- The count that the counter puts together from two bytes of `v`. -/
def countOf (v : BitVec 32) : BitVec 16 :=
  (((v >>> 8) &&& 0xff).setWidth 8 : BitVec 8) ++ ((v &&& 0xff).setWidth 8 : BitVec 8)

/-- What a call leaves, whatever the counter was waiting for. -/
theorem setFrequency_eq {freq : BitVec 32} (hfreq : freq ≠ 0) (t : Timer) :
    t.setFrequency freq = some
      ⟨⟨(1000000000 / (pitInputFreq / reloadFor freq)).setWidth 64, pitInputFreq / reloadFor freq,
          t.pit.runningTime⟩,
        ⟨2, false, none, countOf (reloadFor freq)⟩⟩ := by
  unfold setFrequency
  rw [if_neg hfreq]
  rfl

theorem countOf_toNat {v : BitVec 32} (hv : v.toNat ≤ 65535) : (countOf v).toNat = v.toNat := by
  unfold countOf
  have hmask : (0xff : BitVec 32).toNat = 2 ^ 8 - 1 := rfl
  rw [BitVec.toNat_append, BitVec.toNat_setWidth, BitVec.toNat_setWidth, BitVec.toNat_and,
    BitVec.toNat_and, BitVec.toNat_ushiftRight, hmask, Nat.and_two_pow_sub_one_eq_mod,
    Nat.and_two_pow_sub_one_eq_mod, Nat.shiftRight_eq_div_pow, Nat.mod_mod, Nat.mod_mod,
    ← Nat.shiftLeft_add_eq_or_of_lt (Nat.mod_lt _ (by decide)), Nat.shiftLeft_eq]
  omega

/-- The object tells of the count that the counter really has. -/
structure Agrees (t : Timer) (reload : Nat) : Prop where
  low : 5 ≤ reload
  high : reload ≤ 65535
  cycles : t.counter.cycles = some reload
  frequency : t.getFrequency.toNat = inputHz / reload
  interval : t.getInterval.toNat = period nsPerSecond inputHz reload

theorem setFrequency_agrees {freq : BitVec 32} {t t' : Timer}
    (h : t.setFrequency freq = some t') : t'.Agrees (reloadFor freq).toNat := by
  have hfreq : freq ≠ 0 := by
    intro hzero
    rw [hzero] at h
    exact nomatch h
  rw [setFrequency_eq hfreq, Option.some.injEq] at h
  subst h
  refine ⟨reloadFor_pos freq, reloadFor_le freq, ?_, freq_toNat freq, ?_⟩
  · have hcount := countOf_toNat (reloadFor_le freq)
    have hpos := reloadFor_pos freq
    have hne : countOf (reloadFor freq) ≠ 0 := by bv_omega
    unfold Counter.cycles
    rw [if_pos ⟨rfl, rfl⟩, if_neg hne, hcount]
  · have hdiv : (1000000000 / (pitInputFreq / reloadFor freq)).toNat =
        nsPerSecond / (inputHz / (reloadFor freq).toNat) := by
      rw [BitVec.toNat_udiv, freq_toNat]
      rfl
    have hlt := (1000000000 / (pitInputFreq / reloadFor freq)).isLt
    unfold getInterval
    dsimp only
    rw [BitVec.toNat_setWidth, Nat.mod_eq_of_lt (by omega), hdiv]
    rfl

theorem Agrees.frequency_ge {t : Timer} {reload : Nat} (h : t.Agrees reload) :
    18 ≤ inputHz / reload := by
  have hlow := h.low
  have hhigh := h.high
  rw [Nat.le_div_iff_mul_le (by omega)]
  unfold inputHz
  omega

theorem frequency_le {freq : BitVec 32} (hfreq : freq ≠ 0) (hle : freq.toNat ≤ 238636) :
    freq.toNat ≤ inputHz / (reloadFor freq).toNat := by
  have hpos : 0 < freq.toNat := by bv_omega
  have hfive : 5 ≤ inputHz / freq.toNat := by
    rw [Nat.le_div_iff_mul_le hpos]
    unfold inputHz
    omega
  have hreload : (reloadFor freq).toNat ≤ inputHz / freq.toNat := by
    rw [reloadFor_toNat]
    omega
  have hmul : inputHz / freq.toNat * freq.toNat ≤ inputHz := Nat.div_mul_le_self _ _
  rw [Nat.le_div_iff_mul_le (by have := reloadFor_pos freq; omega)]
  calc freq.toNat * (reloadFor freq).toNat ≤ freq.toNat * (inputHz / freq.toNat) :=
        Nat.mul_le_mul_left _ hreload
    _ = inputHz / freq.toNat * freq.toNat := Nat.mul_comm _ _
    _ ≤ inputHz := hmul

/-- Whatever the counter was doing, a call sets it to a count that fits it, and the object to
the frequency and interval of that count; the frequency is not below the one asked for, up to
the highest there is, and to ask for it again changes nothing. -/
theorem setFrequency_programs {freq : BitVec 32} (hfreq : freq ≠ 0) (t : Timer) :
    ∃ t', t.setFrequency freq = some t' ∧
      t'.Agrees (min 65535 (max 5 (inputHz / freq.toNat))) ∧
      (freq.toNat ≤ 238636 → freq.toNat ≤ t'.getFrequency.toNat) ∧
      t'.getFrequency.toNat ≤ 238636 ∧ t'.getRunningTime = t.getRunningTime ∧
      t'.setFrequency t'.getFrequency = some t' := by
  have heq := setFrequency_eq hfreq t
  have hagrees := setFrequency_agrees heq
  have hbounds := freq_bounds freq
  refine ⟨_, heq, ?_, ?_, ?_, rfl, ?_⟩
  · rw [← reloadFor_toNat]
    exact hagrees
  · intro hle
    rw [hagrees.frequency]
    exact frequency_le hfreq hle
  · rw [hagrees.frequency]
    exact hbounds.2
  · have hset : pitInputFreq / reloadFor freq ≠ 0 := by
      intro hzero
      have hnat := freq_toNat freq
      rw [hzero] at hnat
      have hz : (0 : BitVec 32).toNat = 0 := rfl
      omega
    unfold getFrequency
    rw [setFrequency_eq hset, reloadFor_idem freq hfreq]

/-- The object and the counter before their constructor. -/
def unset : Timer := ⟨⟨0, 0, 0⟩, ⟨3, false, some 7, 0⟩⟩

theorem setFrequency_programs_hundred :
    ∃ t, unset.setFrequency 100 = some t ∧ t.getFrequency.toNat ≤ 238636 := by
  obtain ⟨t, ht, -, -, hle, -⟩ := setFrequency_programs (by decide : (100 : BitVec 32) ≠ 0) unset
  exact ⟨t, ht, hle⟩

end Timer
end Tysos
