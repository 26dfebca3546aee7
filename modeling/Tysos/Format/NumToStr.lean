import Tysos.Format.ReversibleString
import Tysos.Support.Numeral

/-!
# Numbers as text

`Formatter::NumToStr` divides by the base and writes the remainders, the last digit first, into
a `ReversibleString` of the default size, which it then sends as one string.
-/

namespace Tysos
set_option autoImplicit false

open CString

/-- `IStream`, as far as the formatter calls it. What a string write does is up to the stream;
it returns nothing where it has not returned within the fuel. -/
structure IStream (σ : Type) where
  write : σ → BitVec 8 → σ
  writeString : Nat → σ → Text (BitVec 8) → Option σ
  endBatch : σ → σ

/-- Every string write returns. -/
def IStream.Accepts {σ : Type} (S : IStream σ) : Prop :=
  ∀ s t cs, Spells t cs → ∃ least s', ∀ fuel, least ≤ fuel → S.writeString fuel s t = some s'

/-- A stream that keeps all it is sent. -/
def IStream.sink : IStream (List (BitVec 8)) where
  write s c := s ++ [c]
  writeString fuel s t := (scan t fuel 0).map fun n => s ++ (List.range n).map t
  endBatch s := s

theorem IStream.sink_writeString {t : Text (BitVec 8)} {cs : List (BitVec 8)} (h : Spells t cs)
    {fuel : Nat} (hfuel : cs.length < fuel) (s : List (BitVec 8)) :
    sink.writeString fuel s t = some (s ++ cs) := by
  have hscan := h.scan_eq (Nat.zero_le _) (by omega : cs.length < 0 + fuel)
  unfold sink
  dsimp only
  rw [hscan, Option.map_some, h.map_range]

theorem IStream.sink_accepts : sink.Accepts := fun s _ cs h =>
  ⟨cs.length + 1, s ++ cs, fun _ hfuel => sink_writeString h hfuel s⟩

namespace Formatter

def ascii (c : Char) : BitVec 8 := BitVec.ofNat 8 c.toNat

def digits : List (BitVec 8) :=
  ['0', '1', '2', '3', '4', '5', '6', '7', '8', '9', 'a', 'b', 'c', 'd', 'e', 'f'].map ascii

/-- `digits[n]`. -/
def digitChar (n : Nat) : BitVec 8 := digits.getD n 0

def numToChar {max : Nat} (s : ReversibleString max) (n : BitVec 32) : ReversibleString max :=
  if n ≥ 16 then s.write (ascii 'X') true else s.write (digitChar n.toNat) true

/-- The loop of `NumToStr`. -/
def numLoop : Nat → BitVec 32 → BitVec 32 → ReversibleString 65 → Option (ReversibleString 65)
  | 0, _, _, _ => none
  | fuel + 1, n, base, str =>
    let digit := n % base
    let str := numToChar str digit
    let n := n / base
    if n ≠ 0 then numLoop fuel n base str else some str

/-- What `NumToStr` sends, where its own array holds `stack` before. -/
def numText (stack : Text (BitVec 8)) (fuel : Nat) (n base : BitVec 32) :
    Option (Text (BitVec 8)) :=
  (numLoop fuel n base (.backwards 65 stack)).map fun str => str.endBatch.getString.2

def numToStr {σ : Type} (S : IStream σ) (stack : Text (BitVec 8)) (fuel : Nat) (s : σ)
    (n base : BitVec 32) : Option σ :=
  (numText stack fuel n base).bind fun t => S.writeString fuel s t

/-- The numeral of `n`. -/
def numeral (base n : Nat) : List (BitVec 8) :=
  (Numeral.lowFirst base n).reverse.map digitChar

/-- The digit a character stands for. -/
def digitOf (base : Nat) (c : BitVec 8) : Option Nat :=
  (digits.idxOf? c).filter fun d => d < base

/-- The value of a text of digits. -/
def parse (base : Nat) (cs : List (BitVec 8)) : Option Nat :=
  (cs.mapM (digitOf base)).map (Numeral.value base)

theorem digitChar_ne_zero {d : Nat} (hd : d < 16) : digitChar d ≠ 0 := by
  have hall : ∀ d < 16, digitChar d ≠ 0 := by decide
  exact hall d hd

theorem mem_numeral {base n : Nat} (h2 : 2 ≤ base) {c : BitVec 8} (hc : c ∈ numeral base n) :
    ∃ d < base, c = digitChar d := by
  obtain ⟨d, hd, rfl⟩ := List.mem_map.mp hc
  exact ⟨d, Numeral.lt_of_mem_lowFirst h2 (List.mem_reverse.mp hd), rfl⟩

section Canonical
variable {base : Nat} (h2 : 2 ≤ base) (h16 : base ≤ 16)
include h2 h16

end Canonical

theorem numeral_ne_nil (base n : Nat) : numeral base n ≠ [] := by
  unfold numeral
  simpa using Numeral.lowFirst_ne_nil base n

theorem numLoop_mono {fuel fuel' : Nat} (hle : fuel ≤ fuel') {n base : BitVec 32}
    {str str' : ReversibleString 65} (h : numLoop fuel n base str = some str') :
    numLoop fuel' n base str = some str' := by
  induction fuel generalizing fuel' n str with
  | zero => exact absurd h.symm (Option.some_ne_none str')
  | succ fuel ih =>
    obtain ⟨fuel', rfl⟩ := Nat.exists_eq_succ_of_ne_zero (Nat.ne_of_gt (Nat.zero_lt_of_lt hle))
    unfold numLoop at h ⊢
    dsimp only at h ⊢
    split at h
    next hn =>
      rw [if_pos hn]
      exact ih (Nat.le_of_succ_le_succ hle) h
    next hn =>
      rw [if_neg hn]
      exact h

section Loop
variable {base : BitVec 32} (h2 : 2 ≤ base.toNat) (h16 : base.toNat ≤ 16)
include h2 h16

theorem numToChar_eq {max : Nat} (s : ReversibleString max) {n : BitVec 32}
    (hn : n.toNat < base.toNat) : numToChar s n = s.write (digitChar n.toNat) true := by
  unfold numToChar
  rw [if_neg (by bv_omega)]

/-- The loop writes the digits, the last one first. -/
theorem numLoop_eq {fuel : Nat} {n : BitVec 32} (hpos : 0 < fuel)
    (hfuel : n.toNat < base.toNat ^ fuel) (str : ReversibleString 65) :
    numLoop fuel n base str =
      some (str.writeAll ((Numeral.lowFirst base.toNat n.toNat).map digitChar) true) := by
  induction fuel generalizing n str with
  | zero => exact absurd hpos (Nat.lt_irrefl 0)
  | succ fuel ih =>
    have hmod : (n % base).toNat = n.toNat % base.toNat := BitVec.toNat_umod
    have hdiv : (n / base).toNat = n.toNat / base.toNat := BitVec.toNat_udiv
    have hlt : (n % base).toNat < base.toNat := hmod ▸ Nat.mod_lt _ (by omega)
    have hchar := numToChar_eq h2 h16 str hlt
    unfold numLoop
    dsimp only
    rw [hchar, hmod, Numeral.lowFirst_step (by omega) n.toNat, List.map_cons]
    by_cases hend : n / base = 0
    · have hzero : n.toNat / base.toNat = 0 := by rw [← hdiv, hend]; rfl
      rw [if_neg (not_not.mpr hend), if_pos hzero]
      rfl
    · have hne : n.toNat / base.toNat ≠ 0 := fun h =>
        hend (BitVec.eq_of_toNat_eq (hdiv.trans h))
      have hrest : (n / base).toNat < base.toNat ^ fuel := by
        rw [hdiv]
        exact Nat.div_lt_of_lt_mul (by rwa [Nat.pow_succ, Nat.mul_comm] at hfuel)
      have hmore : 0 < fuel := by
        refine Nat.pos_of_ne_zero fun h => hne ?_
        rw [h, Nat.pow_zero, hdiv] at hrest
        omega
      rw [if_pos hend, if_neg hne, ih hmore hrest, hdiv]
      rfl

/-- The buffer is long enough for every number, so the text sent is its numeral. -/
theorem numText_spells (n : BitVec 32) (stack : Text (BitVec 8)) :
    ∃ t, Spells t (numeral base.toNat n.toNat) ∧
      ∀ fuel, 32 ≤ fuel → numText stack fuel n base = some t := by
  have hpow : n.toNat < base.toNat ^ 32 :=
    Nat.lt_of_lt_of_le n.isLt (Nat.pow_le_pow_left h2 32)
  have hlen : (Numeral.lowFirst base.toNat n.toNat).length ≤ 32 :=
    Numeral.length_lowFirst_le h2 (by decide) hpow
  have hne : (Numeral.lowFirst base.toNat n.toNat).map digitChar ≠ [] :=
    mt List.map_eq_nil_iff.mp (Numeral.lowFirst_ne_nil _ _)
  obtain ⟨hold, -⟩ := ReversibleString.holding_writeAll (by decide)
    (o := ReversibleString.backwards 65 stack) rfl rfl hne (by rw [List.length_map]; omega) true
  rw [← List.map_reverse] at hold
  have hchars : ∀ c ∈ numeral base.toNat n.toNat, c ≠ 0 := by
    intro c hc
    obtain ⟨d, hd, rfl⟩ := mem_numeral h2 hc
    exact digitChar_ne_zero (Nat.lt_of_lt_of_le hd h16)
  refine ⟨_, (hold.getString (by decide) hchars).1, fun fuel hfuel => ?_⟩
  have hlt : n.toNat < base.toNat ^ fuel :=
    Nat.lt_of_lt_of_le hpow (Nat.pow_le_pow_right (by omega) hfuel)
  unfold numText
  rw [numLoop_eq h2 h16 (by omega) hlt, Option.map_some, hold.endBatch]

/-- Whatever the fuel, what is sent is not the empty string. -/
theorem ne_zero_of_numText {n : BitVec 32} {stack : Text (BitVec 8)} {fuel : Nat}
    {t : Text (BitVec 8)} (h : numText stack fuel n base = some t) : t 0 ≠ 0 := by
  obtain ⟨t', hspells, ht'⟩ := numText_spells h2 h16 n stack
  obtain ⟨str, hstr, rfl⟩ := Option.map_eq_some_iff.mp h
  have hmono := ht' (max fuel 32) (Nat.le_max_right _ _)
  unfold numText at hmono
  rw [numLoop_mono (Nat.le_max_left fuel 32) hstr, Option.map_some] at hmono
  rw [Option.some.inj hmono]
  exact hspells.ne_zero (List.length_pos_iff.mpr (numeral_ne_nil _ _))

end Loop

end Formatter
end Tysos
