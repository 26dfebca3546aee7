import Tysos.Format.FormatString
import Mathlib.Data.Nat.ModEq

/-!
# What `vfPrintf` returns

The count is kept apart from what is sent: a `%x` counts ten and a `%u` twelve, however many
digits there are, and the characters of a `%s` are not counted. The count is right where these
differences cancel.
-/

namespace Tysos
set_option autoImplicit false

open ByteMemory CString

namespace Formatter

/-- The number of digits `NumToStr` sends. -/
def digitCount (base n : Nat) : Nat := (Numeral.lowFirst base n).length

theorem length_numeral (base n : Nat) : (numeral base n).length = digitCount base n := by
  unfold numeral digitCount
  rw [List.length_map, List.length_reverse]

theorem digitCount_le {base k : Nat} (hbase : 1 < base) (hk : 0 < k) (hpow : 2 ^ 32 ≤ base ^ k)
    (n : BitVec 32) : digitCount base n.toNat ≤ k :=
  Numeral.length_lowFirst_le hbase hk (Nat.lt_of_lt_of_le n.isLt hpow)

/-- A sum over the pieces, with the place among the arguments each comes to. -/
def total (f : Nat → Piece → Nat) : Nat → List Piece → Nat
  | _, [] => 0
  | a, pc :: ps => f a pc + total f (a + pc.width) ps

theorem total_add (f g : Nat → Piece → Nat) (a : Nat) (ps : List Piece) :
    total (fun a pc => f a pc + g a pc) a ps = total f a ps + total g a ps := by
  induction ps generalizing a with
  | nil => rfl
  | cons pc ps ih =>
    unfold total
    rw [ih]
    omega

theorem total_counted (a : Nat) (ps : List Piece) :
    total (fun _ pc => pc.counted) a ps = counts ps := by
  induction ps generalizing a with
  | nil => rfl
  | cons pc ps ih =>
    unfold total
    rw [ih, counts_cons]

namespace Call

/-- What a `%x` counts beyond its prefix and digits, and a `%u` beyond its digits. -/
def padding (e : Call) (a : Nat) (pc : Piece) : Nat :=
  if pc = .conversion (ascii 'x') then 8 - digitCount 16 (e.word a).toNat
  else if pc = .conversion (ascii 'u') then 12 - digitCount 10 (e.word a).toNat
  else 0

/-- The characters of a `%s`. -/
noncomputable def uncounted (e : Call) (a : Nat) (pc : Piece) : Nat :=
  if pc = .conversion (ascii 's') then length (e.string a) else 0

/-- The number of characters sent for a piece. -/
noncomputable def sent (e : Call) (a : Nat) : Piece → Nat
  | .literal _ => 1
  | .escape c => if (Piece.escaped c).isSome then 1 else 0
  | .conversion c =>
    if c = ascii 'x' then 2 + digitCount 16 (e.word a).toNat
    else if c = ascii 'u' then digitCount 10 (e.word a).toNat
    else if c = ascii 's' then length (e.string a)
    else if c = ascii 'c' then 1
    else 0

theorem sent_add_padding (e : Call) (a : Nat) (pc : Piece) :
    e.sent a pc + e.padding a pc = pc.counted + e.uncounted a pc := by
  have hhex := digitCount_le (k := 8) (by decide : 1 < 16) (by decide) (by decide) (e.word a)
  have hdec := digitCount_le (k := 10) (by decide : 1 < 10) (by decide) (by decide) (e.word a)
  cases pc with
  | literal c => simp [sent, padding, uncounted, Piece.counted]
  | escape c => simp [sent, padding, uncounted, Piece.counted]
  | conversion c =>
    unfold sent padding uncounted Piece.counted
    simp only [Piece.conversion.injEq]
    by_cases hx : c = ascii 'x'
    · simp only [hx, if_true, if_neg (by decide : ascii 'x' ≠ ascii 's')]
      omega
    · by_cases hu : c = ascii 'u'
      · simp only [hu, if_true, if_neg (by decide : ascii 'u' ≠ ascii 'x'),
          if_neg (by decide : ascii 'u' ≠ ascii 's')]
        omega
      · by_cases hs : c = ascii 's'
        · simp [hs, ascii]
        · simp [hx, hu, hs]

end Call

section Sink
variable {e : Call} {cs : List (BitVec 8)}

theorem sink_numToStr {base : BitVec 32} (h2 : 2 ≤ base.toNat) (h16 : base.toNat ≤ 16)
    (stack : Text (BitVec 8)) (s : List (BitVec 8)) (n : BitVec 32) :
    ∃ least out, out.length = digitCount base.toNat n.toNat ∧
      ∀ fuel, least ≤ fuel → numToStr .sink stack fuel s n base = some (s ++ out) := by
  obtain ⟨t, hspells, ht⟩ := numText_spells h2 h16 n stack
  refine ⟨32 + (numeral base.toNat n.toNat).length, numeral base.toNat n.toNat,
    length_numeral _ _, fun fuel hfuel => ?_⟩
  have hpos := List.length_pos_iff.mpr (numeral_ne_nil base.toNat n.toNat)
  unfold numToStr
  rw [ht fuel (by omega), Option.bind_some, IStream.sink_writeString hspells (by omega)]

variable (hformat : Spells (textAt e.memory e.format) cs)
include hformat

theorem sink_send (pc : Piece) (p a : Nat) (s : List (BitVec 8)) :
    ∃ least out, out.length = e.sent a pc ∧
      ∀ fuel, least ≤ fuel → pc.send .sink e fuel p a s = some (s ++ out) := by
  cases pc with
  | literal c => exact ⟨0, [c], rfl, fun _ _ => rfl⟩
  | escape c =>
    cases hc : Piece.escaped c with
    | none => exact ⟨0, [], by simp [Call.sent, hc], fun _ _ => by simp [Piece.send, hc]⟩
    | some d =>
      exact ⟨0, [d], by simp [Call.sent, hc], fun _ _ => by simp [Piece.send, hc, IStream.sink]⟩
  | conversion c =>
    by_cases hx : c = ascii 'x'
    · subst hx
      have h2 : 2 ≤ (16 : BitVec 32).toNat := by decide
      obtain ⟨least, out, hlen, hout⟩ := sink_numToStr h2 (by decide) (e.stack (p + 1))
        (s ++ [ascii '0'] ++ [ascii 'x']) (e.word a)
      refine ⟨least, [ascii '0', ascii 'x'] ++ out, ?_, fun fuel hfuel => ?_⟩
      · rw [List.length_append, hlen]
        rfl
      · rw [Piece.send_hex]
        refine (hout fuel hfuel).trans ?_
        simp
    · by_cases hu : c = ascii 'u'
      · subst hu
        have h2 : 2 ≤ (10 : BitVec 32).toNat := by decide
        exact sink_numToStr h2 (by decide) (e.stack (p + 1)) s (e.word a)
      · by_cases hs : c = ascii 's'
        · subst hs
          obtain ⟨ds, hds⟩ := exists_string hformat (e.word a)
          refine ⟨ds.length + 1, ds, hds.length_eq.symm, fun fuel hfuel => ?_⟩
          exact IStream.sink_writeString hds hfuel s
        · by_cases hc : c = ascii 'c'
          · subst hc
            exact ⟨0, [e.argChar a], rfl, fun _ _ => rfl⟩
          · refine ⟨0, [], ?_, fun fuel _ => ?_⟩
            · unfold Call.sent
              simp [hx, hu, hs, hc]
            · rw [Piece.send_unknown .sink e fuel hx hu hs hc, List.append_nil]

theorem sink_play (ps : List Piece) (st : Printing (List (BitVec 8))) :
    ∃ least st', st'.s.length = st.s.length + total e.sent st.nextVal ps ∧
      ∀ fuel, least ≤ fuel → play .sink e fuel ps st = some st' := by
  induction ps generalizing st with
  | nil => exact ⟨0, st.look, rfl, fun _ _ => rfl⟩
  | cons pc ps ih =>
    obtain ⟨l₁, out, hlen, hout⟩ := sink_send hformat pc st.p st.nextVal st.s
    obtain ⟨l₂, st', hst', hplay⟩ := ih (pc.after st.look (st.s ++ out))
    refine ⟨max l₁ l₂, st', ?_, fun fuel hfuel => ?_⟩
    · have hnext : (pc.after st.look (st.s ++ out)).nextVal = st.nextVal + pc.width := rfl
      have hsent : (pc.after st.look (st.s ++ out)).s = st.s ++ out := rfl
      unfold total
      rw [hst', hnext, hsent, List.length_append, hlen, Nat.add_assoc]
    · unfold play
      rw [hout fuel (le_of_max_le_left hfuel), Option.map_some, Option.bind_some,
        hplay fuel (le_of_max_le_right hfuel)]

end Sink

section Returned
variable {e : Call} {cs : List (BitVec 8)}

/-- `vfPrintf` returns the number of characters it has sent. -/
def ReturnsSent (e : Call) : Prop :=
  ∃ st, (∃ least, ∀ fuel, least ≤ fuel → vfPrintf .sink e fuel [] = some st) ∧
    st.i.toInt = st.s.length

theorem toInt_ofNat_eq_iff (t n : Nat) :
    (BitVec.ofNat 32 t).toInt = (n : Int) ↔ t ≡ n [MOD 2 ^ 32] ∧ n < 2 ^ 31 := by
  unfold Nat.ModEq
  rw [BitVec.toInt_eq_toNat_cond, BitVec.toNat_ofNat]
  split <;> omega

/-- The count differs from what was sent by what it has too many and too few. -/
theorem counts_modEq_iff (e : Call) (ps : List Piece) :
    counts ps ≡ total e.sent 0 ps [MOD 2 ^ 32] ↔
      total e.padding 0 ps ≡ total e.uncounted 0 ps [MOD 2 ^ 32] := by
  have hsum : total e.sent 0 ps + total e.padding 0 ps = counts ps + total e.uncounted 0 ps := by
    have hpiece : (fun a pc => e.sent a pc + e.padding a pc) =
        fun a pc => pc.counted + e.uncounted a pc := by
      funext a pc
      exact e.sent_add_padding a pc
    rw [← total_add, hpiece, total_add, total_counted]
  constructor
  · intro h
    have hadd := h.add_right (total e.uncounted 0 ps)
    rw [← hsum] at hadd
    exact Nat.ModEq.add_left_cancel' _ hadd
  · intro h
    have hadd := h.add_left (total e.sent 0 ps)
    rw [hsum] at hadd
    exact Nat.ModEq.add_right_cancel' _ hadd

section Complete
variable (hformat : Spells (textAt e.memory e.format) cs) (hcs : complete cs = true)
include hformat hcs

theorem sink_run : ∃ st, (∃ least, ∀ fuel, least ≤ fuel → vfPrintf .sink e fuel [] = some st) ∧
    (st.i.toInt = st.s.length ↔
      total e.padding 0 (pieces cs) ≡ total e.uncounted 0 (pieces cs) [MOD 2 ^ 32] ∧
        total e.sent 0 (pieces cs) < 2 ^ 31) := by
  have hstart := hformat
  rw [← Text.drop_zero (textAt e.memory e.format)] at hstart
  have hscans := (scans_pieces hstart hcs).1
  obtain ⟨least, st, hsent, hplay⟩ := sink_play hformat (pieces cs) (.start [])
  have hi := play_counts (hplay least (Nat.le_refl _))
  have hsent : st.s.length = total e.sent 0 (pieces cs) := hsent.trans (Nat.zero_add _)
  have hi : st.i = BitVec.ofNat 32 (counts (pieces cs)) := hi.trans (BitVec.zero_add _)
  refine ⟨st, ⟨max least ((pieces cs).length + 1), fun fuel hfuel => ?_⟩, ?_⟩
  · rw [vfPrintf_eq hscans (le_of_max_le_right hfuel), hplay fuel (le_of_max_le_left hfuel)]
    rfl
  · rw [← counts_modEq_iff, hi, hsent, toInt_ofNat_eq_iff]

theorem modEq_of_returnsSent (h : ReturnsSent e) :
    total e.padding 0 (pieces cs) ≡ total e.uncounted 0 (pieces cs) [MOD 2 ^ 32] ∧
      total e.sent 0 (pieces cs) < 2 ^ 31 := by
  obtain ⟨st, ⟨least, hst⟩, heq⟩ := h
  obtain ⟨st', ⟨least', hst'⟩, hiff⟩ := sink_run hformat hcs
  obtain rfl := Option.some.inj ((hst _ (Nat.le_max_left least least')).symm.trans
    (hst' _ (Nat.le_max_right least least')))
  exact hiff.mp heq

theorem returnsSent_iff : ReturnsSent e ↔
    total e.padding 0 (pieces cs) ≡ total e.uncounted 0 (pieces cs) [MOD 2 ^ 32] ∧
      total e.sent 0 (pieces cs) < 2 ^ 31 := by
  constructor
  · exact modEq_of_returnsSent hformat hcs
  · intro h
    obtain ⟨st, hst, hiff⟩ := sink_run hformat hcs
    exact ⟨st, hst, hiff.mpr h⟩

end Complete

def sizeFormat : List (BitVec 8) := "%x %u %s".toList.map ascii

/-- The format, the string `long mode` and the numbers 0x1000 and 1000000, from 0x100 on. -/
def sizeLine : Call where
  memory a := (sizeFormat ++ [0] ++ "long mode".toList.map ascii ++ [0] ++
    [0, 0x10, 0, 0, 0x40, 0x42, 0x0f, 0, 0x09, 0x01, 0, 0]).getD (a - 0x100).toNat 0
  format := 0x100
  ap := 0x113
  stack _ _ := 0

/-- The nine digits missing make up for the nine characters of the string. -/
theorem returnsSent_sizeLine : ReturnsSent sizeLine := by
  have hformat : Spells (textAt sizeLine.memory sizeLine.format) sizeFormat := by decide
  have hstring : Spells (sizeLine.string 8) ("long mode".toList.map ascii) := by decide
  have hlength : length (sizeLine.string 8) = 9 := hstring.length_eq
  have hpieces : pieces sizeFormat = [.conversion (ascii 'x'), .literal (ascii ' '),
      .conversion (ascii 'u'), .literal (ascii ' '), .conversion (ascii 's')] := by decide
  have hhex : digitCount 16 (sizeLine.word 0).toNat = 4 := by
    have hword : (sizeLine.word 0).toNat = 4096 := by decide
    rw [hword]
    simp [digitCount, Numeral.lowFirst]
  have hdec : digitCount 10 (sizeLine.word 4).toNat = 7 := by
    have hword : (sizeLine.word 4).toNat = 1000000 := by decide
    rw [hword]
    simp [digitCount, Numeral.lowFirst]
  have hpadding : total sizeLine.padding 0 (pieces sizeFormat) = 9 := by
    rw [hpieces]
    simp [total, Call.padding, Piece.width, hhex, hdec, ascii]
  have huncounted : total sizeLine.uncounted 0 (pieces sizeFormat) = 9 := by
    rw [hpieces]
    simp [total, Call.uncounted, Piece.width, hlength, ascii]
  have hsent : total sizeLine.sent 0 (pieces sizeFormat) = 24 := by
    rw [hpieces]
    simp [total, Call.sent, Piece.width, hhex, hdec, hlength, ascii]
  refine (returnsSent_iff hformat (by decide)).mpr ⟨?_, ?_⟩
  · rw [hpadding, huncounted]
  · rw [hsent]
    decide

/-- A `%x` of 0 sends three characters and counts ten. -/
theorem not_returnsSent : ¬ ReturnsSent (.ofFormat [ascii '%', ascii 'x']) := by
  intro h
  have hformat : Spells (textAt (Call.ofFormat [ascii '%', ascii 'x']).memory 0)
      [ascii '%', ascii 'x'] := by decide
  have hmod := (modEq_of_returnsSent hformat (by decide) h).1
  have hpadding : total (Call.padding (.ofFormat [ascii '%', ascii 'x'])) 0
      (pieces [ascii '%', ascii 'x']) = 7 := by decide
  have huncounted : total (Call.uncounted (.ofFormat [ascii '%', ascii 'x'])) 0
      (pieces [ascii '%', ascii 'x']) = 0 := rfl
  rw [hpadding, huncounted] at hmod
  exact absurd hmod (by decide)

end Returned

end Formatter
end Tysos
