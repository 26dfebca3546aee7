import Tysos.Format.FormatString

/-!
# Streams that keep what they are sent

What a stream holds is read off its state. Where a character written comes behind what is there,
and a string with all of its characters, `vfPrintf` leaves the text of the call behind it: the
pieces of the format one after the other, each with what it stands for.
-/

namespace Tysos
open ByteMemory CString
set_option autoImplicit false

/-- `keeps s cs` says that the stream holds `cs` in state `s`. -/
structure IStream.Records {σ : Type} (S : IStream σ) (keeps : σ → List (BitVec 8) → Prop) :
    Prop where
  write {s : σ} {cs : List (BitVec 8)} (h : keeps s cs) (c : BitVec 8) :
    keeps (S.write s c) (cs ++ [c])
  writeString {s : σ} {cs ds : List (BitVec 8)} (h : keeps s cs) {t : Text (BitVec 8)}
    (ht : Spells t ds) : ∃ least s', keeps s' (cs ++ ds) ∧
      ∀ fuel, least ≤ fuel → S.writeString fuel s t = some s'
  endBatch {s : σ} {cs : List (BitVec 8)} (h : keeps s cs) : keeps (S.endBatch s) cs

namespace Formatter

namespace Call

/-- What a piece stands for, with the arguments from `a` on. -/
noncomputable def text (e : Call) (a : Nat) : Piece → List (BitVec 8)
  | .literal c => [c]
  | .escape c => (Piece.escaped c).toList
  | .conversion c =>
    if c = ascii 'x' then ascii '0' :: ascii 'x' :: numeral 16 (e.word a).toNat
    else if c = ascii 'u' then numeral 10 (e.word a).toNat
    else if c = ascii 's' then (List.range (length (e.string a))).map (e.string a)
    else if c = ascii 'c' then [e.argChar a]
    else []

noncomputable def texts (e : Call) : Nat → List Piece → List (BitVec 8)
  | _, [] => []
  | a, pc :: ps => e.text a pc ++ e.texts (a + pc.width) ps

theorem text_hex (e : Call) (a : Nat) : e.text a (.conversion (ascii 'x')) =
    ascii '0' :: ascii 'x' :: numeral 16 (e.word a).toNat := rfl

theorem text_string {e : Call} {a : Nat} {cs : List (BitVec 8)} (h : Spells (e.string a) cs) :
    e.text a (.conversion (ascii 's')) = cs := by
  have htext : e.text a (.conversion (ascii 's')) =
    (List.range (length (e.string a))).map (e.string a) := rfl
  rw [htext, h.length_eq, h.map_range]

end Call

section Records
variable {σ : Type} {S : IStream σ} {keeps : σ → List (BitVec 8) → Prop} {e : Call}
  {cs : List (BitVec 8)}

/-- A number is sent with its digits. -/
theorem numToStr_records (hS : S.Records keeps) {base : BitVec 32} (h2 : 2 ≤ base.toNat)
    (h16 : base.toNat ≤ 16) (n : BitVec 32) (stack : Text (BitVec 8)) {s : σ}
    {ds : List (BitVec 8)} (h : keeps s ds) :
    ∃ least s', keeps s' (ds ++ numeral base.toNat n.toNat) ∧
      ∀ fuel, least ≤ fuel → numToStr S stack fuel s n base = some s' := by
  obtain ⟨t, hspells, ht⟩ := numText_spells h2 h16 n stack
  obtain ⟨least, s', hs', hsend⟩ := hS.writeString h hspells
  refine ⟨max least 32, s', hs', fun fuel hfuel => ?_⟩
  unfold numToStr
  rw [ht fuel (le_of_max_le_right hfuel), Option.bind_some,
    hsend fuel (le_of_max_le_left hfuel)]

variable (hS : S.Records keeps) (hformat : Spells (textAt e.memory e.format) cs)
include hS hformat

theorem send_records (pc : Piece) (p a : Nat) {s : σ} {ds : List (BitVec 8)} (h : keeps s ds) :
    ∃ least s', keeps s' (ds ++ e.text a pc) ∧
      ∀ fuel, least ≤ fuel → pc.send S e fuel p a s = some s' := by
  cases pc with
  | literal c => exact ⟨0, _, hS.write h c, fun _ _ => rfl⟩
  | escape c =>
    cases hc : Piece.escaped c with
    | none => exact ⟨0, s, by simpa [Call.text, hc] using h, fun _ _ => by simp [Piece.send, hc]⟩
    | some d =>
      have hd := hS.write h d
      exact ⟨0, S.write s d, by simpa [Call.text, hc] using hd,
        fun _ _ => by simp [Piece.send, hc]⟩
  | conversion c =>
    by_cases hx : c = ascii 'x'
    · subst hx
      have hhex : 2 ≤ (16 : BitVec 32).toNat := by decide
      have hpre := hS.write (hS.write h (ascii '0')) (ascii 'x')
      obtain ⟨least, s', hs', hsend⟩ := numToStr_records hS hhex (by decide) (e.word a)
        (e.stack (p + 1)) hpre
      refine ⟨least, s', ?_, hsend⟩
      rw [List.append_assoc, List.append_assoc] at hs'
      exact hs'
    · by_cases hu : c = ascii 'u'
      · subst hu
        have hten : 2 ≤ (10 : BitVec 32).toNat := by decide
        exact numToStr_records hS hten (by decide) (e.word a) (e.stack (p + 1)) h
      · by_cases hs : c = ascii 's'
        · subst hs
          obtain ⟨ds', hds⟩ := exists_string hformat (e.word a)
          rw [Call.text_string hds]
          exact hS.writeString h hds
        · by_cases hc : c = ascii 'c'
          · subst hc
            exact ⟨0, _, hS.write h (e.argChar a), fun _ _ => rfl⟩
          · refine ⟨0, s, ?_, fun fuel _ => Piece.send_unknown S e fuel hx hu hs hc p a s⟩
            simpa [Call.text, hx, hu, hs, hc] using h

theorem play_records (ps : List Piece) (st : Printing σ) {ds : List (BitVec 8)}
    (h : keeps st.s ds) :
    ∃ least st', keeps st'.s (ds ++ e.texts st.nextVal ps) ∧
      ∀ fuel, least ≤ fuel → play S e fuel ps st = some st' := by
  induction ps generalizing st ds with
  | nil =>
    refine ⟨0, st.look, ?_, fun _ _ => rfl⟩
    unfold Call.texts
    rw [List.append_nil]
    exact h
  | cons pc ps ih =>
    obtain ⟨l₁, s, hs, hsend⟩ := send_records hS hformat pc st.p st.nextVal h
    obtain ⟨l₂, st', hst', hplay⟩ := ih (pc.after st.look s) hs
    refine ⟨max l₁ l₂, st', ?_, fun fuel hfuel => ?_⟩
    · unfold Call.texts
      rw [← List.append_assoc]
      exact hst'
    · unfold play
      rw [hsend fuel (le_of_max_le_left hfuel), Option.map_some, Option.bind_some,
        hplay fuel (le_of_max_le_right hfuel)]

/-- `vfPrintf` on a stream that holds `ds`. -/
theorem vfPrintf_records (hcs : complete cs = true) {s : σ} {ds : List (BitVec 8)}
    (h : keeps s ds) :
    ∃ least st, keeps st.s (ds ++ e.texts 0 (pieces cs)) ∧
      ∀ fuel, least ≤ fuel → vfPrintf S e fuel s = some st := by
  have hstart := hformat
  rw [← Text.drop_zero (textAt e.memory e.format)] at hstart
  have hscans := (scans_pieces hstart hcs).1
  obtain ⟨least, st, hst, hplay⟩ := play_records hS hformat (pieces cs) (.start s) h
  refine ⟨max least ((pieces cs).length + 1), { st with s := S.endBatch st.s },
    hS.endBatch hst, fun fuel hfuel => ?_⟩
  rw [vfPrintf_eq hscans (le_of_max_le_right hfuel), hplay fuel (le_of_max_le_left hfuel)]
  rfl

end Records

end Formatter
end Tysos
