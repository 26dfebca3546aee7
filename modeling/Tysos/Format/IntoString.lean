import Tysos.Format.FormatString

/-!
# Formatting into a string

A `ReversibleString` as the stream of `vfPrintf`. Its string write returns for the empty string
only, so that neither a number nor a string that has a character can be formatted into it.
-/

namespace Tysos
set_option autoImplicit false

open ByteMemory CString

namespace ReversibleString

/-- The object as the stream it is. -/
def stream (max : Nat) : IStream (ReversibleString max) where
  write s c := s.write c true
  writeString fuel s t := writeString fuel s t
  endBatch s := s.endBatch

end ReversibleString

namespace Formatter

/-- A piece that sends no string, or an empty one, with the arguments from `a` on. -/
def Call.Quiet (e : Call) (a : Nat) (pc : Piece) : Prop :=
  pc ≠ .conversion (ascii 'x') ∧ pc ≠ .conversion (ascii 'u') ∧
    (pc = .conversion (ascii 's') → e.string a 0 = 0)

/-- All pieces are, each with the arguments it comes to. -/
def Call.AllQuiet (e : Call) : Nat → List Piece → Prop
  | _, [] => True
  | a, pc :: ps => e.Quiet a pc ∧ e.AllQuiet (a + pc.width) ps

section Stream
variable {max : Nat} {e : Call}

open ReversibleString (stream)

theorem numToStr_stream {base : BitVec 32} (h2 : 2 ≤ base.toNat) (h16 : base.toNat ≤ 16)
    (stack : Text (BitVec 8)) (fuel : Nat) (s : ReversibleString max) (n : BitVec 32) :
    numToStr (stream max) stack fuel s n base = none := by
  unfold numToStr
  cases ht : numText stack fuel n base with
  | none => rfl
  | some t => exact ReversibleString.writeString_eq_none (ne_zero_of_numText h2 h16 ht) fuel s

theorem quiet_of_send {pc : Piece} {fuel p a : Nat} {s s' : ReversibleString max}
    (h : pc.send (stream max) e fuel p a s = some s') : e.Quiet a pc := by
  refine ⟨?_, ?_, ?_⟩
  · rintro rfl
    rw [Piece.send_hex, numToStr_stream (by decide) (by decide)] at h
    exact absurd h.symm (Option.some_ne_none s')
  · rintro rfl
    rw [Piece.send_unsigned, numToStr_stream (by decide) (by decide)] at h
    exact absurd h.symm (Option.some_ne_none s')
  · rintro rfl
    by_contra hne
    have hnone := ReversibleString.writeString_eq_none hne fuel s
    exact absurd (hnone.symm.trans h).symm (Option.some_ne_none s')

theorem send_of_quiet {pc : Piece} {a : Nat} (h : e.Quiet a pc) {fuel : Nat} (hfuel : 0 < fuel)
    (p : Nat) (s : ReversibleString max) :
    ∃ s', pc.send (stream max) e fuel p a s = some s' := by
  cases pc with
  | literal c => exact ⟨_, rfl⟩
  | escape c => exact ⟨_, rfl⟩
  | conversion c =>
    obtain ⟨hx, hu, hs⟩ := h
    simp only [ne_eq, Piece.conversion.injEq] at hx hu hs
    by_cases hstring : c = ascii 's'
    · obtain ⟨fuel, rfl⟩ := Nat.exists_eq_succ_of_ne_zero (Nat.ne_of_gt hfuel)
      subst hstring
      exact ⟨s, ReversibleString.writeString_of_nul (hs rfl) fuel s⟩
    · by_cases hc : c = ascii 'c'
      · subst hc
        exact ⟨_, rfl⟩
      · exact ⟨s, Piece.send_unknown _ e fuel hx hu hstring hc p a s⟩

theorem play_stream_iff {ps : List Piece} {fuel : Nat} (hfuel : 0 < fuel)
    (st : Printing (ReversibleString max)) :
    (∃ st', play (stream max) e fuel ps st = some st') ↔ e.AllQuiet st.nextVal ps := by
  induction ps generalizing st with
  | nil => exact iff_of_true ⟨st.look, rfl⟩ trivial
  | cons pc ps ih =>
    constructor
    · intro h
      obtain ⟨st', h⟩ := h
      obtain ⟨s, hsend, hrest⟩ := play_cons h
      exact ⟨quiet_of_send hsend, (ih _).mp ⟨st', hrest⟩⟩
    · intro h
      obtain ⟨hone, hall⟩ := h
      obtain ⟨s, hsend⟩ := send_of_quiet hone hfuel st.p st.s
      obtain ⟨st', hplay⟩ := (ih (pc.after st.look s)).mpr hall
      refine ⟨st', ?_⟩
      unfold play
      rw [hsend, Option.map_some, Option.bind_some, hplay]

/-- `vfPrintf` into the object returns. -/
def PrintsInto (max : Nat) (e : Call) (o : ReversibleString max) : Prop :=
  ∃ fuel st, vfPrintf (stream max) e fuel o = some st

theorem printsInto_iff (e : Call) (o : ReversibleString max) :
    PrintsInto max e o ↔ ∃ ps, Scans e 0 ps ∧ e.AllQuiet 0 ps := by
  constructor
  · intro h
    obtain ⟨fuel, st, h⟩ := h
    obtain ⟨ps, hps, hlen, st₀, hplay, -⟩ := scans_of_vfPrintf h
    exact ⟨ps, hps, (play_stream_iff (Nat.zero_lt_of_lt hlen) (.start o)).mp ⟨st₀, hplay⟩⟩
  · intro h
    obtain ⟨ps, hps, hquiet⟩ := h
    obtain ⟨st, hplay⟩ :=
      (play_stream_iff (Nat.succ_pos ps.length) (.start o)).mpr hquiet
    refine ⟨ps.length + 1, { st with s := (stream max).endBatch st.s }, ?_⟩
    rw [vfPrintf_eq hps (Nat.lt_succ_self _), hplay]
    rfl

theorem quiet_of_mem {ps : List Piece} {a : Nat} (h : e.AllQuiet a ps) {pc : Piece}
    (hpc : pc ∈ ps) : ∃ b, e.Quiet b pc := by
  induction ps generalizing a with
  | nil => exact absurd hpc List.not_mem_nil
  | cons qc ps ih =>
    obtain ⟨hone, hall⟩ := h
    cases List.mem_cons.mp hpc with
    | inl heq => exact ⟨a, heq ▸ hone⟩
    | inr hmem => exact ih hall hmem

theorem printsInto_complete_iff {cs : List (BitVec 8)}
    (hformat : Spells (textAt e.memory e.format) cs) (hcs : complete cs = true)
    (o : ReversibleString max) : PrintsInto max e o ↔ e.AllQuiet 0 (pieces cs) := by
  rw [← Text.drop_zero (textAt e.memory e.format)] at hformat
  have hscans := (scans_pieces hformat hcs).1
  rw [printsInto_iff]
  constructor
  · intro h
    obtain ⟨ps, hps, hquiet⟩ := h
    rwa [← hps.unique hscans]
  · intro hquiet
    exact ⟨_, hscans, hquiet⟩

/-- String writes in `Forwards` mode, and `vfPrintf` with any format and arguments. -/
theorem string_stream_iff {o : ReversibleString max} (hfwd : o.forwards = true)
    (hpos : o.pos.toNat ≤ max - 1) {s : Text (BitVec 8)} {cs : List (BitVec 8)}
    (hs : Spells s cs) (e : Call) :
    (o.WritesString s cs ↔ cs = []) ∧
      (PrintsInto max e o ↔ ∃ ps, Scans e 0 ps ∧ e.AllQuiet 0 ps) :=
  ⟨ReversibleString.writesString_iff hfwd hpos hs, printsInto_iff e o⟩

end Stream

theorem string_stream_empty :
    ((ReversibleString.init 256 fun _ => 0).WritesString (fun _ => 0) [] ↔
      ([] : List (BitVec 8)) = []) ∧
    (PrintsInto 256 (.ofFormat [0x41]) (.init 256 fun _ => 0) ↔
      ∃ ps, Scans (.ofFormat [0x41]) 0 ps ∧ (Call.ofFormat [0x41]).AllQuiet 0 ps) :=
  string_stream_iff rfl (by decide) (by decide) (.ofFormat [0x41])

/-- The format of `gp_fault`. -/
def gpFaultFormat : List (BitVec 8) :=
  "General Protection Fault (%x) at %x:%x".toList.map ascii

/-- A string of one character, and `gp_fault` with whatever it is called. -/
theorem gpFault_not_printsInto :
    ¬ (ReversibleString.init 256 fun _ => 0).WritesString
        (fun k => if k = 0 then 0x41 else 0) [0x41] ∧
      ∀ e o, Spells (textAt e.memory e.format) gpFaultFormat → ¬ PrintsInto 256 e o := by
  constructor
  · intro h
    have hs : Spells (fun k => if k = 0 then (0x41 : BitVec 8) else 0) [0x41] := by decide
    exact absurd ((ReversibleString.writesString_iff rfl (by decide) hs).mp h) (by decide)
  · intro e o hformat h
    have hquiet := (printsInto_complete_iff hformat (by decide) o).mp h
    have hmem : Piece.conversion (ascii 'x') ∈ pieces gpFaultFormat := by decide
    obtain ⟨b, hb⟩ := quiet_of_mem hquiet hmem
    exact hb.1 rfl

end Formatter
end Tysos
