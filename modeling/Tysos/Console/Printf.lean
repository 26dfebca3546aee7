import Tysos.Console.Screen
import Tysos.Format.Recording

/-!
# Printing on the console

The console is a stream, so `Printf` sends it the text of its call, a character or a string at
a time and without moving the cursor of the hardware. The cursor is set at the end, by
`EndBatch`.
-/

namespace Tysos
open CString Formatter
set_option autoImplicit false

namespace Vga

/-- The loop of `_Puts` over the string at `s`. -/
def putsText (attr : CInt) : Nat → Vga → Text Char8 → Option Vga
  | 0, _, _ => none
  | fuel + 1, v, s =>
    if s 0 ≠ 0 then putsText attr fuel (v.putch (s 0) false attr).1 (s.drop 1) else some v

/-- `Write` of a string in memory. -/
def writeText (fuel : Nat) (v : Vga) (s : Text Char8) (batch : Bool) : Option Vga :=
  (putsText defaultAttribute fuel v s).map fun v => if batch then v else v.updateCursor

/-- The console as the formatter calls it, always with `batch`. -/
def stream : IStream Vga where
  write v c := v.write c true
  writeString fuel v s := v.writeText fuel s true
  endBatch v := v.updateCursor

/-- `Printf`, with what it returns. -/
def printf (fuel : Nat) (v : Vga) (e : Formatter.Call) : Option (Vga × CInt) :=
  (vfPrintf stream e fuel v).map fun st => (st.s, st.i)

/-- The cursor registers of the display controller, and the one that is selected. -/
structure Crt where
  index : BitVec 8
  high : BitVec 8
  low : BitVec 8

namespace Crt

/-- A byte arrives at a port; `basePort` selects a register and the next port writes it. -/
def out (basePort : BitVec 16) (port : BitVec 16) (val : BitVec 8) (c : Crt) : Crt :=
  if port = basePort then { c with index := val }
  else if port = basePort + 1 then
    if c.index = 0x0f then { c with low := val }
    else if c.index = 0x0e then { c with high := val }
    else c
  else c

def position (c : Crt) : BitVec 16 := c.high ++ c.low

end Crt

/-- The display controller after all that was sent, from what it was at first. -/
def crt (v : Vga) (c : Crt) : Crt := v.ports.foldr (fun p c => c.out v.basePort p.1 p.2) c

/-- The hardware shows the cursor where the next character goes. -/
def CursorShown (v : Vga) : Prop := ∀ c, ((v.crt c).position.toNat : Int) = v.y * 80 + v.x

/-- What is asked of the console: a call, or a `Printf` whose format ends in no half of an
escape or a conversion. -/
inductive Output where
  | call (c : Call)
  | printf (e : Formatter.Call) (cs : List Char8)
      (format : Spells (textAt e.memory e.format) cs) (complete : complete cs = true)
  | endBatch

def output (fuel : Nat) (v : Vga) : Output → Option Vga
  | .call c => some (v.call c)
  | .printf e _ _ _ => (v.printf fuel e).map Prod.fst
  | .endBatch => some v.updateCursor

def outputs (fuel : Nat) (v : Vga) (os : List Output) : Option Vga :=
  os.foldlM (output fuel) v

/-- The text of an output, typed. -/
noncomputable def transcribeOutput (t : Transcript Glyph 80) :
    Output → Transcript Glyph 80
  | .call c => transcribe t c
  | .printf e cs _ _ => (e.texts 0 (pieces cs)).foldl (typed (-1)) t
  | .endBatch => t

/-- An output at whose end the cursor of the hardware is set. -/
def Output.Updates : Output → Prop
  | .call (.putch _ update _) => update = true
  | .call (.puts _ _ _ update) => update = true
  | .call (.write _ batch) => batch = false
  | .call (.writeString _ batch) => batch = false
  | .printf _ _ _ _ => True
  | .endBatch => True

section
variable {v : Vga} {t : Transcript Glyph 80}

theorem putsText_eq (v : Vga) (attr : CInt) {s : Text Char8} {cs : List Char8} (hs : Spells s cs)
    {fuel : Nat} (hfuel : cs.length < fuel) :
    putsText attr fuel v s = some (v.putsLoop attr cs) := by
  induction cs generalizing v s fuel with
  | nil =>
    obtain ⟨fuel, rfl⟩ := Nat.exists_eq_succ_of_ne_zero (Nat.ne_of_gt hfuel)
    have hnul : s 0 = 0 := hs
    unfold putsText
    rw [if_neg (not_not.mpr hnul)]
    rfl
  | cons c cs ih =>
    obtain ⟨fuel, rfl⟩ := Nat.exists_eq_succ_of_ne_zero (Nat.ne_of_gt (Nat.zero_lt_of_lt hfuel))
    obtain ⟨hc, hne, hrest⟩ := spells_cons.mp hs
    unfold putsText putsLoop
    rw [hc, if_pos hne, if_pos hne]
    exact ih _ hrest (Nat.lt_of_succ_lt_succ hfuel)

theorem typedAll_eq (t : Transcript Glyph 80) (attr : CInt) {s : Text Char8}
    {cs : List Char8} (hs : Spells s cs) : typedAll t cs attr = cs.foldl (typed attr) t := by
  induction cs generalizing s t with
  | nil => rfl
  | cons c cs ih =>
    obtain ⟨-, hne, hrest⟩ := spells_cons.mp hs
    have htail := ih (typed attr t c) hrest
    unfold typedAll at htail ⊢
    rw [List.takeWhile_cons_of_pos (by simpa using hne)]
    exact htail

/-- The console keeps what it is sent on its screen. -/
theorem stream_records (t : Transcript Glyph 80) :
    stream.Records fun v cs => v.Shows (cs.foldl (typed (-1)) t) where
  write {v cs} h c := by
    rw [List.foldl_append]
    exact (h.putch c false defaultAttribute).2
  writeString {v cs ds} h {s} hs := by
    have hshows := h.putsLoop (-1) ds
    rw [typedAll_eq _ _ hs, ← List.foldl_append] at hshows
    refine ⟨ds.length + 1, v.putsLoop defaultAttribute ds, hshows, fun fuel hfuel => ?_⟩
    unfold stream writeText
    dsimp only
    rw [putsText_eq v _ hs hfuel]
    rfl
  endBatch h := h.updateCursor true

theorem append_halves (p : BitVec 16) : (p >>> 8).setWidth 8 ++ p.setWidth 8 = p := by
  ext i hi
  rw [BitVec.getElem_append]
  by_cases hlow : i < 8
  · simp [hlow, BitVec.getLsbD_eq_getElem hi]
  · have hback : 8 + (i - 8) = i := by omega
    simp [hlow, hback, BitVec.getLsbD_eq_getElem hi]

/-- The two halves of the position are sent to their registers, one after the other. -/
theorem position_updateCursor (v : Vga) (c : Crt) :
    (v.updateCursor.crt c).position = BitVec.ofInt 16 (v.y * vgaWidth + v.x) := by
  have hport : v.basePort + 1 ≠ v.basePort := by
    intro h
    bv_omega
  unfold crt updateCursor Vga.out Crt.position Crt.out
  generalize BitVec.ofInt 16 (v.y * vgaWidth + v.x) = position
  simp only [List.foldr_cons, hport, if_true, if_false]
  rw [if_neg (by decide)]
  exact append_halves position

theorem Shows.cursorShown (h : v.updateCursor.Shows t) : v.updateCursor.CursorShown := by
  have hcursor := h.cursor
  rw [h.w, h.h] at hcursor
  unfold CursorShown
  intro c
  have hx : v.updateCursor.x = v.x := rfl
  have hy : v.updateCursor.y = v.y := rfl
  rw [hx, hy] at hcursor ⊢
  rw [position_updateCursor, BitVec.toNat_ofInt]
  unfold vgaWidth
  omega

theorem Shows.printf (h : v.Shows t) (e : Formatter.Call) {cs : List Char8}
    (hformat : Spells (textAt e.memory e.format) cs) (hcs : complete cs = true) :
    ∃ least v', (∀ fuel, least ≤ fuel → (v.printf fuel e).map Prod.fst = some v') ∧
      v'.Shows ((e.texts 0 (pieces cs)).foldl (typed (-1)) t) ∧ v'.CursorShown := by
  have hnone : v.Shows (([] : List Char8).foldl (typed (-1)) t) := h
  obtain ⟨least, st, hst, hrun⟩ := vfPrintf_records (stream_records t) hformat hcs hnone
  obtain ⟨st₀, -, rfl⟩ := Option.map_eq_some_iff.mp (hrun least (Nat.le_refl _))
  refine ⟨least, st₀.s.updateCursor, fun fuel hfuel => ?_, hst, hst.cursorShown⟩
  unfold Vga.printf
  rw [hrun fuel hfuel]
  rfl

theorem Shows.output (h : v.Shows t) (o : Output) :
    ∃ least v', (∀ fuel, least ≤ fuel → v.output fuel o = some v') ∧
      v'.Shows (transcribeOutput t o) ∧ (o.Updates → v'.CursorShown) := by
  cases o with
  | call c =>
    refine ⟨0, v.call c, fun _ _ => rfl, h.call c, fun hupdates => ?_⟩
    have hshows := h.call c
    cases c with
    | putch ch update attr =>
      obtain rfl : update = true := hupdates
      exact hshows.cursorShown
    | puts s newline attr update =>
      obtain rfl : update = true := hupdates
      exact hshows.cursorShown
    | write ch batch =>
      obtain rfl : batch = false := hupdates
      exact hshows.cursorShown
    | writeString s batch =>
      obtain rfl : batch = false := hupdates
      exact hshows.cursorShown
  | printf e cs hformat hcs =>
    obtain ⟨least, v', hrun, hshows, hcursor⟩ := h.printf e hformat hcs
    exact ⟨least, v', hrun, hshows, fun _ => hcursor⟩
  | endBatch =>
    have hshows := h.updateCursor true
    exact ⟨0, v.updateCursor, fun _ _ => rfl, hshows, fun _ => hshows.cursorShown⟩

theorem Shows.outputs (h : v.Shows t) (os : List Output) :
    ∃ least v', (∀ fuel, least ≤ fuel → v.outputs fuel os = some v') ∧
      v'.Shows (os.foldl transcribeOutput t) ∧
      ∀ o ∈ os.getLast?, o.Updates → v'.CursorShown := by
  induction os using List.reverseRecOn with
  | nil =>
    refine ⟨0, v, fun _ _ => rfl, h, fun o ho => ?_⟩
    cases ho
  | append_singleton os o ih =>
    obtain ⟨l₁, mid, hmid, hshows, -⟩ := ih
    obtain ⟨l₂, v', hv', hshows', hcursor⟩ := hshows.output o
    refine ⟨max l₁ l₂, v', fun fuel hfuel => ?_, ?_, fun o' ho' => ?_⟩
    · have hos : os.foldlM (Vga.output fuel) v = some mid := hmid fuel (le_of_max_le_left hfuel)
      have ho := hv' fuel (le_of_max_le_right hfuel)
      unfold Vga.outputs
      rw [List.foldlM_append, hos]
      simpa using ho
    · rw [List.foldl_append]
      exact hshows'
    · rw [List.getLast?_concat] at ho'
      obtain rfl := Option.some.inj ho'
      exact hcursor

end

/-- From a cleared screen on, whatever is written and printed: all of it returns, the screen
shows the end of what was typed, and after an output that updates the cursor the hardware shows
it where the next character goes. -/
theorem outputs_show (fb : VideoMemory) (basePort : BitVec 16)
    (ports : List (BitVec 16 × BitVec 8)) (os : List Output) :
    ∃ least v, (∀ fuel, least ≤ fuel → (cleared fb basePort ports).outputs fuel os = some v) ∧
      v.Shows (os.foldl transcribeOutput (Transcript.empty (by decide))) ∧
      ∀ o ∈ os.getLast?, o.Updates → v.CursorShown :=
  (shows_cleared fb basePort ports).outputs os

def deviceFormat : List Char8 := "%s at %x\n".toList.map ascii

/-- The format with the string `pit` and the number 0x40, from 0x100 on. -/
def deviceLine : Formatter.Call where
  memory a := (deviceFormat ++ [0] ++ "pit".toList.map ascii ++ [0] ++
    [0x0a, 0x01, 0, 0, 0x40, 0, 0, 0]).getD (a - 0x100).toNat 0
  format := 0x100
  ap := 0x10e
  stack _ _ := 0

theorem deviceLine_texts :
    deviceLine.texts 0 (pieces deviceFormat) = "pit at 0x40\n".toList.map ascii := by
  have hname : Spells (deviceLine.string 0) ("pit".toList.map ascii) := by decide
  have hword : (deviceLine.word 4).toNat = 64 := by decide
  have hnumeral : numeral 16 64 = [ascii '4', ascii '0'] := by
    unfold numeral Numeral.lowFirst
    simp
    decide
  have hpieces : pieces deviceFormat = [.conversion (ascii 's'), .literal (ascii ' '),
      .literal (ascii 'a'), .literal (ascii 't'), .literal (ascii ' '), .conversion (ascii 'x'),
      .literal (ascii '\n')] := by decide
  have htexts : deviceLine.texts 0 (pieces deviceFormat) =
      deviceLine.text 0 (.conversion (ascii 's')) ++ " at ".toList.map ascii ++
        (deviceLine.text 4 (.conversion (ascii 'x')) ++ [ascii '\n']) := by
    rw [hpieces]
    simp [Call.texts, Call.text, Piece.width, ascii]
  rw [htexts, Call.text_string hname, Call.text_hex, hword, hnumeral]
  rfl

/-- A string that updates no cursor, the line and a new line behind it. -/
def deviceOutputs : List Output :=
  [.call (.puts ("found ".toList.map ascii) false (-1) false),
    .printf deviceLine deviceFormat (by decide) (by decide), .call (.putch 10 true (-1))]

theorem outputs_show_device :
    ∃ least v, (∀ fuel, least ≤ fuel →
        (cleared (fun _ => 0) 0x3d4 []).outputs fuel deviceOutputs = some v) ∧
      v.Shows (("found pit at 0x40\n\n".toList.map ascii).foldl (typed (-1))
        (Transcript.empty (by decide))) ∧ v.CursorShown := by
  obtain ⟨least, v, hrun, hshows, hcursor⟩ := outputs_show (fun _ => 0) 0x3d4 [] deviceOutputs
  refine ⟨least, v, hrun, ?_, hcursor _ rfl rfl⟩
  have htyped : deviceOutputs.foldl transcribeOutput (Transcript.empty (by decide)) =
      ("found pit at 0x40\n\n".toList.map ascii).foldl (typed (-1))
        (Transcript.empty (by decide)) := by
    unfold deviceOutputs
    simp only [List.foldl_cons, List.foldl_nil, transcribeOutput, transcribe, deviceLine_texts]
    rfl
  rw [← htyped]
  exact hshows

end Vga
end Tysos
