import Tysos.Console.Vga
import Tysos.Support.Transcript

/-!
# The screen as the end of a transcript

Everything written at the cursor since the screen was cleared, as rows of 80 cells without end.
The screen shows the last 25 of them, and the cursor stands where the next cell goes.
-/

namespace Tysos
set_option autoImplicit false

namespace Vga
open Transcript

/-- What the display makes of a cell: the low byte is the character, the high byte its colors. -/
structure Glyph where
  ch : Char8
  attr : BitVec 8
  deriving DecidableEq

def decode (c : ScreenCell) : Glyph := ⟨c.setWidth 8, (c >>> 8).setWidth 8⟩

/-- What is in a cell of 0. -/
def blank : Glyph := ⟨0, 0⟩

/-- The colors of a character that is written with `attr`: light grey on black by default. -/
def colors (attr : CInt) : BitVec 8 := if attr = -1 then 7 else attr.setWidth 8

/-- One character in the transcript. -/
def typed (attr : CInt) (t : Transcript Glyph 80) (ch : Char8) : Transcript Glyph 80 :=
  if ch = 10 then t.newLine else t.put ⟨ch, colors attr⟩

/-- The characters of a string up to its end. -/
def typedAll (t : Transcript Glyph 80) (s : List Char8) (attr : CInt) :
    Transcript Glyph 80 :=
  (s.takeWhile (· ≠ 0)).foldl (typed attr) t

def transcribe (t : Transcript Glyph 80) : Call → Transcript Glyph 80
  | .putch ch _ attr => typed attr t ch
  | .puts s newline attr _ =>
    if newline then (typedAll t s attr).newLine else typedAll t s attr
  | .write ch _ => typed (-1) t ch
  | .writeString s _ => typedAll t s (-1)

/-- The screen shows the last rows of these, and the cursor is at the end of the last one. -/
structure ShowsRows (v : Vga) (above : List (List Glyph)) (row : List Glyph) :
    Prop where
  w : v.w = 80
  h : v.h = 25
  x : v.x = row.length
  y : v.y + 1 = (lastRows 25 (above ++ [row])).length
  cells : ∀ x < 80, ∀ y < 25,
    decode (v.fb ((x : Nat) + (y : Nat) * 80)) = cellOf (lastRows 25 (above ++ [row])) blank x y

def Shows (v : Vga) (t : Transcript Glyph 80) : Prop := v.ShowsRows t.above t.row

section
variable {v : Vga} {above : List (List Glyph)} {row : List Glyph}

/-- The character is widened with its sign, and the mask takes the sign away again. -/
theorem cell_low (ch : Char8) (attr : CInt) : (cell ch attr).setWidth 8 = ch := by
  have hmask : ∀ i < 8, (255#32).getLsbD i = true := by decide
  refine BitVec.eq_of_getLsbD_eq fun i hi => ?_
  have h16 : i < 16 := by omega
  have h32 : i < 32 := by omega
  unfold cell
  simp only [BitVec.getLsbD_setWidth, BitVec.getLsbD_or, BitVec.getLsbD_and,
    BitVec.getLsbD_shiftLeft, BitVec.getLsbD_signExtend, BitVec.natCast_eq_ofNat, hmask i hi, hi,
    h16, h32, if_true, decide_true, Bool.true_and, Bool.and_true, Bool.not_true, Bool.false_and,
    Bool.or_false]

theorem cell_high (ch : Char8) (attr : CInt) :
    ((cell ch attr) >>> 8).setWidth 8 = attr.setWidth 8 := by
  have hmask : ∀ i < 8, (255#32).getLsbD i = true := by decide
  have hclear : ∀ i < 8, (255#32).getLsbD (8 + i) = false := by decide
  refine BitVec.eq_of_getLsbD_eq fun i hi => ?_
  have h8 : ¬ 8 + i < 8 := by omega
  have h16 : 8 + i < 16 := by omega
  have h32 : 8 + i < 32 := by omega
  unfold cell
  simp only [BitVec.getLsbD_setWidth, BitVec.getLsbD_ushiftRight, BitVec.getLsbD_or,
    BitVec.getLsbD_and, BitVec.getLsbD_shiftLeft, BitVec.natCast_eq_ofNat, hclear i hi,
    Nat.add_sub_cancel_left, BitVec.ofNat_eq_ofNat, hmask i hi, hi, h8, h16, h32, decide_true,
    decide_false, Bool.true_and, Bool.and_true, Bool.not_false, Bool.and_false, Bool.false_or]

theorem decode_cell (ch : Char8) (attr : CInt) :
    decode (cell ch (effectiveAttr attr)) = ⟨ch, colors attr⟩ := by
  have hattr : (effectiveAttr attr).setWidth 8 = colors attr := by
    unfold effectiveAttr colors defaultAttribute
    split <;> rfl
  unfold decode
  rw [cell_low, cell_high, hattr]

theorem ShowsRows.y_eq (h : v.ShowsRows above row) :
    v.y = min (above.length : Int) 24 := by
  have hy := h.y
  rw [lastRows_length, List.length_append, List.length_singleton] at hy
  omega

theorem ShowsRows.cells_eq (h : v.ShowsRows above row) {x y : Nat} (hx : x < 80) (hy : y < 25) :
    decode (v.fb (x + y * 80)) = cellOf (above ++ [row]) blank x (above.length + 1 - 25 + y) := by
  have hlen : (above ++ [row]).length = above.length + 1 := by simp
  rw [h.cells x hx y hy, cellOf_lastRows, hlen]

theorem showsRows_of_cells (hw : v.w = 80) (hh : v.h = 25)
    (hx : v.x = row.length) (hy : v.y = min (above.length : Int) 24)
    (hcells : ∀ x < 80, ∀ y < 25, decode (v.fb ((x : Nat) + (y : Nat) * 80)) =
      cellOf (above ++ [row]) blank x (above.length + 1 - 25 + y)) : v.ShowsRows above row := by
  have hlen : (above ++ [row]).length = above.length + 1 := by simp
  refine ⟨hw, hh, hx, ?_, fun x hx' y hy' => ?_⟩
  · rw [lastRows_length, hlen]
    omega
  · rw [cellOf_lastRows, hlen]
    exact hcells x hx' y hy'

theorem scrollUp_one (v : Vga) {x y : Nat} (hx : x < 80) (hy : y < 25) :
    (v.scrollUp 1).fb (x + y * 80) = if y < 24 then v.fb (x + (y + 1 : Nat) * 80) else 0 := by
  have hcount : counter (((vgaHeight - 1) * vgaWidth).tdiv 2) = 960 := rfl
  have hlast : counter ((1 * vgaWidth).tdiv 2) = 40 := rfl
  unfold scrollUp
  dsimp only
  rw [VideoMemory.stosl_apply, hcount, hlast, VideoMemory.movsl_apply _ (by decide)]
  unfold vgaWidth vgaHeight
  by_cases hlt : y < 24
  · have hoff : (x : Int) + y * 80 + (1 * 80 - 0) = x + (y + 1 : Nat) * 80 := by omega
    rw [if_neg (by omega), if_pos (by omega), if_pos hlt, hoff]
  · rw [if_pos (by omega), if_neg hlt]

theorem ShowsRows.newLine (h : v.ShowsRows above row) :
    v.newLine.ShowsRows (above ++ [row]) [] := by
  have hy := h.y_eq
  have hh := h.h
  have hlen : (above ++ [row]).length = above.length + 1 := by simp
  unfold Vga.newLine carriageReturn lineFeed
  dsimp only
  by_cases hge : v.y + 1 ≥ v.h
  -- the last line of the screen: everything moves up
  · have hone : v.y + 1 - v.h + 1 = 1 := by omega
    rw [if_pos hge, hone]
    refine showsRows_of_cells h.w h.h rfl ?_ fun x hx y hy' => ?_
    · dsimp only
      rw [hlen]
      omega
    · have hscroll := scrollUp_one { v with x := 0, y := v.y + 1 } hx hy'
      rw [cellOf_concat_nil, hlen]
      refine (congrArg decode hscroll).trans ?_
      by_cases hlt : y < 24
      · have hrow : above.length + 1 - 25 + (y + 1) = above.length + 1 + 1 - 25 + y := by omega
        rw [if_pos hlt, ← hrow]
        exact h.cells_eq hx (by omega)
      · rw [if_neg hlt, cellOf_of_length_le (by omega)]
        rfl
  -- a line further down is free
  · rw [if_neg hge]
    refine showsRows_of_cells h.w h.h rfl ?_ fun x hx y hy' => ?_
    · dsimp only
      rw [hlen]
      omega
    · have hrow : above.length + 1 - 25 + y = above.length + 1 + 1 - 25 + y := by omega
      rw [cellOf_concat_nil, hlen, ← hrow]
      exact h.cells_eq hx hy'

/-- A cell is written at the cursor, which moves on by one, perhaps past the end of the row. -/
theorem ShowsRows.putchAt (h : v.ShowsRows above row) (hroom : row.length < 80) (ch : Char8)
    (attr : CInt) :
    (v.putchAt ch v.x v.y attr).2 = ch.signExtend 32 ∧
      ShowsRows { (v.putchAt ch v.x v.y attr).1 with x := v.x + 1 } above
        (row ++ [⟨ch, colors attr⟩]) := by
  have hx := h.x
  have hy := h.y_eq
  have heq : v.putchAt ch v.x v.y attr = ({ v with
      fb := Function.update v.fb (v.x + v.y * vgaWidth) (cell ch (effectiveAttr attr)) },
      ch.signExtend 32) := by
    unfold Vga.putchAt vgaWidth vgaHeight
    dsimp only
    rw [if_neg (by omega), if_neg (by omega), if_neg (by omega), if_neg (by omega)]
  rw [heq]
  refine ⟨rfl, showsRows_of_cells h.w h.h ?_ hy fun x hx' y hy' => ?_⟩
  · dsimp only
    rw [hx, List.length_append, List.length_singleton]
    rfl
  · dsimp only
    rw [cellOf_concat]
    by_cases hplace : above.length + 1 - 25 + y = above.length ∧ x = row.length
    · have hindex : (x : Int) + y * 80 = v.x + v.y * vgaWidth := by
        unfold vgaWidth
        omega
      rw [if_pos hplace, hindex, Function.update_self, decode_cell]
    · have hindex : (x : Int) + y * 80 ≠ v.x + v.y * vgaWidth := by
        unfold vgaWidth
        omega
      rw [if_neg hplace, Function.update_of_ne hindex]
      exact h.cells_eq hx' hy'

end

section
variable {v : Vga} {t : Transcript Glyph 80}

theorem Shows.updateCursor (h : v.Shows t) (update : Bool) :
    (if update then v.updateCursor else v).Shows t := by
  cases update with
  | false => exact h
  | true => exact ⟨h.w, h.h, h.x, h.y, h.cells⟩

theorem Shows.newLine (h : v.Shows t) : v.newLine.Shows t.newLine := ShowsRows.newLine h

theorem Shows.put (h : v.Shows t) (ch : Char8) (attr : CInt) :
    (v.putchAt ch v.x v.y attr).2 = ch.signExtend 32 ∧
      (v.putchAt ch v.x v.y attr).1.advanceCursor.Shows
        (t.put (⟨ch, colors attr⟩ : Glyph)) := by
  obtain ⟨hret, hwritten⟩ := ShowsRows.putchAt h t.room ch attr
  refine ⟨hret, ?_⟩
  have hx := hwritten.x
  have hw := hwritten.w
  have hsame : (v.putchAt ch v.x v.y attr).1.x = v.x := by
    unfold Vga.putchAt
    dsimp only
    split_ifs <;> rfl
  dsimp only at hx hw
  unfold Vga.advanceCursor Transcript.put
  dsimp only
  rw [hsame]
  by_cases hroom : (t.row ++ [(⟨ch, colors attr⟩ : Glyph)]).length < 80
  · rw [dif_pos hroom, if_neg (by omega)]
    exact hwritten
  · rw [dif_neg hroom, if_pos (by omega)]
    exact hwritten.newLine

theorem Shows.putch (h : v.Shows t) (ch : Char8) (update : Bool) (attr : CInt) :
    (v.putch ch update attr).2 = ch.signExtend 32 ∧
      (v.putch ch update attr).1.Shows (typed attr t ch) := by
  unfold Vga.putch typed newlineChar
  by_cases hnl : ch = 10
  · rw [if_pos hnl, if_pos hnl, hnl]
    exact ⟨rfl, h.newLine.updateCursor update⟩
  · rw [if_neg hnl, if_neg hnl]
    obtain ⟨hret, hput⟩ := h.put ch attr
    exact ⟨hret, hput.updateCursor update⟩

theorem Shows.putsLoop (h : v.Shows t) (attr : CInt) (s : List Char8) :
    (v.putsLoop attr s).Shows (typedAll t s attr) := by
  induction s generalizing v t with
  | nil => exact h
  | cons c s ih =>
    unfold Vga.putsLoop
    by_cases hc : c ≠ 0
    · have hstep := ih (h.putch c false attr).2
      unfold typedAll at hstep ⊢
      rw [if_pos hc, List.takeWhile_cons_of_pos (by simpa using hc)]
      exact hstep
    · unfold typedAll
      rw [if_neg hc, List.takeWhile_cons_of_neg (by simpa using hc)]
      exact h

theorem Shows.puts (h : v.Shows t) (s : List Char8) (newline : Bool) (attr : CInt)
    (update : Bool) : (v.puts s newline attr update).1.Shows
      (if newline then (typedAll t s attr).newLine else typedAll t s attr) := by
  have hloop := h.putsLoop attr s
  unfold Vga.puts
  cases newline with
  | false => exact hloop.updateCursor update
  | true => exact hloop.newLine.updateCursor update

theorem Shows.call (h : v.Shows t) (c : Call) : (v.call c).Shows (transcribe t c) := by
  cases c with
  | putch ch update attr => exact (h.putch ch update attr).2
  | puts s newline attr update => exact h.puts s newline attr update
  | write ch batch =>
    cases batch with
    | false => exact (h.putch ch true defaultAttribute).2
    | true => exact (h.putch ch false defaultAttribute).2
  | writeString s batch =>
    cases batch with
    | false => exact h.puts s false defaultAttribute true
    | true => exact h.puts s false defaultAttribute false

theorem Shows.calls (h : v.Shows t) (calls : List Call) :
    (calls.foldl Vga.call v).Shows (calls.foldl transcribe t) := by
  induction calls generalizing v t with
  | nil => exact h
  | cons c calls ih => exact ih (h.call c)

theorem Shows.cursor (h : v.Shows t) : 0 ≤ v.x ∧ v.x < v.w ∧ 0 ≤ v.y ∧ v.y < v.h := by
  have hx := h.x
  have hy := h.y_eq
  have hroom := t.room
  rw [h.w, h.h, hx, hy]
  omega

end

/-- The screen after `Clear`, with the cursor at the top left. -/
def cleared (fb : VideoMemory) (basePort : BitVec 16) (ports : List (BitVec 16 × BitVec 8)) : Vga :=
  Vga.clear ⟨fb, basePort, 0, 0, vgaWidth, vgaHeight, ports⟩

theorem shows_cleared (fb : VideoMemory) (basePort : BitVec 16)
    (ports : List (BitVec 16 × BitVec 8)) :
    (cleared fb basePort ports).Shows (Transcript.empty (by decide)) := by
  have hcount : counter ((vgaWidth * vgaHeight).tdiv 2) = 1000 := rfl
  refine showsRows_of_cells rfl rfl rfl rfl fun x hx y hy => ?_
  unfold cleared Vga.clear
  dsimp only
  rw [VideoMemory.stosl_apply, hcount, if_pos (by omega)]
  cases y with
  | zero => rfl
  | succ y =>
    rw [cellOf_of_length_le (by show 1 ≤ _; omega)]
    rfl

/-- From a cleared screen on, whatever is written: the cursor stays on the screen, and the
screen shows the end of the transcript. -/
theorem shows_transcript (fb : VideoMemory) (basePort : BitVec 16)
    (ports : List (BitVec 16 × BitVec 8)) (calls : List Call) :
    let v := calls.foldl Vga.call (cleared fb basePort ports)
    let t := calls.foldl transcribe (Transcript.empty (by decide))
    (0 ≤ v.x ∧ v.x < v.w ∧ 0 ≤ v.y ∧ v.y < v.h) ∧ v.Shows t := by
  have hshows := (shows_cleared fb basePort ports).calls calls
  exact ⟨hshows.cursor, hshows⟩

end Vga
end Tysos
