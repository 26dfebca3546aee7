import Mathlib.Logic.Function.Basic
import Mathlib.Data.List.Basic

/-!
# The text console

`Video` on a `Vga` screen. Video memory is a sequence of cells from `fb` on, each a character
with its attribute; a double word is two cells. Locks are left out, since calls run one at a
time, and so are the calls that give a position of their own.
-/

namespace Tysos
set_option autoImplicit false

abbrev Char8 := BitVec 8
abbrev ScreenCell := BitVec 16
abbrev CInt := BitVec 32

/-- Video memory by the index of a cell, which may lie outside the screen. -/
abbrev VideoMemory := Int → ScreenCell

namespace VideoMemory

/-- One `stosl`: a double word is set. -/
def store (m : VideoMemory) (dst : Int) (c : ScreenCell) : VideoMemory := fun i =>
  if i = dst ∨ i = dst + 1 then c else m i

/-- One `movsl`: a double word is copied. -/
def move (m : VideoMemory) (dst src : Int) : VideoMemory := fun i =>
  if i = dst then m src else if i = dst + 1 then m (src + 1) else m i

/-- `rep; stosl` of 0, with the direction flag clear. -/
def stosl : Nat → Int → VideoMemory → VideoMemory
  | 0, _, m => m
  | n + 1, dst, m => stosl n (dst + 2) (m.store dst 0)

/-- `rep; movsl`, with the direction flag clear. -/
def movsl : Nat → Int → Int → VideoMemory → VideoMemory
  | 0, _, _, m => m
  | n + 1, dst, src, m => movsl n (dst + 2) (src + 2) (m.move dst src)

theorem stosl_apply (n : Nat) (dst : Int) (m : VideoMemory) (i : Int) :
    stosl n dst m i = if dst ≤ i ∧ i < dst + 2 * n then 0 else m i := by
  induction n generalizing dst m with
  | zero =>
    rw [if_neg (by omega)]
    rfl
  | succ n ih =>
    unfold stosl store
    rw [ih]
    by_cases hin : dst ≤ i ∧ i < dst + 2 * ((n + 1 : Nat) : Int)
    · rw [if_pos hin]
      split
      · rfl
      · rw [if_pos (by omega)]
    · rw [if_neg hin, if_neg (by omega), if_neg (by omega)]

/-- Upwards the copy may overlap: what it has still to read is not written before. -/
theorem movsl_apply (n : Nat) {dst src : Int} (hle : dst ≤ src) (m : VideoMemory) (i : Int) :
    movsl n dst src m i = if dst ≤ i ∧ i < dst + 2 * n then m (i + (src - dst)) else m i := by
  induction n generalizing dst src m with
  | zero =>
    rw [if_neg (by omega)]
    rfl
  | succ n ih =>
    have hoff : src + 2 - (dst + 2) = src - dst := by omega
    unfold movsl
    rw [ih (by omega), hoff]
    unfold move
    by_cases hrest : dst + 2 ≤ i ∧ i < dst + 2 + 2 * (n : Int)
    · rw [if_pos hrest, if_neg (by omega), if_neg (by omega), if_pos (by omega)]
    rw [if_neg hrest]
    by_cases hfirst : i = dst
    · have hsum : dst + (src - dst) = src := by omega
      rw [if_pos hfirst, if_pos (by omega), hfirst, hsum]
    by_cases hsecond : i = dst + 1
    · have hsum : dst + 1 + (src - dst) = src + 1 := by omega
      rw [if_neg hfirst, if_pos hsecond, if_pos (by omega), hsecond, hsum]
    · rw [if_neg hfirst, if_neg hsecond, if_neg (by omega)]

end VideoMemory

/-- The fields of `Video` and of `Vga`, and what has been written to ports, the last first. -/
structure Vga where
  fb : VideoMemory
  basePort : BitVec 16
  x : Int
  y : Int
  w : Int
  h : Int
  ports : List (BitVec 16 × BitVec 8)

namespace Vga

def vgaWidth : Int := 80
def vgaHeight : Int := 25
def vgaDefattr : CInt := 7
def defaultAttribute : CInt := -1

def newlineChar : Char8 := 10

/-- A count that goes to the counter of a string instruction. -/
def counter (n : Int) : Nat := (BitVec.ofInt 32 n).toNat

/-- `(ch & 0xff) | ((attr & 0xff) << 8)`, in an unsigned short. -/
def cell (ch : Char8) (attr : CInt) : ScreenCell :=
  ((ch.signExtend 32 &&& 0xff) ||| ((attr &&& 0xff) <<< 8)).setWidth 16

/-- The attribute used for `attr`. -/
def effectiveAttr (attr : CInt) : CInt := if attr = defaultAttribute then vgaDefattr else attr

def out (v : Vga) (port : BitVec 16) (val : BitVec 8) : Vga :=
  { v with ports := (port, val) :: v.ports }

def clear (v : Vga) : Vga :=
  { v with fb := VideoMemory.stosl (counter ((vgaWidth * vgaHeight).tdiv 2)) 0 v.fb }

/-- `_Putch(ch, xpos, ypos, attr)`. -/
def putchAt (v : Vga) (ch : Char8) (xpos ypos : Int) (attr : CInt) : Vga × CInt :=
  let attr := effectiveAttr attr
  if xpos < 0 then (v, -1)
  else if ypos < 0 then (v, -1)
  else if xpos ≥ vgaWidth then (v, -1)
  else if ypos ≥ vgaHeight then (v, -1)
  else
    ({ v with fb := Function.update v.fb (xpos + ypos * vgaWidth) (cell ch attr) },
      ch.signExtend 32)

/-- `_Scroll` for `lines > 0`. -/
def scrollUp (v : Vga) (lines : Int) : Vga :=
  let fb := VideoMemory.movsl (counter (((vgaHeight - lines) * vgaWidth).tdiv 2)) 0
    (lines * vgaWidth) v.fb
  { v with fb :=
      VideoMemory.stosl (counter ((lines * vgaWidth).tdiv 2)) ((vgaHeight - lines) * vgaWidth) fb }

def updateCursor (v : Vga) : Vga :=
  let position := BitVec.ofInt 16 (v.y * vgaWidth + v.x)
  (((v.out v.basePort 0x0f).out (v.basePort + 1) (position.setWidth 8)).out
    v.basePort 0x0e).out (v.basePort + 1) ((position >>> 8).setWidth 8)

def carriageReturn (v : Vga) : Vga := { v with x := 0 }

/-- `_Scroll` is called for `lines > 0` only. -/
def lineFeed (v : Vga) : Vga :=
  let v := { v with y := v.y + 1 }
  if v.y ≥ v.h then { v.scrollUp (v.y - v.h + 1) with y := v.h - 1 } else v

def newLine (v : Vga) : Vga := v.carriageReturn.lineFeed

def advanceCursor (v : Vga) : Vga :=
  let v := { v with x := v.x + 1 }
  if v.x ≥ v.w then v.newLine else v

/-- `_Putch(ch, update, attr)`. -/
def putch (v : Vga) (ch : Char8) (update : Bool) (attr : CInt) : Vga × CInt :=
  let (v, ret) :=
    if ch = newlineChar then (v.newLine, newlineChar.signExtend 32)
    else
      let (v, ret) := v.putchAt ch v.x v.y attr
      (v.advanceCursor, ret)
  (if update then v.updateCursor else v, ret)

/-- The loop of `_Puts` over the characters of memory from `s` on, up to the first 0. -/
def putsLoop (v : Vga) (attr : CInt) : List Char8 → Vga
  | [] => v
  | c :: s => if c ≠ 0 then putsLoop (v.putch c false attr).1 attr s else v

def puts (v : Vga) (s : List Char8) (newline : Bool) (attr : CInt) (update : Bool) :
    Vga × CInt :=
  let v := v.putsLoop attr s
  let v := if newline then v.newLine else v
  (if update then v.updateCursor else v, 1)

/-- `Write` of a character. -/
def write (v : Vga) (ch : Char8) (batch : Bool) : Vga :=
  if batch then (v.putch ch false defaultAttribute).1 else (v.putch ch true defaultAttribute).1

/-- `Write` of a string. -/
def writeString (v : Vga) (s : List Char8) (batch : Bool) : Vga :=
  if batch then (v.puts s false defaultAttribute false).1
  else (v.puts s false defaultAttribute true).1

/-- `_Scroll`. -/
def scroll (v : Vga) (lines : Int) : Vga :=
  if lines = 0 then v
  else if lines > 0 then v.scrollUp lines
  else (v.puts ("Scrolling lines down not yet implemented".toList.map fun c =>
    BitVec.ofNat 8 c.toNat) true defaultAttribute true).1

/-- With `_Scroll` as it is, `_LineFeed` is as it is in the source. -/
theorem lineFeed_eq (v : Vga) : v.lineFeed =
    if v.y + 1 ≥ v.h then
      { ({ v with y := v.y + 1 } : Vga).scroll (v.y + 1 - v.h + 1) with y := v.h - 1 }
    else { v with y := v.y + 1 } := by
  unfold lineFeed
  dsimp only
  by_cases hge : v.y + 1 ≥ v.h
  · rw [if_pos hge, if_pos hge]
    unfold scroll
    rw [if_neg (by omega), if_pos (by omega)]
  · rw [if_neg hge, if_neg hge]

/-- The calls that write at the cursor. -/
inductive Call where
  | putch (ch : Char8) (update : Bool) (attr : CInt)
  | puts (s : List Char8) (newline : Bool) (attr : CInt) (update : Bool)
  | write (ch : Char8) (batch : Bool)
  | writeString (s : List Char8) (batch : Bool)

def call (v : Vga) : Call → Vga
  | .putch ch update attr => (v.putch ch update attr).1
  | .puts s newline attr update => (v.puts s newline attr update).1
  | .write ch batch => v.write ch batch
  | .writeString s batch => v.writeString s batch

end Vga
end Tysos
