import Tysos.Format.NumToStr
import Tysos.Stdclib.Strings

/-!
# Formatted output

`Formatter::vfPrintf`. The format, the arguments and the strings they point to lie in memory,
which the stream does not write to. `va_arg` steps over as many bytes as the type has: four for
a number or a pointer, one for a character.
-/

namespace Tysos
set_option autoImplicit false

open ByteMemory CString

namespace Formatter

/-- What `vfPrintf` is called with: the memory, where the format is, where the arguments are and
what the stack holds where `NumToStr` puts its array. -/
structure Call where
  memory : Memory
  format : Address
  ap : Address
  stack : Nat → Text (BitVec 8)

/-- `p` counts from the format and `nextVal` from the arguments. The places looked at in the
format and those arguments were taken from are noted, the last one first. -/
structure Printing (σ : Type) where
  s : σ
  p : Nat
  nextVal : Nat
  i : BitVec 32
  looks : List Nat
  taken : List Nat

namespace Call

/-- `*p`. -/
def char (e : Call) (p : Nat) : BitVec 8 := textAt e.memory e.format p

/-- The number or pointer at a place among the arguments. -/
def word (e : Call) (a : Nat) : BitVec 32 := read32 e.memory (e.ap + BitVec.ofNat 32 a)

/-- The character at a place among the arguments. -/
def argChar (e : Call) (a : Nat) : BitVec 8 := e.memory (e.ap + BitVec.ofNat 32 a)

/-- What a pointer among the arguments points to. -/
def string (e : Call) (a : Nat) : Text (BitVec 8) := textAt e.memory (e.word a)

end Call

section Source
variable {σ : Type} (S : IStream σ) (e : Call) (fuel : Nat)

namespace Printing

/-- `s->Write(ch, true)` and `i++`. -/
def put (st : Printing σ) (ch : BitVec 8) : Printing σ :=
  { st with s := S.write st.s ch, i := st.i + 1 }

/-- `va_arg(ap, t)` for a type of `size` bytes. -/
def take (st : Printing σ) (size : Nat) : Printing σ :=
  { st with nextVal := st.nextVal + size, taken := st.nextVal :: st.taken }

def look (st : Printing σ) : Printing σ := { st with looks := st.p :: st.looks }

/-- `p++`. -/
def advance (st : Printing σ) : Printing σ := { st with p := st.p + 1 }

/-- The `switch` after a backslash. -/
def escape (st : Printing σ) : Printing σ :=
  let c := e.char st.p
  let st := st.look
  if c = 0x5c then st.put S 0x5c
  else if c = ascii 'n' then st.put S 0x0a
  else if c = 0x27 then st.put S 0x27
  else if c = 0x22 then st.put S 0x22
  else if c = ascii 't' then st.put S 0x09
  else st

/-- The `switch` after a percent sign. -/
def conversion (st : Printing σ) : Option (Printing σ) :=
  let c := e.char st.p
  let st := st.look
  if c = ascii 'x' then
    let s := S.write (S.write st.s (ascii '0')) (ascii 'x')
    (numToStr S (e.stack st.p) fuel s (e.word st.nextVal) 16).map fun s =>
      { st.take 4 with s := s, i := st.i + 10 }
  else if c = ascii 'u' then
    (numToStr S (e.stack st.p) fuel st.s (e.word st.nextVal) 10).map fun s =>
      { st.take 4 with s := s, i := st.i + 12 }
  else if c = ascii 's' then
    (S.writeString fuel st.s (e.string st.nextVal)).map fun s => { st.take 4 with s := s }
  else if c = ascii 'c' then some ((st.take 1).put S (e.argChar st.nextVal))
  else some st

/-- One round of the loop, the condition having been looked at. -/
def round (st : Printing σ) : Option (Printing σ) :=
  if e.char st.p = 0x5c then some (st.advance.escape S e).advance
  else if e.char st.p = ascii '%' then (st.advance.conversion S e fuel).map advance
  else some (st.put S (e.char st.p)).advance

def loop : Nat → Printing σ → Option (Printing σ)
  | 0, _ => none
  | n + 1, st =>
    let st := st.look
    if e.char st.p = 0 then some st else (st.round S e fuel).bind (loop n)

end Printing

def vfPrintf (s : σ) : Option (Printing σ) :=
  (Printing.loop S e fuel fuel ⟨s, 0, 0, 0, [], []⟩).map fun st => { st with s := S.endBatch st.s }

end Source

/-- What a round deals with: a character, a backslash with one or a percent sign with one. -/
inductive Piece
  | literal (c : BitVec 8)
  | escape (c : BitVec 8)
  | conversion (c : BitVec 8)
  deriving DecidableEq

namespace Piece

def size : Piece → Nat
  | literal _ => 1
  | escape _ => 2
  | conversion _ => 2

theorem size_pos (pc : Piece) : 0 < pc.size := by
  cases pc <;> exact Nat.succ_pos _

/-- The character an escape stands for. -/
def escaped (c : BitVec 8) : Option (BitVec 8) :=
  if c = 0x5c then some 0x5c
  else if c = ascii 'n' then some 0x0a
  else if c = 0x27 then some 0x27
  else if c = 0x22 then some 0x22
  else if c = ascii 't' then some 0x09
  else none

/-- How far `va_arg` goes. -/
def width : Piece → Nat
  | conversion c =>
    if c = ascii 'x' ∨ c = ascii 'u' ∨ c = ascii 's' then 4 else if c = ascii 'c' then 1 else 0
  | _ => 0

/-- A conversion that takes an argument. -/
def Takes (pc : Piece) : Prop := pc.width ≠ 0

instance (pc : Piece) : Decidable pc.Takes := inferInstanceAs (Decidable (_ ≠ _))

/-- What is added to `i`. -/
def counted : Piece → Nat
  | literal _ => 1
  | escape c => if (escaped c).isSome then 1 else 0
  | conversion c =>
    if c = ascii 'x' then 10 else if c = ascii 'u' then 12 else if c = ascii 'c' then 1 else 0

/-- The places looked at behind the first character. -/
def looks (pc : Piece) (p : Nat) : List Nat := if pc.size = 2 then [p + 1] else []

/-- The places among the arguments something is taken from. -/
def taken (pc : Piece) (a : Nat) : List Nat := if pc.Takes then [a] else []

section Send
variable {σ : Type} (S : IStream σ) (e : Call) (fuel : Nat)

/-- What the stream is sent for the piece at `p`, with the arguments from `a` on. -/
def send (p a : Nat) (s : σ) : Piece → Option σ
  | literal c => some (S.write s c)
  | escape c => some ((escaped c).elim s (S.write s))
  | conversion c =>
    if c = ascii 'x' then
      numToStr S (e.stack (p + 1)) fuel (S.write (S.write s (ascii '0')) (ascii 'x')) (e.word a) 16
    else if c = ascii 'u' then numToStr S (e.stack (p + 1)) fuel s (e.word a) 10
    else if c = ascii 's' then S.writeString fuel s (e.string a)
    else if c = ascii 'c' then some (S.write s (e.argChar a))
    else some s

theorem send_hex (p a : Nat) (s : σ) : (conversion (ascii 'x')).send S e fuel p a s =
    numToStr S (e.stack (p + 1)) fuel (S.write (S.write s (ascii '0')) (ascii 'x')) (e.word a) 16 :=
  rfl

theorem send_unsigned (p a : Nat) (s : σ) : (conversion (ascii 'u')).send S e fuel p a s =
    numToStr S (e.stack (p + 1)) fuel s (e.word a) 10 := rfl

theorem send_string (p a : Nat) (s : σ) : (conversion (ascii 's')).send S e fuel p a s =
    S.writeString fuel s (e.string a) := rfl

theorem send_char (p a : Nat) (s : σ) : (conversion (ascii 'c')).send S e fuel p a s =
    some (S.write s (e.argChar a)) := rfl

theorem send_unknown {c : BitVec 8} (hx : c ≠ ascii 'x') (hu : c ≠ ascii 'u')
    (hs : c ≠ ascii 's') (hc : c ≠ ascii 'c') (p a : Nat) (s : σ) :
    (conversion c).send S e fuel p a s = some s := by
  unfold send
  dsimp only
  rw [if_neg hx, if_neg hu, if_neg hs, if_neg hc]

/-- The state after the piece. -/
def after (pc : Piece) (st : Printing σ) (s : σ) : Printing σ where
  s := s
  p := st.p + pc.size
  nextVal := st.nextVal + pc.width
  i := st.i + BitVec.ofNat 32 pc.counted
  looks := pc.looks st.p ++ st.looks
  taken := pc.taken st.nextVal ++ st.taken

end Send

end Piece

/-- The piece at a place of the format. -/
def Call.piece (e : Call) (p : Nat) : Piece :=
  if e.char p = 0x5c then .escape (e.char (p + 1))
  else if e.char p = ascii '%' then .conversion (e.char (p + 1))
  else .literal (e.char p)

section Round
variable {σ : Type} (S : IStream σ) (e : Call) (fuel : Nat) (st : Printing σ)

theorem escape_eq :
    st.escape S e = ((Piece.escaped (e.char st.p)).elim st.look fun c => st.look.put S c) := by
  unfold Printing.escape Piece.escaped
  dsimp only
  split_ifs <;> rfl

theorem advance_escape :
    (st.advance.escape S e).advance = (Piece.escape (e.char (st.p + 1))).after st
      ((Piece.escaped (e.char (st.p + 1))).elim st.s (S.write st.s)) := by
  rw [escape_eq]
  unfold Piece.after
  cases hc : Piece.escaped (e.char (st.p + 1)) with
  | none =>
    simp [Printing.advance, Printing.look, Piece.size, Piece.width, Piece.looks, Piece.taken,
      Piece.Takes, Piece.counted, hc]
  | some c =>
    simp [Printing.advance, Printing.look, Printing.put, Piece.size, Piece.width, Piece.looks,
      Piece.taken, Piece.Takes, Piece.counted, hc]

theorem advance_conversion (he : e.piece st.p = .conversion (e.char (st.p + 1))) :
    (st.advance.conversion S e fuel).map Printing.advance =
      ((e.piece st.p).send S e fuel st.p st.nextVal st.s).map ((e.piece st.p).after st) := by
  rw [he]
  unfold Printing.conversion Piece.send Piece.after Piece.width Piece.counted
  dsimp only [Printing.advance]
  split_ifs <;> simp_all [Option.map_map, Function.comp_def, Printing.advance, Printing.look,
    Printing.put, Printing.take, Piece.size, Piece.looks, Piece.taken, Piece.Takes, Piece.width,
    ascii]

theorem round_eq : st.round S e fuel =
    ((e.piece st.p).send S e fuel st.p st.nextVal st.s).map ((e.piece st.p).after st) := by
  unfold Printing.round
  by_cases hslash : e.char st.p = 0x5c
  · have hpiece : e.piece st.p = .escape (e.char (st.p + 1)) := if_pos hslash
    rw [if_pos hslash, advance_escape, hpiece]
    rfl
  · by_cases hpercent : e.char st.p = ascii '%'
    · have hpiece : e.piece st.p = .conversion (e.char (st.p + 1)) :=
        (if_neg hslash).trans (if_pos hpercent)
      rw [if_neg hslash, if_pos hpercent, advance_conversion S e fuel st hpiece]
    · have hpiece : e.piece st.p = .literal (e.char st.p) :=
        (if_neg hslash).trans (if_neg hpercent)
      rw [if_neg hslash, if_neg hpercent, hpiece]
      rfl

end Round

/-- The pieces a run of the loop comes to from a place on, up to the zero at which it stops. -/
inductive Scans (e : Call) : Nat → List Piece → Prop
  | nul {p : Nat} : e.char p = 0 → Scans e p []
  | piece {p : Nat} {ps : List Piece} : e.char p ≠ 0 → Scans e (p + (e.piece p).size) ps →
      Scans e p (e.piece p :: ps)

theorem Scans.unique {e : Call} {p : Nat} {ps qs : List Piece} (h : Scans e p ps)
    (h' : Scans e p qs) : ps = qs := by
  induction h generalizing qs with
  | nul hnul =>
    cases h' with
    | nul => rfl
    | piece hne _ => exact absurd hnul hne
  | piece hne _ ih =>
    cases h' with
    | nul hnul => exact absurd hnul hne
    | piece _ hrest => rw [ih hrest]

/-- The pieces one after the other. -/
def play {σ : Type} (S : IStream σ) (e : Call) (fuel : Nat) :
    List Piece → Printing σ → Option (Printing σ)
  | [], st => some st.look
  | pc :: ps, st =>
    ((pc.send S e fuel st.p st.nextVal st.s).map (pc.after st.look)).bind (play S e fuel ps)

/-- How far the pieces reach in the format. -/
def extent (ps : List Piece) : Nat := (ps.map Piece.size).sum

def counts (ps : List Piece) : Nat := (ps.map Piece.counted).sum

theorem extent_cons (pc : Piece) (ps : List Piece) :
    extent (pc :: ps) = pc.size + extent ps := by
  unfold extent
  rw [List.map_cons, List.sum_cons]

theorem counts_cons (pc : Piece) (ps : List Piece) :
    counts (pc :: ps) = pc.counted + counts ps := by
  unfold counts
  rw [List.map_cons, List.sum_cons]

/-- Where the pieces take their arguments from, in order. -/
def takenFrom : Nat → List Piece → List Nat
  | _, [] => []
  | a, pc :: ps => pc.taken a ++ takenFrom (a + pc.width) ps

theorem takenFrom_cons (a : Nat) (pc : Piece) (ps : List Piece) :
    takenFrom a (pc :: ps) = pc.taken a ++ takenFrom (a + pc.width) ps := rfl

section Run
variable {σ : Type} {S : IStream σ} {e : Call} {fuel : Nat}

theorem loop_succ (n : Nat) (st : Printing σ) : Printing.loop S e fuel (n + 1) st =
    if e.char st.p = 0 then some st.look
    else (((e.piece st.p).send S e fuel st.p st.nextVal st.s).map
      ((e.piece st.p).after st.look)).bind (Printing.loop S e fuel n) := by
  have hstep : Printing.loop S e fuel (n + 1) st =
    if e.char st.look.p = 0 then some st.look
    else (st.look.round S e fuel).bind (Printing.loop S e fuel n) := rfl
  rw [hstep, round_eq]
  rfl

theorem loop_eq {n : Nat} {st : Printing σ} {ps : List Piece} (h : Scans e st.p ps)
    (hn : ps.length < n) : Printing.loop S e fuel n st = play S e fuel ps st := by
  induction n generalizing st ps with
  | zero => exact absurd hn (Nat.not_lt_zero _)
  | succ n ih =>
    rw [loop_succ]
    generalize hplace : st.p = p at h
    cases h with
    | nul hnul => exact if_pos hnul
    | piece hne hrest =>
      subst hplace
      rw [if_neg hne]
      unfold play
      cases hsend : (e.piece st.p).send S e fuel st.p st.nextVal st.s with
      | none => rfl
      | some s => exact ih hrest (Nat.lt_of_succ_lt_succ hn)

/-- A run that stops has come to the end of some pieces. -/
theorem scans_of_loop {n : Nat} {st st' : Printing σ}
    (h : Printing.loop S e fuel n st = some st') : ∃ ps, Scans e st.p ps ∧ ps.length < n := by
  induction n generalizing st with
  | zero => exact absurd h.symm (Option.some_ne_none st')
  | succ n ih =>
    rw [loop_succ] at h
    by_cases hnul : e.char st.p = 0
    · exact ⟨[], .nul hnul, Nat.succ_pos n⟩
    · rw [if_neg hnul] at h
      obtain ⟨mid, hmid, hrest⟩ := Option.bind_eq_some_iff.mp h
      obtain ⟨s, -, rfl⟩ := Option.map_eq_some_iff.mp hmid
      obtain ⟨ps, hps, hlen⟩ := ih hrest
      exact ⟨e.piece st.p :: ps, .piece hnul hps, Nat.succ_lt_succ hlen⟩

theorem play_cons {pc : Piece} {ps : List Piece} {st st' : Printing σ}
    (h : play S e fuel (pc :: ps) st = some st') :
    ∃ s, pc.send S e fuel st.p st.nextVal st.s = some s ∧
      play S e fuel ps (pc.after st.look s) = some st' := by
  obtain ⟨mid, hmid, hrest⟩ := Option.bind_eq_some_iff.mp h
  obtain ⟨s, hsend, rfl⟩ := Option.map_eq_some_iff.mp hmid
  exact ⟨s, hsend, hrest⟩

theorem play_counts {ps : List Piece} {st st' : Printing σ}
    (h : play S e fuel ps st = some st') : st'.i = st.i + BitVec.ofNat 32 (counts ps) := by
  induction ps generalizing st with
  | nil =>
    obtain rfl := Option.some.inj h
    exact (BitVec.add_zero _).symm
  | cons pc ps ih =>
    obtain ⟨s, -, hrest⟩ := play_cons h
    have hone : (pc.after st.look s).i = st.i + BitVec.ofNat 32 pc.counted := rfl
    rw [ih hrest, hone, counts_cons, BitVec.ofNat_add, BitVec.add_assoc]

theorem play_taken {ps : List Piece} {st st' : Printing σ}
    (h : play S e fuel ps st = some st') :
    st'.taken = (takenFrom st.nextVal ps).reverse ++ st.taken := by
  induction ps generalizing st with
  | nil =>
    obtain rfl := Option.some.inj h
    rfl
  | cons pc ps ih =>
    obtain ⟨s, -, hrest⟩ := play_cons h
    have hone : (pc.after st.look s).taken = pc.taken st.nextVal ++ st.taken := rfl
    have hsingle : (pc.taken st.nextVal).reverse = pc.taken st.nextVal := by
      unfold Piece.taken
      split <;> rfl
    rw [ih hrest, hone, takenFrom_cons, List.reverse_append, hsingle, List.append_assoc]
    rfl

/-- Where it has looked: at the place behind its pieces, and nowhere beyond. -/
theorem play_looks {ps : List Piece} {st st' : Printing σ}
    (h : play S e fuel ps st = some st') :
    ∃ ks, st'.looks = ks ++ st.looks ∧ st.p + extent ps ∈ ks ∧ ∀ k ∈ ks, k ≤ st.p + extent ps := by
  induction ps generalizing st with
  | nil =>
    obtain rfl := Option.some.inj h
    refine ⟨[st.p], rfl, List.mem_singleton_self _, fun k hk => ?_⟩
    rw [List.mem_singleton.mp hk]
    exact Nat.le_refl _
  | cons pc ps ih =>
    obtain ⟨s, -, hrest⟩ := play_cons h
    obtain ⟨ks, hks, hend, hle⟩ := ih hrest
    have hplace : (pc.after st.look s).p + extent ps = st.p + extent (pc :: ps) := by
      rw [extent_cons, ← Nat.add_assoc]
      rfl
    have hone : (pc.after st.look s).looks = pc.looks st.p ++ st.p :: st.looks := rfl
    rw [hplace] at hend hle
    refine ⟨ks ++ (pc.looks st.p ++ [st.p]), ?_, List.mem_append_left _ hend, fun k hk => ?_⟩
    · rw [hks, hone, List.append_assoc, List.append_assoc]
      rfl
    · cases List.mem_append.mp hk with
      | inl hk => exact hle k hk
      | inr hk =>
        have hpos := pc.size_pos
        have hnext : k ≤ st.p + 1 := by
          unfold Piece.looks at hk
          split at hk <;> simp at hk <;> omega
        rw [extent_cons]
        omega

end Run

end Formatter
end Tysos
