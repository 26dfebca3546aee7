import Tysos.Support.CString
import Mathlib.Logic.Function.Basic
import Mathlib.Data.BitVec

/-!
# A string that can be filled from its end

`ReversibleString<max>`, a stream into an array of `max` characters. With `Forwards` set the
characters are appended; without it each goes before the last one. A string that is written is
read where it lies, outside the object.
-/

namespace Tysos
set_option autoImplicit false

open CString

/-- `str` is what is seen from `&str[0]` on, the array being its first `max` characters, and
`stored` has the indices that were assigned to, the last one first. -/
structure ReversibleString (max : Nat) where
  forwards : Bool
  str : Text (BitVec 8)
  pos : BitVec 32
  stored : List Nat

namespace ReversibleString
variable {max : Nat}

/-- `str[i] = ch`. -/
def set (o : ReversibleString max) (i : BitVec 32) (ch : BitVec 8) : ReversibleString max :=
  { o with str := Function.update o.str i.toNat ch, stored := i.toNat :: o.stored }

/-- `pos = p`. -/
def seek (o : ReversibleString max) (p : BitVec 32) : ReversibleString max := { o with pos := p }

/-- The constructor, with what the array holds before. -/
def init (max : Nat) (str : Text (BitVec 8)) : ReversibleString max :=
  set { forwards := true, str := str, pos := 0, stored := [] } (BitVec.ofNat 32 max) 0

/-- `Write(char ch, bool batch)`. -/
def write (o : ReversibleString max) (ch : BitVec 8) (batch : Bool) : ReversibleString max :=
  if o.forwards then
    if o.pos ≥ BitVec.ofNat 32 max - 1 then o
    else
      let o := o.set o.pos ch
      let o := o.seek (o.pos + 1)
      if batch = false then o.set o.pos 0 else o
  else
    let o := if o.pos ≥ BitVec.ofNat 32 max - 1 then o.seek (BitVec.ofNat 32 max - 2) else o
    let o := if o.pos = 0 then o.seek (BitVec.ofNat 32 max - 2) else o
    let o := o.set o.pos ch
    o.seek (o.pos - 1)

/-- `Write(const char *s, bool batch)`: the loop does not advance `s`. -/
def writeString : Nat → ReversibleString max → Text (BitVec 8) → Option (ReversibleString max)
  | 0, _, _ => none
  | fuel + 1, o, s => if s 0 ≠ 0 then writeString fuel (o.write (s 0) false) s else some o

def endBatch (o : ReversibleString max) : ReversibleString max :=
  if o.forwards then o.set o.pos 0 else o

/-- `GetString`, with what is seen from the pointer it returns. -/
def getString (o : ReversibleString max) : ReversibleString max × Text (BitVec 8) :=
  if o.forwards then
    let o := o.endBatch
    (o, o.str)
  else
    let o := o.set (BitVec.ofNat 32 max - 1) 0
    (o, o.str.drop (o.pos + 1).toNat)

/-- The characters written one by one. -/
def writeAll (o : ReversibleString max) (cs : List (BitVec 8)) (batch : Bool) :
    ReversibleString max :=
  cs.foldl (fun o ch => o.write ch batch) o

/-- The characters held in `Forwards` mode. -/
def held (o : ReversibleString max) : List (BitVec 8) := (List.range o.pos.toNat).map o.str

@[simp] theorem set_forwards (o : ReversibleString max) (i : BitVec 32) (ch : BitVec 8) :
    (o.set i ch).forwards = o.forwards := rfl

@[simp] theorem set_pos (o : ReversibleString max) (i : BitVec 32) (ch : BitVec 8) :
    (o.set i ch).pos = o.pos := rfl

@[simp] theorem set_stored (o : ReversibleString max) (i : BitVec 32) (ch : BitVec 8) :
    (o.set i ch).stored = i.toNat :: o.stored := rfl

@[simp] theorem set_str (o : ReversibleString max) (i : BitVec 32) (ch : BitVec 8) :
    (o.set i ch).str = Function.update o.str i.toNat ch := rfl

@[simp] theorem seek_forwards (o : ReversibleString max) (p : BitVec 32) :
    (o.seek p).forwards = o.forwards := rfl

@[simp] theorem seek_pos (o : ReversibleString max) (p : BitVec 32) : (o.seek p).pos = p := rfl

@[simp] theorem seek_str (o : ReversibleString max) (p : BitVec 32) : (o.seek p).str = o.str := rfl

/-- What has been assigned to since is in the array. -/
def StoredInside (o o' : ReversibleString max) : Prop :=
  ∃ is, o'.stored = is ++ o.stored ∧ ∀ i ∈ is, i < max

theorem StoredInside.refl (o : ReversibleString max) : StoredInside o o :=
  ⟨[], rfl, fun _ hi => absurd hi List.not_mem_nil⟩

theorem StoredInside.trans {o o' o'' : ReversibleString max} (h : StoredInside o o')
    (h' : StoredInside o' o'') : StoredInside o o'' := by
  obtain ⟨is, his, hlt⟩ := h
  obtain ⟨js, hjs, hlt'⟩ := h'
  refine ⟨js ++ is, by rw [hjs, his, List.append_assoc], fun i hi => ?_⟩
  cases List.mem_append.mp hi with
  | inl hi => exact hlt' i hi
  | inr hi => exact hlt i hi

theorem StoredInside.one {o o' : ReversibleString max} {i : Nat} (h : o'.stored = i :: o.stored)
    (hi : i < max) : StoredInside o o' :=
  ⟨[i], h, fun j hj => by rwa [List.mem_singleton.mp hj]⟩

/-- Filled from the end: `r` lies from behind `pos` up to the last but one character. -/
structure Holding (o : ReversibleString max) (r : List (BitVec 8)) : Prop where
  forwards : o.forwards = false
  room : o.pos.toNat + r.length + 2 = max
  chars : ∀ i (hi : i < r.length), o.str (o.pos.toNat + 1 + i) = r[i]

theorem Holding.endBatch {o : ReversibleString max} {r : List (BitVec 8)} (h : Holding o r) :
    o.endBatch = o := by
  unfold ReversibleString.endBatch
  rw [h.forwards, if_neg Bool.false_ne_true]

section Reverse
variable (hmax : max < 2 ^ 31)
include hmax

theorem Holding.write {o : ReversibleString max} {r : List (BitVec 8)} (h : Holding o r)
    (hpos : 0 < o.pos.toNat) (ch : BitVec 8) (batch : Bool) :
    Holding (o.write ch batch) (ch :: r) ∧ StoredInside o (o.write ch batch) := by
  have hroom := h.room
  have hend : ¬ o.pos ≥ BitVec.ofNat 32 max - 1 := by bv_omega
  have hne : ¬ o.pos = 0 := by bv_omega
  have hnext : (o.pos - 1).toNat = o.pos.toNat - 1 := by bv_omega
  have hwrite : o.write ch batch = (o.set o.pos ch).seek (o.pos - 1) := by
    unfold ReversibleString.write
    simp only [h.forwards, Bool.false_eq_true, if_false, hend, hne, set_pos]
  rw [hwrite]
  refine ⟨⟨h.forwards, ?_, fun i hi => ?_⟩, .one rfl (by omega)⟩
  · rw [seek_pos, hnext, List.length_cons]
    omega
  · rw [seek_pos, hnext, seek_str, set_str]
    cases i with
    | zero =>
      have hplace : o.pos.toNat - 1 + 1 + 0 = o.pos.toNat := by omega
      rw [hplace, Function.update_self, List.getElem_cons_zero]
    | succ i =>
      have hplace : o.pos.toNat - 1 + 1 + (i + 1) = o.pos.toNat + 1 + i := by omega
      rw [hplace, Function.update_of_ne (by omega), List.getElem_cons_succ]
      exact h.chars i (Nat.lt_of_succ_lt_succ hi)

theorem Holding.writeAll {o : ReversibleString max} {r : List (BitVec 8)} (h : Holding o r)
    (cs : List (BitVec 8)) (hlen : cs.length ≤ o.pos.toNat) (batch : Bool) :
    Holding (o.writeAll cs batch) (cs.reverse ++ r) ∧ StoredInside o (o.writeAll cs batch) := by
  induction cs generalizing o r with
  | nil => exact ⟨h, .refl o⟩
  | cons c cs ih =>
    rw [List.length_cons] at hlen
    obtain ⟨hone, hstored⟩ := h.write hmax (by omega) c batch
    have hroom := h.room
    have hroom' := hone.room
    rw [List.length_cons] at hroom'
    obtain ⟨hall, hrest⟩ := ih hone (by omega)
    rw [List.reverse_cons, List.append_assoc]
    exact ⟨hall, hstored.trans hrest⟩

/-- At position 0 the filling starts from the end, whatever was there. -/
theorem write_start {o : ReversibleString max} (hfwd : o.forwards = false) (hpos : o.pos = 0)
    (h3 : 3 ≤ max) :
    Holding (o.seek (BitVec.ofNat 32 max - 2)) [] ∧ ∀ ch batch,
      o.write ch batch = (o.seek (BitVec.ofNat 32 max - 2)).write ch batch := by
  have hlast : (BitVec.ofNat 32 max - 2).toNat = max - 2 := by bv_omega
  have hlow : ¬ (0 : BitVec 32) ≥ BitVec.ofNat 32 max - 1 := by bv_omega
  have hhigh : ¬ BitVec.ofNat 32 max - 2 ≥ BitVec.ofNat 32 max - 1 := by bv_omega
  have hne : ¬ BitVec.ofNat 32 max - 2 = 0 := by bv_omega
  refine ⟨⟨hfwd, ?_, fun i hi => absurd hi (Nat.not_lt_zero i)⟩, fun ch batch => ?_⟩
  · rw [seek_pos, hlast, List.length_nil]
    omega
  · unfold ReversibleString.write
    simp only [seek_forwards, seek_pos, hfwd, hpos, hlow, hhigh, hne, Bool.false_eq_true, if_false,
      if_true]

theorem holding_writeAll {o : ReversibleString max} (hfwd : o.forwards = false)
    (hpos : o.pos = 0) {cs : List (BitVec 8)} (hne : cs ≠ []) (hlen : cs.length + 2 ≤ max)
    (batch : Bool) :
    Holding (o.writeAll cs batch) cs.reverse ∧ StoredInside o (o.writeAll cs batch) := by
  cases cs with
  | nil => exact absurd rfl hne
  | cons c cs =>
    rw [List.length_cons] at hlen
    obtain ⟨hstart, hwrite⟩ := write_start hmax hfwd hpos (by omega)
    have hroom := hstart.room
    rw [List.length_nil] at hroom
    have hall := hstart.writeAll hmax (c :: cs) (by rw [List.length_cons]; omega) batch
    have heq : o.writeAll (c :: cs) batch =
        (o.seek (BitVec.ofNat 32 max - 2)).writeAll (c :: cs) batch := by
      unfold ReversibleString.writeAll
      rw [List.foldl_cons, List.foldl_cons, hwrite]
    rw [List.append_nil] at hall
    rw [heq]
    exact hall

theorem Holding.getString {o : ReversibleString max} {r : List (BitVec 8)} (h : Holding o r)
    (hne : ∀ c ∈ r, c ≠ 0) :
    Spells o.getString.2 r ∧ StoredInside o o.getString.1 := by
  have hroom := h.room
  have hlast : (BitVec.ofNat 32 max - 1).toNat = max - 1 := by bv_omega
  have hnext : (o.pos + 1).toNat = o.pos.toNat + 1 := by bv_omega
  have hget : o.getString = (o.set (BitVec.ofNat 32 max - 1) 0,
      (o.set (BitVec.ofNat 32 max - 1) 0).str.drop (o.pos.toNat + 1)) := by
    unfold ReversibleString.getString
    simp only [h.forwards, Bool.false_eq_true, if_false, set_pos, hnext]
  rw [hget]
  refine ⟨spells_iff.mpr ⟨fun i hi => ⟨?_, hne _ (List.getElem_mem hi)⟩, ?_⟩, .one rfl ?_⟩
  · dsimp only
    rw [Text.drop_apply, set_str, hlast, Function.update_of_ne (by omega)]
    exact h.chars i hi
  · dsimp only
    have hend : o.pos.toNat + 1 + r.length = max - 1 := by omega
    rw [Text.drop_apply, set_str, hlast, hend, Function.update_self]
  · rw [hlast]
    omega

end Reverse

/-- An object as declared, with `Forwards` cleared. -/
def backwards (max : Nat) (str : Text (BitVec 8)) : ReversibleString max :=
  { init max str with forwards := false }

/-- The characters written one by one come back in reverse, and since the constructor only the
array has been written to. -/
def Reverses (max : Nat) (str : Text (BitVec 8)) (cs : List (BitVec 8)) (batch : Bool) : Prop :=
  Spells ((backwards max str).writeAll cs batch).getString.2 cs.reverse ∧
    StoredInside (init max str) ((backwards max str).writeAll cs batch).getString.1

section Capacity
variable {str : Text (BitVec 8)} (hmax : max < 2 ^ 31)
include hmax

theorem reverses_of_holding {cs : List (BitVec 8)} {batch : Bool}
    (h : Holding ((backwards max str).writeAll cs batch) cs.reverse)
    (hstored : StoredInside (backwards max str) ((backwards max str).writeAll cs batch))
    (hcs : ∀ c ∈ cs, c ≠ 0) : Reverses max str cs batch := by
  obtain ⟨hspells, hlast⟩ :=
    h.getString hmax fun c hc => hcs c (List.mem_reverse.mp hc)
  have hstart : StoredInside (init max str) (backwards max str) := .refl _
  exact ⟨hspells, hstart.trans (hstored.trans hlast)⟩

theorem reverses_nil (h1 : 1 ≤ max) (batch : Bool) :
    Reverses max str [] batch ↔ max = 2 ∨ (init max str).str 1 = 0 := by
  have hlast : (BitVec.ofNat 32 max - 1).toNat = max - 1 := by bv_omega
  have hstored : StoredInside (init max str) ((backwards max str).writeAll [] batch).getString.1 :=
    .one (i := max - 1) (congrArg (· :: _) hlast) (by omega)
  have htext : ((backwards max str).writeAll [] batch).getString.2 0 =
      Function.update (init max str).str (max - 1) 0 1 := by
    rw [← hlast]
    rfl
  unfold Reverses
  rw [and_iff_left hstored, List.reverse_nil]
  refine (Eq.congr htext rfl).trans ?_
  by_cases h2 : max = 2
  · subst h2
    simp
  · rw [Function.update_of_ne (by omega), or_iff_right h2]

/-- As many characters as there is room for behind position 1, and one more: it is written
over the first one, and is all that is read. -/
theorem not_reverses_full (h3 : 3 ≤ max) {cs : List (BitVec 8)} (hlen : cs.length = max - 1)
    (hcs : ∀ c ∈ cs, c ≠ 0) (batch : Bool) : ¬ Reverses max str cs batch := by
  have hne : cs ≠ [] := by
    rintro rfl
    exact absurd hlen (by simp; omega)
  obtain ⟨ds, c, rfl⟩ : ∃ ds c, cs = ds ++ [c] :=
    ⟨cs.dropLast, cs.getLast hne, (List.dropLast_append_getLast hne).symm⟩
  rw [List.length_append, List.length_singleton] at hlen
  have hds : ds ≠ [] := by
    rintro rfl
    exact absurd hlen (by simp; omega)
  obtain ⟨hold, -⟩ := holding_writeAll hmax (o := backwards max str) rfl rfl hds (by omega) batch
  have hroom := hold.room
  rw [List.length_reverse] at hroom
  have hpos : ((backwards max str).writeAll ds batch).pos = 0 :=
    BitVec.eq_of_toNat_eq (by simp only [BitVec.ofNat_eq_ofNat, BitVec.toNat_zero]; omega)
  obtain ⟨hstart, hwrite⟩ := write_start hmax hold.forwards hpos h3
  have hroom' := hstart.room
  rw [List.length_nil] at hroom'
  have hone := (hstart.write hmax (by omega) c batch).1
  rw [← hwrite] at hone
  intro h
  have hget := (hone.getString hmax fun d hd => hcs d (by simp [List.mem_singleton.mp hd])).1
  have hall : (backwards max str).writeAll (ds ++ [c]) batch =
      ((backwards max str).writeAll ds batch).write c batch := by
    unfold ReversibleString.writeAll
    rw [List.foldl_append, List.foldl_cons, List.foldl_nil]
  have hread := h.1
  rw [hall] at hread
  have heq := congrArg List.length (hread.unique hget)
  rw [List.length_reverse, List.length_append, List.length_singleton] at heq
  omega

theorem reverses_iff (h1 : 1 ≤ max) {cs : List (BitVec 8)} (hlen : cs.length ≤ max - 1)
    (hcs : ∀ c ∈ cs, c ≠ 0) (batch : Bool) :
    Reverses max str cs batch ↔
      1 ≤ cs.length ∧ cs.length + 2 ≤ max ∨ max = 2 ∨ cs = [] ∧ (init max str).str 1 = 0 := by
  by_cases hnil : cs = []
  · subst hnil
    rw [reverses_nil hmax h1]
    simp
  · have hpos : 1 ≤ cs.length := List.length_pos_iff.mpr hnil
    by_cases hroom : cs.length + 2 ≤ max
    · obtain ⟨hold, hstored⟩ :=
        holding_writeAll hmax (o := backwards max str) rfl rfl hnil hroom batch
      exact iff_of_true (reverses_of_holding hmax hold hstored hcs) (.inl ⟨hpos, hroom⟩)
    · by_cases h2 : max = 2
      · subst h2
        obtain ⟨c, rfl⟩ := List.length_eq_one_iff.mp (by omega : cs.length = 1)
        refine iff_of_true ⟨?_, ?_⟩ (.inr (.inl rfl))
        · refine spells_cons.mpr ⟨?_, hcs c (List.mem_singleton_self c), ?_⟩
          · simp [writeAll, ReversibleString.write, getString, backwards, init]
          · simp [writeAll, ReversibleString.write, getString, backwards, init, Spells]
        · exact ⟨[1, 0], rfl, by simp⟩
      · refine iff_of_false (not_reverses_full hmax (by omega) (by omega) hcs batch) ?_
        rintro (h | h | h)
        · exact hroom h.2
        · exact h2 h
        · exact hnil h.1

theorem reverses_up_to_capacity (h1 : 1 ≤ max) {cs : List (BitVec 8)}
    (hlen : cs.length ≤ max - 1) (hcs : ∀ c ∈ cs, c ≠ 0) (batch : Bool) :
    (Reverses max str cs batch ↔
      1 ≤ cs.length ∧ cs.length + 2 ≤ max ∨ max = 2 ∨ cs = [] ∧ (init max str).str 1 = 0) ∧
      -- the constructor ends its own string one behind the array
      (init max str).stored = [max] := by
  refine ⟨reverses_iff hmax h1 hlen hcs batch, ?_⟩
  unfold init
  rw [set_stored, BitVec.toNat_ofNat, Nat.mod_eq_of_lt (by omega)]

end Capacity

theorem reverses_up_to_capacity_default :
    (Reverses 65 (fun _ => 0) [0x31, 0x30] true ↔
      1 ≤ 2 ∧ 2 + 2 ≤ 65 ∨ 65 = 2 ∨ [0x31, 0x30] = ([] : List (BitVec 8)) ∧
        (init 65 fun _ => 0).str 1 = 0) ∧ (init 65 fun _ => 0).stored = [65] :=
  reverses_up_to_capacity (by decide) (by decide) (by decide) (by decide) true

/-- 64 digits do not fit. -/
theorem not_reverses_default : ¬ Reverses 65 (fun _ => 0) (List.replicate 64 0x31) true :=
  not_reverses_full (by decide) (by decide) List.length_replicate
    (fun c hc => by rw [List.eq_of_mem_replicate hc]; decide) true

section Forwards
variable {o : ReversibleString max} {s : Text (BitVec 8)} {cs : List (BitVec 8)}

/-- `Write(s)` returns, and holds then as much of `s` behind what was held as there is room for,
with a zero where `GetString` ends. -/
def WritesString (o : ReversibleString max) (s : Text (BitVec 8)) (cs : List (BitVec 8)) : Prop :=
  ∃ o', (∃ fuel, writeString fuel o s = some o') ∧ o'.held = (o.held ++ cs).take (max - 1) ∧
    o'.pos.toNat ≤ max - 1 ∧ o'.getString.2 o'.pos.toNat = 0

/-- The same character is looked at again each time. -/
theorem writeString_eq_none (hs : s 0 ≠ 0) (fuel : Nat) (o : ReversibleString max) :
    writeString fuel o s = none := by
  induction fuel generalizing o with
  | zero => rfl
  | succ fuel ih =>
    unfold writeString
    rw [if_pos hs]
    exact ih (o.write (s 0) false)

theorem writeString_of_nul (hs : s 0 = 0) (fuel : Nat) (o : ReversibleString max) :
    writeString (fuel + 1) o s = some o := by
  unfold writeString
  rw [if_neg (not_not.mpr hs)]

theorem getString_nul (hfwd : o.forwards = true) : o.getString.2 o.pos.toNat = 0 := by
  simp [getString, endBatch, hfwd]

theorem writesString_iff (hfwd : o.forwards = true) (hpos : o.pos.toNat ≤ max - 1)
    (hs : Spells s cs) : WritesString o s cs ↔ cs = [] := by
  constructor
  · intro h
    obtain ⟨o', ⟨fuel, hreturn⟩, -⟩ := h
    cases cs with
    | nil => rfl
    | cons c cs =>
      have hne : s 0 ≠ 0 := hs.ne_zero (Nat.succ_pos _)
      rw [writeString_eq_none hne] at hreturn
      exact absurd hreturn.symm (Option.some_ne_none o')
  · rintro rfl
    refine ⟨o, ⟨1, writeString_of_nul hs 0 o⟩, ?_, hpos, getString_nul hfwd⟩
    have hlen : o.held.length ≤ max - 1 := by simpa [held] using hpos
    rw [List.append_nil, List.take_of_length_le hlen]

end Forwards

end ReversibleString
end Tysos
