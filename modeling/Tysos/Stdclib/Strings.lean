import Tysos.Support.ByteMemory
import Tysos.Support.CString
import Mathlib.Logic.Function.Basic
import Mathlib.Data.BitVec

/-!
# Strings in memory

`memcpy`, `strlen`, `strcpy` and `strcat` on byte memory. `strlen` looks for a zero for as long
as the fuel lasts. `strcpy` copies as many bytes as `strlen` counts, which leaves out the zero.
-/

namespace Tysos
set_option autoImplicit false

open ByteMemory CString

/-- What is seen from an address on. -/
def textAt (m : Memory) (a : Address) : Text (BitVec 8) := fun k => m (a + BitVec.ofNat 32 k)

namespace Stdclib

/-- The rounds of `memcpy` still to go, from index `i` on. -/
def memcpyLoop (dest src : Address) : Nat → BitVec 32 → Memory → Memory
  | 0, _, m => m
  | k + 1, i, m => memcpyLoop dest src k (i + 1) (Function.update m (dest + i) (m (src + i)))

def memcpy (m : Memory) (dest src : Address) (n : BitVec 32) : Memory × Address :=
  (memcpyLoop dest src n.toNat 0 m, dest)

def strlenLoop (m : Memory) : Nat → Address → BitVec 32 → Option (BitVec 32)
  | 0, _, _ => none
  | fuel + 1, s, n => if m s = 0 then some n else strlenLoop m fuel (s + 1) (n + 1)

def strlen (m : Memory) (fuel : Nat) (s : Address) : Option (BitVec 32) := strlenLoop m fuel s 0

def strcpy (m : Memory) (fuel : Nat) (dest src : Address) : Option (Memory × Address) :=
  (strlen m fuel src).map fun n => ((memcpy m dest src n).1, dest)

def strcat (m : Memory) (fuel : Nat) (dest src : Address) : Option (Memory × Address) :=
  (strlen m fuel dest).bind fun d_len =>
    (strlen m fuel src).bind fun s_len =>
      (strcpy m fuel (dest + d_len) src).map fun r =>
        (Function.update r.1 (dest + (d_len + s_len)) 0, dest)

/-- A call has put the string `s` at `dest` and changed nothing beyond its terminator. -/
structure Written (m m' : Memory) (dest : Address) (s : List (BitVec 8)) : Prop where
  spells : Spells (textAt m' dest) s
  frame : ∀ x, ¬ InRange dest (s.length + 1) x → m' x = m x

/-- `strcpy` returns, and `s` is the string at `dest` then. -/
def StrcpyWrites (m : Memory) (dest src : Address) (s : List (BitVec 8)) : Prop :=
  ∃ m', (∀ fuel, s.length < fuel → strcpy m fuel dest src = some (m', dest)) ∧
    Written m m' dest s

/-- `strcat` returns, and `d` followed by `s` is the string at `dest` then. -/
def StrcatWrites (m : Memory) (dest src : Address) (d s : List (BitVec 8)) : Prop :=
  ∃ m', (∀ fuel, d.length + s.length < fuel → strcat m fuel dest src = some (m', dest)) ∧
    Written m m' dest (d ++ s)

section Memcpy
variable {dest src : Address}

/-- With the ranges apart, what is read has not been written before. -/
theorem memcpyLoop_apply {k : Nat} {i : BitVec 32} {n : Nat} (hn : i.toNat + k = n)
    (hlt : n < 2 ^ 32) (hclear : Clear dest n src n) (m : Memory) (x : Address) :
    memcpyLoop dest src k i m x =
      if i.toNat ≤ (x - dest).toNat ∧ (x - dest).toNat < n then m (src + (x - dest)) else m x := by
  induction k generalizing i m with
  | zero =>
    rw [if_neg (by omega)]
    rfl
  | succ k ih =>
    have hi : (i + 1).toNat = i.toNat + 1 := by bv_omega
    have hdi : InRange dest n (dest + i) := by
      unfold InRange
      bv_omega
    unfold memcpyLoop
    rw [ih (by omega), hi]
    by_cases hx : x = dest + i
    · have hxi : x - dest = i := by bv_omega
      rw [hxi, if_neg (by omega), if_pos (by omega), hx, Function.update_self]
    · have hne : (x - dest).toNat ≠ i.toNat := by bv_omega
      rw [Function.update_of_ne hx]
      by_cases hin : i.toNat ≤ (x - dest).toNat ∧ (x - dest).toNat < n
      · have hsrc : src + (x - dest) ≠ dest + i := by
          intro heq
          refine hclear _ hdi ?_
          rw [← heq]
          unfold InRange
          bv_omega
        rw [if_pos (by omega), if_pos hin, Function.update_of_ne hsrc]
      · rw [if_neg (by omega), if_neg hin]

theorem memcpy_apply {n : Nat} (hlt : n < 2 ^ 32) (hclear : Clear dest n src n) (m : Memory)
    (x : Address) : (memcpy m dest src (BitVec.ofNat 32 n)).1 x =
      if InRange dest n x then m (src + (x - dest)) else m x := by
  have hmod : (BitVec.ofNat 32 n).toNat = n := BitVec.toNat_ofNat .. ▸ Nat.mod_eq_of_lt hlt
  unfold memcpy
  dsimp only
  rw [hmod, memcpyLoop_apply (Nat.zero_add n) hlt hclear]
  by_cases hin : InRange dest n x
  · rw [if_pos hin, if_pos ⟨Nat.zero_le _, hin⟩]
  · rw [if_neg hin, if_neg fun h => hin h.2]

end Memcpy

section Strings
variable {m : Memory} {dest src : Address} {s : List (BitVec 8)}

theorem textAt_drop (m : Memory) (a : Address) (n : Nat) :
    (textAt m a).drop n = textAt m (a + BitVec.ofNat 32 n) := by
  funext k
  unfold textAt
  rw [Text.drop_apply, BitVec.ofNat_add, BitVec.add_assoc]

theorem strlenLoop_eq (h : Spells (textAt m src) s) {fuel : Nat} (hfuel : s.length < fuel)
    (n : BitVec 32) : strlenLoop m fuel src n = some (n + BitVec.ofNat 32 s.length) := by
  induction s generalizing fuel src n with
  | nil =>
    obtain ⟨fuel, rfl⟩ := Nat.exists_eq_succ_of_ne_zero (Nat.ne_of_gt hfuel)
    have h₀ : m src = 0 := by simpa [textAt] using h.nul
    simp [strlenLoop, h₀]
  | cons c s ih =>
    obtain ⟨fuel, rfl⟩ := Nat.exists_eq_succ_of_ne_zero (Nat.ne_of_gt (Nat.zero_lt_of_lt hfuel))
    rw [spells_cons, textAt_drop] at h
    obtain ⟨h₀, hne, hrest⟩ := h
    have h₀ : m src = c := by simpa [textAt] using h₀
    have hnext := ih hrest (Nat.lt_of_succ_lt_succ hfuel) (n + 1)
    unfold strlenLoop
    rw [h₀, if_neg hne]
    refine hnext.trans ?_
    rw [List.length_cons]
    congr 1
    bv_omega

theorem strlen_eq (h : Spells (textAt m src) s) {fuel : Nat} (hfuel : s.length < fuel) :
    strlen m fuel src = some (BitVec.ofNat 32 s.length) := by
  unfold strlen
  rw [strlenLoop_eq h hfuel]
  exact congrArg some (BitVec.zero_add _)

/-- A range with a byte outside it is not the whole of memory. -/
theorem lt_of_clear {n : Nat} (h : Clear dest 1 src n) : n < 2 ^ 32 := by
  have hout := h dest (by unfold InRange; simp)
  unfold InRange at hout
  have hlt := (dest - src).isLt
  omega

theorem textAt_apply (m : Memory) (a : Address) (k : Nat) :
    textAt m a k = m (a + BitVec.ofNat 32 k) := rfl

section Copy
variable {n : Nat} (hclear : Clear dest (n + 1) src (n + 1)) {m' : Memory}
  (hm' : (memcpy m dest src (BitVec.ofNat 32 n)).1 = m')
include hclear hm'

theorem copy_char {i : Nat} (hi : i < n) : textAt m' dest i = textAt m src i := by
  have hlen := lt_of_clear (hclear.mono (Nat.succ_pos _) (Nat.le_refl _))
  have hoff : dest + BitVec.ofNat 32 i - dest = BitVec.ofNat 32 i := by bv_omega
  have hin : InRange dest n (dest + BitVec.ofNat 32 i) := by
    unfold InRange
    rw [hoff, BitVec.toNat_ofNat]
    omega
  rw [← hm', textAt_apply,
    memcpy_apply (by omega) (hclear.mono (Nat.le_succ _) (Nat.le_succ _)), if_pos hin, hoff]
  rfl

theorem copy_frame {x : Address} (hx : ¬ InRange dest n x) : m' x = m x := by
  have hlen := lt_of_clear (hclear.mono (Nat.succ_pos _) (Nat.le_refl _))
  rw [← hm', memcpy_apply (by omega) (hclear.mono (Nat.le_succ _) (Nat.le_succ _)), if_neg hx]

end Copy

theorem not_inRange_end {n : Nat} (hn : n < 2 ^ 32) (a : Address) :
    ¬ InRange a n (a + BitVec.ofNat 32 n) := by
  unfold InRange
  bv_omega

theorem strcpy_eq (hsrc : Spells (textAt m src) s) {m' : Memory}
    (hm' : (memcpy m dest src (BitVec.ofNat 32 s.length)).1 = m') {fuel : Nat}
    (hfuel : s.length < fuel) : strcpy m fuel dest src = some (m', dest) := by
  unfold strcpy
  rw [strlen_eq hsrc hfuel, ← hm']
  rfl

/-- A text with the characters of a string spells it if it ends where the string does. -/
theorem spells_of_chars (hsrc : Spells (textAt m src) s) {t : Text (BitVec 8)}
    (ht : ∀ i < s.length, t i = textAt m src i) (hnul : t s.length = 0) : Spells t s :=
  hsrc.congr fun i hi => by
    cases Nat.lt_or_eq_of_le hi with
    | inl hlt => exact ht i hlt
    | inr heq => rw [heq, hnul, hsrc.nul]

/-- No zero is copied: the string is the right one where one was there before. -/
theorem strcpyWrites_iff (hsrc : Spells (textAt m src) s)
    (hclear : Clear dest (s.length + 1) src (s.length + 1)) :
    StrcpyWrites m dest src s ↔ m (dest + BitVec.ofNat 32 s.length) = 0 := by
  obtain ⟨m', hm'⟩ : ∃ m', (memcpy m dest src (BitVec.ofNat 32 s.length)).1 = m' := ⟨_, rfl⟩
  have hlen := lt_of_clear (hclear.mono (Nat.succ_pos _) (Nat.le_refl _))
  have hbehind : textAt m' dest s.length = m (dest + BitVec.ofNat 32 s.length) :=
    copy_frame hclear hm' (not_inRange_end (by omega) dest)
  constructor
  · intro h
    obtain ⟨m'', heq, hwritten⟩ := h
    have hone := (strcpy_eq hsrc hm' (Nat.lt_succ_self _)).symm.trans
      (heq _ (Nat.lt_succ_self _))
    obtain rfl : m' = m'' := by simpa using hone
    rw [← hbehind]
    exact hwritten.spells.nul
  · intro hnul
    refine ⟨m', fun fuel hfuel => strcpy_eq hsrc hm' hfuel, ?_, fun x hx => ?_⟩
    · exact spells_of_chars hsrc (fun i hi => copy_char hclear hm' hi) (hbehind.trans hnul)
    · refine copy_frame hclear hm' fun hin => hx ?_
      unfold InRange at hin ⊢
      omega

theorem strcatWrites {d : List (BitVec 8)} (hsrc : Spells (textAt m src) s)
    (hdest : Spells (textAt m dest) d)
    (hclear : Clear dest (d.length + s.length + 1) src (s.length + 1)) :
    StrcatWrites m dest src d s := by
  have hlen : d.length + s.length + 1 < 2 ^ 32 :=
    lt_of_clear (hclear.symm.mono (Nat.succ_pos _) (Nat.le_refl _))
  have hend : dest + (BitVec.ofNat 32 d.length + BitVec.ofNat 32 s.length) =
      dest + BitVec.ofNat 32 d.length + BitVec.ofNat 32 s.length := by rw [BitVec.add_assoc]
  have hclear' : Clear (dest + BitVec.ofNat 32 d.length) (s.length + 1) src (s.length + 1) := by
    intro x hx
    refine hclear x ?_
    unfold InRange at hx ⊢
    bv_omega
  obtain ⟨m', hm'⟩ : ∃ m', (memcpy m (dest + BitVec.ofNat 32 d.length) src
    (BitVec.ofNat 32 s.length)).1 = m' := ⟨_, rfl⟩
  refine ⟨Function.update m' (dest + BitVec.ofNat 32 d.length + BitVec.ofNat 32 s.length) 0,
    fun fuel hfuel => ?_, ?_, fun x hx => ?_⟩
  · unfold strcat
    rw [strlen_eq hdest (by omega), Option.bind_some, strlen_eq hsrc (by omega),
      Option.bind_some, strcpy_eq hsrc hm' (by omega), Option.map_some, hend]
  · -- the characters of `d` lie before the copy, those of `s` are copied behind them
    refine spells_append.mpr ⟨fun i hi => ?_, ?_⟩
    · have hout : ¬ InRange (dest + BitVec.ofNat 32 d.length) s.length
          (dest + BitVec.ofNat 32 i) := by
        unfold InRange
        bv_omega
      have hne : dest + BitVec.ofNat 32 i ≠
          dest + BitVec.ofNat 32 d.length + BitVec.ofNat 32 s.length := by bv_omega
      rw [textAt_apply, Function.update_of_ne hne, copy_frame hclear' hm' hout]
      exact (spells_iff.mp hdest).1 i hi
    · rw [textAt_drop]
      refine spells_of_chars hsrc (fun i hi => ?_) (Function.update_self ..)
      have hne : dest + BitVec.ofNat 32 d.length + BitVec.ofNat 32 i ≠
          dest + BitVec.ofNat 32 d.length + BitVec.ofNat 32 s.length := by bv_omega
      rw [textAt_apply, Function.update_of_ne hne]
      exact copy_char hclear' hm' hi
  · rw [List.length_append] at hx
    have hne : x ≠ dest + BitVec.ofNat 32 d.length + BitVec.ofNat 32 s.length := by
      rintro rfl
      refine hx ?_
      unfold InRange
      bv_omega
    rw [Function.update_of_ne hne]
    refine copy_frame hclear' hm' fun hin => hx ?_
    unfold InRange at hin ⊢
    bv_omega

/-- `n` is the size of what `dest` points to. -/
theorem strings_written (hsrc : Spells (textAt m src) s) {n : Nat}
    (hclear : Clear dest n src (s.length + 1)) :
    (s.length < n →
      (StrcpyWrites m dest src s ↔ m (dest + BitVec.ofNat 32 s.length) = 0)) ∧
    ∀ d, Spells (textAt m dest) d → d.length + s.length < n → StrcatWrites m dest src d s :=
  ⟨fun hn => strcpyWrites_iff hsrc (hclear.mono hn (Nat.le_refl _)),
    fun _ hdest hn => strcatWrites hsrc hdest (hclear.mono hn (Nat.le_refl _))⟩

end Strings

/-- The string `"cd"` at `0x100` and `"ab"` at `0x200`, among bytes used before. -/
def twoStrings : Memory := fun x =>
  if x < 0x200 then [0x63, 0x64, 0].getD (x - 0x100).toNat 0xff
  else [0x61, 0x62, 0].getD (x - 0x200).toNat 0xff

theorem strings_written_twoStrings :
    StrcpyWrites twoStrings 0x200 0x100 [0x63, 0x64] ∧
      StrcatWrites twoStrings 0x200 0x100 [0x61, 0x62] [0x63, 0x64] := by
  have hclear : Clear 0x200 5 0x100 3 := (clear_of_le (by decide) (by decide)).symm
  obtain ⟨hcpy, hcat⟩ :=
    strings_written (m := twoStrings) (s := [0x63, 0x64]) (n := 5) (by decide) hclear
  exact ⟨(hcpy (by decide)).mpr (by decide), hcat [0x61, 0x62] (by decide) (by decide)⟩

/-- The string `"a"` at `0x100` and the empty one at `0x200`, among bytes used before. -/
def staleMemory : Memory := fun x =>
  if x = 0x100 then 0x61 else if x = 0x101 ∨ x = 0x200 then 0 else 0xff

theorem strcpy_stale :
    Spells (textAt staleMemory 0x100) [0x61] ∧ Clear 0x200 2 0x100 2 ∧
      ¬ StrcpyWrites staleMemory 0x200 0x100 [0x61] := by
  have hsrc : Spells (textAt staleMemory 0x100) [0x61] := by decide
  have hclear : Clear 0x200 2 0x100 2 := (clear_of_le (by decide) (by decide)).symm
  refine ⟨hsrc, hclear, fun h => ?_⟩
  have hnul := (strcpyWrites_iff hsrc hclear).mp h
  exact absurd hnul (by decide)

end Stdclib
end Tysos
