import Mathlib.Data.List.Basic
import Mathlib.Algebra.Group.Nat.Defs

/-!
# Byte memory

A memory of bytes at 32-bit addresses, its little-endian words, and lists threaded through
the words of memory: a head and, at each element, the address of the next, ending in 0.
A range of addresses may wrap around the end of memory.
-/

namespace ByteMemory
set_option autoImplicit false

abbrev Address := BitVec 32
abbrev Memory := Address → BitVec 8

/-- `x` is one of the `n` bytes from `a` on. -/
def InRange (a : Address) (n : Nat) (x : Address) : Prop := (x - a).toNat < n

instance (a : Address) (n : Nat) (x : Address) : Decidable (InRange a n x) :=
  inferInstanceAs (Decidable (_ < _))

/-- The two ranges share no byte. -/
def Clear (a : Address) (n : Nat) (b : Address) (k : Nat) : Prop :=
  ∀ x, InRange a n x → ¬ InRange b k x

def read32 (m : Memory) (a : Address) : BitVec 32 :=
  BitVec.ofNat 32 ((m a).toNat + 0x100 * (m (a + 1)).toNat + 0x10000 * (m (a + 2)).toNat +
    0x1000000 * (m (a + 3)).toNat)

def write32 (m : Memory) (a : Address) (v : BitVec 32) : Memory := fun x =>
  if InRange a 4 x then BitVec.ofNat 8 (v.toNat / 0x100 ^ (x - a).toNat) else m x

/-- Set `n` bytes to one value. -/
def fill (m : Memory) (a : Address) (n : Nat) (v : BitVec 8) : Memory := fun x =>
  if InRange a n x then v else m x

theorem Clear.symm {a b : Address} {n k : Nat} (h : Clear a n b k) : Clear b k a n :=
  fun x hb ha => h x ha hb

theorem Clear.mono {a b : Address} {n k n' k' : Nat} (h : Clear a n b k) (hn : n' ≤ n)
    (hk : k' ≤ k) : Clear a n' b k' :=
  fun x ha hb => h x (Nat.lt_of_lt_of_le ha hn) (Nat.lt_of_lt_of_le hb hk)

theorem clear_of_le {a b : Address} {n k : Nat} (hb : b.toNat + k ≤ 2 ^ 32)
    (h : a.toNat + n ≤ b.toNat) : Clear a n b k := by
  intro x ha hb'
  unfold InRange at ha hb'
  bv_omega

theorem inRange_word {a x : Address} :
    InRange a 4 x ↔ x = a ∨ x = a + 1 ∨ x = a + 2 ∨ x = a + 3 := by
  unfold InRange
  constructor
  · intro h
    bv_omega
  · rintro (rfl | rfl | rfl | rfl) <;> bv_omega

theorem read32_congr {m m' : Memory} {a : Address} (h : ∀ x, InRange a 4 x → m' x = m x) :
    read32 m' a = read32 m a := by
  unfold read32
  rw [h a (inRange_word.mpr (Or.inl rfl)), h (a + 1) (inRange_word.mpr (Or.inr (Or.inl rfl))),
    h (a + 2) (inRange_word.mpr (Or.inr (Or.inr (Or.inl rfl)))),
    h (a + 3) (inRange_word.mpr (Or.inr (Or.inr (Or.inr rfl))))]

theorem write32_of_not_inRange {m : Memory} {a x : Address} {v : BitVec 32}
    (h : ¬ InRange a 4 x) : write32 m a v x = m x := if_neg h

theorem fill_of_not_inRange {m : Memory} {a x : Address} {n : Nat} {v : BitVec 8}
    (h : ¬ InRange a n x) : fill m a n v x = m x := if_neg h

theorem read32_write32_of_clear {m : Memory} {a b : Address} {v : BitVec 32}
    (h : Clear a 4 b 4) : read32 (write32 m b v) a = read32 m a :=
  read32_congr fun x hx => write32_of_not_inRange (h x hx)

theorem read32_fill_of_clear {m : Memory} {a b : Address} {n : Nat} {v : BitVec 8}
    (h : Clear a 4 b n) : read32 (fill m b n v) a = read32 m a :=
  read32_congr fun x hx => fill_of_not_inRange (h x hx)

theorem memory_ext {m m' : Memory} (h : ∀ x, ∀ i < 8, (m' x).getLsbD i = (m x).getLsbD i) :
    m' = m := by
  funext x
  exact BitVec.eq_of_getLsbD_eq fun i hi => h x i hi

theorem write32_byte {m : Memory} {a : Address} {v : BitVec 32} {k : Nat} (hk : k < 4) :
    (write32 m a v (a + BitVec.ofNat 32 k)).toNat = v.toNat / 0x100 ^ k % 0x100 := by
  have hoff : (a + BitVec.ofNat 32 k - a).toNat = k := by bv_omega
  have hin : InRange a 4 (a + BitVec.ofNat 32 k) := by
    unfold InRange
    omega
  unfold write32
  rw [if_pos hin, hoff, BitVec.toNat_ofNat]

theorem read32_write32_self (m : Memory) (a : Address) (v : BitVec 32) :
    read32 (write32 m a v) a = v := by
  have h₀ := write32_byte (m := m) (a := a) (v := v) (k := 0) (by omega)
  have h₁ := write32_byte (m := m) (a := a) (v := v) (k := 1) (by omega)
  have h₂ := write32_byte (m := m) (a := a) (v := v) (k := 2) (by omega)
  have h₃ := write32_byte (m := m) (a := a) (v := v) (k := 3) (by omega)
  apply BitVec.eq_of_toNat_eq
  unfold read32
  rw [BitVec.toNat_ofNat]
  simp only [BitVec.ofNat_eq_ofNat, BitVec.add_zero] at h₀ h₁ h₂ h₃ ⊢
  rw [h₀, h₁, h₂, h₃]
  have hv := v.isLt
  omega

theorem testBit_byte (v k i : Nat) (hi : i < 8) :
    (v / 0x100 ^ k % 0x100).testBit i = v.testBit (8 * k + i) := by
  have hpow : 0x100 ^ k = 2 ^ (8 * k) := by rw [Nat.pow_mul]
  have hbyte : 0x100 = 2 ^ 8 := rfl
  rw [hpow, hbyte, Nat.testBit_mod_two_pow, decide_eq_true hi, Bool.true_and,
    Nat.testBit_div_two_pow, Nat.add_comm]

theorem getLsbD_write32 (m : Memory) (a : Address) (v : BitVec 32) {k i : Nat} (hk : k < 4)
    (hi : i < 8) : (write32 m a v (a + BitVec.ofNat 32 k)).getLsbD i = v.getLsbD (8 * k + i) := by
  unfold BitVec.getLsbD
  rw [write32_byte hk, testBit_byte v.toNat k i hi]

theorem read32_byte (m : Memory) (a : Address) {k : Nat} (hk : k < 4) :
    (read32 m a).toNat / 0x100 ^ k % 0x100 = (m (a + BitVec.ofNat 32 k)).toNat := by
  have h₀ := (m a).isLt
  have h₁ := (m (a + 1)).isLt
  have h₂ := (m (a + 2)).isLt
  have h₃ := (m (a + 3)).isLt
  have hsum : (read32 m a).toNat = (m a).toNat + 0x100 * (m (a + 1)).toNat +
      0x10000 * (m (a + 2)).toNat + 0x1000000 * (m (a + 3)).toNat := by
    unfold read32
    rw [BitVec.toNat_ofNat]
    omega
  match k, hk with
  | 0, _ =>
    rw [BitVec.add_zero]
    omega
  | 1, _ =>
    change _ = (m (a + 1)).toNat
    omega
  | 2, _ =>
    change _ = (m (a + 2)).toNat
    omega
  | 3, _ =>
    change _ = (m (a + 3)).toNat
    omega

theorem getLsbD_read32 (m : Memory) (a : Address) {k i : Nat} (hk : k < 4) (hi : i < 8) :
    (read32 m a).getLsbD (8 * k + i) = (m (a + BitVec.ofNat 32 k)).getLsbD i := by
  unfold BitVec.getLsbD
  rw [← read32_byte m a hk, testBit_byte _ k i hi]

/-- A list threaded through memory from the word `top`. -/
def Chain (m : Memory) : Address → List Address → Prop
  | top, [] => top = 0
  | top, p :: ps => top = p ∧ p ≠ 0 ∧ Chain m (read32 m p) ps

theorem Chain.congr {m m' : Memory} {top : Address} {ps : List Address} (h : Chain m top ps)
    (hsame : ∀ p ∈ ps, read32 m' p = read32 m p) : Chain m' top ps := by
  induction ps generalizing top with
  | nil => exact h
  | cons p ps ih =>
    obtain ⟨ht, hne, hrest⟩ := h
    refine ⟨ht, hne, ?_⟩
    rw [hsame p List.mem_cons_self]
    exact ih hrest fun q hq => hsame q (List.mem_cons_of_mem p hq)

theorem Chain.push {m : Memory} {top p : Address} {ps : List Address} (h : Chain m top ps)
    (hp : p ≠ 0) (hclear : ∀ q ∈ ps, Clear q 4 p 4) : Chain (write32 m p top) p (p :: ps) := by
  refine ⟨rfl, hp, ?_⟩
  rw [read32_write32_self]
  exact h.congr fun q hq => read32_write32_of_clear (hclear q hq)

theorem Chain.unique {m : Memory} {top : Address} {ps qs : List Address} (hp : Chain m top ps)
    (hq : Chain m top qs) : ps = qs := by
  induction ps generalizing top qs with
  | nil =>
    cases qs with
    | nil => rfl
    | cons q qs => exact absurd (hq.1.symm.trans hp) hq.2.1
  | cons p ps ih =>
    cases qs with
    | nil => exact absurd (hp.1.symm.trans hq) hp.2.1
    | cons q qs =>
      obtain ⟨rfl, -, hps⟩ := hp
      obtain ⟨rfl, -, hqs⟩ := hq
      rw [ih hps hqs]

theorem Chain.suffix {m : Memory} {top p : Address} {ps : List Address} (h : Chain m top ps)
    (hp : p ∈ ps) : ∃ qs, qs <:+ ps ∧ Chain m p qs := by
  induction ps generalizing top with
  | nil => exact absurd hp List.not_mem_nil
  | cons q ps ih =>
    rcases List.mem_cons.mp hp with rfl | hin
    · exact ⟨p :: ps, List.suffix_rfl, rfl, h.2⟩
    · obtain ⟨qs, hsuffix, hqs⟩ := ih h.2.2 hin
      exact ⟨qs, hsuffix.trans (List.suffix_cons q ps), hqs⟩

/-- Lists of the same elements begin at the same one. -/
theorem Chain.top_eq {m : Memory} {top top' : Address} {ps qs : List Address}
    (hp : Chain m top ps) (hq : Chain m top' qs) (hps : ps.Nodup) (hqs : qs.Nodup)
    (hsame : ∀ a, a ∈ ps ↔ a ∈ qs) : top = top' := by
  have hlen := ((List.perm_ext_iff_of_nodup hps hqs).mpr hsame).length_eq
  cases qs with
  | nil =>
    obtain rfl := List.eq_nil_of_length_eq_zero hlen
    exact hp.trans hq.symm
  | cons q qs =>
    obtain ⟨rs, hsuffix, hrs⟩ := hp.suffix ((hsame q).mpr List.mem_cons_self)
    have hself : Chain m q (q :: qs) := ⟨rfl, hq.2⟩
    obtain rfl := hrs.unique hself
    obtain rfl := hsuffix.eq_of_length hlen.symm
    exact hp.1.trans hq.1.symm

/-- The words `ws`, one after the other from `a` on. -/
def Words (m : Memory) : Address → List (BitVec 32) → Prop
  | _, [] => True
  | a, w :: ws => read32 m a = w ∧ Words m (a + 4) ws

theorem inRange_words_succ {a x : Address} {n : Nat} (hn : 4 * (n + 1) ≤ 2 ^ 32) :
    InRange a (4 * (n + 1)) x ↔ InRange a 4 x ∨ InRange (a + 4) (4 * n) x := by
  unfold InRange
  bv_omega

theorem Words.congr {m m' : Memory} {a : Address} {ws : List (BitVec 32)} (h : Words m a ws)
    (hlen : 4 * ws.length ≤ 2 ^ 32)
    (hsame : ∀ x, InRange a (4 * ws.length) x → m' x = m x) : Words m' a ws := by
  induction ws generalizing a with
  | nil => trivial
  | cons w ws ih =>
    rw [List.length_cons] at hlen hsame
    obtain ⟨hw, hws⟩ := h
    constructor
    · rw [read32_congr fun x hx => hsame x ((inRange_words_succ hlen).mpr (Or.inl hx))]
      exact hw
    · exact ih hws (by omega) fun x hx => hsame x ((inRange_words_succ hlen).mpr (Or.inr hx))

theorem Words.write {m : Memory} {a b : Address} {ws : List (BitVec 32)} {v : BitVec 32}
    (h : Words m a ws) (hlen : 4 * ws.length ≤ 2 ^ 32) (hclear : Clear a (4 * ws.length) b 4) :
    Words (write32 m b v) a ws :=
  h.congr hlen fun x hx => write32_of_not_inRange (hclear x hx)

theorem words_append {m : Memory} {a : Address} {us vs : List (BitVec 32)} :
    Words m a (us ++ vs) ↔ Words m a us ∧ Words m (a + BitVec.ofNat 32 (4 * us.length)) vs := by
  induction us generalizing a with
  | nil => simp [Words]
  | cons u us ih =>
    have hnext : a + 4 + BitVec.ofNat 32 (4 * us.length) =
        a + BitVec.ofNat 32 (4 * (us.length + 1)) := by bv_omega
    simp only [List.cons_append, Words, ih, List.length_cons, hnext, and_assoc]

theorem Words.push {m : Memory} {a : Address} {ws : List (BitVec 32)} (h : Words m a ws)
    (hlen : 4 * (ws.length + 1) ≤ 2 ^ 32) (v : BitVec 32) :
    Words (write32 m (a - 4) v) (a - 4) (v :: ws) := by
  refine ⟨read32_write32_self m (a - 4) v, ?_⟩
  rw [BitVec.sub_add_cancel]
  refine h.write (by omega) fun x hx hin => ?_
  unfold InRange at hx hin
  bv_omega

/-- The words stored one after the other from `a` on. -/
def writeWords (m : Memory) : Address → List (BitVec 32) → Memory
  | _, [] => m
  | a, w :: ws => writeWords (write32 m a w) (a + 4) ws

theorem writeWords_of_not_inRange {ws : List (BitVec 32)} (hlen : 4 * ws.length ≤ 2 ^ 32)
    {m : Memory} {a x : Address} (hx : ¬ InRange a (4 * ws.length) x) :
    writeWords m a ws x = m x := by
  induction ws generalizing m a with
  | nil => rfl
  | cons w ws ih =>
    rw [List.length_cons] at hlen hx
    rw [inRange_words_succ hlen] at hx
    unfold writeWords
    rw [ih (by omega) fun hin => hx (Or.inr hin)]
    exact write32_of_not_inRange fun hin => hx (Or.inl hin)

theorem writeWords_words {ws : List (BitVec 32)} (hlen : 4 * ws.length ≤ 2 ^ 32) (m : Memory)
    (a : Address) : Words (writeWords m a ws) a ws := by
  induction ws generalizing m a with
  | nil => trivial
  | cons w ws ih =>
    rw [List.length_cons] at hlen
    refine ⟨?_, ih (by omega) _ _⟩
    have hfirst : read32 (writeWords (write32 m a w) (a + 4) ws) a = read32 (write32 m a w) a := by
      refine read32_congr fun x hx => writeWords_of_not_inRange (by omega) fun hin => ?_
      unfold InRange at hx hin
      bv_omega
    exact hfirst.trans (read32_write32_self m a w)

/-- `*--p = v`, with the pointer. -/
def pushWord (st : Memory × Address) (v : BitVec 32) : Memory × Address :=
  (write32 st.1 (st.2 - 4) v, st.2 - 4)

section PushWords
variable {st : Memory × Address}

theorem pushWords_pointer (st : Memory × Address) (vs : List (BitVec 32)) :
    (vs.foldl pushWord st).2 = st.2 - BitVec.ofNat 32 (4 * vs.length) := by
  induction vs generalizing st with
  | nil => simp
  | cons v vs ih =>
    rw [List.foldl_cons, ih, List.length_cons]
    unfold pushWord
    dsimp only
    bv_omega

theorem pushWords_of_not_inRange {vs : List (BitVec 32)} (hlen : 4 * vs.length < 2 ^ 32)
    {x : Address}
    (hx : ¬ InRange (st.2 - BitVec.ofNat 32 (4 * vs.length)) (4 * vs.length) x) :
    (vs.foldl pushWord st).1 x = st.1 x := by
  induction vs generalizing st with
  | nil => rfl
  | cons v vs ih =>
    rw [List.length_cons] at hlen hx
    have hrest : ¬ InRange ((pushWord st v).2 - BitVec.ofNat 32 (4 * vs.length)) (4 * vs.length)
        x := by
      unfold pushWord
      unfold InRange at hx ⊢
      dsimp only
      bv_omega
    have hword : ¬ InRange (st.2 - 4) 4 x := by
      unfold InRange at hx ⊢
      bv_omega
    rw [List.foldl_cons, ih (by omega) hrest]
    exact write32_of_not_inRange hword

/-- The words pushed lie from the pointer up, the last one first. -/
theorem pushWords_words {ws : List (BitVec 32)} (h : Words st.1 st.2 ws) (vs : List (BitVec 32))
    (hlen : 4 * (vs.length + ws.length) ≤ 2 ^ 32) :
    Words (vs.foldl pushWord st).1 (vs.foldl pushWord st).2 (vs.reverse ++ ws) := by
  induction vs generalizing st ws with
  | nil => exact h
  | cons v vs ih =>
    rw [List.length_cons] at hlen
    have hpush : Words (pushWord st v).1 (pushWord st v).2 (v :: ws) := h.push (by omega) v
    have hall := ih hpush (by rw [List.length_cons]; omega)
    rw [List.foldl_cons, List.reverse_cons, List.append_assoc]
    exact hall

end PushWords

end ByteMemory
