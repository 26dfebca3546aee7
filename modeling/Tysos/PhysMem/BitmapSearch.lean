import Tysos.PhysMem.TwoPhase

/-!
# The search for a free page

`PhysMemBitmap::Alloc()` looks for a set bit word by word. It never moves on from the first
word, and with `lock_btr` as it is it never takes the bit it has found.
-/

namespace Tysos
open ByteMemory
set_option autoImplicit false

namespace PhysMemBitmap

/-- The bitmap has `words` words, a bit for each page of the region. -/
structure Geometry (b : PhysMemBitmap) (words : Nat) : Prop extends b.Covers (32 * words) where
  room : b.bmp.toNat + 4 * words ≤ 2 ^ 32

/-- The words that the `while` loop of `Alloc` reads. -/
def allocReads (b : PhysMemBitmap) (report : BtrReport) : Nat → Memory → List Address
  | 0, _ => []
  | k + 1, m =>
    let off := b.bmp
    if off ≤ b.bmp + b.bmpSize then
      off :: if read32 m off ≠ 0 then
        match b.allocBits report off 32 0 m with
        | (_, some _) => []
        | (m, none) => allocReads b report k m
      else allocReads b report k m
    else []

/-- From `m` to `m'`, the bit of page `n` has been cleared, and `p` is the page. -/
structure TakesPage (b : PhysMemBitmap) (words : Nat) (m m' : Memory) (p : PhysAddr)
    (n : BitVec 32) : Prop where
  wasSet : b.isSet m n = true
  address : p = b.base + n * b.ps
  bits : ∀ j, b.isSet m' j = (b.isSet m j && j ≠ n)
  frame : ∀ x, ¬ InRange b.bmp (4 * words) x → m' x = m x
  restored : b.free m' p = m

def NoneSet (b : PhysMemBitmap) (words : Nat) (m : Memory) : Prop :=
  ∀ n : BitVec 32, n.toNat < 32 * words → b.isSet m n = false

/-- The search ends, reads words of the bitmap only, and takes one of the set bits; where no bit
is set it returns 0 and leaves memory as it is. -/
def AllocSearches (b : PhysMemBitmap) (words : Nat) (report : BtrReport) (m : Memory) : Prop :=
  ∃ k m' p, b.allocLoop report k m = some (m', p) ∧
    (∀ a ∈ b.allocReads report k m, ∃ i < words, a = b.bmp + BitVec.ofNat 32 (4 * i)) ∧
    (¬ b.NoneSet words m → ∃ n : BitVec 32, n.toNat < 32 * words ∧ b.TakesPage words m m' p n) ∧
    (b.NoneSet words m → p = 0 ∧ m' = m)

section
variable {b : PhysMemBitmap} {words : Nat}

/-- The bound of the loop wraps only when the bitmap ends at the end of memory. -/
theorem Geometry.enters (h : b.Geometry words) :
    b.bmp ≤ b.bmp + b.bmpSize ↔ b.bmp.toNat + 4 * words < 2 ^ 32 := by
  have hsize := h.size
  have hroom := h.room
  have hlt := b.bmpSize.isLt
  bv_omega

theorem allocLoop_wraps (hout : ¬ b.bmp ≤ b.bmp + b.bmpSize) (report : BtrReport) (k : Nat)
    (m : Memory) :
    b.allocLoop report (k + 1) m = some (m, 0) ∧ b.allocReads report (k + 1) m = [] := by
  unfold allocLoop allocReads
  dsimp only
  rw [if_neg hout, if_neg hout]
  exact ⟨rfl, rfl⟩

theorem TakesPage.ne {m m' : Memory} {p : PhysAddr} {n : BitVec 32}
    (h : b.TakesPage words m m' p n) : m' ≠ m := by
  rintro rfl
  have hbit := h.bits n
  rw [h.wasSet] at hbit
  simp at hbit

theorem allocSearches_wraps (hout : ¬ b.bmp ≤ b.bmp + b.bmpSize) (report : BtrReport)
    (m : Memory) : b.AllocSearches words report m ↔ b.NoneSet words m := by
  constructor
  · rintro ⟨k, m', p, hloop, -, htakes, -⟩
    by_contra hset
    obtain ⟨n, -, hn⟩ := htakes hset
    cases k with
    | zero => simp [allocLoop] at hloop
    | succ k =>
      rw [(allocLoop_wraps hout report k m).1] at hloop
      obtain ⟨rfl, rfl⟩ : m = m' ∧ 0 = p := by simpa using hloop
      exact hn.ne rfl
  · intro hnone
    obtain ⟨hloop, hreads⟩ := allocLoop_wraps hout report 0 m
    refine ⟨1, m, 0, hloop, ?_, fun hset => absurd hnone hset, fun _ => ⟨rfl, rfl⟩⟩
    rw [hreads]
    simp

/-- The first bit that is set in the first word is taken. -/
theorem Geometry.takesPage (h : b.Geometry words) {m : Memory} (hwords : 0 < words) {j : Nat}
    (hj : j < 32) (hset : testBit m b.bmp (BitVec.ofNat 32 j) = true) :
    b.TakesPage words m (lockBtr oldValue m b.bmp (BitVec.ofNat 32 j)).1
      (BitVec.ofNat 32 j * b.ps + b.base) (BitVec.ofNat 32 j) := by
  have hnum : (BitVec.ofNat 32 j).toNat < 32 := by
    rw [BitVec.toNat_ofNat]
    omega
  have hn : (BitVec.ofNat 32 j).toNat < 32 * words := by omega
  have hword := first_word hnum b.bmp
  have hbit := mod_of_lt hnum
  have hsearch : b.isSet m (BitVec.ofNat 32 j) = true := by
    unfold isSet
    rwa [hword, hbit]
  rw [lockBtr_eq hnum]
  refine ⟨hsearch, BitVec.add_comm _ _, fun i => ?_, fun x hx => ?_, ?_⟩
  · rw [← b.isSet_clearBit, hword, hbit]
  · refine write32_of_not_inRange fun hin => hx ?_
    rw [← hword] at hin
    exact b.word_inRange (by omega) (by omega) hin
  · rw [BitVec.add_comm, h.free _ hn (by omega), hword, hbit]
    exact setBit_clearBit hnum hset

theorem allocReads_first {m : Memory} (hle : b.bmp ≤ b.bmp + b.bmpSize) {j : Nat} (hj : j < 32)
    (hset : testBit m b.bmp (BitVec.ofNat 32 j) = true)
    (hmin : ∀ t < j, testBit m b.bmp (BitVec.ofNat 32 t) = false) :
    b.allocReads oldValue 1 m = [b.bmp] := by
  have hbits := b.allocBits_first hj (Nat.zero_le j) (by omega : j < 0 + 32) hset hmin
  have hstart : (0 : BitVec 32) = BitVec.ofNat 32 0 := rfl
  unfold allocReads
  dsimp only
  rw [if_pos hle, hstart, hbits]
  split <;> rfl

/-- Where `lock_btr` reports the old value, only a bitmap whose first word is not 0 is searched. -/
theorem Geometry.allocSearches_oldValue (h : b.Geometry words)
    (hle : b.bmp ≤ b.bmp + b.bmpSize) (m : Memory) :
    b.AllocSearches words oldValue m ↔ 0 < words ∧ read32 m b.bmp ≠ 0 := by
  constructor
  · rintro ⟨k, m', p, hloop, -, -, hnone⟩
    have hne : read32 m b.bmp ≠ 0 := by
      intro hzero
      rw [allocLoop_zero hle hzero] at hloop
      exact absurd hloop (by simp)
    refine ⟨Nat.pos_of_ne_zero fun hwords => ?_, hne⟩
    -- without words there is no bit, and the word after the bitmap has been changed
    obtain ⟨j, hj, hset, hmin⟩ := exists_lowest_bit hne
    have hnum : (BitVec.ofNat 32 j).toNat < 32 := by
      rw [BitVec.toNat_ofNat]
      omega
    cases k with
    | zero => simp [allocLoop] at hloop
    | succ k =>
      rw [allocLoop_first hle hj hset hmin, lockBtr_eq hnum] at hloop
      obtain ⟨hm', -⟩ : clearBit m b.bmp (BitVec.ofNat 32 j) = m' ∧ _ = p := by
        simpa using hloop
      have hsame := (hnone fun n hn => by omega).2
      rw [← hm'] at hsame
      have hcleared := b.isSet_clearBit m (BitVec.ofNat 32 j) (BitVec.ofNat 32 j)
      unfold isSet at hcleared
      rw [first_word hnum, mod_of_lt hnum, hsame, hset] at hcleared
      simp at hcleared
  · rintro ⟨hwords, hne⟩
    obtain ⟨j, hj, hset, hmin⟩ := exists_lowest_bit hne
    have htakes := h.takesPage hwords hj hset
    have hn : (BitVec.ofNat 32 j).toNat < 32 * words := by
      rw [BitVec.toNat_ofNat]
      omega
    refine ⟨1, _, _, allocLoop_first hle hj hset hmin 0, ?_, fun _ => ⟨_, hn, htakes⟩,
      fun hnone => ?_⟩
    · rw [allocReads_first hle hj hset hmin]
      intro a ha
      exact ⟨0, hwords, by simpa using ha⟩
    · exact absurd htakes.wasSet (by rw [hnone _ hn]; simp)

/-- As it is, the search ends only for a bitmap that ends at the end of memory, and finds
nothing there. -/
theorem Geometry.allocSearches_iff (h : b.Geometry words) (m : Memory) :
    (b.AllocSearches words lockBtrReport m ↔
      b.bmp.toNat + 4 * words = 2 ^ 32 ∧ b.NoneSet words m) ∧
    (b.AllocSearches words oldValue m ↔
      b.bmp.toNat + 4 * words < 2 ^ 32 ∧ 0 < words ∧ read32 m b.bmp ≠ 0 ∨
      b.bmp.toNat + 4 * words = 2 ^ 32 ∧ b.NoneSet words m) := by
  have hroom := h.room
  by_cases hle : b.bmp ≤ b.bmp + b.bmpSize
  · have hlt := h.enters.mp hle
    have hne : b.bmp.toNat + 4 * words ≠ 2 ^ 32 := Nat.ne_of_lt hlt
    constructor
    · constructor
      · rintro ⟨k, m', p, hloop, -⟩
        rw [PhysMemAllocator.allocLoop_none hle] at hloop
        exact absurd hloop (by simp)
      · rintro ⟨htop, -⟩
        exact absurd htop hne
    · rw [h.allocSearches_oldValue hle]
      simp only [hlt, hne, true_and, false_and, or_false]
  · have htop : b.bmp.toNat + 4 * words = 2 ^ 32 := by
      have hnot := mt h.enters.mpr hle
      omega
    rw [allocSearches_wraps hle, allocSearches_wraps hle, htop]
    simp

theorem lowMemory_geometry {bmp : Address} (hroom : bmp.toNat + 512 ≤ 2 ^ 32) :
    (lowMemory bmp).Geometry 128 := by
  exact ⟨lowMemory_covers bmp, hroom⟩

/-- Pages 0 to 3 are free: the search never ends, and would take page 0. -/
theorem lowMemory_searches :
    ¬ (lowMemory 0x2000).AllocSearches 128 lockBtrReport (write32 (fun _ => 0) 0x2000 0xf) ∧
      (lowMemory 0x2000).AllocSearches 128 oldValue (write32 (fun _ => 0) 0x2000 0xf) := by
  have hiff := (lowMemory_geometry (by decide : (0x2000 : Address).toNat + 512 ≤ 2 ^ 32))
  have hfirst : read32 (write32 (fun _ => 0) 0x2000 0xf) 0x2000 ≠ 0 := by decide
  exact ⟨fun h => absurd ((hiff.allocSearches_iff _).1.mp h).1 (by decide),
    (hiff.allocSearches_iff _).2.mpr (Or.inl ⟨by decide, by decide, hfirst⟩)⟩

/-- Only page 33 is free, which has the second bit of the second word: the search never ends,
and would not end with another `lock_btr`. -/
theorem lowMemory_second_word :
    (lowMemory 0x2000).Geometry 128 ∧
      (lowMemory 0x2000).isSet (write32 (fun _ => 0) 0x2004 2) 33 = true ∧
      (∀ k, (lowMemory 0x2000).allocLoop lockBtrReport k (write32 (fun _ => 0) 0x2004 2) = none) ∧
      (∀ k, (lowMemory 0x2000).allocLoop oldValue k (write32 (fun _ => 0) 0x2004 2) = none) ∧
      ¬ (lowMemory 0x2000).AllocSearches 128 lockBtrReport (write32 (fun _ => 0) 0x2004 2) := by
  have hle : (lowMemory 0x2000).bmp ≤ (lowMemory 0x2000).bmp + (lowMemory 0x2000).bmpSize := by
    decide
  have hzero : read32 (write32 (fun _ => 0) 0x2004 2) (lowMemory 0x2000).bmp = 0 := by decide
  refine ⟨lowMemory_geometry (by decide), by decide, fun k => ?_,
    fun k => allocLoop_zero hle hzero oldValue k, ?_⟩
  · exact allocLoop_zero hle hzero lockBtrReport k
  · rintro ⟨k, m', p, hloop, -⟩
    rw [allocLoop_zero hle hzero] at hloop
    exact absurd hloop (by simp)

end

end PhysMemBitmap
end Tysos
