import Tysos.PhysMem.TwoPhase

/-!
# Taking and freeing a given page

`Alloc(paddr)` looks for the bit of its page from `base` on, `Free` from the bitmap on, and both
number pages by an `int`. So they need not mean the bit of the page, nor the same bit.
-/

namespace Tysos
open ByteMemory
set_option autoImplicit false

section Words
variable {m : Memory} {v w : Address} {bit : BitVec 32} (hbit : bit.toNat < 32)
include hbit

/-- Words that overlap have the bits of one number in different places. -/
theorem testBit_setBit : testBit (setBit m w bit) v bit = (testBit m v bit || v = w) := by
  rw [testBit_eq_byte _ _ hbit, getLsbD_setBit _ _ hbit _ (Nat.mod_lt _ (by omega)),
    testBit_eq_byte _ _ hbit]
  simp only [and_true, BitVec.add_left_inj]

theorem testBit_clearBit : testBit (clearBit m w bit) v bit = (testBit m v bit && v ≠ w) := by
  rw [testBit_eq_byte _ _ hbit, getLsbD_clearBit _ _ hbit _ (Nat.mod_lt _ (by omega)),
    testBit_eq_byte _ _ hbit, decide_not]
  simp only [and_true, BitVec.add_left_inj]

theorem clearBit_eq_self_iff : clearBit m w bit = m ↔ testBit m w bit = false := by
  constructor
  · intro h
    have hclear := testBit_clearBit (m := m) (v := w) (w := w) hbit
    rw [h] at hclear
    simpa using hclear
  · exact clearBit_eq_self hbit

theorem clearBit_eq_iff (hset : testBit m w bit = true) :
    clearBit m v bit = clearBit m w bit ↔ v = w := by
  constructor
  · intro h
    have hv := testBit_clearBit (m := m) (v := w) (w := v) hbit
    have hw := testBit_clearBit (m := m) (v := w) (w := w) hbit
    rw [h, hw, hset] at hv
    by_contra hne
    have hne' : w ≠ v := fun heq => hne heq.symm
    simp [hne'] at hv
  · rintro rfl
    rfl

theorem setBit_eq_iff : setBit m v bit = setBit m w bit ↔
    v = w ∨ testBit m v bit = true ∧ testBit m w bit = true := by
  constructor
  · intro h
    by_cases heq : v = w
    · exact Or.inl heq
    · have hv := testBit_setBit (m := m) (v := v) (w := w) hbit
      have hw := testBit_setBit (m := m) (v := w) (w := v) hbit
      have hv' := testBit_setBit (m := m) (v := v) (w := v) hbit
      have hw' := testBit_setBit (m := m) (v := w) (w := w) hbit
      have heq' : ¬ w = v := fun h => heq h.symm
      rw [← h, hv'] at hv
      rw [h, hw'] at hw
      exact Or.inr ⟨by simpa [heq] using hv, by simpa [heq'] using hw⟩
  · rintro (rfl | ⟨hv, hw⟩)
    · rfl
    · rw [setBit_eq_self hbit hv, setBit_eq_self hbit hw]

end Words

namespace PhysMemBitmap

/-- The word with the bit of the page at `p`. -/
def pageWord (b : PhysMemBitmap) (p : PhysAddr) : Address := b.bmp + b.bitno p / 32 * 4

/-- What `Alloc(p)` and `Free(p)` are to do: take the page if its bit is set, set its bit, and so
succeed once after each other. -/
structure PageCalls (b : PhysMemBitmap) (report : BtrReport) (m : Memory) (p : PhysAddr) :
    Prop where
  alloc : b.allocAt report m p =
    if b.isSet m (b.bitno p) then (clearBit m (b.pageWord p) (b.bitno p % 32), p) else (m, 0)
  free : b.free m p = setBit m (b.pageWord p) (b.bitno p % 32)
  again : (b.allocAt report (b.free m p) p).2 = p
  once : (b.allocAt report (b.allocAt report (b.free m p) p).1 p).2 = 0

section
variable {b : PhysMemBitmap} {p : PhysAddr} (hbase : b.base ≤ p) (hend : p < b.end_)
include hbase hend

theorem allocAt_inside (report : BtrReport) (m : Memory) : b.allocAt report m p =
    (clearBit m (b.base + (b.bitno p).sshiftRight 5 * 4) (b.bitno p % 32),
      if report (testBit m (b.base + (b.bitno p).sshiftRight 5 * 4) (b.bitno p % 32))
      then p else 0) := by
  rw [allocAt_eq_word, if_neg (BitVec.not_lt.mpr hbase), if_neg (BitVec.not_le.mpr hend)]

theorem free_inside (m : Memory) : b.free m p =
    setBit m (b.bmp + (b.bitno p).sshiftRight 5 * 4) (b.bitno p % 32) := by
  rw [free_eq_word, if_neg (BitVec.not_lt.mpr hbase), if_neg (BitVec.not_le.mpr hend)]

end

/-- A page number that is negative as an `int` names a word 2^29 bytes too low. -/
theorem signedWord_of_ge {n : BitVec 32} (h : 2 ^ 31 ≤ n.toNat) :
    n.sshiftRight 5 * 4 = n / 32 * 4 - 0x20000000 := by
  have hmsb : n.msb = true := BitVec.msb_eq_true_iff_two_mul_ge.mpr (by omega)
  have hshift := BitVec.toNat_sshiftRight_of_msb_true (n := 5) hmsb
  have h4 : (4 : BitVec 32).toNat = 4 := rfl
  have hfar : (0x20000000 : BitVec 32).toNat = 0x20000000 := rfl
  rw [Nat.shiftRight_eq_div_pow] at hshift
  have hn := n.isLt
  apply BitVec.eq_of_toNat_eq
  rw [BitVec.toNat_sub, (page_toNat n).1, BitVec.toNat_mul, hshift, h4, hfar]
  omega

theorem far_ne (w : Address) : w - 0x20000000 ≠ w := by bv_omega

theorem far_word (a w : Address) : a + (w - 0x20000000) = a + w - 0x20000000 := by bv_omega

theorem far_eq_iff (a a' w : Address) :
    a + (w - 0x20000000) = a' + w ↔ a = a' + 0x20000000 := by bv_omega

/-- The words are compared with the word of the page: `v` is the one that `Alloc` changes. -/
theorem allocAt_correct_iff (report : BtrReport) (m : Memory) (v w : Address) {bit : BitVec 32}
    (hbit : bit.toNat < 32) (p : PhysAddr) :
    (clearBit m v bit, if report (testBit m v bit) then p else 0) =
        (if testBit m w bit then (clearBit m w bit, p) else (m, 0)) ↔
      if testBit m w bit then v = w ∧ (report true = true ∨ p = 0)
      else testBit m v bit = false ∧ (report false = false ∨ p = 0) := by
  cases hw : testBit m w bit with
  | true =>
    simp only [if_true, Prod.mk.injEq, clearBit_eq_iff hbit hw]
    refine and_congr_right fun heq => ?_
    rw [heq, hw]
    cases report true with
    | true => simp
    | false => simpa using (eq_comm : 0 = p ↔ p = 0)
  | false =>
    simp only [Bool.false_eq_true, if_false, Prod.mk.injEq, clearBit_eq_self_iff hbit]
    refine and_congr_right fun hv => ?_
    rw [hv]
    cases report false <;> simp

section
variable {b : PhysMemBitmap} {p : PhysAddr} (hbase : b.base ≤ p) (hend : p < b.end_)
include hbase hend

/-- `Alloc` finds what `Free` has set if the words are the same, or if the bit was set before. -/
theorem allocAt_free (report : BtrReport) (m : Memory) :
    (b.allocAt report (b.free m p) p).2 =
        (if report (testBit m (b.base + (b.bitno p).sshiftRight 5 * 4) (b.bitno p % 32) ||
          b.base = b.bmp) then p else 0) ∧
      (b.allocAt report (b.allocAt report (b.free m p) p).1 p).2 =
        if report false then p else 0 := by
  have hbit := page_bit_lt (b.bitno p)
  rw [allocAt_inside hbase hend, allocAt_inside hbase hend, free_inside hbase hend]
  dsimp only
  rw [testBit_clearBit hbit, testBit_setBit hbit]
  simp

theorem pageCalls_of_lt (hno : (b.bitno p).toNat < 2 ^ 31) (report : BtrReport) (m : Memory) :
    b.PageCalls report m p ↔
      (if b.isSet m (b.bitno p) then b.base = b.bmp ∧ (report true = true ∨ p = 0)
        else testBit m (b.base + b.bitno p / 32 * 4) (b.bitno p % 32) = false ∧
          (report false = false ∨ p = 0)) ∧
      (report (testBit m (b.base + b.bitno p / 32 * 4) (b.bitno p % 32) || b.base = b.bmp) = true ∨
        p = 0) ∧
      (report false = false ∨ p = 0) := by
  have hbit := page_bit_lt (b.bitno p)
  have hfree : b.free m p = setBit m (b.pageWord p) (b.bitno p % 32) := by
    rw [free_inside hbase hend, sshiftRight_of_lt hno]
    rfl
  have halloc := allocAt_inside hbase hend report m
  obtain ⟨hagain, honce⟩ := allocAt_free hbase hend report m
  have hcorrect := allocAt_correct_iff report m (b.base + b.bitno p / 32 * 4) (b.pageWord p)
    hbit p
  have hwords : b.base + b.bitno p / 32 * 4 = b.pageWord p ↔ b.base = b.bmp :=
    BitVec.add_left_inj _
  have hreport : ∀ c : Bool, (if c then p else 0) = p ↔ c = true ∨ p = 0 := by
    intro c
    cases c with
    | true => simp
    | false => simpa using (eq_comm : 0 = p ↔ p = 0)
  have hzero : ∀ c : Bool, (if c then p else 0) = 0 ↔ c = false ∨ p = 0 := by
    intro c
    cases c <;> simp
  rw [sshiftRight_of_lt hno] at halloc hagain
  rw [hwords] at hcorrect
  have hset : b.isSet m (b.bitno p) = testBit m (b.pageWord p) (b.bitno p % 32) := rfl
  rw [hset, ← hcorrect, ← halloc, ← hreport, ← hagain, ← hzero, ← honce, ← hset]
  exact ⟨fun h => ⟨h.alloc, h.again, h.once⟩, fun h => ⟨h.1, hfree, h.2.1, h.2.2⟩⟩

/-- A page number that is negative: `Free` sets the bit of another page as well. -/
theorem pageCalls_of_ge (hno : 2 ^ 31 ≤ (b.bitno p).toNat) (m : Memory) :
    b.PageCalls oldValue m p ↔ b.base = b.bmp + 0x20000000 ∧
      b.isSet m (b.bitno p) = true ∧
      testBit m (b.pageWord p - 0x20000000) (b.bitno p % 32) = true := by
  have hbit := page_bit_lt (b.bitno p)
  have hfar : b.bmp + (b.bitno p).sshiftRight 5 * 4 = b.pageWord p - 0x20000000 := by
    unfold pageWord
    rw [signedWord_of_ge hno, far_word]
  have hwords : b.base + (b.bitno p).sshiftRight 5 * 4 = b.pageWord p ↔
      b.base = b.bmp + 0x20000000 := by
    unfold pageWord
    rw [signedWord_of_ge hno, far_eq_iff]
  have hfree : b.free m p = setBit m (b.pageWord p) (b.bitno p % 32) ↔
      testBit m (b.pageWord p - 0x20000000) (b.bitno p % 32) = true ∧
        b.isSet m (b.bitno p) = true := by
    rw [free_inside hbase hend, hfar, setBit_eq_iff hbit]
    exact or_iff_right (far_ne _)
  have halloc : b.isSet m (b.bitno p) = true → (b.allocAt oldValue m p =
      (if b.isSet m (b.bitno p) then (clearBit m (b.pageWord p) (b.bitno p % 32), p)
        else (m, 0)) ↔ b.base = b.bmp + 0x20000000) := by
    intro hset
    have hcorrect := allocAt_correct_iff oldValue m (b.base + (b.bitno p).sshiftRight 5 * 4)
      (b.pageWord p) hbit p
    have hset' : testBit m (b.pageWord p) (b.bitno p % 32) = true := hset
    rw [hset', if_pos rfl, if_pos rfl, hwords] at hcorrect
    rw [allocAt_inside hbase hend, hset, if_pos rfl, hcorrect]
    exact and_iff_left (Or.inl rfl)
  obtain ⟨hagain, honce⟩ := allocAt_free hbase hend oldValue m
  constructor
  · intro h
    obtain ⟨hother, hset⟩ := hfree.mp h.free
    exact ⟨(halloc hset).mp h.alloc, hset, hother⟩
  · rintro ⟨hplace, hset, hother⟩
    have hset' : testBit m (b.pageWord p) (b.bitno p % 32) = true := hset
    rw [hwords.mpr hplace, hset', Bool.true_or] at hagain
    exact ⟨(halloc hset).mpr hplace, hfree.mpr ⟨hother, hset⟩, hagain, honce⟩

theorem zero_page (hp : p = 0) (m : Memory) :
    b.base = 0 ∧ (b.bitno p).toNat < 2 ^ 31 ∧ b.isSet m (b.bitno p) = testBit m b.bmp 0 ∧
      testBit m (b.base + b.bitno p / 32 * 4) (b.bitno p % 32) = testBit m 0 0 := by
  subst p
  have hb : b.base = 0 := BitVec.le_zero_iff.mp hbase
  have hn : b.bitno 0 = 0 := by
    unfold bitno
    rw [hb]
    exact BitVec.zero_udiv
  unfold isSet
  rw [hb, hn]
  simp

theorem pageCalls_lockBtrReport (m : Memory) : b.PageCalls lockBtrReport m p ↔
    p = 0 ∧ (b.bmp = 0 ∨ testBit m b.bmp 0 = false ∧ testBit m 0 0 = false) := by
  constructor
  · intro h
    have hp : p = 0 := by
      have hagain := (allocAt_free hbase hend lockBtrReport m).1
      rw [h.again] at hagain
      exact hagain
    obtain ⟨hb, hn, hset, hother⟩ := zero_page hbase hend hp m
    have hcalls := ((pageCalls_of_lt hbase hend hn lockBtrReport m).mp h).1
    rw [hset, hother, hb] at hcalls
    refine ⟨hp, ?_⟩
    split at hcalls
    · exact Or.inl hcalls.1.symm
    · rename_i hfirst
      exact Or.inr ⟨Bool.eq_false_iff.mpr hfirst, hcalls.1⟩
  · rintro ⟨hp, hwhere⟩
    obtain ⟨hb, hn, hset, hother⟩ := zero_page hbase hend hp m
    rw [pageCalls_of_lt hbase hend hn, hset, hother, hb]
    refine ⟨?_, Or.inr hp, Or.inr hp⟩
    split
    · rename_i hfirst
      rcases hwhere with hbmp | ⟨hclear, -⟩
      · exact ⟨hbmp.symm, Or.inr hp⟩
      · exact absurd hfirst (by rw [hclear]; simp)
    · rename_i hfirst
      rcases hwhere with hbmp | ⟨-, hclear⟩
      · rw [hbmp] at hfirst
        exact ⟨Bool.eq_false_iff.mpr hfirst, Or.inr hp⟩
      · exact ⟨hclear, Or.inr hp⟩

theorem pageCalls_oldValue (hno : (b.bitno p).toNat < 2 ^ 31) (m : Memory) :
    b.PageCalls oldValue m p ↔ b.base = b.bmp ∨
      p = 0 ∧ testBit m b.bmp 0 = false ∧ testBit m 0 0 = false := by
  rw [pageCalls_of_lt hbase hend hno]
  by_cases hplace : b.base = b.bmp
  · have hsame : testBit m (b.base + b.bitno p / 32 * 4) (b.bitno p % 32) =
        b.isSet m (b.bitno p) := by
      rw [hplace]
      rfl
    rw [hsame]
    simp only [hplace, oldValue, true_or, iff_true]
    cases b.isSet m (b.bitno p) <;> simp
  · simp only [hplace, oldValue, false_or, id_eq, true_or, and_true]
    constructor
    · rintro ⟨hif, hagain⟩
      split at hif
      · exact hif.elim
      · rename_i hclear
        have hp : p = 0 := hagain.resolve_left (by rw [hif]; simp)
        obtain ⟨-, -, hset, hother⟩ := zero_page hbase hend hp m
        rw [hset] at hclear
        rw [hother] at hif
        exact ⟨hp, Bool.eq_false_iff.mpr hclear, hif⟩
    · rintro ⟨hp, hclear, hother⟩
      obtain ⟨-, -, hset, hother'⟩ := zero_page hbase hend hp m
      rw [hset, hclear, hother', hother]
      exact ⟨rfl, Or.inr hp⟩

/-- As they are, the calls do what they are to do for no page but the one at 0, which they cannot
tell from a failure. With another `lock_btr` the bitmap has to be at `base` itself. -/
theorem pageCalls_iff (m : Memory) :
    (b.PageCalls lockBtrReport m p ↔
      p = 0 ∧ (b.bmp = 0 ∨ testBit m b.bmp 0 = false ∧ testBit m 0 0 = false)) ∧
    (b.PageCalls oldValue m p ↔
      (b.bitno p).toNat < 2 ^ 31 ∧ (b.base = b.bmp ∨
        p = 0 ∧ testBit m b.bmp 0 = false ∧ testBit m 0 0 = false) ∨
      2 ^ 31 ≤ (b.bitno p).toNat ∧ b.base = b.bmp + 0x20000000 ∧
        b.isSet m (b.bitno p) = true ∧
        testBit m (b.pageWord p - 0x20000000) (b.bitno p % 32) = true) := by
  refine ⟨pageCalls_lockBtrReport hbase hend m, ?_⟩
  rcases Nat.lt_or_ge (b.bitno p).toNat (2 ^ 31) with hno | hno
  · have hge : ¬ 2 ^ 31 ≤ (b.bitno p).toNat := Nat.not_le.mpr hno
    simp only [hno, hge, true_and, false_and, or_false]
    exact pageCalls_oldValue hbase hend hno m
  · have hlt : ¬ (b.bitno p).toNat < 2 ^ 31 := Nat.not_lt.mpr hno
    simp only [hno, hlt, true_and, false_and, false_or]
    exact pageCalls_of_ge hbase hend hno m

end

/-- Page 0 is not free, and neither is bit 0 of memory set. -/
theorem lowMemory_page_zero :
    (lowMemory 0x2000).PageCalls lockBtrReport (fun _ => 0) 0 ∧
      (lowMemory 0x2000).PageCalls oldValue (fun _ => 0) 0 := by
  have hiff := pageCalls_iff (by decide : (lowMemory 0x2000).base ≤ 0)
    (by decide : (0 : PhysAddr) < (lowMemory 0x2000).end_) (fun _ => 0)
  exact ⟨hiff.1.mpr ⟨rfl, Or.inr ⟨by decide, by decide⟩⟩,
    hiff.2.mpr (Or.inl ⟨by decide, Or.inr ⟨rfl, by decide, by decide⟩⟩)⟩

/-- Page 1 is free: `Alloc` fails, and clears bit 1 of the word at 0. -/
theorem lowMemory_page_one :
    (lowMemory 0x2000).base ≤ 0x1000 ∧ (0x1000 : PhysAddr) < (lowMemory 0x2000).end_ ∧
      (lowMemory 0x2000).isSet (fun _ => 0xff) 1 = true ∧
      ((lowMemory 0x2000).allocAt lockBtrReport (fun _ => 0xff) 0x1000).2 = 0 ∧
      ((lowMemory 0x2000).allocAt lockBtrReport (fun _ => 0xff) 0x1000).1 0 = 0xfd ∧
      ¬ (lowMemory 0x2000).PageCalls lockBtrReport (fun _ => 0xff) 0x1000 := by
  refine ⟨by decide, by decide, by decide, by decide, by decide, fun h => ?_⟩
  have hagain : (0 : PhysAddr) = 0x1000 := h.again
  exact absurd hagain (by decide)

end PhysMemBitmap
end Tysos
