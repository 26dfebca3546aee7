import Tysos.Support.ByteMemory
import Tysos.Memory.Section

/-!
# The two stores of free pages

`PhysMemStack`, a list of pages threaded through their own first words, and
`PhysMemBitmap`, one bit for each page of a region. Both work on the physical memory they
are given and return it; the locks are left out, since calls run one at a time.
-/

namespace Tysos
open ByteMemory
set_option autoImplicit false

abbrev PhysAddr := BitVec 32

/-- What `lock_btr` returns, given the old value of the bit it clears. -/
abbrev BtrReport := Bool → Bool

/-- The inline assembly sets its result to 0 with `xorl`, which clears the carry flag, before
it adds the carry to it. -/
def lockBtrReport : BtrReport := fun _ => false

def testBit (m : Memory) (byte : Address) (bit : BitVec 32) : Bool :=
  (read32 m byte >>> bit) &&& 1 ≠ 0

/-- The memory with one bit set. -/
def setBit (m : Memory) (w : Address) (bit : BitVec 32) : Memory :=
  write32 m w (read32 m w ||| (1#32 <<< bit))

/-- The memory with one bit cleared. -/
def clearBit (m : Memory) (w : Address) (bit : BitVec 32) : Memory :=
  write32 m w (read32 m w &&& ~~~(1#32 <<< bit))

/-- The word with the bit: `bts` and `btr` count a bit number in a register from `byte` on, and a
negative one backwards. -/
def bitWord (byte : Address) (bit : BitVec 32) : Address := byte + bit.sshiftRight 5 * 4

def lockBts (m : Memory) (byte : Address) (bit : BitVec 32) : Memory :=
  setBit m (bitWord byte bit) (bit % 32)

def lockBtr (report : BtrReport) (m : Memory) (byte : Address) (bit : BitVec 32) :
    Memory × Bool :=
  (clearBit m (bitWord byte bit) (bit % 32), report (testBit m (bitWord byte bit) (bit % 32)))

section Words

theorem sshiftRight_of_lt {x : BitVec 32} (h : x.toNat < 2 ^ 31) : x.sshiftRight 5 = x / 32 := by
  have hmsb : x.msb = false := BitVec.msb_eq_false_iff_two_mul_lt.mpr (by omega)
  apply BitVec.eq_of_toNat_eq
  rw [BitVec.toNat_sshiftRight_of_msb_false hmsb, Nat.shiftRight_eq_div_pow, BitVec.toNat_udiv]
  rfl

theorem first_word {bit : BitVec 32} (h : bit.toNat < 32) (a : Address) :
    a + bit / 32 * 4 = a := by
  have hzero : bit / 32 = 0 := BitVec.eq_of_toNat_eq (Nat.div_eq_of_lt h)
  rw [hzero]
  simp

theorem bitWord_of_lt {bit : BitVec 32} (h : bit.toNat < 32) (byte : Address) :
    bitWord byte bit = byte := by
  unfold bitWord
  rw [sshiftRight_of_lt (by omega), first_word h]

theorem mod_of_lt {bit : BitVec 32} (h : bit.toNat < 32) : bit % 32 = bit :=
  BitVec.eq_of_toNat_eq (Nat.mod_eq_of_lt h)

theorem lockBtr_eq {bit : BitVec 32} (h : bit.toNat < 32) (report : BtrReport) (m : Memory)
    (byte : Address) :
    lockBtr report m byte bit = (clearBit m byte bit, report (testBit m byte bit)) := by
  unfold lockBtr
  rw [bitWord_of_lt h, mod_of_lt h]

theorem toInt_emod (x : BitVec 32) : ((x % 32).toNat : Int) = x.toInt % 32 := by
  have h32 : (32 : BitVec 32).toNat = 32 := rfl
  rw [BitVec.toNat_umod, h32, BitVec.toInt_eq_toNat_cond]
  split <;> omega

/-- Quotient and remainder of an `int` lead to the word and the bit that its bits name. -/
theorem bitWord_sdiv (a : Address) (x : BitVec 32) :
    bitWord (a + x.sdiv 32 * 4) (x.srem 32) = a + x.sshiftRight 5 * 4 ∧
      x.srem 32 % 32 = x % 32 := by
  have h32 : (32 : BitVec 32).toInt = 32 := by decide
  have hshift : ∀ y : BitVec 32, (y.sshiftRight 5).toInt = y.toInt / 32 := by
    intro y
    rw [BitVec.toInt_sshiftRight, Int.shiftRight_eq_div_pow]
    rfl
  have hrem : (x.srem 32).toInt = x.toInt.tmod 32 := by rw [BitVec.toInt_srem, h32]
  have hdiv : (x.sdiv 32).toInt = x.toInt.tdiv 32 := by
    rw [BitVec.toInt_sdiv_of_ne_or_ne _ _ (Or.inr (by decide)), h32]
  constructor
  · have hsum : x.sdiv 32 + (x.srem 32).sshiftRight 5 = x.sshiftRight 5 := by
      have hparts : x.toInt.tdiv 32 + x.toInt.tmod 32 / 32 = x.toInt / 32 := by
        rw [Int.tdiv_eq_ediv, Int.tmod_eq_emod]
        split
        · omega
        · have hsign : (32 : Int).sign = 1 := rfl
          omega
      rw [← BitVec.ofInt_toInt (x := x.sdiv 32),
        ← BitVec.ofInt_toInt (x := (x.srem 32).sshiftRight 5),
        ← BitVec.ofInt_toInt (x := x.sshiftRight 5), ← BitVec.ofInt_add, hshift, hshift, hdiv,
        hrem, hparts]
    unfold bitWord
    rw [← hsum]
    generalize x.sdiv 32 = d
    generalize (x.srem 32).sshiftRight 5 = e
    bv_omega
  · have hmod : x.toInt.tmod 32 % 32 = x.toInt % 32 := by
      rw [Int.tmod_eq_emod]
      split <;> omega
    apply BitVec.eq_of_toNat_eq
    have hleft := toInt_emod (x.srem 32)
    rw [hrem, hmod, ← toInt_emod x] at hleft
    exact Int.ofNat.inj hleft

end Words

theorem testBit_eq (m : Memory) (byte : Address) (bit : BitVec 32) :
    testBit m byte bit = (read32 m byte).getLsbD bit.toNat := by
  have hbool : ∀ b : Bool, decide (BitVec.setWidth 32 (BitVec.ofBool b) ≠ 0) = b := by decide
  unfold testBit
  rw [BitVec.ofNat_eq_ofNat, BitVec.and_one_eq_setWidth_ofBool_getLsbD, hbool,
    BitVec.ushiftRight_eq', BitVec.getLsbD_ushiftRight, Nat.add_zero]

theorem div_eight (x : BitVec 32) : x / 8 = BitVec.ofNat 32 (x.toNat / 8) := by
  have hx := x.isLt
  apply BitVec.eq_of_toNat_eq
  rw [BitVec.toNat_udiv, BitVec.toNat_ofNat, Nat.mod_eq_of_lt (by omega)]
  rfl

section Byte
variable (m : Memory) (w : Address) {bit : BitVec 32} (hbit : bit.toNat < 32)
include hbit

theorem testBit_eq_byte :
    testBit m w bit = (m (w + bit / 8)).getLsbD (bit.toNat % 8) := by
  have hsplit : bit.toNat = 8 * (bit.toNat / 8) + bit.toNat % 8 := by omega
  rw [testBit_eq, div_eight, ← getLsbD_read32 m w (by omega) (by omega), ← hsplit]

/-- A word is written that differs from the old one by `f` in one bit. -/
theorem getLsbD_write_bit {v : BitVec 32} {f : Bool → Bool → Bool} (hf : ∀ b, f b false = b)
    (hv : ∀ j < 32, v.getLsbD j = f ((read32 m w).getLsbD j) (j = bit.toNat)) (x : Address)
    {i : Nat} (hi : i < 8) : (write32 m w v x).getLsbD i =
      f ((m x).getLsbD i) (x = w + bit / 8 ∧ i = bit.toNat % 8) := by
  rw [div_eight]
  by_cases hin : InRange w 4 x
  · obtain ⟨k, hk, rfl⟩ : ∃ k < 4, x = w + BitVec.ofNat 32 k :=
      ⟨(x - w).toNat, hin, by bv_omega⟩
    have hbit : 8 * k + i = bit.toNat ↔
        w + BitVec.ofNat 32 k = w + BitVec.ofNat 32 (bit.toNat / 8) ∧ i = bit.toNat % 8 := by
      bv_omega
    rw [getLsbD_write32 m w v hk hi, hv _ (by omega), getLsbD_read32 m w hk hi]
    simp only [hbit]
  · have hne : ¬ (x = w + BitVec.ofNat 32 (bit.toNat / 8) ∧ i = bit.toNat % 8) := by
      rintro ⟨rfl, -⟩
      apply hin
      unfold InRange
      bv_omega
    rw [write32_of_not_inRange hin, decide_eq_false hne, hf]

theorem getLsbD_setBit (x : Address) {i : Nat} (hi : i < 8) : (setBit m w bit x).getLsbD i =
    ((m x).getLsbD i || (x = w + bit / 8 ∧ i = bit.toNat % 8 : Bool)) := by
  refine getLsbD_write_bit m w hbit Bool.or_false (fun j hj => ?_) x hi
  rw [BitVec.getLsbD_or, BitVec.getLsbD_shiftLeft', BitVec.getLsbD_one]
  congr 1
  by_cases heq : j = bit.toNat
  · subst j
    simp [hj]
  · simp [hj, heq]
    omega

theorem getLsbD_clearBit (x : Address) {i : Nat} (hi : i < 8) : (clearBit m w bit x).getLsbD i =
    ((m x).getLsbD i && !(x = w + bit / 8 ∧ i = bit.toNat % 8 : Bool)) := by
  refine getLsbD_write_bit (f := fun b c => b && !c) m w hbit (by simp) (fun j hj => ?_) x hi
  rw [BitVec.getLsbD_and, BitVec.getLsbD_not, BitVec.getLsbD_shiftLeft', BitVec.getLsbD_one]
  congr 1
  by_cases heq : j = bit.toNat
  · subst j
    simp [hj]
  · simp [hj, heq]
    omega

variable {m w}

theorem setBit_eq_self (h : testBit m w bit = true) : setBit m w bit = m := by
  refine memory_ext fun x i hi => ?_
  rw [getLsbD_setBit m w hbit x hi]
  by_cases hhere : x = w + bit / 8 ∧ i = bit.toNat % 8
  · rw [testBit_eq_byte m w hbit, ← hhere.1, ← hhere.2] at h
    rw [h, Bool.true_or]
  · rw [decide_eq_false hhere, Bool.or_false]

theorem clearBit_eq_self (h : testBit m w bit = false) : clearBit m w bit = m := by
  refine memory_ext fun x i hi => ?_
  rw [getLsbD_clearBit m w hbit x hi]
  by_cases hhere : x = w + bit / 8 ∧ i = bit.toNat % 8
  · rw [testBit_eq_byte m w hbit, ← hhere.1, ← hhere.2] at h
    rw [h, Bool.false_and]
  · rw [decide_eq_false hhere, Bool.not_false, Bool.and_true]

theorem setBit_clearBit (h : testBit m w bit = true) :
    setBit (clearBit m w bit) w bit = m := by
  refine memory_ext fun x i hi => ?_
  rw [getLsbD_setBit _ _ hbit x hi, getLsbD_clearBit _ _ hbit x hi]
  by_cases hhere : x = w + bit / 8 ∧ i = bit.toNat % 8
  · rw [testBit_eq_byte m w hbit, ← hhere.1, ← hhere.2] at h
    rw [h, decide_eq_true hhere, Bool.or_true]
  · rw [decide_eq_false hhere, Bool.not_false, Bool.and_true, Bool.or_false]

end Byte
structure PhysMemStack where
  top : PhysAddr

namespace PhysMemStack

def beginPop (s : PhysMemStack) : PhysAddr := if s.top = 0 then 0 else s.top

/-- The page is read at the address `paddr`, where it is mapped. -/
def endPop (_s : PhysMemStack) (m : Memory) (paddr : PhysAddr) : PhysMemStack :=
  { top := read32 m paddr }

def popPage (s : PhysMemStack) (m : Memory) : PhysMemStack × PhysAddr :=
  (s.endPop m s.beginPop, s.beginPop)

def pushPage (s : PhysMemStack) (m : Memory) (paddr : PhysAddr) : PhysMemStack × Memory :=
  if paddr = 0 then (s, m) else ({ top := paddr }, write32 m paddr s.top)

end PhysMemStack

structure PhysMemBitmap where
  bmp : Address
  base : PhysAddr
  end_ : PhysAddr
  ps : BitVec 32
  bmpSize : BitVec 32

namespace PhysMemBitmap

def init (m : Memory) (bitmapMemory : Address) (bitmapBase bitmapEnd pageSize : BitVec 32) :
    PhysMemBitmap × Memory :=
  let bmpSize := (bitmapEnd - bitmapBase) / (pageSize * 8)
  (⟨bitmapMemory, bitmapBase, bitmapEnd, pageSize, bmpSize⟩, fill m bitmapMemory bmpSize.toNat 0)

/-- The page number of an address of the region, an `int` in what follows. -/
def bitno (b : PhysMemBitmap) (paddr : PhysAddr) : BitVec 32 := (paddr - b.base) / b.ps

/-- The word is looked for from `base` on, not in the bitmap. -/
def allocAt (b : PhysMemBitmap) (report : BtrReport) (m : Memory) (paddr : PhysAddr) :
    Memory × PhysAddr :=
  if paddr < b.base then (m, 0)
  else if paddr ≥ b.end_ then (m, 0)
  else
    let bit := (b.bitno paddr).srem 32
    let dw := (b.bitno paddr).sdiv 32
    let (m, ok) := lockBtr report m (b.base + dw * 4) bit
    if !ok then (m, 0) else (m, paddr)

/-- The `for` loop of `Alloc` over the bits from `i` on of the word at `off`. -/
def allocBits (b : PhysMemBitmap) (report : BtrReport) (off : Address) :
    Nat → BitVec 32 → Memory → Memory × Option PhysAddr
  | 0, _, m => (m, none)
  | k + 1, i, m =>
    if testBit m off i then
      let (m, ok) := lockBtr report m off i
      if ok then (m, some (((off - b.bmp) * 32 + i) * b.ps + b.base))
      else allocBits b report off k (i + 1) m
    else allocBits b report off k (i + 1) m

/-- The `while` loop of `Alloc`, which never moves on to the next word. -/
def allocLoop (b : PhysMemBitmap) (report : BtrReport) : Nat → Memory → Option (Memory × PhysAddr)
  | 0, _ => none
  | k + 1, m =>
    let off := b.bmp
    if off ≤ b.bmp + b.bmpSize then
      if read32 m off ≠ 0 then
        match b.allocBits report off 32 0 m with
        | (m, some paddr) => some (m, paddr)
        | (m, none) => allocLoop b report k m
      else allocLoop b report k m
    else some (m, 0)

def free (b : PhysMemBitmap) (m : Memory) (paddr : PhysAddr) : Memory :=
  if paddr < b.base then m
  else if paddr ≥ b.end_ then m
  else
    let bit := (b.bitno paddr).srem 32
    let dw := (b.bitno paddr).sdiv 32
    lockBts m (b.bmp + dw * 4) bit

/-- The bit of page number `j`. -/
def isSet (b : PhysMemBitmap) (m : Memory) (j : BitVec 32) : Bool :=
  testBit m (b.bmp + j / 32 * 4) (j % 32)

/-- The inner loop of `AllocRange`: the first of the `k` pages from `j` on that is in use. -/
def firstUsed (b : PhysMemBitmap) (m : Memory) : Nat → BitVec 32 → Option (BitVec 32)
  | 0, _ => none
  | k + 1, j => if b.isSet m j then firstUsed b m k (j + 1) else some j

def allocRangeLoop (b : PhysMemBitmap) (m : Memory) (pages : BitVec 32) :
    Nat → BitVec 32 → Option PhysAddr
  | 0, _ => none
  | k + 1, i =>
    if i < b.bmpSize * 8 - pages then
      match b.firstUsed m ((i + pages).toNat - i.toNat) i with
      | some j => allocRangeLoop b m pages k (j + 1)
      | none => some (b.base + i * b.ps)
    else some 0

/-- The number of pages for `length` bytes. -/
def pageCount (b : PhysMemBitmap) (length : BitVec 32) : BitVec 32 := (length + b.ps - 1) / b.ps

/-- No bit is cleared. -/
def allocRange (b : PhysMemBitmap) (m : Memory) (length : BitVec 32) : Option PhysAddr :=
  allocRangeLoop b m (b.pageCount length)
    ((b.bmpSize * 8 - b.pageCount length).toNat + 1) 0

section Words
variable (b : PhysMemBitmap) (m : Memory) {paddr : PhysAddr}

theorem free_eq_word (paddr : PhysAddr) : b.free m paddr =
    if paddr < b.base then m
    else if paddr ≥ b.end_ then m
    else setBit m (b.bmp + (b.bitno paddr).sshiftRight 5 * 4) (b.bitno paddr % 32) := by
  obtain ⟨hword, hbit⟩ := bitWord_sdiv b.bmp (b.bitno paddr)
  unfold free lockBts
  dsimp only
  rw [hword, hbit]

theorem allocAt_eq_word (report : BtrReport) (paddr : PhysAddr) : b.allocAt report m paddr =
    if paddr < b.base then (m, 0)
    else if paddr ≥ b.end_ then (m, 0)
    else (clearBit m (b.base + (b.bitno paddr).sshiftRight 5 * 4) (b.bitno paddr % 32),
      if report (testBit m (b.base + (b.bitno paddr).sshiftRight 5 * 4) (b.bitno paddr % 32))
      then paddr else 0) := by
  obtain ⟨hword, hbit⟩ := bitWord_sdiv b.base (b.bitno paddr)
  unfold allocAt lockBtr
  dsimp only
  rw [hword, hbit]
  cases report _ <;> rfl

variable (h : (b.bitno paddr).toNat < 2 ^ 31)
include h

/-- The page numbers that an `int` holds lead to the word of the page. -/
theorem free_eq : b.free m paddr =
    if paddr < b.base then m
    else if paddr ≥ b.end_ then m
    else setBit m (b.bmp + b.bitno paddr / 32 * 4) (b.bitno paddr % 32) := by
  rw [free_eq_word, sshiftRight_of_lt h]

theorem allocAt_eq (report : BtrReport) : b.allocAt report m paddr =
    if paddr < b.base then (m, 0)
    else if paddr ≥ b.end_ then (m, 0)
    else (clearBit m (b.base + b.bitno paddr / 32 * 4) (b.bitno paddr % 32),
      if report (testBit m (b.base + b.bitno paddr / 32 * 4) (b.bitno paddr % 32))
      then paddr else 0) := by
  rw [allocAt_eq_word, sshiftRight_of_lt h]

end Words

section Pages
variable (b : PhysMemBitmap) (m : Memory)

/-- The word of page `j`, and its bit in that word. -/
theorem page_toNat (j : BitVec 32) :
    (j / 32 * 4).toNat = j.toNat / 32 * 4 ∧ (j % 32).toNat = j.toNat % 32 := by
  have h32 : (32 : BitVec 32).toNat = 32 := rfl
  have h4 : (4 : BitVec 32).toNat = 4 := rfl
  have hj := j.isLt
  rw [BitVec.toNat_mul, BitVec.toNat_udiv, BitVec.toNat_umod, h32, h4]
  omega

theorem page_bit_lt (j : BitVec 32) : (j % 32).toNat < 32 := by
  rw [(page_toNat j).2]
  omega

theorem page_byte (a : Address) (j : BitVec 32) :
    a + j / 32 * 4 + j % 32 / 8 = a + j / 8 ∧ (j % 32).toNat % 8 = j.toNat % 8 := by
  obtain ⟨hword, hbit⟩ := page_toNat j
  have hj := j.isLt
  constructor
  · rw [BitVec.add_assoc]
    congr 1
    apply BitVec.eq_of_toNat_eq
    rw [BitVec.toNat_add, hword, div_eight, div_eight, hbit, BitVec.toNat_ofNat,
      BitVec.toNat_ofNat]
    omega
  · rw [hbit]
    omega

theorem isSet_eq_byte (j : BitVec 32) :
    b.isSet m j = (m (b.bmp + j / 8)).getLsbD (j.toNat % 8) := by
  obtain ⟨hbyte, hbit⟩ := page_byte b.bmp j
  unfold isSet
  rw [testBit_eq_byte _ _ (page_bit_lt j), hbyte, hbit]

theorem page_place (a : Address) (j k : BitVec 32) :
    (a + j / 8 = a + k / 32 * 4 + k % 32 / 8 ∧ j.toNat % 8 = (k % 32).toNat % 8) ↔ j = k := by
  obtain ⟨hbyte, hbit⟩ := page_byte a k
  rw [hbyte, hbit, div_eight, div_eight]
  constructor
  · rintro ⟨hb, hm⟩
    bv_omega
  · rintro rfl
    exact ⟨rfl, rfl⟩

/-- Setting the bit of a page sets no other. -/
theorem isSet_setBit (j k : BitVec 32) :
    b.isSet (setBit m (b.bmp + k / 32 * 4) (k % 32)) j = (b.isSet m j || j = k) := by
  rw [isSet_eq_byte, getLsbD_setBit _ _ (page_bit_lt k) _ (Nat.mod_lt _ (by omega)),
    isSet_eq_byte]
  simp only [page_place]

/-- Clearing the bit of a page clears no other. -/
theorem isSet_clearBit (j k : BitVec 32) :
    b.isSet (clearBit m (b.bmp + k / 32 * 4) (k % 32)) j = (b.isSet m j && j ≠ k) := by
  rw [isSet_eq_byte, getLsbD_clearBit _ _ (page_bit_lt k) _ (Nat.mod_lt _ (by omega)),
    isSet_eq_byte, decide_not]
  simp only [page_place]

/-- The word of a page is in the bitmap. -/
theorem word_inRange {n : Nat} {j : BitVec 32} (hj : j.toNat < 8 * n) (hn : n % 4 = 0)
    {x : Address} (hx : InRange (b.bmp + j / 32 * 4) 4 x) : InRange b.bmp n x := by
  have hword := (page_toNat j).1
  unfold InRange at hx ⊢
  bv_omega

theorem isSet_congr {b : PhysMemBitmap} {m m' : Memory} {n : Nat} (hn : n % 4 = 0)
    (hsame : ∀ x, InRange b.bmp n x → m' x = m x) {j : BitVec 32} (hj : j.toNat < 8 * n) :
    b.isSet m' j = b.isSet m j := by
  unfold isSet testBit
  rw [read32_congr fun x hx => hsame x (b.word_inRange hj hn hx)]

end Pages

/-- The bitmap has a bit for each of `pages` pages of the region. -/
structure Covers (b : PhysMemBitmap) (pages : Nat) : Prop where
  ps : 0 < b.ps.toNat
  size : b.bmpSize.toNat * 8 = pages
  region : b.base.toNat + pages * b.ps.toNat ≤ b.end_.toNat

section Covers

theorem init_covers (m : Memory) {bitmapMemory bitmapBase bitmapEnd pageSize : BitVec 32}
    (hle : bitmapBase ≤ bitmapEnd) (hps : 0 < pageSize.toNat)
    (hps' : 8 * pageSize.toNat < 2 ^ 32) :
    (init m bitmapMemory bitmapBase bitmapEnd pageSize).1.Covers
      ((init m bitmapMemory bitmapBase bitmapEnd pageSize).1.bmpSize.toNat * 8) := by
  refine ⟨hps, rfl, ?_⟩
  have height : (pageSize * 8).toNat = pageSize.toNat * 8 := by
    have h8 : (8 : BitVec 32).toNat = 8 := rfl
    rw [BitVec.toNat_mul, h8]
    omega
  have hmul := Nat.div_mul_le_self (bitmapEnd.toNat - bitmapBase.toNat) (pageSize.toNat * 8)
  have hle' : bitmapBase.toNat ≤ bitmapEnd.toNat := hle
  unfold init
  dsimp only
  rw [BitVec.toNat_udiv, height, BitVec.toNat_sub_of_le hle, Nat.mul_assoc,
    Nat.mul_comm 8 pageSize.toNat]
  omega

variable {b : PhysMemBitmap} {pages : Nat}

theorem Covers.page_toNat (h : b.Covers pages) {n : BitVec 32} (hn : n.toNat ≤ pages) :
    (b.base + n * b.ps).toNat = b.base.toNat + n.toNat * b.ps.toNat := by
  have hle : n.toNat * b.ps.toNat ≤ pages * b.ps.toNat := Nat.mul_le_mul_right _ hn
  have hregion := h.region
  have hend := b.end_.isLt
  rw [BitVec.toNat_add, BitVec.toNat_mul, Nat.mod_eq_of_lt (by omega : _ * _ < 2 ^ 32),
    Nat.mod_eq_of_lt (by omega)]

theorem Covers.page_lt (h : b.Covers pages) {n : BitVec 32} (hn : n.toNat < pages) :
    (b.base + n * b.ps).toNat < b.end_.toNat := by
  have hlt : n.toNat * b.ps.toNat < pages * b.ps.toNat := Nat.mul_lt_mul_of_pos_right hn h.ps
  have hregion := h.region
  rw [h.page_toNat (Nat.le_of_lt hn)]
  omega

theorem Covers.bitno (h : b.Covers pages) {n : BitVec 32} (hn : n.toNat < pages) :
    b.bitno (b.base + n * b.ps) = n := by
  have hsum := h.page_toNat (Nat.le_of_lt hn)
  have hlt := h.page_lt hn
  have hend := b.end_.isLt
  apply BitVec.eq_of_toNat_eq
  unfold PhysMemBitmap.bitno
  rw [BitVec.add_comm, BitVec.add_sub_cancel, BitVec.toNat_udiv, BitVec.toNat_mul,
    Nat.mod_eq_of_lt (by omega), Nat.mul_div_cancel _ h.ps]

/-- The pages that an `int` can number are freed by setting their bit. -/
theorem Covers.free (h : b.Covers pages) (m : Memory) {n : BitVec 32} (hn : n.toNat < pages)
    (hint : n.toNat < 2 ^ 31) :
    b.free m (b.base + n * b.ps) = setBit m (b.bmp + n / 32 * 4) (n % 32) := by
  have hsum := h.page_toNat (Nat.le_of_lt hn)
  have hlt := h.page_lt hn
  have hbase : ¬ b.base + n * b.ps < b.base := by
    rw [BitVec.lt_def, hsum]
    omega
  have hend : ¬ b.base + n * b.ps ≥ b.end_ := by
    rw [ge_iff_le, BitVec.le_def]
    omega
  have hno := h.bitno hn
  rw [free_eq _ _ (by rw [hno]; exact hint), if_neg hbase, if_neg hend, hno]

end Covers

section LowMemory
variable (bmp : Address) (m : Memory)

/-- The bitmap of the first 16 MB. -/
def lowMemory (bmp : Address) : PhysMemBitmap := ⟨bmp, 0, 0x1000000, 0x1000, 512⟩

theorem lowMemory_covers : (lowMemory bmp).Covers 4096 := by
  have hps : 0 < (0x1000 : BitVec 32).toNat := by decide
  have hregion : 0 + 4096 * 0x1000 ≤ 0x1000000 := by decide
  exact ⟨hps, rfl, hregion⟩

theorem bitno_page {k : Nat} (hk : k < 4096) :
    (lowMemory bmp).bitno (BitVec.ofNat 32 (k * 4096)) = BitVec.ofNat 32 k := by
  have hpage : (BitVec.ofNat 32 (k * 4096)).toNat = k * 4096 := by
    rw [BitVec.toNat_ofNat]
    omega
  apply BitVec.eq_of_toNat_eq
  unfold bitno lowMemory
  dsimp only
  have hps : (0x1000 : BitVec 32).toNat = 4096 := rfl
  rw [BitVec.ofNat_eq_ofNat, BitVec.sub_zero, BitVec.toNat_udiv, hpage, hps, BitVec.toNat_ofNat]
  omega

theorem pageNumber_lt {k : Nat} (hk : k < 4096) : (BitVec.ofNat 32 k).toNat < 8 * 512 := by
  rw [BitVec.toNat_ofNat]
  omega

theorem pageNumber_eq {j k : Nat} (hj : j < 4096) (hk : k < 4096) :
    BitVec.ofNat 32 j = BitVec.ofNat 32 k ↔ j = k := by bv_omega

/-- `Free` sets the bit of its page and no other. -/
theorem isSet_free {k j : Nat} (hk : k < 4096) (hj : j < 4096) :
    (lowMemory bmp).isSet ((lowMemory bmp).free m (BitVec.ofNat 32 (k * 4096)))
      (BitVec.ofNat 32 j) = ((lowMemory bmp).isSet m (BitVec.ofNat 32 j) || j = k) := by
  have hlow : (BitVec.ofNat 32 (k * 4096)).toNat = k * 4096 := by
    rw [BitVec.toNat_ofNat]
    omega
  have hlim : ¬ BitVec.ofNat 32 (k * 4096) ≥ (lowMemory bmp).end_ := by
    rw [ge_iff_le, BitVec.le_def, hlow]
    exact Nat.not_le.mpr (by show k * 4096 < 0x1000000; omega)
  have hbase : ¬ BitVec.ofNat 32 (k * 4096) < (lowMemory bmp).base := by
    rw [BitVec.lt_def]
    exact Nat.not_lt_zero _
  have hno := bitno_page bmp hk
  rw [free_eq _ _ (by rw [hno, BitVec.toNat_ofNat]; omega), if_neg hbase, if_neg hlim, hno,
    isSet_setBit]
  simp only [pageNumber_eq hj hk]

/-- `Free` of a page below 16 MB writes nowhere but in the bitmap. -/
theorem free_lowMemory {bmp : Address} {m : Memory} {p : PhysAddr} (hal : p.toNat % 4096 = 0)
    (hlow : p.toNat < 0x1000000) {x : Address} (hx : ¬ InRange bmp 512 x) :
    (lowMemory bmp).free m p x = m x := by
  have hnum : p.toNat / 4096 < 4096 := by omega
  have hpage : BitVec.ofNat 32 (p.toNat / 4096 * 4096) = p := by
    apply BitVec.eq_of_toNat_eq
    rw [BitVec.toNat_ofNat]
    omega
  have hno := bitno_page bmp hnum
  rw [hpage] at hno
  rw [free_eq _ _ (by rw [hno, BitVec.toNat_ofNat]; omega), hno]
  split
  · rfl
  split
  · rfl
  · refine write32_of_not_inRange fun hin => hx ?_
    exact word_inRange (lowMemory bmp) (pageNumber_lt hnum) rfl hin

end LowMemory

end PhysMemBitmap
end Tysos
