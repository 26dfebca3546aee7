import Tysos.PhysMem.Bitmap
import Tysos.Support.RunSearch

/-!
# The search for a range of pages

`PhysMemBitmap::AllocRange` looks for a run of set bits. Its bound leaves out the last start, and
wraps for more pages than the bitmap has.
-/

namespace Tysos
open ByteMemory RunSearch
set_option autoImplicit false

namespace PhysMemBitmap

/-- The bits that the inner loop of `AllocRange` tests. -/
def usedTests (b : PhysMemBitmap) (m : Memory) : Nat → BitVec 32 → List (BitVec 32)
  | 0, _ => []
  | k + 1, j => j :: if b.isSet m j then usedTests b m k (j + 1) else []

def allocRangeLoopTests (b : PhysMemBitmap) (m : Memory) (pages : BitVec 32) :
    Nat → BitVec 32 → List (BitVec 32)
  | 0, _ => []
  | k + 1, i =>
    if i < b.bmpSize * 8 - pages then
      b.usedTests m ((i + pages).toNat - i.toNat) i ++
        match b.firstUsed m ((i + pages).toNat - i.toNat) i with
        | some j => allocRangeLoopTests b m pages k (j + 1)
        | none => []
    else []

def allocRangeTests (b : PhysMemBitmap) (m : Memory) (length : BitVec 32) : List (BitVec 32) :=
  allocRangeLoopTests b m (b.pageCount length)
    ((b.bmpSize * 8 - b.pageCount length).toNat + 1) 0

/-- Page `j` is free. -/
def pageBit (b : PhysMemBitmap) (m : Memory) (j : Nat) : Bool := b.isSet m (BitVec.ofNat 32 j)

/-- The pages that `length` bytes take. -/
def pagesFor (b : PhysMemBitmap) (length : BitVec 32) : Nat :=
  (length.toNat + b.ps.toNat - 1) / b.ps.toNat

/-- Only bits of the bitmap are tested, and the first run of free pages is found, or 0 is
returned where there is none. -/
def RangeFound (b : PhysMemBitmap) (pages : Nat) (m : Memory) (length : BitVec 32) : Prop :=
  (∀ j ∈ b.allocRangeTests m length, j.toNat < pages) ∧
    ((∃ i, i + b.pagesFor length ≤ pages ∧ FirstRun (b.pageBit m) (b.pagesFor length) i ∧
        b.allocRange m length = some (b.base + BitVec.ofNat 32 i * b.ps)) ∨
      (∀ i, i + b.pagesFor length ≤ pages → ¬ IsRun (b.pageBit m) (b.pagesFor length) i) ∧
        b.allocRange m length = some 0)

section
variable {b : PhysMemBitmap} {m : Memory} {pages : Nat}

theorem next_number (j : Nat) : BitVec.ofNat 32 j + 1 = BitVec.ofNat 32 (j + 1) := by bv_omega

theorem firstUsed_ofNat (k j : Nat) : b.firstUsed m k (BitVec.ofNat 32 j) =
    (RunSearch.firstUsed (b.pageBit m) k j).map (BitVec.ofNat 32) := by
  induction k generalizing j with
  | zero => rfl
  | succ k ih =>
    unfold firstUsed RunSearch.firstUsed
    rw [next_number, ih]
    unfold pageBit
    split <;> rfl

theorem usedTests_ofNat (k j : Nat) : b.usedTests m k (BitVec.ofNat 32 j) =
    (looked (b.pageBit m) k j).map (BitVec.ofNat 32) := by
  induction k generalizing j with
  | zero => rfl
  | succ k ih =>
    unfold usedTests looked
    rw [next_number, ih, List.map_cons]
    unfold pageBit
    split <;> rfl

theorem Covers.pages_lt (h : b.Covers pages) : pages < 2 ^ 32 := by
  have hle : pages * 1 ≤ pages * b.ps.toNat := Nat.mul_le_mul_left pages h.ps
  have hregion := h.region
  have hend := b.end_.isLt
  omega

theorem Covers.size_toNat (h : b.Covers pages) : (b.bmpSize * 8).toNat = pages := by
  have h8 : (8 : BitVec 32).toNat = 8 := rfl
  have hsize := h.size
  have hlt := h.pages_lt
  rw [BitVec.toNat_mul, h8]
  omega

theorem pageCount_toNat {length : BitVec 32} (hps : 0 < b.ps.toNat)
    (hlen : length.toNat + b.ps.toNat - 1 < 2 ^ 32) :
    (b.pageCount length).toNat = b.pagesFor length := by
  have h1 : (1 : BitVec 32).toNat = 1 := rfl
  unfold pageCount pagesFor
  rw [BitVec.toNat_udiv, BitVec.toNat_sub, BitVec.toNat_add, h1]
  congr 1
  omega

/-- As many pages as the bitmap has, or fewer: the search is the one for starts below the
difference. -/
theorem Covers.allocRangeLoop_eq (h : b.Covers pages) {n : BitVec 32} (hn : n.toNat ≤ pages)
    {k i : Nat} (hi : i ≤ pages) :
    b.allocRangeLoop m n k (BitVec.ofNat 32 i) =
        (search (b.pageBit m) n.toNat (pages - n.toNat) k i).map
          (fun r => (r.map fun s => b.base + BitVec.ofNat 32 s * b.ps).getD 0) ∧
      b.allocRangeLoopTests m n k (BitVec.ofNat 32 i) =
        (searchLooked (b.pageBit m) n.toNat (pages - n.toNat) k i).map (BitVec.ofNat 32) := by
  have hlt := h.pages_lt
  have hsize := h.size_toNat
  have hbound : (b.bmpSize * 8 - n).toNat = pages - n.toNat := by
    rw [BitVec.toNat_sub_of_le (by rw [BitVec.le_def, hsize]; exact hn), hsize]
  induction k generalizing i with
  | zero => exact ⟨rfl, rfl⟩
  | succ k ih =>
    have hnum : (BitVec.ofNat 32 i).toNat = i := by
      rw [BitVec.toNat_ofNat]
      omega
    have hiff : BitVec.ofNat 32 i < b.bmpSize * 8 - n ↔ i < pages - n.toNat := by
      rw [BitVec.lt_def, hbound, hnum]
    unfold allocRangeLoop allocRangeLoopTests search searchLooked
    by_cases hin : i < pages - n.toNat
    · have hcount : (BitVec.ofNat 32 i + n).toNat - (BitVec.ofNat 32 i).toNat = n.toNat := by
        rw [BitVec.toNat_add, hnum]
        omega
      rw [if_pos (hiff.mpr hin), if_pos (hiff.mpr hin), if_pos hin, if_pos hin, hcount,
        firstUsed_ofNat, usedTests_ofNat, List.map_append]
      cases hfirst : RunSearch.firstUsed (b.pageBit m) n.toNat i with
      | none => exact ⟨rfl, rfl⟩
      | some u =>
        obtain ⟨-, hu, -⟩ := firstUsed_eq_some hfirst
        obtain ⟨hloop, htests⟩ := ih (i := u + 1) (by omega)
        simp only [Option.map_some, next_number]
        exact ⟨hloop, congrArg _ htests⟩
    · rw [if_neg (mt hiff.mp hin), if_neg (mt hiff.mp hin), if_neg hin, if_neg hin]
      exact ⟨rfl, rfl⟩

theorem Covers.page_eq_zero (h : b.Covers pages) {s : Nat} (hs : s ≤ pages) :
    b.base + BitVec.ofNat 32 s * b.ps = 0 ↔ b.base = 0 ∧ s = 0 := by
  have hlt := h.pages_lt
  have hnum : (BitVec.ofNat 32 s).toNat = s := by
    rw [BitVec.toNat_ofNat]
    omega
  have hsum := h.page_toNat (by rw [hnum]; exact hs)
  rw [hnum] at hsum
  constructor
  · intro hzero
    have hnull : (0 : BitVec 32).toNat = 0 := rfl
    rw [hzero, hnull] at hsum
    have hbase : b.base.toNat = 0 := by omega
    have hmul : s * b.ps.toNat = 0 := by omega
    exact ⟨BitVec.eq_of_toNat_eq hbase,
      (Nat.mul_eq_zero.mp hmul).resolve_right (Nat.ne_of_gt h.ps)⟩
  · rintro ⟨hbase, rfl⟩
    rw [hbase]
    simp

/-- More pages than the bitmap has: a bit after its end is tested, unless the end of the run
wraps, where a page is returned that nothing was tested for. -/
theorem Covers.overruns (h : b.Covers pages) {n : BitVec 32} (hn : pages < n.toNat) {k i : Nat}
    (hi : i ≤ pages) (hk : pages - i < k) :
    BitVec.ofNat 32 pages ∈ b.allocRangeLoopTests m n k (BitVec.ofNat 32 i) ∨
      ∃ s, 0 < s ∧ s ≤ pages ∧ b.allocRangeLoop m n k (BitVec.ofNat 32 i) =
        some (b.base + BitVec.ofNat 32 s * b.ps) := by
  have hlt := h.pages_lt
  have hn' := n.isLt
  have hbound : (b.bmpSize * 8 - n).toNat = 2 ^ 32 + pages - n.toNat := by
    rw [BitVec.toNat_sub, h.size_toNat]
    omega
  induction k generalizing i with
  | zero => omega
  | succ k ih =>
    have hnum : (BitVec.ofNat 32 i).toNat = i := by
      rw [BitVec.toNat_ofNat]
      omega
    have hin : BitVec.ofNat 32 i < b.bmpSize * 8 - n := by
      rw [BitVec.lt_def, hbound, hnum]
      omega
    unfold allocRangeLoop allocRangeLoopTests
    rw [if_pos hin, if_pos hin]
    rcases Nat.lt_or_ge (i + n.toNat) (2 ^ 32) with hfit | hwrap
    · have hcount : (BitVec.ofNat 32 i + n).toNat - (BitVec.ofNat 32 i).toNat = n.toNat := by
        rw [BitVec.toNat_add, hnum]
        omega
      have hlooked : (∀ t, i ≤ t → t < pages → b.pageBit m t = true) →
          BitVec.ofNat 32 pages ∈ (looked (b.pageBit m) n.toNat i).map (BitVec.ofNat 32) :=
        fun hfree => List.mem_map_of_mem (mem_looked hi (by omega) hfree)
      rw [hcount, firstUsed_ofNat, usedTests_ofNat]
      cases hfirst : RunSearch.firstUsed (b.pageBit m) n.toNat i with
      | none =>
        have hrun := firstUsed_eq_none.mp hfirst
        exact Or.inl (List.mem_append_left _ (hlooked fun t hit ht => hrun t hit (by omega)))
      | some u =>
        obtain ⟨hle, -, -, hbefore⟩ := firstUsed_eq_some hfirst
        rcases Nat.lt_or_ge u pages with hu | hu
        · simp only [Option.map_some, next_number]
          rcases ih (i := u + 1) hu (by omega) with htest | hpage
          · exact Or.inl (List.mem_append_right _ htest)
          · exact Or.inr hpage
        · exact Or.inl (List.mem_append_left _ (hlooked fun t hit ht => hbefore t hit (by omega)))
    · have hcount : (BitVec.ofNat 32 i + n).toNat - (BitVec.ofNat 32 i).toNat = 0 := by
        rw [BitVec.toNat_add, hnum]
        omega
      rw [hcount]
      exact Or.inr ⟨i, by omega, hi, rfl⟩

/-- `AllocRange` tests no bit past the end, and returns the first run that starts before the
last place where there is room for one. -/
theorem Covers.allocRange_spec (h : b.Covers pages) {length : BitVec 32}
    (hcount : (b.pageCount length).toNat = b.pagesFor length)
    (hle : b.pagesFor length ≤ pages) :
    (∀ j ∈ b.allocRangeTests m length, j.toNat < pages) ∧
    ((∃ s < pages - b.pagesFor length, FirstRun (b.pageBit m) (b.pagesFor length) s ∧
        b.allocRange m length = some (b.base + BitVec.ofNat 32 s * b.ps)) ∨
      (∀ s < pages - b.pagesFor length, ¬ IsRun (b.pageBit m) (b.pagesFor length) s) ∧
        b.allocRange m length = some 0) := by
  have hlt := h.pages_lt
  have hsize := h.size_toNat
  have hbound : (b.bmpSize * 8 - b.pageCount length).toNat = pages - b.pagesFor length := by
    rw [BitVec.toNat_sub_of_le (by rw [BitVec.le_def, hsize, hcount]; exact hle), hsize, hcount]
  obtain ⟨hloop, htests⟩ := h.allocRangeLoop_eq (m := m) (n := b.pageCount length)
    (by rw [hcount]; exact hle) (k := pages - b.pagesFor length + 1) (Nat.zero_le pages)
  rw [hcount] at hloop htests
  have hzero : (0 : BitVec 32) = BitVec.ofNat 32 0 := rfl
  constructor
  · intro j hj
    unfold allocRangeTests at hj
    rw [hbound, hzero, htests] at hj
    obtain ⟨u, hu, rfl⟩ := List.mem_map.mp hj
    have hlooked := searchLooked_lt hu
    rw [BitVec.toNat_ofNat]
    omega
  · unfold allocRange
    rw [hbound, hzero, hloop]
    have hbefore : ∀ s < 0, ¬ IsRun (b.pageBit m) (b.pagesFor length) s :=
      fun s hs => absurd hs (Nat.not_lt_zero s)
    have hrounds : pages - b.pagesFor length - 0 < pages - b.pagesFor length + 1 := by omega
    rcases search_eq hbefore hrounds with ⟨s, hs, hfirst, hsearch⟩ | ⟨hnone, hsearch⟩
    · rw [hsearch]
      exact Or.inl ⟨s, hs, hfirst, rfl⟩
    · rw [hsearch]
      exact Or.inr ⟨hnone, rfl⟩

/-- The first run may be the last one that there is room for, whose start is not tried. -/
theorem Covers.rangeFound_of_le (h : b.Covers pages) {length : BitVec 32}
    (hcount : (b.pageCount length).toNat = b.pagesFor length)
    (hle : b.pagesFor length ≤ pages) :
    b.RangeFound pages m length ↔
      (IsRun (b.pageBit m) (b.pagesFor length) (pages - b.pagesFor length) →
        (∃ i < pages - b.pagesFor length, IsRun (b.pageBit m) (b.pagesFor length) i) ∨
          b.base = 0 ∧ b.pagesFor length = pages) := by
  have hlast := h.page_eq_zero (s := pages - b.pagesFor length) (by omega)
  have hall : pages - b.pagesFor length = 0 ↔ b.pagesFor length = pages := by omega
  rw [hall] at hlast
  obtain ⟨hinside, hresult⟩ := h.allocRange_spec (m := m) hcount hle
  rcases hresult with ⟨s, hs, hfirst, hrange⟩ | ⟨hnone, hrange⟩
  · constructor
    · exact fun _ _ => Or.inl ⟨s, hs, hfirst.1⟩
    · exact fun _ => ⟨hinside, Or.inl ⟨s, by omega, hfirst, hrange⟩⟩
  · constructor
    · rintro ⟨-, ⟨i, hi, hfirst, hpage⟩ | ⟨hno, -⟩⟩ hrun
      · -- the run that is found can only be the last one
        have hlastrun : i = pages - b.pagesFor length := by
          by_contra hne
          exact hnone i (by omega) hfirst.1
        rw [hrange, hlastrun] at hpage
        have hzero := Option.some.inj hpage
        exact Or.inr (hlast.mp hzero.symm)
      · exact absurd hrun (hno _ (by omega))
    · intro hcond
      refine ⟨hinside, ?_⟩
      by_cases hrun : IsRun (b.pageBit m) (b.pagesFor length) (pages - b.pagesFor length)
      · rcases hcond hrun with ⟨i, hi, hearlier⟩ | hzero
        · exact absurd hearlier (hnone i hi)
        · refine Or.inl ⟨pages - b.pagesFor length, by omega, ⟨hrun, hnone⟩, ?_⟩
          rw [hrange, hlast.mpr hzero]
      · refine Or.inr ⟨fun i hi hearlier => ?_, hrange⟩
        rcases Nat.lt_or_ge i (pages - b.pagesFor length) with hlt' | hge
        · exact hnone i hlt' hearlier
        · obtain rfl : i = pages - b.pagesFor length := by omega
          exact hrun hearlier

theorem Covers.rangeFound_le (h : b.Covers pages) {length : BitVec 32}
    (hcount : (b.pageCount length).toNat = b.pagesFor length)
    (hfound : b.RangeFound pages m length) : b.pagesFor length ≤ pages := by
  by_contra hgt
  have hlt := h.pages_lt
  have hbound : pages < (b.bmpSize * 8 - b.pageCount length).toNat := by
    have hn := (b.pageCount length).isLt
    rw [BitVec.toNat_sub, h.size_toNat]
    omega
  obtain ⟨hinside, hresult⟩ := hfound
  rcases h.overruns (m := m) (n := b.pageCount length)
    (k := (b.bmpSize * 8 - b.pageCount length).toNat + 1) (by rw [hcount]; omega)
    (Nat.zero_le pages) (by omega) with htest | ⟨s, hpos, hs, hpage⟩
  · have hin := hinside _ htest
    rw [BitVec.toNat_ofNat] at hin
    omega
  · rcases hresult with ⟨i, hi, -⟩ | ⟨-, hzero⟩
    · omega
    · have hpage' : b.allocRange m length = some (b.base + BitVec.ofNat 32 s * b.ps) := hpage
      rw [hzero] at hpage'
      have hs0 := ((h.page_eq_zero hs).mp (Option.some.inj hpage').symm).2
      omega

/-- The search is right unless the run is longer than the bitmap, or only the last start has
one. -/
theorem Covers.rangeFound_iff (h : b.Covers pages) {length : BitVec 32}
    (hlen : length.toNat + b.ps.toNat - 1 < 2 ^ 32) (m : Memory) :
    b.RangeFound pages m length ↔ b.pagesFor length ≤ pages ∧
      (IsRun (b.pageBit m) (b.pagesFor length) (pages - b.pagesFor length) →
        (∃ i < pages - b.pagesFor length, IsRun (b.pageBit m) (b.pagesFor length) i) ∨
          b.base = 0 ∧ b.pagesFor length = pages) := by
  have hcount := pageCount_toNat h.ps hlen
  constructor
  · intro hfound
    have hle := h.rangeFound_le hcount hfound
    exact ⟨hle, (h.rangeFound_of_le hcount hle).mp hfound⟩
  · rintro ⟨hle, hcond⟩
    exact (h.rangeFound_of_le hcount hle).mpr hcond

end

/-- A bitmap at 0x2000 for the 32 pages from 1 MiB on. -/
def secondMegabyte : PhysMemBitmap := ⟨0x2000, 0x100000, 0x120000, 0x1000, 4⟩

theorem secondMegabyte_covers : secondMegabyte.Covers 32 :=
  ⟨by decide, by decide, by decide⟩

theorem allFree (b : PhysMemBitmap) (j : Nat) : b.pageBit (fun _ => 0xff) j = true := by
  have hones : ∀ i < 8, (0xff : BitVec 8).getLsbD i = true := by decide
  unfold pageBit
  rw [isSet_eq_byte]
  exact hones _ (Nat.mod_lt _ (by omega))

/-- Of the first eight pages the third is in use. -/
def thirdUsed : Memory := fun x => if x = 0x2000 then 0xfb else 0xff

/-- The two free pages before the one in use are too few for three. -/
theorem thirdUsed_three_pages : secondMegabyte.RangeFound 32 thirdUsed 0x2800 ∧
    secondMegabyte.allocRange thirdUsed 0x2800 = some 0x103000 := by
  have hrun : IsRun (secondMegabyte.pageBit thirdUsed) (secondMegabyte.pagesFor 0x2800) 3 := by
    decide
  refine ⟨?_, by decide⟩
  exact (secondMegabyte_covers.rangeFound_iff (by decide) _).mpr
    ⟨by decide, fun _ => Or.inl ⟨3, by decide, hrun⟩⟩

/-- All pages are free, and the 32 pages together are not found. -/
theorem secondMegabyte_all_pages :
    secondMegabyte.Covers 32 ∧
      FirstRun (secondMegabyte.pageBit fun _ => 0xff) (secondMegabyte.pagesFor 0x20000) 0 ∧
      secondMegabyte.allocRange (fun _ => 0xff) 0x20000 = some 0 ∧
      ¬ secondMegabyte.RangeFound 32 (fun _ => 0xff) 0x20000 := by
  have hrange : secondMegabyte.allocRange (fun _ => 0xff) 0x20000 = some 0 := by decide
  have hcount : secondMegabyte.pagesFor 0x20000 = 32 := by decide
  have hrun : FirstRun (secondMegabyte.pageBit fun _ => 0xff) (secondMegabyte.pagesFor 0x20000) 0 :=
    ⟨fun j _ _ => allFree _ j, by simp⟩
  refine ⟨secondMegabyte_covers, hrun, hrange, ?_⟩
  rintro ⟨-, ⟨i, hi, -, hpage⟩ | ⟨hno, -⟩⟩
  · obtain rfl : i = 0 := by omega
    rw [hrange] at hpage
    exact absurd (Option.some.inj hpage) (by decide)
  · exact hno 0 (by rw [hcount]) hrun.1

end PhysMemBitmap
end Tysos
