import Mathlib.Order.Nat
import Tysos.Support.Interval
import Mathlib.Algebra.Group.Nat.Defs

/-!
# Sections

The class `Section` of `section.h`. Addresses and lengths are 32-bit words; what they
stand for is said in the integers: a section reserves the bytes from `lo` up to, and
without, `hi`. `CheckExtents` accepts a section exactly when these lie in its range, where
the last byte of the range already counts as outside.
-/

namespace Tysos
set_option autoImplicit false

abbrev Uintptr := BitVec 32

def kernelStart : Uintptr := 0x00100000
def kernelEnd : Uintptr := 0x3fbfffff
def userStart : Uintptr := 0x40000000
def userEnd : Uintptr := 0xffffffff
def pageSize : Uintptr := 0x1000
def pageMask : Uintptr := 0xfffff000

structure Section where
  flags : BitVec 32
  base : Uintptr
  length : Uintptr
  expandDown : Uintptr
  expandUp : Uintptr
  lowerPadding : Uintptr
  upperPadding : Uintptr
  memSource : BitVec 32
  deriving DecidableEq, Repr

namespace Section

def flagDefined : BitVec 32 := 0x1
def flagRead : BitVec 32 := 0x2
def flagWrite : BitVec 32 := 0x4
def flagAutoExpand : BitVec 32 := 0x40
def flagBits : BitVec 32 := 0x80
def flagKernelSection : BitVec 32 := 0x4000

def has (s : Section) (flag : BitVec 32) : Bool := s.flags &&& flag ≠ 0

def less : BitVec 32 := 0x1
def more : BitVec 32 := 0x2
def equal : BitVec 32 := 0x4
def within : BitVec 32 := 0x8

/-- The first and the last address of the range the section has to lie in. -/
def rangeMin (s : Section) : Uintptr := if s.has flagKernelSection then kernelStart else userStart

def rangeMax (s : Section) : Uintptr := if s.has flagKernelSection then kernelEnd else userEnd

structure Extent where
  upper : Uintptr
  lower : Uintptr
  deriving DecidableEq, Repr

namespace Extent

def overlap (e₁ e₂ : Extent) : BitVec 32 :=
  let ret : BitVec 32 := 0
  let ret := if e₁.lower < e₂.lower then ret ||| less else ret
  let ret := if e₁.upper > e₂.upper then ret ||| more else ret
  let ret :=
    if e₁.lower ≥ e₂.lower ∧ e₁.lower ≤ e₂.upper then ret ||| equal
    else if e₁.upper ≥ e₂.lower ∧ e₁.upper ≤ e₂.upper then ret ||| equal
    else if ret &&& less ≠ 0 ∧ ret &&& more ≠ 0 then ret ||| equal
    else ret
  if ret = equal then ret ||| within else ret

/-- The operator `==` on extents: they overlap. -/
def eq (e₁ e₂ : Extent) : Bool := overlap e₁ e₂ &&& equal ≠ 0

end Extent

/-- The `Length` that `CheckExtents` stores before any check. -/
def extentLength (s : Section) : Uintptr :=
  s.lowerPadding + s.expandDown + s.length + s.expandUp + s.upperPadding

def checkExtents (s : Section) : Option Extent :=
  if ¬ s.has flagDefined then none else
  let min := s.rangeMin
  let max := s.rangeMax
  let rMin := s.base
  if s.expandDown > rMin then none else
  let rMin := rMin - s.expandDown
  if s.lowerPadding > rMin then none else
  let rMin := rMin - s.lowerPadding
  if rMin < min then none else
  let rMax := s.base
  if rMax > max then none else
  if s.length > max - rMax then none else
  let rMax := rMax + s.length
  if s.expandUp > max - rMax then none else
  let rMax := rMax + s.expandUp
  if s.upperPadding > max - rMax then none else
  let rMax := rMax + s.upperPadding
  if rMin ≥ rMax then none else
  some ⟨rMax - 1, rMin⟩

/-- First byte reserved for the section. -/
def lo (s : Section) : Int := s.base.toNat - s.expandDown.toNat - s.lowerPadding.toNat

/-- First byte past those reserved for the section. -/
def hi (s : Section) : Int :=
  s.base.toNat + s.length.toNat + s.expandUp.toNat + s.upperPadding.toNat

/-- The number of bytes a section needs. -/
def total (s : Section) : Nat :=
  s.lowerPadding.toNat + s.expandDown.toNat + s.length.toNat + s.expandUp.toNat +
    s.upperPadding.toNat

/-- The bytes of the live range. -/
def Live (s : Section) (x : Nat) : Prop := s.base.toNat ≤ x ∧ x < s.base.toNat + s.length.toNat

instance (s : Section) (x : Nat) : Decidable (s.Live x) := inferInstanceAs (Decidable (_ ∧ _))

def Apart (s t : Section) : Prop := s.hi ≤ t.lo ∨ t.hi ≤ s.lo

/-- The condition `CheckExtents` decides. -/
structure Accepted (s : Section) : Prop where
  defined : s.has flagDefined = true
  above : (s.rangeMin.toNat : Int) ≤ s.lo
  below : s.hi ≤ s.rangeMax.toNat
  nonempty : s.lo < s.hi

instance (s t : Section) : Decidable (s.Apart t) := inferInstanceAs (Decidable (_ ∨ _))

theorem accepted_iff (s : Section) : s.Accepted ↔ s.has flagDefined = true ∧
    (s.rangeMin.toNat : Int) ≤ s.lo ∧ s.hi ≤ s.rangeMax.toNat ∧ s.lo < s.hi :=
  ⟨fun h => ⟨h.1, h.2, h.3, h.4⟩, fun h => ⟨h.1, h.2.1, h.2.2.1, h.2.2.2⟩⟩

instance (s : Section) : Decidable s.Accepted := decidable_of_iff _ s.accepted_iff.symm

theorem Apart.symm {s t : Section} (h : s.Apart t) : t.Apart s := h.elim Or.inr Or.inl

theorem hi_eq_lo_add_total (s : Section) : s.hi = s.lo + s.total := by
  unfold hi lo total
  omega

theorem rangeMax_lt (s : Section) : s.rangeMax.toNat < 2 ^ 32 := s.rangeMax.isLt

theorem toNat_sub_of_not_gt {x r : Uintptr} (h : ¬ x > r) : (r - x).toNat = r.toNat - x.toNat :=
  BitVec.toNat_sub_of_le (BitVec.not_lt.mp h)

/-- `x > max - r` tests, without overflow, whether `r + x` stays below `max`. -/
theorem toNat_add_of_room {x r max : Uintptr} (hr : ¬ r > max) (h : ¬ x > max - r) :
    (r + x).toNat = r.toNat + x.toNat ∧ ¬ r + x > max := by
  bv_omega

theorem lt_of_no_room {x r max : Uintptr} (h : x > max - r) :
    max.toNat < r.toNat + x.toNat := by
  bv_omega

/-- One test of `CheckExtents`. -/
theorem test_iff {c P Q : Prop} [Decidable c] {r : Option Extent} {e : Extent} (hbad : c → ¬ Q)
    (hrest : ¬ c → (r = some e ↔ Q ∧ P)) : (if c then none else r) = some e ↔ Q ∧ P := by
  by_cases hc : c
  · rw [if_pos hc]
    exact iff_of_false (Option.some_ne_none e).symm fun h => hbad hc h.1
  · rw [if_neg hc]
    exact hrest hc

theorem checkExtents_eq_some_iff (s : Section) (e : Extent) :
    s.checkExtents = some e ↔
      s.Accepted ∧ (e.lower.toNat : Int) = s.lo ∧ (e.upper.toNat : Int) = s.hi - 1 := by
  unfold checkExtents
  dsimp only
  refine test_iff (fun hd h => hd h.1) fun hd => ?_
  refine test_iff (fun h₁ h => ?_) fun h₁ => ?_
  · have hlo := h.above
    unfold lo at hlo
    simp only [gt_iff_lt, BitVec.lt_def] at h₁
    omega
  have e₁ := toNat_sub_of_not_gt h₁
  refine test_iff (fun h₂ h => ?_) fun h₂ => ?_
  · have hlo := h.above
    unfold lo at hlo
    simp only [gt_iff_lt, BitVec.lt_def] at h₁ h₂
    omega
  have e₂ := toNat_sub_of_not_gt h₂
  have hmin : ((s.base - s.expandDown - s.lowerPadding).toNat : Int) = s.lo := by
    unfold lo
    simp only [gt_iff_lt, BitVec.lt_def] at h₁ h₂
    omega
  refine test_iff (fun h₃ h => ?_) fun h₃ => ?_
  · have hlo := h.above
    rw [BitVec.lt_def] at h₃
    omega
  refine test_iff (fun h₄ h => ?_) fun h₄ => ?_
  · have hhi := h.below
    unfold hi at hhi
    simp only [gt_iff_lt, BitVec.lt_def] at h₄
    omega
  refine test_iff (fun h₅ h => ?_) fun h₅ => ?_
  · have hhi := h.below
    have hover := lt_of_no_room h₅
    unfold hi at hhi
    omega
  obtain ⟨e₅, hr₅⟩ := toNat_add_of_room h₄ h₅
  refine test_iff (fun h₆ h => ?_) fun h₆ => ?_
  · have hhi := h.below
    have hover := lt_of_no_room h₆
    unfold hi at hhi
    omega
  obtain ⟨e₆, hr₆⟩ := toNat_add_of_room hr₅ h₆
  refine test_iff (fun h₇ h => ?_) fun h₇ => ?_
  · have hhi := h.below
    have hover := lt_of_no_room h₇
    unfold hi at hhi
    omega
  obtain ⟨e₇, hr₇⟩ := toNat_add_of_room hr₆ h₇
  have hmax : ((s.base + s.length + s.expandUp + s.upperPadding).toNat : Int) = s.hi := by
    unfold hi
    omega
  refine test_iff (fun h₈ h => ?_) fun h₈ => ?_
  · have hne := h.nonempty
    simp only [ge_iff_le, BitVec.le_def] at h₈
    omega
  -- all checks passed
  simp only [ge_iff_le, BitVec.le_def, Nat.not_le] at h₈
  simp only [gt_iff_lt, BitVec.lt_def, Nat.not_lt] at h₃ hr₇
  have hacc : s.Accepted := ⟨not_not.mp hd, by omega, by omega, by omega⟩
  have hlast : ((s.base + s.length + s.expandUp + s.upperPadding - 1).toNat : Int) = s.hi - 1 := by
    have hval : (1 : Uintptr).toNat = 1 := rfl
    have hone : (1 : Uintptr) ≤ s.base + s.length + s.expandUp + s.upperPadding := by
      rw [BitVec.le_def]
      omega
    rw [BitVec.toNat_sub_of_le hone]
    omega
  constructor
  · intro h
    obtain rfl := Option.some.inj h
    exact ⟨hacc, hmin, hlast⟩
  · rintro ⟨-, hl, hu⟩
    have hlow : s.base - s.expandDown - s.lowerPadding = e.lower :=
      BitVec.eq_of_toNat_eq (by omega)
    have hupp : s.base + s.length + s.expandUp + s.upperPadding - 1 = e.upper :=
      BitVec.eq_of_toNat_eq (by omega)
    rw [hlow, hupp]

theorem checkExtents_eq_none_iff (s : Section) : s.checkExtents = none ↔ ¬ s.Accepted := by
  constructor
  · intro hn hacc
    have hmax := s.rangeMax_lt
    have hlo := hacc.above
    have hhi := hacc.below
    have hne := hacc.nonempty
    have he := (checkExtents_eq_some_iff s
      ⟨BitVec.ofNat 32 (s.hi - 1).toNat, BitVec.ofNat 32 s.lo.toNat⟩).mpr
      ⟨hacc, by simp only [BitVec.toNat_ofNat]; omega, by simp only [BitVec.toNat_ofNat]; omega⟩
    rw [hn] at he
    exact absurd he (by simp)
  · intro hn
    cases he : s.checkExtents with
    | none => rfl
    | some e => exact absurd ((checkExtents_eq_some_iff s e).mp he).1 hn

theorem Accepted.extent {s : Section} (h : s.Accepted) :
    ∃ e, s.checkExtents = some e ∧ (e.lower.toNat : Int) = s.lo ∧
      (e.upper.toNat : Int) = s.hi - 1 := by
  cases he : s.checkExtents with
  | none => exact absurd h ((checkExtents_eq_none_iff s).mp he)
  | some e => exact ⟨e, rfl, ((checkExtents_eq_some_iff s e).mp he).2⟩

namespace Extent

theorem eq_iff (e₁ e₂ : Extent) :
    e₁.eq e₂ = true ↔ (e₂.lower ≤ e₁.lower ∧ e₁.lower ≤ e₂.upper) ∨
      (e₂.lower ≤ e₁.upper ∧ e₁.upper ≤ e₂.upper) ∨
      (e₁.lower < e₂.lower ∧ e₂.upper < e₁.upper) := by
  unfold eq overlap
  by_cases hl : e₁.lower < e₂.lower <;> by_cases hm : e₁.upper > e₂.upper <;>
    by_cases h₁ : e₁.lower ≥ e₂.lower ∧ e₁.lower ≤ e₂.upper <;>
    by_cases h₂ : e₁.upper ≥ e₂.lower ∧ e₁.upper ≤ e₂.upper <;>
    simp [hl, hm, h₁, h₂, less, more, equal, within]

theorem eq_iff_meets {e₁ e₂ : Extent} (h₁ : e₁.lower ≤ e₁.upper) (h₂ : e₂.lower ≤ e₂.upper) :
    e₁.eq e₂ = true ↔
      Interval.Meets e₁.lower.toNat e₁.upper.toNat e₂.lower.toNat e₂.upper.toNat := by
  rw [eq_iff, Interval.meets_iff_ends h₁ h₂]
  rfl

end Extent

end Section
end Tysos
