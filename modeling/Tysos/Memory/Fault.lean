import Tysos.Memory.SectionList
import Mathlib.Data.List.Pairwise

/-!
# Resolving page faults

The part of `ResolvePageFault` that looks for a section to blame: which section takes the
fault, how it grows, and what `MapPage` is called with. The sections come through
`SectionList::GetItem`, which asks the kernel list for all of them.
-/

namespace Tysos
set_option autoImplicit false

namespace Section

def growDown (s : Section) (a : Uintptr) : Option Section :=
  if a < s.base ∧ s.base - a ≤ s.expandDown then
    some { s with expandDown := s.expandDown - (s.base - a), base := a }
  else none

def growUp (s : Section) (a : Uintptr) : Option Section :=
  if a ≥ s.base + s.length ∧ a - (s.base + s.length) ≤ s.expandUp then
    some { s with
      expandUp := s.expandUp - (a - (s.base + s.length)), length := a - s.base + 1 }
  else none

/-- Both attempts to grow, the second on what the first left; and whether one succeeded. -/
def expand (s : Section) (a : Uintptr) : Section × Bool :=
  if s.has flagAutoExpand then
    let (s, down) := match s.growDown a with
      | some s' => (s', true)
      | none => (s, false)
    match s.growUp a with
    | some s' => (s', true)
    | none => (s, down)
  else (s, false)

/-- The section after it has taken the fault at `a`, if it does. -/
def takeFault (s : Section) (a : Uintptr) : Option Section :=
  match s.checkExtents with
  | none => none
  | some se =>
    if Extent.eq ⟨a, a⟩ se then
      let (s', grown) := s.expand a
      if grown ∨ (a ≥ s'.base ∧ a < s'.base + s'.length) then some s' else none
    else none

end Section

/-- The arguments of `MapPage` that are not constant here. -/
structure MapRequest where
  virtaddr : Uintptr
  physaddr : BitVec 32
  user : Bool
  writable : Bool
  deriving DecidableEq, Repr

/-- `MapPage` gets the source address whether or not the section has `Bits`: the `paddr`
computed for that case is not used. -/
def Section.mapRequest (s : Section) (a : Uintptr) : MapRequest where
  virtaddr := a &&& pageMask
  physaddr := (a - s.base + s.memSource) &&& pageMask
  user := !s.has Section.flagKernelSection
  writable := s.has Section.flagWrite

inductive FaultResult where
  | mapped (sections : SectionList) (section_ : Section) (request : MapRequest)
  | panic

namespace SectionList

/-- Write back through the reference `GetItem(index)` returned. -/
def putItem (l : SectionList) (index : Nat) (s : Section) : SectionList :=
  if index < l.kernelSections.length then
    { l with kernelSections := l.kernelSections.set index s }
  else { l with kernelSections := l.kernelSections.set (index - l.kernelSections.length) s }

/-- The loop over the sections: `k` of them left, from `index` on. -/
def resolveLoop (l : SectionList) (a : Uintptr) : Nat → Nat → Option FaultResult
  | _, 0 => some .panic
  | index, k + 1 => do
    let s ← l.getItem index
    match s.takeFault a with
    | some s' => some (.mapped (l.putItem index s') s' (s'.mapRequest a))
    | none => resolveLoop l a (index + 1) k

/-- `none` is an access through a node that does not exist. -/
def resolvePageFault (l : SectionList) (faultAddress : Uintptr) (protectionError : Bool) :
    Option FaultResult :=
  if protectionError then some .panic else resolveLoop l faultAddress 0 l.count

end SectionList

namespace Section

/-- The bytes an expanding section may grow over, and those it has. -/
def Growable (s : Section) (x : Nat) : Prop :=
  s.base.toNat ≤ x + s.expandDown.toNat ∧
    x < s.base.toNat + s.length.toNat + s.expandUp.toNat

/-- The faults a section should take. -/
def Legal (s : Section) (a : Uintptr) : Prop :=
  s.Accepted ∧ (s.Live a.toNat ∨ s.has flagAutoExpand = true ∧ s.Growable a.toNat)

/-- The first byte of the upper padding of an expanding section. -/
def FirstGuard (s : Section) (a : Uintptr) : Prop :=
  s.Accepted ∧ s.has flagAutoExpand = true ∧ 0 < s.upperPadding.toNat ∧
    a.toNat = s.base.toNat + s.length.toNat + s.expandUp.toNat

theorem Accepted.bounds {s : Section} (h : s.Accepted) :
    s.expandDown.toNat + s.lowerPadding.toNat ≤ s.base.toNat ∧
      s.base.toNat + s.length.toNat + s.expandUp.toNat + s.upperPadding.toNat < 2 ^ 32 := by
  have hlo := h.above
  have hhi := h.below
  have hmax := s.rangeMax_lt
  unfold lo at hlo
  unfold hi at hhi
  omega

theorem Accepted.limit_toNat {s : Section} (h : s.Accepted) :
    (s.base + s.length).toNat = s.base.toNat + s.length.toNat := by
  have hb := h.bounds
  rw [BitVec.toNat_add]
  exact Nat.mod_eq_of_lt (by omega)

theorem Accepted.eq_point_iff {s : Section} {se : Extent} (h : s.checkExtents = some se)
    (a : Uintptr) : Extent.eq ⟨a, a⟩ se = true ↔ s.lo ≤ a.toNat ∧ (a.toNat : Int) < s.hi := by
  obtain ⟨hacc, hl, hu⟩ := (checkExtents_eq_some_iff s se).mp h
  have hne := hacc.nonempty
  have hse : se.lower ≤ se.upper := by
    rw [BitVec.le_def]
    omega
  rw [Extent.eq_iff_meets (BitVec.le_refl a) hse, Interval.Meets]
  simp only
  omega

/-- The section after growing down to `a` alone. -/
def grownDown (s : Section) (a : Uintptr) : Section :=
  { s with expandDown := s.expandDown - (s.base - a), base := a }

/-- The section after growing up to `a` alone. -/
def grownUp (s : Section) (a : Uintptr) : Section :=
  { s with expandUp := s.expandUp - (a - (s.base + s.length)), length := a - s.base + 1 }

/-- The fault lies in the part the section may grow down over. -/
def Below (s : Section) (a : Uintptr) : Prop :=
  a.toNat < s.base.toNat ∧ s.base.toNat ≤ a.toNat + s.expandDown.toNat

/-- The fault lies in the part the section grows up over, one byte more than it should. -/
def Above (s : Section) (a : Uintptr) : Prop :=
  s.base.toNat + s.length.toNat ≤ a.toNat ∧
    a.toNat ≤ s.base.toNat + s.length.toNat + s.expandUp.toNat

theorem growDown_of_below {s : Section} {a : Uintptr} (h : s.Below a) :
    s.growDown a = some (s.grownDown a) := by
  unfold Below at h
  unfold growDown
  rw [if_pos (by bv_omega)]
  rfl

theorem growDown_of_not_below {s : Section} {a : Uintptr} (h : ¬ s.Below a) :
    s.growDown a = none := by
  unfold Below at h
  unfold growDown
  rw [if_neg (by bv_omega)]

theorem growUp_of_above {s : Section} {a : Uintptr} (hacc : s.Accepted) (h : s.Above a) :
    s.growUp a = some (s.grownUp a) := by
  have hsum := hacc.limit_toNat
  unfold Above at h
  unfold growUp
  rw [if_pos (by bv_omega)]
  rfl

theorem growUp_of_not_above {s : Section} {a : Uintptr} (hacc : s.Accepted)
    (h : ¬ s.Above a) : s.growUp a = none := by
  have hsum := hacc.limit_toNat
  unfold Above at h
  unfold growUp
  rw [if_neg (by bv_omega)]

/-- After growing down, the upward test meets an `a` that is the new base. -/
theorem growUp_grownDown {s : Section} {a : Uintptr} (hacc : s.Accepted) (h : s.Below a) :
    (s.grownDown a).growUp a =
      if s.length = 0 then some { s.grownDown a with length := 1 } else none := by
  have hb := hacc.bounds
  unfold Below at h
  unfold growUp grownDown
  by_cases hz : s.length = 0
  · simp [hz]
  · have hpos : 0 < s.length.toNat := by
      apply Nat.pos_of_ne_zero
      exact fun hn => hz (BitVec.eq_of_toNat_eq (by simpa using hn))
    rw [if_neg hz, if_neg]
    dsimp only
    bv_omega

theorem not_above_of_below {s : Section} {a : Uintptr} (h : s.Below a) : ¬ s.Above a := by
  unfold Below at h
  unfold Above
  omega

theorem expand_of_below {s : Section} {a : Uintptr} (hacc : s.Accepted)
    (he : s.has flagAutoExpand = true) (h : s.Below a) :
    s.expand a =
      (if s.length = 0 then { s.grownDown a with length := 1 } else s.grownDown a, true) := by
  unfold expand
  rw [if_pos he, growDown_of_below h]
  simp only [growUp_grownDown hacc h]
  by_cases hz : s.length = 0
  · simp only [if_pos hz]
  · simp only [if_neg hz]

theorem expand_of_above {s : Section} {a : Uintptr} (hacc : s.Accepted)
    (he : s.has flagAutoExpand = true) (h : s.Above a) : s.expand a = (s.grownUp a, true) := by
  have hnot : ¬ s.Below a := fun hb => not_above_of_below hb h
  unfold expand
  rw [if_pos he, growDown_of_not_below hnot]
  simp only [growUp_of_above hacc h]

theorem expand_of_neither {s : Section} {a : Uintptr} (hacc : s.Accepted)
    (h : s.has flagAutoExpand = true → ¬ s.Below a ∧ ¬ s.Above a) : s.expand a = (s, false) := by
  unfold expand
  by_cases he : s.has flagAutoExpand = true
  · rw [if_pos he, growDown_of_not_below (h he).1]
    simp only [growUp_of_not_above hacc (h he).2]
  · rw [if_neg he]

theorem live_iff {s : Section} (hacc : s.Accepted) (a : Uintptr) :
    s.Live a.toNat ↔ a ≥ s.base ∧ a < s.base + s.length := by
  have hsum := hacc.limit_toNat
  unfold Live
  bv_omega

theorem takeFault_eq {s : Section} {a : Uintptr} (hacc : s.Accepted)
    (hin : s.lo ≤ a.toNat ∧ (a.toNat : Int) < s.hi) :
    s.takeFault a = if (s.expand a).2 = true ∨
      (a ≥ (s.expand a).1.base ∧ a < (s.expand a).1.base + (s.expand a).1.length) then
        some (s.expand a).1 else none := by
  obtain ⟨se, he, -⟩ := hacc.extent
  unfold takeFault
  simp only [he, (Accepted.eq_point_iff he a).mpr hin, if_true]

theorem takeFault_eq_some_iff {s s' : Section} {a : Uintptr} :
    s.takeFault a = some s' ↔ s.Accepted ∧ (s.lo ≤ a.toNat ∧ (a.toNat : Int) < s.hi) ∧
      (s.Live a.toNat ∧ s' = s ∨
        s.has flagAutoExpand = true ∧ s.Below a ∧
          s' = (if s.length = 0 then { s.grownDown a with length := 1 } else s.grownDown a) ∨
        s.has flagAutoExpand = true ∧ s.Above a ∧ s' = s.grownUp a) := by
  by_cases hacc : s.Accepted
  · by_cases hin : s.lo ≤ a.toNat ∧ (a.toNat : Int) < s.hi
    · rw [takeFault_eq hacc hin]
      by_cases hbelow : s.has flagAutoExpand = true ∧ s.Below a
      · have hlive : ¬ s.Live a.toNat := fun h => Nat.not_lt.mpr h.1 hbelow.2.1
        have habove := not_above_of_below hbelow.2
        rw [expand_of_below hacc hbelow.1 hbelow.2, if_pos (Or.inl rfl)]
        constructor
        · intro h
          exact ⟨hacc, hin, Or.inr (Or.inl ⟨hbelow.1, hbelow.2, (Option.some.inj h).symm⟩)⟩
        · rintro ⟨-, -, hl | ⟨-, -, rfl⟩ | ha⟩
          · exact absurd hl.1 hlive
          · rfl
          · exact absurd ha.2.1 habove
      by_cases habove : s.has flagAutoExpand = true ∧ s.Above a
      · have hlive : ¬ s.Live a.toNat := fun h => Nat.not_lt.mpr habove.2.1 h.2
        rw [expand_of_above hacc habove.1 habove.2, if_pos (Or.inl rfl)]
        constructor
        · intro h
          exact ⟨hacc, hin, Or.inr (Or.inr ⟨habove.1, habove.2, (Option.some.inj h).symm⟩)⟩
        · rintro ⟨-, -, hl | hb | ⟨-, -, rfl⟩⟩
          · exact absurd hl.1 hlive
          · exact absurd ⟨hb.1, hb.2.1⟩ hbelow
          · rfl
      -- no growth: the live range decides
      have hneither : s.has flagAutoExpand = true → ¬ s.Below a ∧ ¬ s.Above a :=
        fun he => ⟨fun h => hbelow ⟨he, h⟩, fun h => habove ⟨he, h⟩⟩
      rw [expand_of_neither hacc hneither]
      constructor
      · intro h
        obtain ⟨hlive | hlive, hs⟩ := Option.ite_none_right_eq_some.mp h
        · exact absurd hlive (by simp)
        · exact ⟨hacc, hin, Or.inl ⟨(live_iff hacc a).mpr hlive, (Option.some.inj hs).symm⟩⟩
      · rintro ⟨-, -, ⟨hlive, rfl⟩ | hb | ha⟩
        · rw [if_pos (Or.inr ((live_iff hacc a).mp hlive))]
        · exact absurd ⟨hb.1, hb.2.1⟩ hbelow
        · exact absurd ⟨ha.1, ha.2.1⟩ habove
    · obtain ⟨se, he, -⟩ := hacc.extent
      have hne : ¬ Extent.eq ⟨a, a⟩ se = true := fun h => hin ((Accepted.eq_point_iff he a).mp h)
      constructor
      · intro h
        simp [takeFault, he, hne] at h
      · exact fun h => absurd h.2.1 hin
  · have he := (checkExtents_eq_none_iff s).mpr hacc
    simp [takeFault, he, hacc]

theorem Legal.inside {s : Section} {a : Uintptr} (h : s.Legal a) :
    s.lo ≤ a.toNat ∧ (a.toNat : Int) < s.hi := by
  obtain ⟨hacc, h⟩ := h
  unfold Live Growable at h
  unfold lo hi
  omega

theorem FirstGuard.inside {s : Section} {a : Uintptr} (h : s.FirstGuard a) :
    s.lo ≤ a.toNat ∧ (a.toNat : Int) < s.hi := by
  obtain ⟨hacc, -, hpad, ha⟩ := h
  have hb := hacc.bounds
  unfold lo hi
  omega

theorem FirstGuard.not_legal {s : Section} {a : Uintptr} (h : s.FirstGuard a) : ¬ s.Legal a := by
  obtain ⟨-, -, -, ha⟩ := h
  rintro ⟨-, hl⟩
  unfold Live Growable at hl
  omega

/-- A section takes the faults it should take, and the one at its first guard byte. -/
theorem exists_takeFault_iff {s : Section} {a : Uintptr} :
    (∃ s', s.takeFault a = some s') ↔ s.Legal a ∨ s.FirstGuard a := by
  constructor
  · rintro ⟨s', h⟩
    obtain ⟨hacc, hin, hcase⟩ := takeFault_eq_some_iff.mp h
    unfold Legal FirstGuard Growable
    unfold hi at hin
    rcases hcase with ⟨hl, -⟩ | ⟨he, hb, -⟩ | ⟨he, ha, -⟩
    · exact Or.inl ⟨hacc, Or.inl hl⟩
    · unfold Below at hb
      exact Or.inl ⟨hacc, Or.inr ⟨he, by omega⟩⟩
    · unfold Above at ha
      by_cases hlast : a.toNat = s.base.toNat + s.length.toNat + s.expandUp.toNat
      · exact Or.inr ⟨hacc, he, by omega, hlast⟩
      · exact Or.inl ⟨hacc, Or.inr ⟨he, by omega⟩⟩
  · intro h
    have hacc : s.Accepted := h.elim (·.1) (·.1)
    have hin := h.elim Legal.inside FirstGuard.inside
    simp only [takeFault_eq_some_iff, hacc, hin, true_and, and_self]
    by_cases hlive : s.Live a.toNat
    · exact ⟨s, Or.inl ⟨hlive, rfl⟩⟩
    by_cases hbelow : s.has flagAutoExpand = true ∧ s.Below a
    · exact ⟨_, Or.inr (Or.inl ⟨hbelow.1, hbelow.2, rfl⟩)⟩
    · refine ⟨_, Or.inr (Or.inr ⟨?_, ?_, rfl⟩)⟩
      · exact h.elim (fun hl => (hl.2.resolve_left hlive).1) (·.2.1)
      · rcases h with ⟨-, hl | ⟨he, hg⟩⟩ | ⟨-, he, -, ha⟩
        · exact absurd hl hlive
        · have hb : ¬ s.Below a := fun hb => hbelow ⟨he, hb⟩
          unfold Live at hlive
          unfold Growable at hg
          unfold Below at hb
          unfold Above
          omega
        · unfold Above
          omega

end Section

namespace SectionList
open Section

/-- One round: the section takes the fault, or the next one is asked. -/
theorem resolveLoop_round {l l' : SectionList} {a : Uintptr} {s' : Section} {req : MapRequest}
    {index k : Nat} (h : resolveLoop l a index (k + 1) = some (.mapped l' s' req)) :
    ∃ s, l.getItem index = some s ∧
      (s.takeFault a = none ∧ resolveLoop l a (index + 1) k = some (.mapped l' s' req) ∨
        s.takeFault a = some s' ∧ l' = l.putItem index s' ∧ req = s'.mapRequest a) := by
  unfold resolveLoop at h
  obtain ⟨s, hs, h⟩ := Option.bind_eq_some_iff.mp h
  refine ⟨s, hs, ?_⟩
  cases ht : s.takeFault a with
  | none =>
    rw [ht] at h
    exact Or.inl ⟨rfl, h⟩
  | some s'' =>
    rw [ht] at h
    obtain ⟨rfl, rfl, rfl⟩ : l.putItem index s'' = l' ∧ s'' = s' ∧ s''.mapRequest a = req := by
      simpa using h
    exact Or.inr ⟨rfl, rfl, rfl⟩

/-- What a resolved fault says of the lists: one kernel section took it. -/
theorem resolveLoop_mapped {l l' : SectionList} {a : Uintptr} {s' : Section} {req : MapRequest}
    {index k : Nat} (h : resolveLoop l a index k = some (.mapped l' s' req)) :
    ∃ (j : Nat) (s : Section), l.kernelSections[j]? = some s ∧ s.takeFault a = some s' ∧
      l' = { l with kernelSections := l.kernelSections.set j s' } ∧ req = s'.mapRequest a := by
  induction k generalizing index with
  | zero => simp [resolveLoop] at h
  | succ k ih =>
    obtain ⟨s, hs, hround⟩ := resolveLoop_round h
    rcases hround with ⟨-, hrest⟩ | ⟨ht, rfl, rfl⟩
    · exact ih hrest
    · unfold getItem at hs
      unfold putItem
      split at hs <;> rename_i hlt
      · exact ⟨index, s, hs, ht, by rw [if_pos hlt], rfl⟩
      · exact ⟨_, s, hs, ht, by rw [if_neg hlt], rfl⟩

theorem resolvePageFault_mapped {l l' : SectionList} {a : Uintptr} {s' : Section}
    {req : MapRequest} (h : l.resolvePageFault a false = some (.mapped l' s' req)) :
    ∃ (j : Nat) (s : Section), l.kernelSections[j]? = some s ∧ s.takeFault a = some s' ∧
      l' = { l with kernelSections := l.kernelSections.set j s' } ∧ req = s'.mapRequest a := by
  have hloop : resolveLoop l a 0 l.count = some (.mapped l' s' req) := h
  exact resolveLoop_mapped hloop

/-- The first kernel section that takes the fault. -/
def taker (l : SectionList) (a : Uintptr) : Option Section :=
  l.kernelSections.find? fun s => (s.takeFault a).isSome

theorem resolveLoop_taker {l l' : SectionList} {a : Uintptr} {s' : Section} {req : MapRequest}
    {index k : Nat}
    (hbefore : ∀ j < index, ∀ s, l.kernelSections[j]? = some s → s.takeFault a = none)
    (h : resolveLoop l a index k = some (.mapped l' s' req)) :
    ∃ s, l.taker a = some s ∧ s.takeFault a = some s' := by
  induction k generalizing index with
  | zero => simp [resolveLoop] at h
  | succ k ih =>
    obtain ⟨s, hs, hround⟩ := resolveLoop_round h
    rcases hround with ⟨ht, hrest⟩ | ⟨ht, -, -⟩
    · refine ih ?_ hrest
      intro j hj r hr
      obtain hlt | rfl := Nat.lt_succ_iff_lt_or_eq.mp hj
      · exact hbefore j hlt r hr
      · unfold getItem at hs
        have hlen := (List.getElem?_eq_some_iff.mp hr).1
        rw [if_pos hlen, hr] at hs
        exact Option.some.inj hs ▸ ht
    · refine ⟨s, ?_, ht⟩
      unfold getItem at hs
      split at hs
      · obtain ⟨hlen, hget⟩ := List.getElem?_eq_some_iff.mp hs
        apply List.find?_eq_some_iff_getElem.mpr
        refine ⟨by rw [ht]; rfl, index, hlen, hget, fun j hj => ?_⟩
        have hjlen : j < l.kernelSections.length := Nat.lt_trans hj hlen
        rw [hbefore j hj _ (List.getElem?_eq_getElem hjlen)]
        rfl
      · -- the kernel list is asked again: the section was passed over before
        have hlen := (List.getElem?_eq_some_iff.mp hs).1
        have hnone := hbefore _ (by omega) s hs
        exact absurd (ht.symm.trans hnone) (Option.some_ne_none _)

theorem resolvePageFault_taker {l l' : SectionList} {a : Uintptr} {s' : Section}
    {req : MapRequest} (h : l.resolvePageFault a false = some (.mapped l' s' req)) :
    ∃ s, l.taker a = some s ∧ s.takeFault a = some s' := by
  have hloop : resolveLoop l a 0 l.count = some (.mapped l' s' req) := h
  exact resolveLoop_taker (fun j hj => absurd hj (Nat.not_lt_zero j)) hloop

theorem resolveLoop_of_takeFault {l : SectionList} {a : Uintptr} {j : Nat} {s : Section}
    (hj : l.kernelSections[j]? = some s) (ht : ∃ s', s.takeFault a = some s') {index k : Nat}
    (hle : index ≤ j) (hlt : j < index + k) :
    ∃ l' s' req, resolveLoop l a index k = some (.mapped l' s' req) := by
  induction k generalizing index with
  | zero => omega
  | succ k ih =>
    have hlen : j < l.kernelSections.length := (List.getElem?_eq_some_iff.mp hj).1
    have hidx : index < l.kernelSections.length := by omega
    have hget : l.getItem index = some l.kernelSections[index] := by
      rw [getItem, if_pos hidx, List.getElem?_eq_getElem hidx]
    unfold resolveLoop
    rw [hget]
    simp only [Option.bind_eq_bind, Option.bind_some]
    cases hs : l.kernelSections[index].takeFault a with
    | some s' => exact ⟨_, _, _, rfl⟩
    | none =>
      have hne : index ≠ j := by
        rintro rfl
        obtain ⟨s', hs'⟩ := ht
        rw [List.getElem?_eq_getElem hidx, Option.some.injEq] at hj
        rw [hj, hs'] at hs
        exact absurd hs (by simp)
      exact ih (by omega) (by omega)

/-- The fault at `a` ends with a page being mapped. -/
def Resolves (l : SectionList) (a : Uintptr) : Prop :=
  ∃ l' s' req, l.resolvePageFault a false = some (.mapped l' s' req)

/-- Only the kernel sections count. -/
theorem resolves_iff (l : SectionList) (a : Uintptr) :
    l.Resolves a ↔ ∃ s ∈ l.kernelSections, s.Legal a ∨ s.FirstGuard a := by
  constructor
  · rintro ⟨l', s', req, h⟩
    obtain ⟨j, s, hs, ht, -, -⟩ := resolvePageFault_mapped h
    exact ⟨s, List.mem_of_getElem? hs, exists_takeFault_iff.mp ⟨s', ht⟩⟩
  · rintro ⟨s, hs, h⟩
    obtain ⟨j, hlen, hj⟩ := List.getElem_of_mem hs
    have hcount : j < 0 + l.count := by
      unfold count
      omega
    exact resolveLoop_of_takeFault (List.getElem?_eq_some_iff.mpr ⟨hlen, hj⟩)
      (exists_takeFault_iff.mpr h) (Nat.zero_le j) hcount

/-- The two sections keep apart if `CheckExtents` accepts both. -/
def ApartIfAccepted (s t : Section) : Prop := s.Accepted → t.Accepted → s.Apart t

instance : Std.Symm ApartIfAccepted := ⟨fun _ _ h ht hs => (h hs ht).symm⟩

/-- The sections of the whole list are pairwise disjoint in their reserved extents. -/
def Disjoint (l : SectionList) : Prop :=
  (l.kernelSections ++ l.processSections).Pairwise ApartIfAccepted

theorem ApartIfAccepted.not_inside {s t : Section} (h : ApartIfAccepted s t) (hs : s.Accepted)
    (ht : t.Accepted) {x : Int} (hxs : s.lo ≤ x ∧ x < s.hi) : ¬ (t.lo ≤ x ∧ x < t.hi) := by
  have hap := h hs ht
  unfold Apart at hap
  omega

theorem Disjoint.eq_of_inside {l : SectionList} (h : l.Disjoint) {s t : Section}
    (hs : s ∈ l.kernelSections) (hsa : s.Accepted) (ht : t ∈ l.kernelSections)
    (hta : t.Accepted) {x : Int} (hxs : s.lo ≤ x ∧ x < s.hi) (hxt : t.lo ≤ x ∧ x < t.hi) :
    s = t := by
  by_contra hne
  have hkernel := (List.pairwise_append.mp h).1
  exact (hkernel.forall hs ht hne).not_inside hsa hta hxs hxt

theorem Disjoint.not_inside_both {l : SectionList} (h : l.Disjoint) {s t : Section}
    (hs : s ∈ l.kernelSections) (hsa : s.Accepted) (ht : t ∈ l.processSections)
    (hta : t.Accepted) {x : Int} (hxs : s.lo ≤ x ∧ x < s.hi) : ¬ (t.lo ≤ x ∧ x < t.hi) :=
  ((List.pairwise_append.mp h).2.2 s hs t ht).not_inside hsa hta hxs

/-- The faults that should be resolved, on the whole list. -/
def LegalFault (l : SectionList) (a : Uintptr) : Prop :=
  ∃ s ∈ l.kernelSections ++ l.processSections, s.Legal a

/-- `ResolvePageFault` accepts a fault exactly when it should, except where a process section
should take it, or it lies at the first guard byte of an expanding kernel section. -/
theorem resolves_iff_legal_iff {l : SectionList} (h : l.Disjoint) (a : Uintptr) :
    (l.Resolves a ↔ l.LegalFault a) ↔
      (∀ s ∈ l.processSections, ¬ s.Legal a) ∧ ∀ s ∈ l.kernelSections, ¬ s.FirstGuard a := by
  rw [resolves_iff]
  constructor
  · intro hiff
    constructor
    · intro s hs hlegal
      obtain ⟨t, ht, htake⟩ := hiff.mpr ⟨s, List.mem_append_right _ hs, hlegal⟩
      have hta : t.Accepted := htake.elim (·.1) (·.1)
      have hin := htake.elim Legal.inside FirstGuard.inside
      exact h.not_inside_both ht hta hs hlegal.1 hin hlegal.inside
    · intro s hs hguard
      obtain ⟨t, ht, hlegal⟩ := hiff.mp ⟨s, hs, Or.inr hguard⟩
      rcases List.mem_append.mp ht with ht | ht
      · obtain rfl := h.eq_of_inside hs hguard.1 ht hlegal.1 hguard.inside hlegal.inside
        exact hguard.not_legal hlegal
      · exact h.not_inside_both hs hguard.1 ht hlegal.1 hguard.inside hlegal.inside
  · rintro ⟨hproc, hguard⟩
    constructor
    · rintro ⟨s, hs, hlegal | hg⟩
      · exact ⟨s, List.mem_append_left _ hs, hlegal⟩
      · exact absurd hg (hguard s hs)
    · rintro ⟨s, hs, hlegal⟩
      rcases List.mem_append.mp hs with hs | hs
      · exact ⟨s, hs, Or.inl hlegal⟩
      · exact absurd hlegal (hproc s hs)

/-- A stack of one page in the kernel, with a guard page above it. -/
def kernelStack : Section := ⟨0x4067, 0x00200000, 0x1000, 0, 0x1000, 0, 0x1000, 0⟩

def userCode : Section := ⟨0x5, 0x40000000, 0x1000, 0, 0, 0, 0, 0⟩

def kernelAndUser : SectionList := ⟨[kernelStack], [userCode]⟩

theorem kernelAndUser_disjoint : kernelAndUser.Disjoint := by
  refine List.Pairwise.cons (fun t ht _ _ => ?_) (List.pairwise_singleton _ _)
  obtain rfl := List.mem_singleton.mp ht
  decide

theorem kernelStack_fault_resolves :
    (kernelAndUser.Resolves 0x00200800 ↔ kernelAndUser.LegalFault 0x00200800) ↔
      (∀ s ∈ kernelAndUser.processSections, ¬ s.Legal 0x00200800) ∧
        ∀ s ∈ kernelAndUser.kernelSections, ¬ s.FirstGuard 0x00200800 :=
  resolves_iff_legal_iff kernelAndUser_disjoint _

/-- A fault in the process's own code is not resolved. -/
theorem userCode_fault_not_resolved :
    ¬ ∀ (l : SectionList) (a : Uintptr), l.Disjoint → (l.Resolves a ↔ l.LegalFault a) := by
  intro h
  have hiff := h kernelAndUser 0x40000000 kernelAndUser_disjoint
  have hlegal : userCode.Legal 0x40000000 := ⟨by decide, Or.inl ⟨by decide, by decide⟩⟩
  obtain ⟨s, hs, htake⟩ := (resolves_iff _ _).mp
    (hiff.mpr ⟨userCode, by simp [kernelAndUser], hlegal⟩)
  obtain rfl : s = kernelStack := by simpa [kernelAndUser] using hs
  have hin := htake.elim Legal.inside FirstGuard.inside
  revert hin
  decide

end SectionList
end Tysos
