import Tysos.Memory.Fault
import Mathlib.Data.List.Forall2

/-!
# Growing sections

A section that takes a fault keeps its reserved extent and its live bytes exactly when it
does not grow, with one exception: an empty section that grows down by one byte. Runs of
faults that keep to this leave the lists pairwise disjoint and free what was free before.
-/

namespace Tysos
set_option autoImplicit false

namespace Section

/-- The reserved extent is the same and no live byte is lost. -/
def Kept (s s' : Section) : Prop :=
  s'.checkExtents = s.checkExtents ∧ ∀ x, s.Live x → s'.Live x

theorem Kept.refl (s : Section) : s.Kept s := ⟨rfl, fun _ h => h⟩

/-- The fault makes no section grow, or one byte down from an empty live range. -/
def InPlace (s : Section) (a : Uintptr) : Prop :=
  s.Live a.toNat ∨ s.length = 0 ∧ a.toNat + 1 = s.base.toNat

instance (s : Section) (a : Uintptr) : Decidable (s.InPlace a) :=
  inferInstanceAs (Decidable (_ ∨ _))

theorem checkExtents_congr {s s' : Section} (hf : s'.flags = s.flags) (hlo : s'.lo = s.lo)
    (hhi : s'.hi = s.hi) : s'.checkExtents = s.checkExtents := by
  have hmin : s'.rangeMin = s.rangeMin := by simp [rangeMin, has, hf]
  have hmax : s'.rangeMax = s.rangeMax := by simp [rangeMax, has, hf]
  have hacc : s'.Accepted ↔ s.Accepted := by
    rw [accepted_iff, accepted_iff, hmin, hmax, hlo, hhi]
    simp [has, hf]
  apply Option.ext
  intro e
  rw [checkExtents_eq_some_iff, checkExtents_eq_some_iff, hacc, hlo, hhi]

theorem hi_eq_of_checkExtents {s s' : Section} (hacc : s.Accepted)
    (h : s'.checkExtents = s.checkExtents) : s'.lo = s.lo ∧ s'.hi = s.hi ∧ s'.Accepted := by
  obtain ⟨e, he, hl, hu⟩ := hacc.extent
  obtain ⟨hacc', hl', hu'⟩ := (checkExtents_eq_some_iff s' e).mp (h.trans he)
  exact ⟨by omega, by omega, hacc'⟩

variable {s s' : Section} {a : Uintptr}

theorem grownDown_lo (h : s.Below a) : (s.grownDown a).lo = s.lo := by
  unfold Below at h
  unfold grownDown lo
  dsimp only
  bv_omega

theorem grownDown_hi (s : Section) (a : Uintptr) :
    (s.grownDown a).hi + s.base.toNat = s.hi + a.toNat := by
  unfold grownDown hi
  dsimp only
  omega

theorem grownUp_hi (hacc : s.Accepted) (ha : (a.toNat : Int) < s.hi) (h : s.Above a) :
    (s.grownUp a).hi = s.hi + 1 := by
  have hb := hacc.bounds
  have hsum := hacc.limit_toNat
  unfold hi at ha
  unfold Above at h
  unfold grownUp hi
  dsimp only
  have hgap : (a - (s.base + s.length)).toNat = a.toNat - (s.base.toNat + s.length.toNat) := by
    bv_omega
  have hup : (s.expandUp - (a - (s.base + s.length))).toNat =
      s.expandUp.toNat - (a - (s.base + s.length)).toNat := by
    bv_omega
  have hlen : (a - s.base + 1).toNat = a.toNat - s.base.toNat + 1 := by
    bv_omega
  omega

theorem kept_iff_inPlace (h : s.takeFault a = some s') : s.Kept s' ↔ s.InPlace a := by
  obtain ⟨hacc, hin, ⟨hlive, rfl⟩ | ⟨-, hbelow, rfl⟩ | ⟨-, habove, rfl⟩⟩ :=
    takeFault_eq_some_iff.mp h
  · exact ⟨fun _ => Or.inl hlive, fun _ => Kept.refl s'⟩
  · have hlive : ¬ s.Live a.toNat := fun hl => Nat.not_lt.mpr hl.1 hbelow.1
    have hlo := grownDown_lo hbelow
    have hhi := grownDown_hi s a
    unfold Below at hbelow
    by_cases hz : s.length = 0
    · rw [if_pos hz]
      have hlo' : ({ s.grownDown a with length := 1 } : Section).lo = s.lo := hlo
      have hhi' : ({ s.grownDown a with length := 1 } : Section).hi = (s.grownDown a).hi + 1 := by
        have hlen : (s.grownDown a).length.toNat = 0 := by simp [grownDown, hz]
        have hone : (1 : Uintptr).toNat = 1 := rfl
        unfold hi
        dsimp only
        omega
      constructor
      · intro hk
        have heq := (hi_eq_of_checkExtents hacc hk.1).2.1
        exact Or.inr ⟨hz, by omega⟩
      · intro hp
        have ha := (hp.resolve_left hlive).2
        refine ⟨checkExtents_congr rfl hlo' (by omega), fun x hx => ?_⟩
        unfold Live at hx
        simp [hz] at hx
        omega
    · rw [if_neg hz]
      constructor
      · intro hk
        have heq := (hi_eq_of_checkExtents hacc hk.1).2.1
        omega
      · exact fun hp => absurd (hp.resolve_left hlive).1 hz
  · have hhi := grownUp_hi hacc hin.2 habove
    unfold Above at habove
    constructor
    · intro hk
      have heq := (hi_eq_of_checkExtents hacc hk.1).2.1
      omega
    · rintro (hlive | ⟨-, hbase⟩)
      · unfold Live at hlive
        omega
      · omega

end Section
section
variable {α : Type} {R S : α → α → Prop}

theorem forall₂_set (hrefl : ∀ x, R x x) {xs : List α} {j : Nat} {x y : α}
    (hj : xs[j]? = some x) : List.Forall₂ R xs (xs.set j y) ↔ R x y := by
  induction xs generalizing j with
  | nil => simp at hj
  | cons z zs ih =>
    cases j with
    | zero =>
      obtain rfl : z = x := by simpa using hj
      simp [List.forall₂_same, hrefl]
    | succ j => simpa [hrefl z] using ih (by simpa using hj)

theorem forall₂_mem_right {xs ys : List α} (h : List.Forall₂ R xs ys) {y : α} (hy : y ∈ ys) :
    ∃ x ∈ xs, R x y := by
  induction h with
  | nil => simp at hy
  | cons hxy _ ih =>
    rcases List.mem_cons.mp hy with rfl | hy
    · exact ⟨_, List.mem_cons_self, hxy⟩
    · obtain ⟨x, hx, hr⟩ := ih hy
      exact ⟨x, List.mem_cons_of_mem _ hx, hr⟩

theorem pairwise_of_forall₂ (hS : ∀ x y x' y', R x x' → R y y' → S x y → S x' y')
    {xs ys : List α} (h : List.Forall₂ R xs ys) (hp : xs.Pairwise S) : ys.Pairwise S := by
  induction h with
  | nil => exact List.Pairwise.nil
  | cons hxy htail ih =>
    obtain ⟨hhead, hp⟩ := List.pairwise_cons.mp hp
    refine List.pairwise_cons.mpr ⟨fun y' hy => ?_, ih hp⟩
    obtain ⟨y, hmem, hr⟩ := forall₂_mem_right htail hy
    exact hS _ _ _ _ hxy hr (hhead y hmem)

end

namespace SectionList
open Section

/-- A page fault that is resolved, and the lists after it. -/
def faultStep (l : SectionList) (a : Uintptr) : Option SectionList :=
  match l.resolvePageFault a false with
  | some (.mapped l' _ _) => some l'
  | _ => none

/-- Every section is kept. -/
def Kept (l l' : SectionList) : Prop :=
  List.Forall₂ Section.Kept l.kernelSections l'.kernelSections ∧
    List.Forall₂ Section.Kept l.processSections l'.processSections

/-- The next fault, if it is resolved, keeps every section. -/
def FaultKeeps (l : SectionList) (a : Uintptr) : Prop := ∀ l', l.faultStep a = some l' → l.Kept l'

/-- The fault is in place for the section it lies in. -/
def FaultInPlace (l : SectionList) (a : Uintptr) : Prop :=
  ∀ s ∈ l.kernelSections, s.Accepted → s.lo ≤ a.toNat → (a.toNat : Int) < s.hi → s.InPlace a

theorem faultStep_eq_some {l l' : SectionList} {a : Uintptr} (h : l.faultStep a = some l') :
    ∃ (j : Nat) (s s' : Section), l.kernelSections[j]? = some s ∧ s.takeFault a = some s' ∧
      l' = { l with kernelSections := l.kernelSections.set j s' } := by
  unfold faultStep at h
  split at h
  · rename_i l₁ s' req hres
    obtain rfl := Option.some.inj h
    obtain ⟨j, s, hs, ht, hl, -⟩ := resolvePageFault_mapped hres
    exact ⟨j, s, s', hs, ht, hl⟩
  · simp at h

theorem kept_set_iff {l : SectionList} {j : Nat} {s s' : Section}
    (hs : l.kernelSections[j]? = some s) :
    l.Kept { l with kernelSections := l.kernelSections.set j s' } ↔ s.Kept s' := by
  unfold Kept
  dsimp only
  rw [forall₂_set Section.Kept.refl hs]
  exact and_iff_left (List.forall₂_same.mpr fun x _ => Section.Kept.refl x)

theorem Disjoint.kept_iff {l l' : SectionList} {a : Uintptr} (h : l.Disjoint)
    (hstep : l.faultStep a = some l') : l.FaultKeeps a ↔ l.FaultInPlace a := by
  obtain ⟨j, s, s', hs, ht, rfl⟩ := faultStep_eq_some hstep
  obtain ⟨hacc, hin, -⟩ := takeFault_eq_some_iff.mp ht
  have hmem : s ∈ l.kernelSections := List.mem_of_getElem? hs
  constructor
  · intro hk t ht' hta hlo hhi
    obtain rfl := h.eq_of_inside hmem hacc ht' hta hin ⟨hlo, hhi⟩
    exact (kept_iff_inPlace ht).mp ((kept_set_iff hs).mp (hk _ hstep))
  · intro hp l' hl'
    obtain rfl := Option.some.inj (hstep.symm.trans hl')
    exact (kept_set_iff hs).mpr ((kept_iff_inPlace ht).mpr (hp s hmem hacc hin.1 hin.2))

theorem Disjoint.of_kept {l l' : SectionList} (h : l.Disjoint) (hk : l.Kept l') :
    l'.Disjoint := by
  refine pairwise_of_forall₂ (fun s t s' t' hs ht hap hs' ht' => ?_)
    (List.rel_append hk.1 hk.2) h
  have hback : ∀ {u u' : Section}, u.Kept u' → u'.Accepted → u.Accepted ∧ u'.lo = u.lo ∧
      u'.hi = u.hi := by
    intro u u' hu hacc'
    obtain ⟨hlo, hhi, hacc⟩ := hi_eq_of_checkExtents hacc' hu.1.symm
    exact ⟨hacc, hlo.symm, hhi.symm⟩
  obtain ⟨hsa, hslo, hshi⟩ := hback hs hs'
  obtain ⟨hta, htlo, hthi⟩ := hback ht ht'
  have hapart := hap hsa hta
  unfold Apart at hapart ⊢
  omega

theorem isfree_of_forall₂ {xs ys : List Section} (h : List.Forall₂ Section.Kept xs ys)
    (re : Extent) : isfree ys re = isfree xs re := by
  induction h with
  | nil => rfl
  | cons hxy _ ih =>
    unfold isfree at ih ⊢
    rw [List.all_cons, List.all_cons, ih, hxy.1]

theorem isfree_of_kept {l l' : SectionList} (h : l.Kept l') (request : Section) (re : Extent) :
    isfree (l'.ofKind request) re = isfree (l.ofKind request) re := by
  unfold ofKind
  split
  · exact isfree_of_forall₂ h.1 re
  · exact isfree_of_forall₂ h.2 re

/-- In a run of resolved faults every section keeps its extent and its live bytes at each
step exactly when each fault is in place; and then the lists stay pairwise disjoint, and what
`_findfree` takes for free remains what it was. -/
theorem faults_keep_iff_inPlace {l₀ l : SectionList} (h₀ : l₀.Disjoint) {faults : List Uintptr}
    (hr : Transition.run faultStep l₀ faults = some l) :
    (Transition.EachStep faultStep FaultKeeps l₀ faults ↔
      Transition.EachStep faultStep FaultInPlace l₀ faults) ∧
    (Transition.EachStep faultStep FaultInPlace l₀ faults → l.Disjoint ∧
      ∀ request re, isfree (l.ofKind request) re = isfree (l₀.ofKind request) re) := by
  constructor
  · have hstep : ∀ m a m', Disjoint m → FaultKeeps m a → m.faultStep a = some m' → m'.Disjoint :=
      fun m a m' hm hk hs => hm.of_kept (hk m' hs)
    exact Transition.EachStep.iff hstep (fun m a m' hm hs => hm.kept_iff hs) h₀ hr
  · intro hp
    have hstep : ∀ (m : SectionList) (a : Uintptr) (m' : SectionList), (m.Disjoint ∧ ∀ request re,
        isfree (m.ofKind request) re = isfree (l₀.ofKind request) re) → m.FaultInPlace a →
        m.faultStep a = some m' → m'.Disjoint ∧ ∀ request re,
        isfree (m'.ofKind request) re = isfree (l₀.ofKind request) re := by
      intro m a m' hm hin hs
      have hk := (hm.1.kept_iff hs).mpr hin m' hs
      exact ⟨hm.1.of_kept hk, fun request re => (isfree_of_kept hk request re).trans
        (hm.2 request re)⟩
    exact hp.run_invariant hstep ⟨h₀, fun _ _ => rfl⟩ hr

/-- An expanding kernel section with nothing in its live range, and after its first byte. -/
def emptyStack : Section := ⟨0x4067, 0x00200000, 0, 0x1000, 0, 0, 0, 0⟩

def oneByteStack : Section := ⟨0x4067, 0x001fffff, 1, 0xfff, 0, 0, 0, 0⟩

theorem singleton_disjoint (s : Section) : (⟨[s], []⟩ : SectionList).Disjoint :=
  List.pairwise_singleton _ _

theorem emptyStack_faults_keep :
    (Transition.EachStep faultStep FaultKeeps ⟨[emptyStack], []⟩ [0x001fffff, 0x001fffff] ↔
      Transition.EachStep faultStep FaultInPlace ⟨[emptyStack], []⟩ [0x001fffff, 0x001fffff]) ∧
    (Transition.EachStep faultStep FaultInPlace ⟨[emptyStack], []⟩ [0x001fffff, 0x001fffff] →
      (⟨[oneByteStack], []⟩ : SectionList).Disjoint ∧
        ∀ request re, isfree ((⟨[oneByteStack], []⟩ : SectionList).ofKind request) re =
          isfree ((⟨[emptyStack], []⟩ : SectionList).ofKind request) re) :=
  faults_keep_iff_inPlace (singleton_disjoint _) (by decide)

/-- Growing up by one byte takes one byte more out of the reservation. -/
theorem kernelStack_growth_not_kept :
    ¬ ∀ (l₀ l : SectionList) (faults : List Uintptr), l₀.Disjoint →
      Transition.run faultStep l₀ faults = some l →
      Transition.EachStep faultStep FaultKeeps l₀ faults := by
  intro h
  have hstep : faultStep ⟨[kernelStack], []⟩ 0x00201000 =
      some ⟨[kernelStack.grownUp 0x00201000], []⟩ := by decide
  have hkeeps := h ⟨[kernelStack], []⟩ _ [0x00201000] (singleton_disjoint _)
    (by rw [Transition.run_cons, hstep]; rfl)
  have hplace := ((singleton_disjoint kernelStack).kept_iff hstep).mp hkeeps.1 kernelStack
    List.mem_cons_self
  revert hplace
  decide

end SectionList
end Tysos
