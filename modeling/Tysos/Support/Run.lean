import Mathlib.Data.List.Basic

/-!
# Runs of a partial transition function

`step s a` is the state after input `a`, or `none` where the system has no next state.
-/

namespace Transition
set_option autoImplicit false

universe u v
variable {σ : Type u} {α : Type v}

def run (step : σ → α → Option σ) : σ → List α → Option σ
  | s, [] => some s
  | s, a :: as => (step s a).bind fun s' => run step s' as

variable {step : σ → α → Option σ}

@[simp] theorem run_nil (s : σ) : run step s [] = some s := rfl

@[simp] theorem run_cons (s : σ) (a : α) (as : List α) :
    run step s (a :: as) = (step s a).bind fun s' => run step s' as := rfl

theorem run_append (s : σ) (as bs : List α) :
    run step s (as ++ bs) = (run step s as).bind fun s' => run step s' bs := by
  induction as generalizing s with
  | nil => rfl
  | cons a as ih =>
    rw [List.cons_append, run_cons, run_cons]
    cases step s a with
    | none => rfl
    | some s' => exact ih s'

/-- Steps that are always there and follow `apply` make runs that are always there and follow
its repetition. -/
theorem run_refines {τ : Type*} {R : σ → τ → Prop} {apply : τ → α → τ}
    (hstep : ∀ s t a, R s t → ∃ s', step s a = some s' ∧ R s' (apply t a)) {s : σ} {t : τ}
    (hs : R s t) (as : List α) : ∃ s', run step s as = some s' ∧ R s' (as.foldl apply t) := by
  induction as generalizing s t with
  | nil => exact ⟨s, rfl, hs⟩
  | cons a as ih =>
    obtain ⟨s₁, he, hs₁⟩ := hstep s t a hs
    obtain ⟨s', hrun, hs'⟩ := ih hs₁
    refine ⟨s', ?_, hs'⟩
    rw [run_cons, he]
    exact hrun

/-- What every step keeps holds at the end of a run. -/
theorem run_keeps {Inv : σ → Prop} (hstep : ∀ s a s', Inv s → step s a = some s' → Inv s')
    {s s' : σ} {as : List α} (hs : Inv s) (hr : run step s as = some s') : Inv s' := by
  induction as generalizing s with
  | nil =>
    obtain rfl : s = s' := Option.some.inj hr
    exact hs
  | cons a as ih =>
    obtain ⟨t, ht, hr⟩ := Option.bind_eq_some_iff.mp hr
    exact ih (hstep s a t hs ht) hr

/-- A run of a transition relation. -/
inductive Steps {τ : Type*} (r : τ → α → τ → Prop) : τ → List α → τ → Prop
  | nil (t : τ) : Steps r t [] t
  | cons {t t₁ t' : τ} {a : α} {as : List α} (h : r t a t₁) (hs : Steps r t₁ as t') :
    Steps r t (a :: as) t'

theorem run_of_steps {s s' : σ} {as : List α}
    (h : Steps (fun s a s' => step s a = some s') s as s') : run step s as = some s' := by
  induction h with
  | nil t => rfl
  | cons h hs ih =>
    rw [run_cons, h]
    exact ih

/-- `P` holds of every state the run passes through and the input taken there. -/
def EachStep (step : σ → α → Option σ) (P : σ → α → Prop) : σ → List α → Prop
  | _, [] => True
  | s, a :: as => P s a ∧ ∀ s', step s a = some s' → EachStep step P s' as

instance EachStep.decidable {P : σ → α → Prop} [∀ s a, Decidable (P s a)] :
    ∀ s as, Decidable (EachStep step P s as)
  | _, [] => isTrue trivial
  | s, a :: as =>
    have (s' : σ) : Decidable (EachStep step P s' as) := EachStep.decidable s' as
    inferInstanceAs (Decidable (P s a ∧ ∀ s' ∈ step s a, EachStep step P s' as))

section
variable {Inv : σ → Prop} {P Q : σ → α → Prop}

/-- What holds at the start and is kept by every step allowed by `P` holds at the end. -/
theorem EachStep.run_invariant
    (hstep : ∀ s a s', Inv s → P s a → step s a = some s' → Inv s') {s s' : σ} {as : List α}
    (hs : Inv s) (hP : EachStep step P s as) (hr : run step s as = some s') : Inv s' := by
  induction as generalizing s with
  | nil =>
    obtain rfl : s = s' := by simpa using hr
    exact hs
  | cons a as ih =>
    obtain ⟨t, ht, hr⟩ := Option.bind_eq_some_iff.mp hr
    exact ih (hstep s a t hs hP.1 ht) (hP.2 t ht) hr

theorem EachStep.imp (hstep : ∀ s a s', Inv s → P s a → step s a = some s' → Inv s')
    (himp : ∀ s a, Inv s → P s a → Q s a) {s : σ} {as : List α} (hs : Inv s)
    (hP : EachStep step P s as) : EachStep step Q s as := by
  induction as generalizing s with
  | nil => exact trivial
  | cons a as ih =>
    exact ⟨himp s a hs hP.1, fun t ht => ih (hstep s a t hs hP.1 ht) (hP.2 t ht)⟩

theorem EachStep.and {s : σ} {as : List α} (hP : EachStep step P s as)
    (hQ : EachStep step Q s as) : EachStep step (fun s a => P s a ∧ Q s a) s as := by
  induction as generalizing s with
  | nil => exact trivial
  | cons a as ih => exact ⟨⟨hP.1, hQ.1⟩, fun t ht => ih (hP.2 t ht) (hQ.2 t ht)⟩

/-- Two properties that agree at each step of a run, as long as they hold, agree on the run. -/
theorem EachStep.iff_under {L : σ → α → Prop}
    (hstep : ∀ s a s', Inv s → L s a → P s a → step s a = some s' → Inv s')
    (hiff : ∀ s a, Inv s → L s a → (P s a ↔ Q s a)) {s : σ} {as : List α}
    (hs : Inv s) (hL : EachStep step L s as) :
    EachStep step P s as ↔ EachStep step Q s as := by
  induction as generalizing s with
  | nil => exact Iff.rfl
  | cons a as ih =>
    have hone := hiff s a hs hL.1
    constructor
    · intro h
      refine ⟨hone.mp h.1, fun t ht => ?_⟩
      exact (ih (hstep s a t hs hL.1 h.1 ht) (hL.2 t ht)).mp (h.2 t ht)
    · intro h
      have hP := hone.mpr h.1
      refine ⟨hP, fun t ht => ?_⟩
      exact (ih (hstep s a t hs hL.1 hP ht) (hL.2 t ht)).mpr (h.2 t ht)

/-- Steps that are there where `P` holds, and are steps of `r`, make such a run. -/
theorem EachStep.simulates {τ : Type*} {R : σ → τ → Prop} {r : τ → α → τ → Prop}
    (hstep : ∀ s t a, R s t → P s a → ∃ s' t', step s a = some s' ∧ r t a t' ∧ R s' t')
    {s : σ} {t : τ} (hs : R s t) {as : List α} (hP : EachStep step P s as) :
    ∃ s' t', run step s as = some s' ∧ Steps r t as t' ∧ R s' t' := by
  induction as generalizing s t with
  | nil => exact ⟨s, t, rfl, .nil t, hs⟩
  | cons a as ih =>
    obtain ⟨s₁, t₁, he, hr, hs₁⟩ := hstep s t a hs hP.1
    obtain ⟨s', t', hrun, hsteps, hs'⟩ := ih hs₁ (hP.2 s₁ he)
    refine ⟨s', t', ?_, .cons hr hsteps, hs'⟩
    rw [run_cons, he]
    exact hrun

theorem EachStep.defined {s s' : σ} {as : List α} (hr : run step s as = some s') :
    EachStep step (fun s a => ∃ t, step s a = some t) s as := by
  induction as generalizing s with
  | nil => exact trivial
  | cons a as ih =>
    obtain ⟨t, ht, hr⟩ := Option.bind_eq_some_iff.mp hr
    refine ⟨⟨t, ht⟩, fun u hu => ?_⟩
    obtain rfl : t = u := Option.some.inj (ht.symm.trans hu)
    exact ih hr

theorem EachStep.iff (hstep : ∀ s a s', Inv s → P s a → step s a = some s' → Inv s')
    (hiff : ∀ s a s', Inv s → step s a = some s' → (P s a ↔ Q s a)) {s s' : σ} {as : List α}
    (hs : Inv s) (hr : run step s as = some s') :
    EachStep step P s as ↔ EachStep step Q s as := by
  refine EachStep.iff_under ?_ ?_ hs (EachStep.defined hr)
  · exact fun s a s' hs _ hP ht => hstep s a s' hs hP ht
  · rintro s a hs ⟨t, ht⟩
    exact hiff s a t hs ht

/-- Where `P` is what every next state needs to be in `R`, all states reached are in `R`
exactly when `P` holds at each step. -/
theorem EachStep.reached_iff {R : σ → Prop}
    (hkeep : ∀ s a s', Inv s → P s a → step s a = some s' → Inv s')
    (hR : ∀ s, Inv s → R s)
    (hneed : ∀ s a, Inv s → (∀ s', step s a = some s' → R s') → P s a) {s : σ} {as : List α}
    (hs : Inv s) :
    (∀ before, before <+: as → ∀ s', run step s before = some s' → R s') ↔
      EachStep step P s as := by
  induction as generalizing s with
  | nil =>
    refine ⟨fun _ => trivial, fun _ before hbefore s' hrun => ?_⟩
    obtain rfl := List.prefix_nil.mp hbefore
    obtain rfl := Option.some.inj hrun
    exact hR s hs
  | cons a as ih =>
    constructor
    · intro hall
      have hnext : ∀ s', step s a = some s' → R s' := by
        intro s' ht
        refine hall [a] (List.prefix_append [a] as) s' ?_
        simp [ht]
      have hP := hneed s a hs hnext
      refine ⟨hP, fun s' ht => ?_⟩
      apply (ih (hkeep s a s' hs hP ht)).mp
      intro before hbefore s'' hrun
      refine hall (a :: before) (List.cons_prefix_cons.mpr ⟨rfl, hbefore⟩) s'' ?_
      simpa [ht] using hrun
    · rintro ⟨hP, hrest⟩ before hbefore s' hrun
      cases before with
      | nil =>
        obtain rfl := Option.some.inj hrun
        exact hR s hs
      | cons a' before =>
        obtain ⟨rfl, hpre⟩ := List.cons_prefix_cons.mp hbefore
        obtain ⟨t, ht, hrun⟩ := Option.bind_eq_some_iff.mp hrun
        exact (ih (hkeep s a' t hs hP ht)).mpr (hrest t ht) before hpre s' hrun

end

end Transition
