import Mathlib.Data.List.Basic

/-!
# Enumerations

An enumeration moves on from its state and says whether there is an element, and then it has a
current one. Either may fail. Two enumerations are put one behind the other by asking the first
one each time, and the second one only where the first has no more; if the first one starts
again after its end, it comes in between the elements of the second.
-/

namespace Enumeration
set_option autoImplicit false

universe u v w

structure Enumerator (σ : Type u) (α : Type v) where
  moveNext : σ → Option (σ × Bool)
  current : σ → Option α

variable {σ : Type u} {τ : Type w} {α : Type v}

/-- The elements met in `while (moveNext) current`, where the loop ends within the fuel. -/
def visit (E : Enumerator σ α) : Nat → σ → Option (List α)
  | 0, _ => none
  | fuel + 1, s =>
    (E.moveNext s).bind fun r =>
      if r.2 then (E.current r.1).bind fun v => (visit E fuel r.1).map (v :: ·) else some []

/-- `while (moveNext) body(current)`, within the fuel. -/
def forEach {ρ : Type} (E : Enumerator σ α) (body : ρ → α → Option ρ) : Nat → σ → ρ → Option ρ
  | 0, _, _ => none
  | fuel + 1, s, x =>
    (E.moveNext s).bind fun r =>
      if r.2 then (E.current r.1).bind fun v => (body x v).bind (forEach E body fuel r.1)
      else some x

/-- From one state to another the loop meets these elements. -/
inductive Yields (E : Enumerator σ α) : σ → List α → σ → Prop
  | stop {s s' : σ} : E.moveNext s = some (s', false) → Yields E s [] s'
  | next {s s' t : σ} {v : α} {vs : List α} : E.moveNext s = some (s', true) →
      E.current s' = some v → Yields E s' vs t → Yields E s (v :: vs) t

/-- The first enumeration, and where it has no more the second one, from then on the one that is
asked for the current element. -/
def chain (A : Enumerator σ α) (B : Enumerator τ α) : Enumerator (σ × τ × Bool) α where
  moveNext st :=
    (A.moveNext st.1).bind fun r =>
      if r.2 then some ((r.1, st.2.1, st.2.2), true)
      else (B.moveNext st.2.1).map fun r' => ((r.1, r'.1, true), r'.2)
  current st := if st.2.2 then B.current st.2.1 else A.current st.1

section
variable {E : Enumerator σ α} {s s' : σ} {vs : List α}

theorem Yields.visit_eq (h : Yields E s vs s') {fuel : Nat} (hfuel : vs.length < fuel) :
    visit E fuel s = some vs := by
  induction h generalizing fuel with
  | stop hmove =>
    obtain ⟨fuel, rfl⟩ := Nat.exists_eq_succ_of_ne_zero (Nat.ne_of_gt hfuel)
    unfold visit
    rw [hmove]
    rfl
  | next hmove hcurrent _ ih =>
    obtain ⟨fuel, rfl⟩ := Nat.exists_eq_succ_of_ne_zero (Nat.ne_of_gt (Nat.zero_lt_of_lt hfuel))
    unfold visit
    rw [hmove, Option.bind_some, if_pos rfl, hcurrent, Option.bind_some,
      ih (Nat.lt_of_succ_lt_succ hfuel), Option.map_some]

theorem Yields.forEach_eq {ρ : Type} (body : ρ → α → Option ρ) (h : Yields E s vs s') {fuel : Nat}
    (hfuel : vs.length < fuel) (x : ρ) : forEach E body fuel s x = vs.foldlM body x := by
  induction h generalizing fuel x with
  | stop hmove =>
    obtain ⟨fuel, rfl⟩ := Nat.exists_eq_succ_of_ne_zero (Nat.ne_of_gt hfuel)
    unfold forEach
    rw [hmove]
    rfl
  | next hmove hcurrent _ ih =>
    obtain ⟨fuel, rfl⟩ := Nat.exists_eq_succ_of_ne_zero (Nat.ne_of_gt (Nat.zero_lt_of_lt hfuel))
    unfold forEach
    rw [hmove, Option.bind_some, if_pos rfl, hcurrent, Option.bind_some, List.foldlM_cons]
    apply congrArg (Option.bind _)
    funext y
    exact ih (Nat.lt_of_succ_lt_succ hfuel) y

theorem Yields.visit_unique (h : Yields E s vs s') {fuel : Nat} {ws : List α}
    (hws : visit E fuel s = some ws) : ws = vs := by
  induction h generalizing fuel ws with
  | stop hmove =>
    cases fuel with
    | zero => exact absurd hws.symm (Option.some_ne_none ws)
    | succ fuel =>
      unfold visit at hws
      rw [hmove] at hws
      exact (Option.some.inj hws).symm
  | next hmove hcurrent _ ih =>
    cases fuel with
    | zero => exact absurd hws.symm (Option.some_ne_none ws)
    | succ fuel =>
      unfold visit at hws
      rw [hmove, Option.bind_some, if_pos rfl, hcurrent, Option.bind_some] at hws
      obtain ⟨us, hus, rfl⟩ := Option.map_eq_some_iff.mp hws
      rw [ih hus]

/-- An enumeration that takes the steps of another one meets the same elements. -/
theorem Yields.lift {E' : Enumerator τ α} {f : σ → τ}
    (hmove : ∀ s, E'.moveNext (f s) = (E.moveNext s).map (Prod.map f id))
    (hcurrent : ∀ s, E'.current (f s) = E.current s) (h : Yields E s vs s') :
    Yields E' (f s) vs (f s') := by
  induction h with
  | stop hone =>
    refine .stop ?_
    rw [hmove, hone]
    rfl
  | next hone hcur _ ih =>
    refine .next ?_ ((hcurrent _).trans hcur) ih
    rw [hmove, hone]
    rfl

end

section Chain
variable {A : Enumerator σ α} {B : Enumerator τ α} {a a' : σ} {b b' : τ} {vs : List α}

/-- While the first enumeration goes on, `g` is what is shown for its elements; then it is up to
the second one. -/
theorem Yields.chain_stop {g : α → α} {proc : Bool} (h : Yields A a vs a')
    (hshow : ∀ s v, A.current s = some v → (chain A B).current (s, b, proc) = some (g v))
    (hB : B.moveNext b = some (b', false)) :
    Yields (chain A B) (a, b, proc) (vs.map g) (a', b', true) := by
  induction h with
  | stop hmove =>
    refine .stop ?_
    simp [chain, hmove, hB]
  | next hmove hcurrent _ ih =>
    refine .next ?_ (hshow _ _ hcurrent) ih
    simp [chain, hmove]

theorem Yields.chain_next {g : α → α} {proc : Bool} (h : Yields A a vs a')
    (hshow : ∀ s v, A.current s = some v → (chain A B).current (s, b, proc) = some (g v))
    (hB : B.moveNext b = some (b', true)) {q : α} (hq : B.current b' = some q) {ws : List α}
    {t : σ × τ × Bool} (hrest : Yields (chain A B) (a', b', true) ws t) :
    Yields (chain A B) (a, b, proc) (vs.map g ++ q :: ws) t := by
  induction h with
  | @stop s s' hmove =>
    have hchain : (chain A B).moveNext (s, b, proc) = some ((s', b', true), true) := by
      simp [chain, hmove, hB]
    exact .next hchain hq hrest
  | next hmove hcurrent _ ih =>
    refine .next ?_ (hshow _ _ hcurrent) (ih hrest)
    simp [chain, hmove]

/-- The first enumeration starts again after its end: each element of the second one is shown
once more for every element of the first. -/
theorem Yields.chain_again (hA : Yields A a vs a) {ps : List α} (hB : Yields B b ps b') {p : α}
    (hp : B.current b = some p) :
    Yields (chain A B) (a, b, true)
      (List.replicate vs.length p ++ ps.flatMap (List.replicate (vs.length + 1)))
      (a, b', true) := by
  have hshow : ∀ {b p}, B.current b = some p → ∀ s v, A.current s = some v →
      (chain A B).current (s, b, true) = some ((fun _ => p) v) := fun h _ _ _ => h
  induction hB generalizing p with
  | stop hmove =>
    have hone := hA.chain_stop (hshow hp) hmove
    rw [List.flatMap_nil, List.append_nil, ← List.map_const']
    exact hone
  | next hmove hcurrent _ ih =>
    have hone := hA.chain_next (hshow hp) hmove hcurrent (ih hcurrent)
    rw [List.flatMap_cons, List.replicate_succ, List.cons_append, ← List.map_const']
    exact hone

theorem Yields.chain (hA : Yields A a vs a) {ps : List α} (hB : Yields B b ps b') :
    Yields (Enumeration.chain A B) (a, b, false)
      (vs ++ ps.flatMap (List.replicate (vs.length + 1))) (a, b', true) := by
  have hshow : ∀ s v, A.current s = some v →
      (Enumeration.chain A B).current (s, b, false) = some (id v) := fun _ _ h => h
  cases hB with
  | stop hmove =>
    have hone := hA.chain_stop hshow hmove
    rw [List.map_id] at hone
    rw [List.flatMap_nil, List.append_nil]
    exact hone
  | next hmove hcurrent hrest =>
    have hone := hA.chain_next hshow hmove hcurrent (hA.chain_again hrest hcurrent)
    rw [List.map_id] at hone
    rw [List.flatMap_cons, List.replicate_succ, List.cons_append]
    exact hone

theorem append_flatMap_replicate_eq_iff (vs ps : List α) :
    vs ++ ps.flatMap (List.replicate (vs.length + 1)) = vs ++ ps ↔ vs = [] ∨ ps = [] := by
  rw [List.append_cancel_left_eq]
  constructor
  · intro h
    have hlen := congrArg List.length h
    rw [List.length_flatMap] at hlen
    simp only [List.length_replicate, List.map_const', List.sum_replicate_nat] at hlen
    by_cases hps : ps = []
    · exact .inr hps
    · refine .inl (List.length_eq_zero_iff.mp ?_)
      have hpos := List.length_pos_iff.mpr hps
      rw [Nat.mul_succ] at hlen
      have hzero : ps.length * vs.length = 0 := by omega
      exact (Nat.mul_eq_zero.mp hzero).resolve_left (Nat.ne_of_gt hpos)
  · intro h
    cases h with
    | inl hvs =>
      have hone : List.replicate (([] : List α).length + 1) = fun q : α => [q] := rfl
      rw [hvs, hone, List.flatMap_singleton']
    | inr hps => rw [hps, List.flatMap_nil]

end Chain

end Enumeration
