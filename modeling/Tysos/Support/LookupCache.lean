import Mathlib.Logic.Function.Basic

/-!
# A cache in front of a lookup

What a cache holds may be dropped or loaded at any time. It is of use while it holds nothing else
than the lookup gives, but for keys that are known to be stale and will be thrown out.
-/

namespace LookupCache
set_option autoImplicit false

universe u v
variable {K : Type u} {V : Type v}

/-- What a cache does to a key by itself. -/
inductive Whim where
  | keep
  | drop
  | load

def settle (whim : K → Whim) (lookup cache : K → Option V) : K → Option V := fun k =>
  match whim k with
  | .keep => cache k
  | .drop => none
  | .load => lookup k

/-- The value of a key, which is in the cache afterwards. -/
def fetch [DecidableEq K] (lookup cache : K → Option V) (k : K) : Option (V × (K → Option V)) :=
  match cache k with
  | some v => some (v, cache)
  | none => (lookup k).map fun v => (v, Function.update cache k (some v))

/-- Except for the keys in `stale` the cache agrees with the lookup. It has none of the keys in
`bare`, and gets none if it is `still`, that is, loads nothing by itself. -/
structure Coherent (still : Prop) (stale bare : K → Prop) (lookup cache : K → Option V) :
    Prop where
  agree : ∀ k, ¬ stale k → ∀ v, cache k = some v → lookup k = some v
  empty : ∀ k, bare k → cache k = none
  absent : ∀ k, bare k → still ∨ lookup k = none

section Rules
variable {still : Prop} {stale bare : K → Prop} {lookup cache : K → Option V}

theorem Coherent.settle (h : Coherent still stale bare lookup cache) {whim : K → Whim}
    (hstill : still → ∀ k, whim k ≠ .load) :
    Coherent still stale bare lookup (settle whim lookup cache) := by
  refine ⟨?_, ?_, h.absent⟩
  · intro k hk v hv
    unfold LookupCache.settle at hv
    cases hwhim : whim k with
    | keep =>
      rw [hwhim] at hv
      exact h.agree k hk v hv
    | drop =>
      rw [hwhim] at hv
      cases hv
    | load =>
      rw [hwhim] at hv
      exact hv
  · intro k hk
    unfold LookupCache.settle
    cases hwhim : whim k with
    | keep => exact h.empty k hk
    | drop => rfl
    | load =>
      rcases h.absent k hk with hs | hnone
      · exact absurd hwhim (hstill hs k)
      · exact hnone

theorem Coherent.fetch [DecidableEq K] (h : Coherent still stale bare lookup cache) {k : K}
    {v : V} (hstale : ¬ stale k) (hbare : ¬ bare k) (hv : lookup k = some v) :
    ∃ cache', fetch lookup cache k = some (v, cache') ∧
      Coherent still stale bare lookup cache' := by
  unfold LookupCache.fetch
  cases hcache : cache k with
  | some w =>
    obtain rfl : v = w := Option.some.inj (hv.symm.trans (h.agree k hstale w hcache))
    exact ⟨cache, rfl, h⟩
  | none =>
    refine ⟨Function.update cache k (some v), ?_, ?_, ?_, h.absent⟩
    · rw [hv]
      rfl
    · intro k' hk' w hw
      by_cases hkk : k' = k
      · subst hkk
        rw [Function.update_self] at hw
        exact hv.trans hw
      · rw [Function.update_of_ne hkk] at hw
        exact h.agree k' hk' w hw
    · intro k' hk'
      have hkk : k' ≠ k := fun heq => hbare (heq ▸ hk')
      rw [Function.update_of_ne hkk]
      exact h.empty k' hk'

theorem Coherent.fetch_none [DecidableEq K] (h : Coherent still stale bare lookup cache) {k : K}
    (hstale : ¬ stale k) (hv : lookup k = none) : LookupCache.fetch lookup cache k = none := by
  unfold LookupCache.fetch
  cases hcache : cache k with
  | some w =>
    have hw := h.agree k hstale w hcache
    rw [hv] at hw
    cases hw
  | none =>
    rw [hv]
    rfl

/-- A key that is thrown out is stale no more. -/
theorem Coherent.invalidate [DecidableEq K] {stale' : K → Prop}
    (h : Coherent still stale bare lookup cache) (k : K)
    (hstale : ∀ k', stale k' → stale' k' ∨ k' = k) :
    Coherent still stale' bare lookup (Function.update cache k none) := by
  refine ⟨?_, ?_, h.absent⟩
  · intro k' hk' v hv
    by_cases hkk : k' = k
    · subst hkk
      rw [Function.update_self] at hv
      cases hv
    · rw [Function.update_of_ne hkk] at hv
      exact h.agree k' (fun hs => (hstale k' hs).elim hk' hkk) v hv
  · intro k' hk'
    by_cases hkk : k' = k
    · subst hkk
      exact Function.update_self _ _ _
    · rw [Function.update_of_ne hkk]
      exact h.empty k' hk'

/-- The lookup changes for stale keys only, and for keys that the cache does not have. -/
theorem Coherent.relookup {stale' : K → Prop} {lookup' : K → Option V}
    (h : Coherent still stale bare lookup cache) (hstale : ∀ k, stale k → stale' k)
    (hsame : ∀ k, ¬ stale' k → ¬ bare k → lookup' k = lookup k)
    (habsent : ∀ k, bare k → still ∨ lookup' k = none) :
    Coherent still stale' bare lookup' cache := by
  refine ⟨?_, h.empty, habsent⟩
  intro k hk v hv
  by_cases hb : bare k
  · rw [h.empty k hb] at hv
    cases hv
  · rw [hsame k hk hb]
    exact h.agree k (fun hs => hk (hstale k hs)) v hv

theorem Coherent.rebare {stale' bare' : K → Prop} (h : Coherent still stale bare lookup cache)
    (hstale : ∀ k, stale k → stale' k)
    (hbare : ∀ k, bare' k → bare k ∨ ¬ stale k ∧ lookup k = none) :
    Coherent still stale' bare' lookup cache := by
  refine ⟨fun k hk => h.agree k fun hs => hk (hstale k hs), ?_, ?_⟩
  · intro k hk
    rcases hbare k hk with hold | ⟨hk', hnone⟩
    · exact h.empty k hold
    · cases hcache : cache k with
      | none => rfl
      | some v =>
        have hv := h.agree k hk' v hcache
        rw [hnone] at hv
        cases hv
  · intro k hk
    rcases hbare k hk with hold | ⟨-, hnone⟩
    · exact h.absent k hold
    · exact Or.inr hnone

end Rules

end LookupCache
