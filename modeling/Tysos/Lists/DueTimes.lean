import Tysos.Lists.DeltaQueue

/-!
# Remaining times of a delta queue

A delta queue stands for a list of items with the time each has still to wait, the sum of
the deltas up to and including its own, taken in the integers. `DecreaseDelta` is truncated
subtraction on these times and an early removal leaves the others alone. `InsertAtDelta`
never disturbs the other items, but gives the new one its time only when `OnTime` holds.
-/

namespace Tysos.DeltaQueue
open DoublyLinked LinkedList
set_option autoImplicit false

variable {T : Type}

def times : List (DeltaItem T) → List (T × Nat)
  | [] => []
  | v :: vs => (v.item, v.d.toNat) :: (times vs).map fun p => (p.1, v.d.toNat + p.2)

theorem times_items (vs : List (DeltaItem T)) :
    (times vs).map Prod.fst = vs.map DeltaItem.item := by
  induction vs with
  | nil => rfl
  | cons v vs ih => simp [times, ← ih, Function.comp_def]

theorem mem_times_cons {v : DeltaItem T} {vs : List (DeltaItem T)} {t : T} {r : Nat} :
    (t, r) ∈ times (v :: vs) ↔
      (t = v.item ∧ r = v.d.toNat) ∨ ∃ k, (t, k) ∈ times vs ∧ r = v.d.toNat + k := by
  simp only [times, List.mem_cons, List.mem_map, Prod.mk.injEq, Prod.exists]
  constructor
  · rintro (h | ⟨u, k, hm, rfl, rfl⟩)
    · exact Or.inl h
    · exact Or.inr ⟨k, hm, rfl⟩
  · rintro (h | ⟨k, hm, rfl⟩)
    · exact Or.inl h
    · exact Or.inr ⟨t, k, hm, rfl, rfl⟩

theorem exists_time_of_mem {vs : List (DeltaItem T)} {t : T}
    (h : t ∈ vs.map DeltaItem.item) : ∃ r, (t, r) ∈ times vs := by
  rw [← times_items] at h
  obtain ⟨⟨u, r⟩, hm, rfl⟩ := List.mem_map.mp h
  exact ⟨r, hm⟩

theorem mem_items_of_time {vs : List (DeltaItem T)} {t : T} {r : Nat}
    (h : (t, r) ∈ times vs) : t ∈ vs.map DeltaItem.item := by
  rw [← times_items]
  exact List.mem_map.mpr ⟨(t, r), h, rfl⟩

theorem times_decreased (vs : List (DeltaItem T)) (decval : BitVec 64) :
    times (decreased vs decval) = (times vs).map fun p => (p.1, p.2 - decval.toNat) := by
  induction vs generalizing decval with
  | nil => rfl
  | cons v vs ih =>
    unfold decreased
    split
    · rename_i hle
      have hsub : (v.d - decval).toNat = v.d.toNat - decval.toNat := BitVec.toNat_sub_of_le hle
      have hle' : decval.toNat ≤ v.d.toNat := hle
      simp only [times, hsub, List.map_cons, List.map_map]
      refine congrArg _ (List.map_congr_left fun p _ => Prod.ext rfl ?_)
      simp only [Function.comp_apply]
      omega
    · rename_i hlt
      have hlt' : v.d.toNat < decval.toNat := by simpa [BitVec.le_def] using hlt
      have hsub : (decval - v.d).toNat = decval.toNat - v.d.toNat :=
        BitVec.toNat_sub_of_le (Nat.le_of_lt hlt')
      have hzero : (0 : BitVec 64).toNat = 0 := rfl
      have hfirst : v.d.toNat - decval.toNat = 0 := by omega
      simp only [times, ih, hsub, hzero, hfirst, List.map_cons, List.map_map]
      refine congrArg _ (List.map_congr_left fun p _ => Prod.ext rfl ?_)
      simp only [Function.comp_apply]
      omega

theorem mem_times_decreased {vs : List (DeltaItem T)} {t : T} {r : Nat} (h : (t, r) ∈ times vs)
    (decval : BitVec 64) : (t, r - decval.toNat) ∈ times (decreased vs decval) := by
  rw [times_decreased]
  exact List.mem_map.mpr ⟨(t, r), h, rfl⟩

/-- An early removal of another item keeps the remaining time of `t`. -/
theorem mem_times_removeFirst [DecidableEq T] {vs : List (DeltaItem T)} {t u : T} {r : Nat}
    (h : (t, r) ∈ times vs) (hne : t ≠ u) (hr : r < 2 ^ 64) :
    (t, r) ∈ times (removeFirst addDelta (fun v => v.item == u) vs) := by
  induction vs generalizing r with
  | nil => simp [times] at h
  | cons v vs ih =>
    unfold removeFirst
    by_cases hv : v.item = u
    · simp only [hv, beq_self_eq_true, if_true]
      rcases mem_times_cons.mp h with ⟨ht, _⟩ | ⟨k, hk, rfl⟩
      · exact absurd (ht.trans hv) hne
      · cases vs with
        | nil => simp [times] at hk
        | cons w ws =>
          have hnowrap : ∀ j, v.d.toNat + (w.d.toNat + j) < 2 ^ 64 →
              (w.d + v.d).toNat = w.d.toNat + v.d.toNat := by
            intro j hj
            rw [BitVec.toNat_add]
            exact Nat.mod_eq_of_lt (by omega)
          apply mem_times_cons.mpr
          rcases mem_times_cons.mp hk with ⟨ht, rfl⟩ | ⟨j, hj, rfl⟩
          · refine Or.inl ⟨ht, ?_⟩
            have hsum := hnowrap 0 hr
            simp only [addDelta]
            omega
          · refine Or.inr ⟨j, hj, ?_⟩
            have hsum := hnowrap j hr
            simp only [addDelta]
            omega
    · have hv' : (v.item == u) = false := by simpa using hv
      simp only [hv', Bool.false_eq_true, if_false]
      apply mem_times_cons.mpr
      rcases mem_times_cons.mp h with h | ⟨k, hk, rfl⟩
      · exact Or.inl h
      · exact Or.inr ⟨k, ih hk (by omega), rfl⟩

/-- The remaining time `InsertAtDelta` really gives the new item. -/
def insertTime : List (DeltaItem T) → BitVec 64 → Nat
  | [], value => value.toNat
  | [c], value => c.d.toNat + (value - c.d).toNat
  | c :: nx :: rest, value =>
    if value ≤ nx.d then c.d.toNat else c.d.toNat + insertTime (nx :: rest) (value - c.d)

theorem mem_times_insertedAt_self (t : T) (vs : List (DeltaItem T)) (value : BitVec 64) :
    (t, insertTime vs value) ∈ times (insertedAt t vs value) := by
  induction vs generalizing value with
  | nil => simp [insertTime, insertedAt, times]
  | cons c vs ih =>
    cases vs with
    | nil => simp [insertTime, insertedAt, times]
    | cons nx rest =>
      unfold insertTime insertedAt
      split
      · simp [times]
      · exact mem_times_cons.mpr (Or.inr ⟨_, ih (value - c.d), rfl⟩)

theorem mem_times_insertedAt_of_mem {vs : List (DeltaItem T)} {t : T} {r : Nat}
    (h : (t, r) ∈ times vs) (u : T) (value : BitVec 64) :
    (t, r) ∈ times (insertedAt u vs value) := by
  induction vs generalizing value r with
  | nil => simp [times] at h
  | cons c vs ih =>
    cases vs with
    | nil => simp_all [insertedAt, times]
    | cons nx rest =>
      unfold insertedAt
      split
      · rename_i hle
        apply mem_times_cons.mpr
        rcases mem_times_cons.mp h with h | ⟨k, hk, rfl⟩
        · exact Or.inl h
        · refine Or.inr ⟨k, mem_times_cons.mpr (Or.inr ⟨k, hk, ?_⟩), rfl⟩
          simp
      · apply mem_times_cons.mpr
        rcases mem_times_cons.mp h with h | ⟨k, hk, rfl⟩
        · exact Or.inl h
        · exact Or.inr ⟨k, ih hk _, rfl⟩

/-- Walking the queue with the time still to wait, `ns` less the deltas passed: the first
item whose successor's delta covers that time has exactly that time as its own delta, or no
item has such a successor and the time reaches past the last one. -/
def OnTime : List (DeltaItem T) → Nat → Prop
  | [], _ => True
  | [c], ns => c.d.toNat ≤ ns
  | c :: nx :: rest, ns =>
    if ns ≤ nx.d.toNat then ns = c.d.toNat
    else c.d.toNat ≤ ns ∧ OnTime (nx :: rest) (ns - c.d.toNat)

theorem le_insertTime (c : DeltaItem T) (vs : List (DeltaItem T)) (value : BitVec 64) :
    c.d.toNat ≤ insertTime (c :: vs) value := by
  cases vs with
  | nil => simp [insertTime]
  | cons nx rest =>
    unfold insertTime
    split <;> omega

theorem insertTime_eq_iff (vs : List (DeltaItem T)) (ns : BitVec 64) :
    insertTime vs ns = ns.toNat ↔ OnTime vs ns.toNat := by
  induction vs generalizing ns with
  | nil => simp [insertTime, OnTime]
  | cons c vs ih =>
    have hlow := le_insertTime c vs ns
    cases vs with
    | nil =>
      simp only [insertTime, OnTime] at hlow ⊢
      constructor
      · intro h
        omega
      · intro h
        rw [BitVec.toNat_sub_of_le h]
        omega
    | cons nx rest =>
      unfold OnTime
      by_cases hle : ns ≤ nx.d
      · have hle' : ns.toNat ≤ nx.d.toNat := hle
        simp only [insertTime, if_pos hle, if_pos hle']
        exact eq_comm
      · have hle' : ¬ ns.toNat ≤ nx.d.toNat := hle
        simp only [insertTime, if_neg hle, if_neg hle'] at hlow ⊢
        by_cases hc : c.d.toNat ≤ ns.toNat
        · have hsub : (ns - c.d).toNat = ns.toNat - c.d.toNat := BitVec.toNat_sub_of_le hc
          have hrec := ih (ns - c.d)
          rw [hsub] at hrec
          rw [← hrec]
          omega
        · omega

theorem time_unique {vs : List (DeltaItem T)} (hn : (vs.map DeltaItem.item).Nodup) {t : T}
    {r r' : Nat} (h : (t, r) ∈ times vs) (h' : (t, r') ∈ times vs) : r = r' := by
  induction vs generalizing r r' with
  | nil => simp [times] at h
  | cons v vs ih =>
    obtain ⟨hv, hn⟩ := List.nodup_cons.mp hn
    rcases mem_times_cons.mp h with ⟨ht, rfl⟩ | ⟨k, hk, rfl⟩
    · rcases mem_times_cons.mp h' with ⟨_, rfl⟩ | ⟨k', hk', _⟩
      · rfl
      · exact absurd (ht ▸ mem_items_of_time hk') hv
    · rcases mem_times_cons.mp h' with ⟨ht, _⟩ | ⟨k', hk', rfl⟩
      · exact absurd (ht ▸ mem_items_of_time hk) hv
      · rw [ih hn hk hk']

/-- What draining with `GetZero` leaves. -/
def drained (vs : List (DeltaItem T)) : List (DeltaItem T) := vs.dropWhile fun v => v.d = 0

theorem first_time_le {v : DeltaItem T} {vs : List (DeltaItem T)} {p : T × Nat}
    (h : p ∈ times (v :: vs)) : v.d.toNat ≤ p.2 := by
  rcases mem_times_cons.mp (show (p.1, p.2) ∈ _ from h) with ⟨-, hp⟩ | ⟨k, -, hp⟩ <;> omega

theorem times_drained (vs : List (DeltaItem T)) :
    times (drained vs) = (times vs).filter fun p => 0 < p.2 := by
  induction vs with
  | nil => rfl
  | cons v vs ih =>
    unfold drained at ih ⊢
    by_cases hz : v.d = 0
    · have hnat : v.d.toNat = 0 := by simp [hz]
      have hshift : ((times vs).map fun p => (p.1, v.d.toNat + p.2)) = times vs := by
        simp [hnat]
      rw [List.dropWhile_cons_of_pos (by simpa using hz), ih, times, hshift,
        List.filter_cons_of_neg (by simp [hnat])]
    · have hpos : 0 < v.d.toNat := by
        apply Nat.pos_of_ne_zero
        intro hnat
        exact hz (BitVec.eq_of_toNat_eq (by simpa using hnat))
      rw [List.dropWhile_cons_of_neg (by simpa using hz)]
      refine (List.filter_eq_self.mpr fun p hp => ?_).symm
      exact decide_eq_true (Nat.lt_of_lt_of_le hpos (first_time_le hp))

theorem mem_times_drained {vs : List (DeltaItem T)} {t : T} {r : Nat} :
    (t, r) ∈ times (drained vs) ↔ 0 < r ∧ (t, r) ∈ times vs := by
  rw [times_drained, List.mem_filter, decide_eq_true_iff, and_comm]

end Tysos.DeltaQueue
