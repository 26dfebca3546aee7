import Tysos.Lists.DueTimes

/-!
# The laws of a delta queue

`DecreaseDelta` with the draining after it, `Remove` and `Add`, each as what it does to the
remaining times. `_remove` passes a delta on modulo 2^64, and so does `_sumto` add; the other
times are sums of natural numbers.
-/

namespace Tysos.DeltaQueue
open DoublyLinked LinkedList
set_option autoImplicit false

variable {T : Type}

/-- `GetZero` again and again until it returns NULL, as `TimerTick` calls it. -/
def drain : Nat → DeltaQueue T → Option (DeltaQueue T × List T)
  | 0, _ => none
  | k + 1, q => do
    let (q, t) ← getZero q
    match t with
    | none => some (q, [])
    | some t => do
      let (q, ts) ← drain k q
      some (q, t :: ts)

def sumtoLoop (q : DeltaQueue T) (n : Option Nat) :
    Nat → BitVec 64 → Option Nat → Option (BitVec 64)
  | 0, _, _ => none
  | _ + 1, sum, none => some sum
  | k + 1, sum, some c => do
    let cn ← q.nodes c
    let sum := sum + cn.item.d
    if some c = n then some sum else sumtoLoop q n k sum cn.next

def sumto (q : DeltaQueue T) (n : Option Nat) : Option (BitVec 64) :=
  sumtoLoop q n (q.fresh + 1) 0 q.f

/-- The test `value <= 0` is on an unsigned number. -/
def add (q : DeltaQueue T) (item : T) (value : BitVec 64) (absolute : Bool) :
    Option (DeltaQueue T) := do
  let value ← if absolute then do some (value - (← q.sumto q.l)) else some value
  let value := if value ≤ 0 then 0 else value
  LinkedList.add q ⟨item, value⟩

/-- The remaining time of the last item. -/
def total (vs : List (DeltaItem T)) : Nat := (vs.map fun v => v.d.toNat).sum

/-- The remaining times as `_sumto` adds them up, from `acc` on. -/
def sums : BitVec 64 → List (DeltaItem T) → List (T × BitVec 64)
  | _, [] => []
  | acc, v :: vs => (v.item, acc + v.d) :: sums (acc + v.d) vs

theorem toNat_undelivered (vs : List (DeltaItem T)) (decval : BitVec 64) :
    (undelivered vs decval).toNat = decval.toNat - total vs := by
  induction vs generalizing decval with
  | nil => simp [undelivered, total]
  | cons v vs ih =>
    have htotal : total (v :: vs) = v.d.toNat + total vs := by simp [total]
    unfold undelivered
    split
    · rename_i hle
      have hle' : decval.toNat ≤ v.d.toNat := hle
      have hzero : (0 : BitVec 64).toNat = 0 := rfl
      rw [htotal, hzero]
      omega
    · rename_i hlt
      have hlt' : v.d.toNat < decval.toNat := by simpa [BitVec.le_def] using hlt
      rw [ih, htotal, BitVec.toNat_sub_of_le (Nat.le_of_lt hlt'), Nat.sub_sub]

theorem Holds.drain {q : DeltaQueue T} {vs : List (DeltaItem T)} (h : q.Holds vs) {k : Nat}
    (hk : vs.length < k) :
    ∃ q', drain k q = some (q', (vs.takeWhile fun v => v.d = 0).map DeltaItem.item) ∧
      q'.Holds (drained vs) := by
  induction k generalizing q vs with
  | zero => exact absurd hk (Nat.not_lt_zero _)
  | succ k ih =>
    unfold DeltaQueue.drain
    cases vs with
    | nil =>
      rw [Holds.getZero_nil h]
      exact ⟨q, rfl, h⟩
    | cons v vs =>
      rcases Holds.getZero_cons h with ⟨hz, q₁, he, hq₁⟩ | ⟨hz, he⟩
      · obtain ⟨q', hd, hq'⟩ := ih hq₁ (Nat.lt_of_succ_lt_succ hk)
        refine ⟨q', ?_, ?_⟩
        · simp [he, hd, hz]
        · unfold drained at hq' ⊢
          rwa [List.dropWhile_cons_of_pos (by simpa using hz)]
      · refine ⟨q, ?_, ?_⟩
        · rw [he, List.takeWhile_cons_of_neg (by simpa using hz)]
          rfl
        · unfold drained
          rwa [List.dropWhile_cons_of_neg (by simpa using hz)]

theorem takeWhile_items (vs : List (DeltaItem T)) :
    (vs.takeWhile fun v => v.d = 0).map DeltaItem.item =
      ((times vs).filter fun p => p.2 = 0).map Prod.fst := by
  induction vs with
  | nil => rfl
  | cons v vs ih =>
    by_cases hz : v.d = 0
    · have hnat : v.d.toNat = 0 := by simp [hz]
      have hshift : ((times vs).map fun p => (p.1, v.d.toNat + p.2)) = times vs := by
        simp [hnat]
      rw [List.takeWhile_cons_of_pos (by simpa using hz), times, hshift,
        List.filter_cons_of_pos (by simp [hnat]), List.map_cons, List.map_cons, ih]
    · have hpos : 0 < v.d.toNat := by
        apply Nat.pos_of_ne_zero
        intro hnat
        exact hz (BitVec.eq_of_toNat_eq (by simpa using hnat))
      have hnone : (times (v :: vs)).filter (fun p => p.2 = 0) = [] := by
        refine List.filter_eq_nil_iff.mpr fun p hp hp0 => ?_
        have hle := first_time_le hp
        have hzero : p.2 = 0 := of_decide_eq_true hp0
        omega
      rw [List.takeWhile_cons_of_neg (by simpa using hz), hnone]
      rfl

/-- `DecreaseDelta` is truncated subtraction, and draining takes out, in order, the items whose
time was at most `decval`. -/
theorem decrease_drain {q : DeltaQueue T} {vs : List (DeltaItem T)} (h : q.Holds vs)
    (decval : BitVec 64) :
    ∃ q₁ ws rest, decreaseDelta q decval = some (q₁, rest) ∧ q₁.Holds ws ∧
      times ws = ((times vs).map fun p => (p.1, p.2 - decval.toNat)) ∧
      rest.toNat = decval.toNat - total vs ∧
      ∃ q₂ us, drain (q₁.fresh + 1) q₁ = some (q₂,
          ((times vs).filter fun p => p.2 ≤ decval.toNat).map Prod.fst) ∧
        q₂.Holds us ∧ times us = (times ws).filter fun p => 0 < p.2 := by
  obtain ⟨q₁, he₁, hq₁⟩ := Holds.decreaseDelta h decval
  obtain ⟨q₂, he₂, hq₂⟩ := Holds.drain hq₁ (Nat.lt_succ_of_le hq₁.length_le)
  have htimes := times_decreased vs decval
  refine ⟨q₁, _, _, he₁, hq₁, htimes, toNat_undelivered vs decval, q₂, _, ?_, hq₂,
    times_drained _⟩
  rw [he₂, takeWhile_items, htimes, List.filter_map, List.map_map]
  have hdue : ∀ p : T × Nat, decide (p.2 - decval.toNat = 0) = decide (p.2 ≤ decval.toNat) :=
    fun p => decide_eq_decide.mpr Nat.sub_eq_zero_iff_le
  simp only [Function.comp_def, hdue]

/-- Two items that are due together. -/
def pairItems : List (DeltaItem Nat) := [⟨1, 5⟩, ⟨2, 0⟩]

def pair : DeltaQueue Nat :=
  ((LinkedList.empty.add ⟨1, 5⟩).bind fun q => q.add ⟨2, 0⟩).getD LinkedList.empty

theorem pair_holds : pair.Holds pairItems := by
  obtain ⟨q₁, he₁, hq₁⟩ := LinkedList.holds_empty.add (⟨1, 5⟩ : DeltaItem Nat)
  obtain ⟨q₂, he₂, hq₂⟩ := hq₁.add ⟨2, 0⟩
  have hpair : pair = q₂ := by
    unfold pair
    rw [he₁, Option.bind_some, he₂]
    rfl
  rw [hpair]
  exact hq₂

theorem pair_decrease_drain :
    ∃ q₁ ws rest, decreaseDelta pair 7 = some (q₁, rest) ∧ q₁.Holds ws ∧
      times ws = ((times pairItems).map fun p => (p.1, p.2 - (7 : BitVec 64).toNat)) ∧
      rest.toNat = (7 : BitVec 64).toNat - total pairItems ∧
      ∃ q₂ us, drain (q₁.fresh + 1) q₁ = some (q₂,
          ((times pairItems).filter fun p => p.2 ≤ (7 : BitVec 64).toNat).map Prod.fst) ∧
        q₂.Holds us ∧ times us = (times ws).filter fun p => 0 < p.2 :=
  decrease_drain pair_holds 7

theorem sums_removeFirst [DecidableEq T] (t : T) (acc : BitVec 64) (vs : List (DeltaItem T)) :
    sums acc (removeFirst addDelta (fun v => v.item == t) vs) =
      (sums acc vs).eraseP fun p => p.1 == t := by
  induction vs generalizing acc with
  | nil => rfl
  | cons v vs ih =>
    unfold removeFirst
    by_cases hv : v.item = t
    · cases vs with
      | nil => simp [sums, hv]
      | cons w ws =>
        have hsum : acc + (w.d + v.d) = acc + v.d + w.d := by
          rw [BitVec.add_comm w.d, BitVec.add_assoc]
        simp [sums, hv, addDelta, hsum]
    · have hv' : (v.item == t) = false := by simpa using hv
      simp [sums, hv', ih]

theorem any_items [DecidableEq T] (t : T) (vs : List (DeltaItem T)) :
    (vs.any fun v => v.item == t) = decide (t ∈ vs.map DeltaItem.item) := by
  rw [Bool.eq_iff_iff, List.any_eq_true, decide_eq_true_iff, List.mem_map]
  simp

theorem removeWith_false {N : Type} {rm : LinkedList N → Option Nat → Option (LinkedList N)}
    {q q' : LinkedList N} {is : N → Bool} (h : q.removeWith rm is = some (q', false)) :
    q' = q := by
  unfold removeWith at h
  obtain ⟨found, -, h⟩ := Option.bind_eq_some_iff.mp h
  cases found with
  | none => exact (Prod.ext_iff.mp (Option.some.inj h)).1.symm
  | some n =>
    obtain ⟨q₁, -, h⟩ := Option.bind_eq_some_iff.mp h
    have hfound := (Prod.ext_iff.mp (Option.some.inj h)).2
    simp at hfound

/-- An early removal takes the item out of both chains and leaves the remaining time of every
other item as it is. -/
theorem remove_keeps_times [DecidableEq T] {q : DeltaQueue T} {vs : List (DeltaItem T)}
    (h : q.Holds vs) (t : T) :
    ∃ q' ws, remove q t = some (q', decide (t ∈ vs.map DeltaItem.item)) ∧
      q'.Holds ws ∧ q'.items = ws ∧ q'.itemsBack = ws.reverse ∧
      (sums 0 ws = (sums 0 vs).eraseP fun p => p.1 == t) ∧
      (t ∈ vs.map DeltaItem.item → q'.count = q.count - 1) ∧
      (t ∉ vs.map DeltaItem.item → q' = q) := by
  obtain ⟨q', he, hq'⟩ := Holds.removeDelta h t
  rw [any_items] at he
  refine ⟨q', _, he, hq', hq'.items_eq, hq'.itemsBack_eq, sums_removeFirst t 0 vs,
    fun hin => ?_, fun hout => ?_⟩
  · have hlen : (removeFirst addDelta (fun v => v.item == t) vs).length =
        vs.length - 1 := by
      rw [← List.length_map DeltaItem.item, removeFirst_items, List.length_erase_of_mem hin,
        List.length_map]
    have hpos : 0 < vs.length := by
      rw [← List.length_map DeltaItem.item]
      exact List.length_pos_of_mem hin
    rw [hq'.count_eq, h.count_eq, hlen]
    omega
  · rw [decide_eq_false hout] at he
    exact removeWith_false he

theorem pair_remove_keeps_times :
    ∃ q' ws, remove pair 1 = some (q', decide (1 ∈ pairItems.map DeltaItem.item)) ∧
      q'.Holds ws ∧ q'.items = ws ∧ q'.itemsBack = ws.reverse ∧
      (sums 0 ws = (sums 0 pairItems).eraseP fun p => p.1 == 1) ∧
      (1 ∈ pairItems.map DeltaItem.item → q'.count = pair.count - 1) ∧
      (1 ∉ pairItems.map DeltaItem.item → q' = pair) :=
  remove_keeps_times pair_holds 1

theorem lastOr_mem (pv : Option Nat) (p : Nat × DeltaItem T) (ps : List (Nat × DeltaItem T)) :
    ∃ a ∈ addrs (p :: ps), lastOr pv (p :: ps) = some a := by
  induction ps generalizing pv p with
  | nil => exact ⟨p.1, List.mem_cons_self, rfl⟩
  | cons p' ps ih =>
    obtain ⟨a, ha, he⟩ := ih (some p.1) p'
    exact ⟨a, List.mem_cons_of_mem _ ha, he⟩

theorem sumtoLoop_spec {q : DeltaQueue T} {pv : Option Nat} {ps : List (Nat × DeltaItem T)}
    (hs : Seg q.nodes pv ps none) (hn : (addrs ps).Nodup) {k : Nat} (hk : ps.length < k)
    (sum : BitVec 64) :
    ∃ r, sumtoLoop q (lastOr none ps) k sum (headOr ps none) = some r ∧
      r.toNat = (sum.toNat + total (payloads ps)) % 2 ^ 64 := by
  induction ps generalizing pv k sum with
  | nil =>
    obtain ⟨k, rfl⟩ := Nat.exists_eq_succ_of_ne_zero (Nat.ne_zero_of_lt hk)
    exact ⟨sum, rfl, (Nat.mod_eq_of_lt sum.isLt).symm⟩
  | cons p ps ih =>
    obtain ⟨k, rfl⟩ := Nat.exists_eq_succ_of_ne_zero (Nat.ne_zero_of_lt hk)
    have htotal : total (payloads (p :: ps)) = p.2.d.toNat + total (payloads ps) := by
      simp [total]
    have hadd : (sum + p.2.d).toNat = (sum.toNat + p.2.d.toNat) % 2 ^ 64 := BitVec.toNat_add _ _
    rw [headOr_cons]
    unfold sumtoLoop
    rw [hs.1]
    simp only [Option.bind_eq_bind, Option.bind_some]
    cases ps with
    | nil =>
      refine ⟨sum + p.2.d, by simp, ?_⟩
      rw [htotal, hadd]
      simp [total]
    | cons p' ps =>
      obtain ⟨a, ha, hlast⟩ := lastOr_mem none p' ps
      have hne : ¬ some p.1 = lastOr none (p :: p' :: ps) := by
        intro heq
        have hpa : some p.1 = some a := heq.trans hlast
        exact (List.nodup_cons.mp hn).1 (Option.some.inj hpa ▸ ha)
      obtain ⟨r, he, hr⟩ := ih hs.2 (List.nodup_cons.mp hn).2 (Nat.lt_of_succ_lt_succ hk)
        (sum + p.2.d)
      refine ⟨r, by rw [if_neg hne]; exact he, ?_⟩
      rw [hr, htotal, hadd]
      omega

theorem Holds.sumto_last {q : DeltaQueue T} {vs : List (DeltaItem T)} (h : q.Holds vs) :
    ∃ r, sumto q q.l = some r ∧ r.toNat = total vs % 2 ^ 64 := by
  obtain ⟨ps, hr, rfl⟩ := h
  obtain ⟨r, he, hval⟩ := sumtoLoop_spec hr.seg hr.nodup
    (Nat.lt_succ_of_le (length_le_of_bound hr.nodup hr.bound)) 0
  refine ⟨r, ?_, by simpa using hval⟩
  unfold sumto
  rw [hr.last, hr.first]
  exact he

theorem times_append_single (vs : List (DeltaItem T)) (t : T) (d : BitVec 64) :
    times (vs ++ [⟨t, d⟩]) = times vs ++ [(t, total vs + d.toNat)] := by
  induction vs with
  | nil => simp [times, total]
  | cons v vs ih => simp [times, ih, total, Nat.add_assoc]

/-- What `Add` with `absolute` set should do. -/
def AddsClamped (q : DeltaQueue T) (vs : List (DeltaItem T)) (t : T) (value : BitVec 64) : Prop :=
  ∃ q' ws, add q t value true = some q' ∧ q'.Holds ws ∧
    times ws = times vs ++ [(t, max value.toNat (total vs))]

theorem Holds.addAbsolute {q : DeltaQueue T} {vs : List (DeltaItem T)} (h : q.Holds vs) (t : T)
    (value : BitVec 64) :
    ∃ q', add q t value true = some q' ∧
      q'.Holds (vs ++ [⟨t, value - BitVec.ofNat 64 (total vs)⟩]) := by
  obtain ⟨sum, hsum, hval⟩ := Holds.sumto_last h
  have hword : sum = BitVec.ofNat 64 (total vs) := BitVec.eq_of_toNat_eq (by simpa using hval)
  have hunsigned : (if value - sum ≤ 0 then 0 else value - sum) = value - sum := by
    split
    · rename_i hle
      exact (BitVec.le_zero_iff.mp hle).symm
    · rfl
  obtain ⟨q', he, hq'⟩ := LinkedList.Holds.add h ⟨t, value - sum⟩
  refine ⟨q', ?_, hword ▸ hq'⟩
  simp only [add, if_true, hsum, Option.bind_eq_bind, Option.bind_some, hunsigned, he]

theorem addsClamped_iff_time {q : DeltaQueue T} {vs : List (DeltaItem T)} (h : q.Holds vs) (t : T)
    (value : BitVec 64) :
    AddsClamped q vs t value ↔
      total vs + (value - BitVec.ofNat 64 (total vs)).toNat = max value.toNat (total vs) := by
  obtain ⟨q', hadd, hq'⟩ := Holds.addAbsolute h t value
  constructor
  · rintro ⟨q'', ws, he, hq'', htimes⟩
    obtain rfl := Option.some.inj (hadd.symm.trans he)
    rw [← hq''.items_eq, hq'.items_eq, times_append_single] at htimes
    simpa using List.append_cancel_left htimes
  · intro heq
    refine ⟨q', _, hadd, hq', ?_⟩
    rw [times_append_single, heq]

/-- The clamp never takes effect: a time before that of the last item wraps around. -/
theorem addsClamped_iff {q : DeltaQueue T} {vs : List (DeltaItem T)} (h : q.Holds vs)
    (hfit : total vs < 2 ^ 64) (t : T) (value : BitVec 64) :
    AddsClamped q vs t value ↔ total vs ≤ value.toNat := by
  rw [addsClamped_iff_time h, BitVec.toNat_sub, BitVec.toNat_ofNat, Nat.mod_eq_of_lt hfit]
  have hlt := value.isLt
  omega

theorem pair_addsClamped : AddsClamped pair pairItems 3 7 :=
  (addsClamped_iff pair_holds (by decide) 3 7).mpr (by decide)

/-- Asked for 3 behind an item due after 5, `Add` makes the new one wait for 2^64 + 3. -/
theorem add_wraps :
    ¬ ∀ (q : DeltaQueue Nat) (vs : List (DeltaItem Nat)) (t : Nat) (value : BitVec 64),
      q.Holds vs → total vs < 2 ^ 64 → AddsClamped q vs t value := by
  intro h
  have hclamped := h pair pairItems 3 3 pair_holds (by decide)
  have htime := (addsClamped_iff_time pair_holds 3 3).mp hclamped
  revert htime
  decide

end Tysos.DeltaQueue
