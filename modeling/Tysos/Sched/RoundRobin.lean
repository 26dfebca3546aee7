import Tysos.Sched.SleepLaw
import Tysos.Support.RoundRobin

/-!
# Who runs next

A tick chooses the head of the highest queue that is not empty. As long as nothing wakes up
into this queue or a higher one, its threads take turns, each for its slice.
-/

namespace Tysos
open DoublyLinked LinkedList DeltaQueue
set_option autoImplicit false

variable {priorities : Nat} {T : Type} [DecidableEq T]

namespace View
variable {v : View priorities T}

/-- What `_GetNextThread` does with the thread it returns. -/
def charge (v : View priorities T) (t : T) (ns : BitVec 64) : View priorities T :=
  if (v.threads t).timeToRun ≤ ns then v.reschedule t
  else v.modifyThread t fun th => { th with timeToRun := th.timeToRun - ns }

theorem nextBelow_of_empty (ns : BitVec 64) {i : Nat} (hi : i ≤ priorities)
    (hempty : ∀ j : Fin priorities, j.val < i → v.running j = []) :
    v.nextBelow ns i hi = (v, none) := by
  induction i with
  | zero => rfl
  | succ i ih =>
    unfold nextBelow
    rw [hempty ⟨i, hi⟩ (Nat.lt_succ_self i)]
    exact ih (Nat.le_of_lt hi) fun j hj => hempty j (Nat.lt_succ_of_lt hj)

theorem nextBelow_of_highest (ns : BitVec 64) {p : Fin priorities} {t : T}
    (hhead : (v.running p).head? = some t) (habove : ∀ j, p < j → v.running j = []) {i : Nat}
    (hi : i ≤ priorities) (hp : p.val < i) : v.nextBelow ns i hi = (v.charge t ns, some t) := by
  induction i with
  | zero => exact absurd hp (Nat.not_lt_zero _)
  | succ i ih =>
    unfold nextBelow
    rcases Nat.lt_or_eq_of_le (Nat.le_of_lt_succ hp) with hlt | heq
    · rw [habove ⟨i, hi⟩ hlt]
      exact ih (Nat.le_of_lt hi) hlt
    · have hpi : (⟨i, hi⟩ : Fin priorities) = p := Fin.ext heq.symm
      rw [hpi, hhead]
      unfold charge
      dsimp only
      split <;> rfl

theorem next_of_highest (ns : BitVec 64) {p : Fin priorities} {t : T}
    (hhead : (v.running p).head? = some t) (habove : ∀ j, p < j → v.running j = []) :
    v.next ns = (v.charge t ns, some t) :=
  nextBelow_of_highest ns hhead habove (Nat.le_refl _) p.isLt

omit [DecidableEq T] in
theorem exists_highest (v : View priorities T) : (∀ j, v.running j = []) ∨
    ∃ p t, (v.running p).head? = some t ∧ ∀ j, p < j → v.running j = [] := by
  by_cases hall : ∀ j, v.running j = []
  · exact Or.inl hall
  · obtain ⟨j, hj⟩ := not_forall.mp hall
    have hne : (Finset.univ.filter fun i => (v.running i).length ≠ 0).Nonempty :=
      ⟨j, Finset.mem_filter.mpr ⟨Finset.mem_univ j, fun h => hj (List.length_eq_zero_iff.mp h)⟩⟩
    obtain ⟨p, hp, hmax⟩ := Finset.exists_max_image _ id hne
    have hlen := (Finset.mem_filter.mp hp).2
    cases hr : v.running p with
    | nil => exact absurd (by rw [hr]; rfl) hlen
    | cons t ts =>
      refine Or.inr ⟨p, t, by rw [hr]; rfl, fun i hi => ?_⟩
      by_contra hi'
      have hle := hmax i (Finset.mem_filter.mpr
        ⟨Finset.mem_univ i, fun h => hi' (List.length_eq_zero_iff.mp h)⟩)
      exact absurd hi (not_lt.mpr hle)

/-- The thread chosen is as high as any that is ready; without one no thread is ready. -/
theorem Placed.next_highest (h : v.Placed) (ns : BitVec 64) :
    match (v.next ns).2 with
    | some t => 0 ≤ v.location t ∧ ∀ u, v.location u ≤ v.location t
    | none => ∀ u, v.location u < 0 := by
  have hready : ∀ u, 0 ≤ v.location u → ∃ j : Fin priorities, v.location u = j.val ∧
      v.running j ≠ [] := by
    intro u hu
    have hhigh := (h u).high
    have hloc : v.location u = ((v.location u).toNat : Int) := (Int.toNat_of_nonneg hu).symm
    refine ⟨⟨(v.location u).toNat, by omega⟩, hloc, ?_⟩
    exact List.ne_nil_of_mem ((h.mem_running_iff u ⟨(v.location u).toNat, by omega⟩).mpr hloc)
  rcases v.exists_highest with hempty | ⟨p, t, hhead, habove⟩
  · have hnone : v.next ns = (v, none) :=
      nextBelow_of_empty ns (Nat.le_refl _) fun j _ => hempty j
    rw [hnone]
    intro u
    by_contra hu
    obtain ⟨j, -, hj⟩ := hready u (not_lt.mp hu)
    exact hj (hempty j)
  · rw [next_of_highest ns hhead habove]
    have ht := (h.mem_running_iff t p).mp (List.mem_of_mem_head? hhead)
    refine ⟨by omega, fun u => ?_⟩
    by_contra hu
    obtain ⟨j, hj, hne⟩ := hready u (by omega)
    exact hne (habove j (by rw [Fin.lt_def]; omega))

theorem reschedule_threads_of_ne (v : View priorities T) {t u : T} (h : u ≠ t) :
    (v.reschedule t).threads u = v.threads u := by
  unfold reschedule enqueue release setLocation modifyThread
  dsimp only
  rw [Function.update_of_ne h, Function.update_of_ne h, dequeue_threads]

theorem reschedule_threads_self (v : View priorities T) (t : T) : (v.reschedule t).threads t =
    { v.threads t with
      location := (v.threads t).priority.val
      timeToRun := (v.threads t).defaultSlice } := by
  unfold reschedule enqueue release setLocation modifyThread
  dsimp only
  rw [Function.update_self, Function.update_self, dequeue_threads]

theorem reschedule_running_of_not_ready {t : T} (h : v.location t < 0) (i : Fin priorities) :
    (v.reschedule t).running i =
      if i = (v.threads t).priority then v.running i ++ [t] else v.running i := by
  have hdeq : (v.dequeue t).running = v.running := by
    unfold dequeue
    rw [if_neg (by omega)]
    split
    · rfl
    split <;> rfl
  have hprio : ((v.release t).threads t).priority = (v.threads t).priority := by
    unfold release setLocation modifyThread
    dsimp only
    rw [Function.update_self, dequeue_threads]
  unfold reschedule enqueue
  dsimp only
  rw [hprio]
  by_cases hi : i = (v.threads t).priority
  · rw [if_pos hi, hi, Function.update_self]
    exact congrArg (fun f => f (v.threads t).priority ++ [t]) hdeq
  · rw [if_neg hi, Function.update_of_ne hi]
    exact congrArg (fun f => f i) hdeq

theorem reschedule_running_of_head {t : T} {rest : List T} {p : Fin priorities}
    (hloc : v.location t = p.val) (hprio : (v.threads t).priority = p)
    (hhead : v.running p = t :: rest) (i : Fin priorities) :
    (v.reschedule t).running i = if i = p then rest ++ [t] else v.running i := by
  have hpos : 0 ≤ v.location t := by omega
  have hlt : (v.location t).toNat < priorities := by omega
  have hindex : (⟨(v.location t).toNat, hlt⟩ : Fin priorities) = p := Fin.ext (by simp [hloc])
  have hdeq : (v.dequeue t).running = Function.update v.running p rest := by
    unfold dequeue
    rw [if_pos hpos, dif_pos hlt, hindex, hhead, List.erase_cons_head]
  have hprio' : ((v.release t).threads t).priority = p := by
    unfold release setLocation modifyThread
    dsimp only
    rw [Function.update_self, dequeue_threads, hprio]
  have hrel : (v.release t).running = Function.update v.running p rest := hdeq
  unfold reschedule enqueue
  dsimp only
  rw [hprio', hrel]
  by_cases hi : i = p
  · rw [if_pos hi, hi, Function.update_self, Function.update_self]
  · rw [if_neg hi, Function.update_of_ne hi, Function.update_of_ne hi]

/-- Wake-ups of threads below priority `p` change nothing from `p` on, nor any other thread. -/
theorem Placed.wake_below (h : v.Placed) {p : Fin priorities} {k : Nat}
    (hlow : ∀ x ∈ v.sleeping.takeWhile (fun x => x.d = 0), (v.threads x.item).priority < p) :
    (∀ i, p ≤ i → (View.wake k v).running i = v.running i) ∧
      ∀ t ∉ v.sleepers, (View.wake k v).threads t = v.threads t := by
  induction k generalizing v with
  | zero => exact ⟨fun _ _ => rfl, fun _ _ => rfl⟩
  | succ k ih =>
    unfold View.wake
    cases hv : v.sleeping with
    | nil => exact ⟨fun _ _ => rfl, fun _ _ => rfl⟩
    | cons x xs =>
      dsimp only
      by_cases hz : x.d = 0
      · rw [if_pos hz]
        have hitems : v.sleepers = x.item :: xs.map DeltaItem.item := by simp [sleepers, hv]
        obtain ⟨hout, hsleep⟩ := wakeFirst_sleeping h.nodup_sleepers hv
        rw [hv, List.takeWhile_cons_of_pos (by simpa using hz)] at hlow
        have hasleep : v.location x.item < 0 := by
          have hmem : x.item ∈ v.sleepers := by rw [hitems]; exact List.mem_cons_self
          have hloc := (h.mem_sleepers_iff x.item).mp hmem
          rw [hloc]
          decide
        have hfirst := hlow x List.mem_cons_self
        obtain ⟨hrun, hthreads⟩ := ih (h.wakeFirst hv) (by
          intro y hy
          rw [hsleep] at hy
          have hmem : y ∈ xs := (List.takeWhile_prefix _).subset hy
          have hne : y.item ≠ x.item := fun heq => hout (heq ▸ List.mem_map_of_mem hmem)
          rw [reschedule_threads_of_ne _ hne]
          exact hlow y (List.mem_cons_of_mem x hy))
        constructor
        · intro i hi
          have hne : i ≠ (v.threads x.item).priority := by
            rintro rfl
            exact absurd hfirst (not_lt.mpr hi)
          rw [hrun i hi]
          exact (reschedule_running_of_not_ready (v := { v with sleeping := xs }) hasleep i).trans
            (if_neg hne)
        · intro t ht
          rw [hitems, List.mem_cons, not_or] at ht
          rw [hthreads t (by rw [sleepers, hsleep]; exact ht.2)]
          exact reschedule_threads_of_ne { v with sleeping := xs } ht.1
      · rw [if_neg hz]
        exact ⟨fun _ _ => rfl, fun _ _ => rfl⟩

/-- The threads that a tick wakes up have a priority below `p`. -/
def WakesBelow (v : View priorities T) (ns : BitVec 64) (p : Fin priorities) : Prop :=
  ∀ t, v.location t = locSleeping → (v.woken ns).location t ≠ locSleeping →
    (v.threads t).priority < p

theorem Placed.woken_below (h : v.Placed) {ns : BitVec 64} {p : Fin priorities}
    (hlow : v.WakesBelow ns p) : (∀ i, p ≤ i → (v.woken ns).running i = v.running i) ∧
      ∀ t, 0 ≤ v.location t → (v.woken ns).threads t = v.threads t := by
  have hd := h.decrease ns
  have hlen : (v.decrease ns).sleeping.length ≤ v.sleeping.length :=
    Nat.le_of_eq (decreased_length _ _)
  have hitems : (v.decrease ns).sleepers = v.sleepers := decreased_items _ _
  obtain ⟨hrun, hthreads⟩ := hd.wake_below (k := v.sleeping.length) (p := p) (by
    intro x hx
    have hmem : x.item ∈ (v.decrease ns).sleepers :=
      List.mem_map_of_mem ((List.takeWhile_prefix _).subset hx)
    refine hlow x.item ((hd.mem_sleepers_iff x.item).mp hmem) fun hloc => ?_
    -- the thread is not among those that still sleep
    have hrest := ((h.woken ns).mem_sleepers_iff x.item).mpr hloc
    have hsplit : (v.decrease ns).sleepers =
        ((v.decrease ns).sleeping.takeWhile (fun x => x.d = 0)).map DeltaItem.item ++
          (v.woken ns).sleepers := by
      unfold sleepers View.woken
      rw [wake_sleeping hd.nodup_sleepers hlen]
      unfold drained
      rw [← List.map_append, List.takeWhile_append_dropWhile]
    have hnodup := hd.nodup_sleepers
    rw [hsplit] at hnodup
    exact (List.disjoint_of_nodup_append hnodup) (List.mem_map_of_mem hx) hrest)
  refine ⟨hrun, fun t ht => hthreads t fun hmem => ?_⟩
  have hloc := (hd.mem_sleepers_iff t).mp hmem
  have hneg : v.location t = locSleeping := hloc
  rw [hneg] at ht
  exact absurd ht (by decide)

/-- Queue `p` with the time each of its threads has left. -/
def entries (v : View priorities T) (p : Fin priorities) : List (T × Nat) :=
  (v.running p).map fun t => (t, (v.threads t).timeToRun.toNat)

/-- Queue `p` is the highest and holds the entries `q`, and its threads belong into it. -/
structure Rotating (v : View priorities T) (p : Fin priorities) (slice : T → Nat)
    (q : List (T × Nat)) : Prop where
  placed : v.Placed
  above : ∀ i, p < i → v.running i = []
  entries : v.entries p = q
  slices : ∀ t ∈ v.running p, (v.threads t).defaultSlice.toNat = slice t
  belongs : ∀ t ∈ v.running p, (v.threads t).priority = p

variable {p : Fin priorities} {slice : T → Nat} {q : List (T × Nat)}

theorem Rotating.woken (h : v.Rotating p slice q) {ns : BitVec 64} (hlow : v.WakesBelow ns p) :
    (v.woken ns).Rotating p slice q := by
  obtain ⟨hrun, hthreads⟩ := h.placed.woken_below hlow
  have hsame : ∀ t ∈ v.running p, (v.woken ns).threads t = v.threads t := by
    intro t ht
    have hloc := (h.placed.mem_running_iff t p).mp ht
    exact hthreads t (by omega)
  refine ⟨h.placed.woken ns, fun i hi => ?_, ?_, fun t ht => ?_, fun t ht => ?_⟩
  · rw [hrun i (le_of_lt hi)]
    exact h.above i hi
  · rw [← h.entries]
    unfold View.entries
    rw [hrun p (le_refl p)]
    exact List.map_congr_left fun t ht => by rw [hsame t ht]
  · rw [hrun p (le_refl p)] at ht
    rw [hsame t ht]
    exact h.slices t ht
  · rw [hrun p (le_refl p)] at ht
    rw [hsame t ht]
    exact h.belongs t ht

theorem Rotating.head {t : T} {left : Nat} (h : v.Rotating p slice ((t, left) :: q)) :
    ∃ rest, v.running p = t :: rest ∧ t ∉ rest ∧ v.location t = p.val ∧
      (v.threads t).timeToRun.toNat = left ∧
      rest.map (fun u => (u, (v.threads u).timeToRun.toNat)) = q := by
  have hentries := h.entries
  unfold View.entries at hentries
  cases hr : v.running p with
  | nil =>
    rw [hr] at hentries
    exact absurd hentries (by simp)
  | cons u rest =>
    rw [hr, List.map_cons, List.cons.injEq, Prod.mk.injEq] at hentries
    obtain ⟨⟨rfl, hleft⟩, hrest⟩ := hentries
    have hloc : v.location u = p.val :=
      (h.placed.mem_running_iff u p).mp (by rw [hr]; exact List.mem_cons_self)
    have hcount := (h.placed u).running p
    rw [hr, List.count_cons_self, if_pos hloc] at hcount
    exact ⟨rest, rfl, List.count_eq_zero.mp (by omega), hloc, hleft, hrest⟩

theorem Rotating.reschedule {t : T} {left : Nat} (h : v.Rotating p slice ((t, left) :: q)) :
    (v.reschedule t).Rotating p slice (q ++ [(t, slice t)]) := by
  obtain ⟨rest, hr, hout, hloc, -, hrest⟩ := h.head
  have hmem : t ∈ v.running p := by rw [hr]; exact List.mem_cons_self
  have hrun := reschedule_running_of_head hloc (h.belongs t hmem) hr
  have hself := reschedule_threads_self v t
  have hother : ∀ u ∈ rest, (v.reschedule t).threads u = v.threads u := by
    intro u hu
    have hne : u ≠ t := fun heq => hout (heq ▸ hu)
    exact reschedule_threads_of_ne v hne
  have hkeep : ∀ u ∈ (v.reschedule t).running p, u ∈ v.running p ∧
      ((v.reschedule t).threads u).defaultSlice = (v.threads u).defaultSlice ∧
      ((v.reschedule t).threads u).priority = (v.threads u).priority := by
    intro u hu
    rw [hrun, if_pos rfl] at hu
    rcases List.mem_append.mp hu with hu | hu
    · rw [hother u hu, hr]
      exact ⟨List.mem_cons_of_mem t hu, rfl, rfl⟩
    · obtain rfl := List.mem_singleton.mp hu
      rw [hself]
      exact ⟨hmem, rfl, rfl⟩
  refine ⟨h.placed.reschedule t, fun i hi => ?_, ?_, fun u hu => ?_, fun u hu => ?_⟩
  · rw [hrun, if_neg (ne_of_gt hi)]
    exact h.above i hi
  · unfold View.entries
    rw [hrun, if_pos rfl, List.map_append, List.map_singleton, hself, ← hrest, ← h.slices t hmem]
    congr 1
    exact List.map_congr_left fun u hu => by rw [hother u hu]
  · obtain ⟨hu', hslice, -⟩ := hkeep u hu
    rw [hslice]
    exact h.slices u hu'
  · obtain ⟨hu', -, hprio⟩ := hkeep u hu
    rw [hprio]
    exact h.belongs u hu'

theorem Rotating.spend {t : T} {left : Nat} (h : v.Rotating p slice ((t, left) :: q))
    {ns : BitVec 64} (hgt : ns.toNat < left) :
    (v.modifyThread t fun th => { th with timeToRun := th.timeToRun - ns }).Rotating p slice
      ((t, left - ns.toNat) :: q) := by
  obtain ⟨rest, hr, hout, -, hleft, hrest⟩ := h.head
  let less : Thread priorities → Thread priorities := fun th =>
    { th with timeToRun := th.timeToRun - ns }
  have hself : (v.modifyThread t less).threads t = less (v.threads t) := Function.update_self _ _ _
  have hother : ∀ u, u ≠ t → (v.modifyThread t less).threads u = v.threads u :=
    fun u hu => Function.update_of_ne hu _ _
  have hkeep : ∀ u, ((v.modifyThread t less).threads u).defaultSlice = (v.threads u).defaultSlice ∧
      ((v.modifyThread t less).threads u).priority = (v.threads u).priority := by
    intro u
    by_cases hu : u = t
    · rw [hu, hself]
      exact ⟨rfl, rfl⟩
    · rw [hother u hu]
      exact ⟨rfl, rfl⟩
  have hsub : (less (v.threads t)).timeToRun.toNat = left - ns.toNat := by
    rw [← hleft]
    apply BitVec.toNat_sub_of_le
    rw [BitVec.le_def]
    omega
  refine ⟨fun u => ?_, h.above, ?_, fun u hu => ?_, fun u hu => ?_⟩
  · exact (h.placed u).of_same (modifyThread_same_of_location v t u less fun _ => rfl)
  · show (v.running p).map _ = _
    rw [hr, List.map_cons, ← hrest]
    refine congrArg₂ List.cons ?_ (List.map_congr_left fun u hu => ?_)
    · exact congrArg (Prod.mk t) ((congrArg (fun th => th.timeToRun.toNat) hself).trans hsub)
    · have hne : u ≠ t := fun heq => hout (heq ▸ hu)
      exact congrArg (fun th => (u, th.timeToRun.toNat)) (hother u hne)
  · exact (congrArg BitVec.toNat (hkeep u).1).trans (h.slices u hu)
  · exact (hkeep u).2.trans (h.belongs u hu)

theorem Rotating.charge {t : T} {left : Nat} (h : v.Rotating p slice ((t, left) :: q))
    (ns : BitVec 64) :
    (v.charge t ns).Rotating p slice (RoundRobin.step ns.toNat slice ((t, left) :: q)) := by
  obtain ⟨rest, -, -, -, hleft, -⟩ := h.head
  rw [RoundRobin.step_cons, ← hleft]
  unfold View.charge
  by_cases hle : (v.threads t).timeToRun ≤ ns
  · rw [if_pos hle, if_pos (BitVec.le_def.mp hle)]
    exact h.reschedule
  · have hgt : ns.toNat < (v.threads t).timeToRun.toNat := by
      rw [BitVec.le_def] at hle
      omega
    rw [if_neg hle, if_neg (Nat.not_le.mpr hgt)]
    rw [← hleft] at h
    exact h.spend hgt

/-- A tick that wakes nothing from `p` on is one step of the round robin. -/
theorem Rotating.tick {x : T × Nat} (h : v.Rotating p slice (x :: q)) {ns : BitVec 64}
    (hlow : v.WakesBelow ns p) : (v.tick ns).2 = some x.1 ∧
      (v.tick ns).1.Rotating p slice (RoundRobin.step ns.toNat slice (x :: q)) := by
  have hw := h.woken hlow
  obtain ⟨t, left⟩ := x
  obtain ⟨rest, hr, -⟩ := hw.head
  have hhead : ((v.woken ns).running p).head? = some t := by
    rw [hr]
    rfl
  have htick : v.tick ns = ((v.woken ns).charge t ns, some t) :=
    next_of_highest ns hhead hw.above
  rw [htick]
  exact ⟨rfl, hw.charge ns⟩

end View
namespace Scheduler

/-- The state and the thread that `_GetNextThread` leaves and returns in a tick. -/
def tickChoice (s : Scheduler priorities T) (ns : BitVec 64) :
    Option (Scheduler priorities T × Option T) :=
  (s.wakeUps ns).bind fun s => s.getNextThread ns

/-- What ticks of `ns` choose, one after the other, when these are the current threads. -/
def choices (ns : BitVec 64) : List (Option T) → Scheduler priorities T → Option (List (Option T))
  | [], _ => some []
  | cur :: curs, s => do
    let (_, chosen) ← s.tickChoice ns
    let (s, _) ← s.timerTick ns cur
    let rest ← choices ns curs s
    some (chosen :: rest)

omit [DecidableEq T] in
/-- All ready threads are in the queue of their priority. -/
def Settled (s : Scheduler priorities T) : Prop :=
  ∀ t, 0 ≤ s.location t → s.location t = (s.threads t).priority.val

omit [DecidableEq T] in
def IsHighest (s : Scheduler priorities T) (p : Fin priorities) : Prop :=
  (s.runningTasks p).items ≠ [] ∧ ∀ i, p < i → (s.runningTasks i).items = []

omit [DecidableEq T] in
/-- The threads of queue `p` with the time they have left. -/
def entries (s : Scheduler priorities T) (p : Fin priorities) : List (T × Nat) :=
  (s.runningTasks p).items.map fun t => (t, (s.threads t).timeToRun.toNat)

omit [DecidableEq T] in
def slice (s : Scheduler priorities T) (t : T) : Nat := (s.threads t).defaultSlice.toNat

/-- A tick in which no sleeper expires into queue `p` or a higher one. -/
def QuietTick (p : Fin priorities) (s : Scheduler priorities T) : Op priorities T → Prop
  | .timerTick ns _ => ∀ w ∈ s.wakeUps ns, ∀ t, s.location t = locSleeping →
      w.location t ≠ locSleeping → (s.threads t).priority < p
  | _ => False

/-- The tick chooses a thread as high as any that is ready after its wake-ups. -/
def ChoosesHighest (s : Scheduler priorities T) (ns : BitVec 64) (cur : Option T) : Prop :=
  ∃ w s' next, s.wakeUps ns = some w ∧ w.getNextThread ns = some (s', next) ∧
    s.timerTick ns cur = some (s', if next ≠ cur then next else none) ∧
    match next with
    | some t => 0 ≤ w.location t ∧ ∀ u, w.location u ≤ w.location t
    | none => ∀ u, w.location u < 0

end Scheduler

section
variable {s : Scheduler priorities T} {v : View priorities T}

theorem Sound.tickChoice (h : Sound s v) (ns : BitVec 64) : ∃ w s', s.wakeUps ns = some w ∧
    Shows w (v.woken ns) ∧ w.getNextThread ns = some (s', (v.tick ns).2) ∧
    (∀ cur, s.timerTick ns cur =
      some (s', if (v.tick ns).2 ≠ cur then (v.tick ns).2 else none)) ∧
    Sound s' (v.tick ns).1 := by
  obtain ⟨w, hw, hs⟩ := h.1.wakeUps h.2.bounded ns
  have hplaced := h.2.woken ns
  obtain ⟨s', hn, hs'⟩ := hs.nextBelow hplaced.bounded ns priorities (Nat.le_refl _)
  refine ⟨w, s', hw, hs, hn, fun cur => ?_, hs', (hplaced.nextBelow ns _ _).1⟩
  obtain ⟨s₁, ht, -⟩ := hs.next hplaced.bounded ns cur
  have hsame : s₁ = s' := by
    have hstate := congrArg (Option.map Prod.fst) ht
    simp only [Scheduler.scheduleNext, Scheduler.getNextThread, hn, Option.bind_eq_bind,
      Option.bind_some] at hstate
    split at hstate
    · exact (Option.some.inj hstate).symm
    · exact (Option.some.inj hstate).symm
  rw [Scheduler.timerTick_eq, hw, ← hsame]
  exact ht

theorem Sound.choosesHighest (h : Sound s v) (ns : BitVec 64) (cur : Option T) :
    s.ChoosesHighest ns cur := by
  obtain ⟨w, s', hw, hs, hn, htick, -⟩ := h.tickChoice ns
  refine ⟨w, s', _, hw, hn, htick cur, ?_⟩
  have hhighest := (h.2.woken ns).next_highest ns
  have htick : (v.tick ns).2 = ((v.woken ns).next ns).2 := rfl
  rw [htick]
  simp only [hs.location_eq]
  exact hhighest

theorem Sound.wakesBelow (h : Sound s v) {p : Fin priorities} {ns : BitVec 64} {cur : Option T}
    (hq : s.QuietTick p (.timerTick ns cur)) : v.WakesBelow ns p := by
  obtain ⟨w, hw, hs⟩ := h.1.wakeUps h.2.bounded ns
  intro t ht hawake
  rw [← h.1.location_eq] at ht
  rw [← hs.location_eq] at hawake
  rw [← h.1.threads]
  exact hq w hw t ht hawake

/-- The run lemma. -/
theorem Sound.choices (h : Sound s v) {p : Fin priorities} {slice : T → Nat} {q : List (T × Nat)}
    (hrot : v.Rotating p slice q) (hq : q ≠ []) {ns : BitVec 64} {curs : List (Option T)}
    (hquiet : Transition.EachStep Scheduler.step (Scheduler.QuietTick p) s
      (curs.map (Scheduler.Op.timerTick ns))) :
    s.choices ns curs = some ((RoundRobin.chosen ns.toNat slice curs.length q).map some) := by
  induction curs generalizing s v q with
  | nil => rfl
  | cons cur curs ih =>
    cases q with
    | nil => exact absurd rfl hq
    | cons x q =>
      obtain ⟨w, s', hw, -, hn, htick, hs'⟩ := h.tickChoice ns
      obtain ⟨hchosen, hnext⟩ := hrot.tick (h.wakesBelow hquiet.1)
      have hrest := hquiet.2 s' (by simp [Scheduler.step, htick])
      have hne : RoundRobin.step ns.toNat slice (x :: q) ≠ [] := by
        obtain ⟨t, left⟩ := x
        rw [RoundRobin.step_cons]
        split <;> simp
      unfold Scheduler.choices Scheduler.tickChoice
      simp only [hw, hn, htick, hchosen, ih hs' hnext hne hrest, Option.bind_eq_bind,
        Option.bind_some]
      rfl

theorem Sound.quiet (h : Sound s v) (hnone : v.sleeping = []) (p : Fin priorities)
    (ns : BitVec 64) (curs : List (Option T)) :
    Transition.EachStep Scheduler.step (Scheduler.QuietTick p) s
      (curs.map (Scheduler.Op.timerTick ns)) := by
  induction curs generalizing s v with
  | nil => trivial
  | cons cur curs ih =>
    refine ⟨fun w _ t ht _ => ?_, fun s' hs' => ?_⟩
    · rw [h.1.location_eq] at ht
      have hmem := (h.2.mem_sleepers_iff t).mpr ht
      rw [View.sleepers, hnone] at hmem
      exact absurd hmem List.not_mem_nil
    · obtain ⟨s₁, hs₁, hsound⟩ := h.step (.timerTick ns cur)
      obtain rfl : s₁ = s' := Option.some.inj (hs₁.symm.trans hs')
      refine ih hsound ?_
      have hsleep := h.2.tick_sleeping ns
      rw [hnone] at hsleep
      exact hsleep

theorem Sound.rotating (h : Sound s v) (hs : s.Settled) {p : Fin priorities}
    (hp : s.IsHighest p) : v.Rotating p s.slice (s.entries p) := by
  have hrun : ∀ i, (s.runningTasks i).items = v.running i := fun i => (h.1.running i).items_eq
  have hthreads := h.1.threads
  refine ⟨h.2, fun i hi => ?_, ?_, fun t ht => ?_, fun t ht => ?_⟩
  · rw [← hrun i]
    exact hp.2 i hi
  · unfold View.entries Scheduler.entries
    rw [hrun p, hthreads]
  · unfold Scheduler.slice
    rw [hthreads]
  · have hloc := (h.2.mem_running_iff t p).mp ht
    have hset := hs t (by rw [h.1.location_eq]; omega)
    rw [h.1.location_eq, hloc, hthreads] at hset
    exact Fin.ext (by omega)

end

/-- In every state a run can reach: the threads of the highest queue take turns, first for the
time they have left and then for their slices, and a tick never passes over a ready thread for a
lower one. -/
theorem strict_priority_round_robin {s₀ s : Scheduler priorities T} (h₀ : s₀.Initial)
    {ops : List (Scheduler.Op priorities T)} (hr : Transition.run Scheduler.step s₀ ops = some s) :
    (∀ (p : Fin priorities) (ns : BitVec 64) (curs : List (Option T)), s.Settled →
      s.IsHighest p → 0 < ns →
      Transition.EachStep Scheduler.step (Scheduler.QuietTick p) s
        (curs.map (Scheduler.Op.timerTick ns)) →
      s.choices ns curs = some (((RoundRobin.round ns.toNat (s.entries p) ++
        (List.replicate curs.length (RoundRobin.round ns.toNat
          (RoundRobin.fresh s.slice (s.entries p)))).flatten).take curs.length).map some)) ∧
    ∀ ns cur, s.ChoosesHighest ns cur := by
  obtain ⟨s₁, hr₁, hs⟩ := h₀.sound.run ops
  obtain rfl : s = s₁ := Option.some.inj (hr.symm.trans hr₁)
  refine ⟨fun p ns curs hsettled hp hns hquiet => ?_, hs.choosesHighest⟩
  have hne : s.entries p ≠ [] := by
    unfold Scheduler.entries
    simpa using hp.1
  rw [hs.choices (hs.rotating hsettled hp) hne hquiet,
    RoundRobin.chosen_eq (by rw [BitVec.lt_def] at hns; exact hns) s.slice curs.length hne]

/-- Two released threads of one priority, with slices of 25 and 10 ns. -/
def twoSlices : Scheduler 2 Bool :=
  Scheduler.create fun t => ⟨0, 1, if t then 25 else 10, locReleased⟩

/-- The two threads under ticks of 10 ns. -/
theorem two_threads_take_turns :
    ∃ s, Transition.run Scheduler.step twoSlices [.reschedule true, .reschedule false] = some s ∧
      s.choices 10 [none, some true, some true, some true, some false] =
        some [some true, some true, some true, some false, some true] ∧
      s.ChoosesHighest 10 none := by
  have h₀ : twoSlices.Initial := ⟨fun _ => rfl, rfl, rfl, fun _ => Or.inl rfl⟩
  obtain ⟨s, hr, hs⟩ := h₀.sound.run [.reschedule true, .reschedule false]
  have hrun : ∀ i, (s.runningTasks i).items = if i = 1 then [true, false] else [] := by
    intro i
    rw [(hs.1.running i).items_eq]
    revert i
    decide
  have hsettled : s.Settled := by
    intro t _
    rw [hs.1.location_eq, hs.1.threads]
    cases t <;> rfl
  have hhighest : s.IsHighest 1 := by
    refine ⟨?_, fun i hi => ?_⟩
    · rw [hrun, if_pos rfl]
      exact List.cons_ne_nil _ _
    · rw [hrun, if_neg (ne_of_gt hi)]
  have hentries : s.entries 1 = [(true, 25), (false, 10)] := by
    unfold Scheduler.entries
    rw [hrun, if_pos rfl, hs.1.threads]
    rfl
  have hslice : s.slice = fun t => if t then 25 else 10 := by
    funext t
    unfold Scheduler.slice
    rw [hs.1.threads]
    cases t <;> rfl
  obtain ⟨hturns, hchoice⟩ := strict_priority_round_robin h₀ hr
  have hfive := hturns 1 10 [none, some true, some true, some true, some false] hsettled hhighest
    (by decide) (hs.quiet rfl 1 10 _)
  rw [hentries, hslice] at hfive
  exact ⟨s, hr, hfive, hchoice 10 none⟩

end Tysos
