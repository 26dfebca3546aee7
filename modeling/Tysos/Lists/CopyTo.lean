import Tysos.Memory.SectionIndex

/-!
# Copying a list into a linked list

`CopyTo` of both list classes into a `LinkedList`, one `Insert` at a time, and with it
`ConvertToLinkedList`. A linked source has its nodes in the same store as the destination, so
that a node could be changed under the loop that goes over it.
-/

namespace Tysos
open DoublyLinked
set_option autoImplicit false

variable {T : Type}

namespace LinkedList

/-- The list after `dest` has changed the store the two have their nodes in. -/
def sharing (q dest : LinkedList T) : LinkedList T :=
  { q with nodes := dest.nodes, fresh := dest.fresh }

/-- The loop of `CopyTo` at a node of the source, whose link is read after the `Insert`. -/
def copyToLoop : Nat → Option Nat → Int → LinkedList T → Option (LinkedList T)
  | 0, _, _, _ => none
  | _ + 1, none, _, dest => some dest
  | k + 1, some c, index, dest => do
    let n ← dest.nodes c
    let dest ← dest.insert n.item index
    let n ← dest.nodes c
    copyToLoop k n.next (index + 1) dest

/-- No node is met twice, which bounds the walk. -/
def copyTo (q dest : LinkedList T) (index : Int) : Option (LinkedList T) :=
  copyToLoop (dest.fresh + 1) q.f index dest

end LinkedList

namespace ArrayList

def copyToLoop (a : ArrayList T) : Nat → Int → Int → LinkedList T → Option (LinkedList T)
  | 0, _, _, dest => some dest
  | k + 1, i, index, dest => do
    let dest ← dest.insert (a.arr i) index
    copyToLoop a k (i + 1) (index + 1) dest

def copyTo (a : ArrayList T) (dest : LinkedList T) (index : Int) : Option (LinkedList T) :=
  a.copyToLoop a.count.toNat 0 index dest

end ArrayList

namespace IList

/-- `CopyTo`, with what has become of the list itself. -/
def copyTo : IList T → LinkedList T → Int → Option (IList T × LinkedList T)
  | array a, dest, index => (a.copyTo dest index).map fun dest => (array a, dest)
  | linked q, dest, index => (q.copyTo dest index).map fun dest => (linked (q.sharing dest), dest)

/-- `new LinkedList`, in the store the list has its nodes in. -/
def newList : IList T → LinkedList T
  | array _ => .empty
  | linked q => { q with f := none, l := none, count := 0 }

end IList

namespace SectionTable

def convertToLinkedList (l : SectionTable T) : Option (SectionTable T) := do
  let (_, new_k) ← l.kernelSections.copyTo l.kernelSections.newList 0
  let (_, new_p) ← l.processSections.copyTo l.processSections.newList 0
  some { l with kernelSections := .linked new_k, processSections := .linked new_p }

end SectionTable

namespace LinkedList
variable {q q' : LinkedList T}

theorem modify_frame {b : Nat} {g : Node T → Node T} (h : q.modify b g = some q') :
    q'.fresh = q.fresh ∧ ∀ a, a ≠ b → q'.nodes a = q.nodes a := by
  obtain ⟨c, -, rfl⟩ := Option.map_eq_some_iff.mp h
  exact ⟨rfl, fun a ha => Function.update_of_ne ha _ _⟩

theorem insertend_frame {n : Nat} (h : q.insertend n = some q') :
    q'.fresh = q.fresh ∧ ∀ a, a ≠ n → q.l ≠ some a → q'.nodes a = q.nodes a := by
  unfold insertend at h
  dsimp only at h
  cases hl : q.l with
  | none =>
    rw [hl] at h
    obtain rfl := Option.some.inj h
    exact ⟨rfl, fun _ _ _ => rfl⟩
  | some l =>
    rw [hl] at h
    obtain ⟨q₁, h₁, h⟩ := Option.bind_eq_some_iff.mp h
    obtain ⟨q₂, h₂, h⟩ := Option.bind_eq_some_iff.mp h
    obtain rfl := Option.some.inj h
    obtain ⟨hf₁, hn₁⟩ := modify_frame h₁
    obtain ⟨hf₂, hn₂⟩ := modify_frame h₂
    refine ⟨hf₂.trans hf₁, fun a han hal => ?_⟩
    have hne : a ≠ l := fun heq => hal (by rw [heq])
    exact (hn₂ a hne).trans (hn₁ a han)

theorem insertbef_frame {cur n : Nat} {c : Node T} (hc : q.nodes cur = some c)
    (h : q.insertbef cur n = some q') :
    q'.fresh = q.fresh ∧
      ∀ a, a ≠ n → a ≠ cur → c.prev ≠ some a → q'.nodes a = q.nodes a := by
  unfold insertbef at h
  dsimp only at h
  rw [hc] at h
  cases hp : c.prev with
  | none =>
    simp only [Option.bind_eq_bind, Option.bind_some, hp] at h
    obtain ⟨q₁, h₁, h⟩ := Option.bind_eq_some_iff.mp h
    obtain ⟨q₂, h₂, h⟩ := Option.bind_eq_some_iff.mp h
    obtain ⟨q₃, h₃, h⟩ := Option.bind_eq_some_iff.mp h
    obtain rfl := Option.some.inj h
    obtain ⟨hf₁, hn₁⟩ := modify_frame h₁
    obtain ⟨hf₂, hn₂⟩ := modify_frame h₂
    obtain ⟨hf₃, hn₃⟩ := modify_frame h₃
    refine ⟨hf₃.trans (hf₂.trans hf₁), fun a han hac _ => ?_⟩
    exact (hn₃ a han).trans ((hn₂ a hac).trans (hn₁ a han))
  | some p =>
    simp only [Option.bind_eq_bind, Option.bind_some, hp] at h
    obtain ⟨q₀, h₀, h⟩ := Option.bind_eq_some_iff.mp h
    obtain ⟨q₁, h₁, h⟩ := Option.bind_eq_some_iff.mp h
    obtain ⟨q₂, h₂, h⟩ := Option.bind_eq_some_iff.mp h
    obtain ⟨q₃, h₃, h⟩ := Option.bind_eq_some_iff.mp h
    obtain rfl := Option.some.inj h
    obtain ⟨hf₀, hn₀⟩ := modify_frame h₀
    obtain ⟨hf₁, hn₁⟩ := modify_frame h₁
    obtain ⟨hf₂, hn₂⟩ := modify_frame h₂
    obtain ⟨hf₃, hn₃⟩ := modify_frame h₃
    refine ⟨hf₃.trans (hf₂.trans (hf₁.trans hf₀)), fun a han hac hap => ?_⟩
    have hne : a ≠ p := fun heq => hap (by rw [heq])
    exact (hn₃ a han).trans ((hn₂ a hac).trans ((hn₁ a han).trans (hn₀ a hne)))

theorem mem_of_lastOr {pv : Option Nat} {ps : List (Nat × T)} {a : Nat}
    (h : lastOr pv ps = some a) : pv = some a ∨ a ∈ addrs ps := by
  induction ps generalizing pv with
  | nil => exact .inl h
  | cons p ps ih =>
    refine .inr ?_
    rw [addrs_cons, List.mem_cons]
    cases ih h with
    | inl heq => exact .inl (Option.some.inj heq).symm
    | inr hmem => exact .inr hmem

/-- `Insert` puts a node between `xs` and `ys`, and nothing outside the list changes. -/
theorem Rep.insert_frame {xs ys : List (Nat × T)} (h : Rep q (xs ++ ys)) (v : T) :
    ∃ q', q.insert v xs.length = some q' ∧ Rep q' (xs ++ (q.fresh, v) :: ys) ∧
      q'.fresh = q.fresh + 1 ∧
      ∀ a, a ∉ addrs (xs ++ ys) → a ≠ q.fresh → q'.nodes a = q.nodes a := by
  obtain ⟨hr, hn, hout, hb⟩ := h.newNode v
  have hlast : ∀ a, a ∉ addrs (xs ++ ys) → lastOr none (xs ++ ys) ≠ some a := fun a ha heq =>
    (mem_of_lastOr heq).elim (fun hnone => absurd hnone (Option.some_ne_none a).symm) ha
  have hnew : ∀ a, a ≠ q.fresh → (q.newNode v).1.nodes a = q.nodes a := fun a ha =>
    Function.update_of_ne ha _ _
  cases ys with
  | nil =>
    rw [List.append_nil] at h hr hout hlast
    obtain ⟨q', he, hq'⟩ := hr.insertend hn hout hb
    obtain ⟨hfresh, hframe⟩ := insertend_frame he
    refine ⟨q', ?_, hq', hfresh, fun a ha han => ?_⟩
    · simp only [LinkedList.insert, h.item_past (Nat.le_refl _), Option.bind_eq_bind,
        Option.bind_some]
      exact he
    · rw [List.append_nil] at ha
      refine (hframe a han ?_).trans (hnew a han)
      rw [hr.last]
      exact hlast a ha
  | cons p ys =>
    obtain ⟨q', he, hq'⟩ := hr.insertbef hn hout hb
    obtain ⟨hfresh, hframe⟩ := insertbef_frame hr.seg.lookup he
    refine ⟨q', ?_, hq', hfresh, fun a ha han => ?_⟩
    · simp only [LinkedList.insert, h.item_mid, Option.bind_eq_bind, Option.bind_some]
      exact he
    · rw [addrs_append, addrs_cons, List.mem_append, List.mem_cons, not_or, not_or] at ha
      refine (hframe a han ha.2.1 ?_).trans (hnew a han)
      exact fun heq => (mem_of_lastOr heq).elim
        (fun hnone => absurd hnone (Option.some_ne_none a).symm) ha.1

/-- The source stands for `ps` in the store of `dest`, and has no node of `qs`. -/
structure Beside (q dest : LinkedList T) (ps qs : List (Nat × T)) : Prop where
  source : Rep (q.sharing dest) ps
  apart : ∀ a ∈ addrs ps, a ∉ addrs qs

/-- What an `Insert` into the destination leaves of the source. -/
theorem Beside.step {dest dest' : LinkedList T} {ps xs ys : List (Nat × T)} {v : T}
    (h : Beside q dest ps (xs ++ ys)) (hfresh : dest'.fresh = dest.fresh + 1)
    (hframe : ∀ a, a ∉ addrs (xs ++ ys) → a ≠ dest.fresh → dest'.nodes a = dest.nodes a) :
    Beside q dest' ps (xs ++ (dest.fresh, v) :: ys) := by
  have hne : ∀ a ∈ addrs ps, a ≠ dest.fresh := fun a ha =>
    Nat.ne_of_lt (h.source.bound a ha)
  refine ⟨⟨?_, h.source.first, h.source.last, h.source.nodup, fun a ha => ?_, h.source.count⟩,
    fun a ha hmem => ?_⟩
  · exact h.source.seg.frame fun a ha => hframe a (h.apart a ha) (hne a ha)
  · have hlt : a < dest.fresh := h.source.bound a ha
    have hbound : (q.sharing dest').fresh = dest.fresh + 1 := hfresh
    omega
  · rw [addrs_append, addrs_cons, List.mem_append, List.mem_cons] at hmem
    have hout := h.apart a ha
    rw [addrs_append, List.mem_append, not_or] at hout
    rcases hmem with hmem | heq | hmem
    · exact hout.1 hmem
    · exact hne a ha heq
    · exact hout.2 hmem

/-- The loop from `rs` on, `done` having been copied to the end of `xs`. -/
theorem copyToLoop_spec {rs done xs ys : List (Nat × T)} {dest : LinkedList T}
    (h : Beside q dest (done ++ rs) (xs ++ ys)) (hd : Rep dest (xs ++ ys)) {k : Nat}
    (hk : rs.length < k) :
    ∃ dest' zs, copyToLoop k (headOr rs none) xs.length dest = some dest' ∧
      Rep dest' (xs ++ zs ++ ys) ∧ payloads zs = payloads rs ∧
      Beside q dest' (done ++ rs) (xs ++ zs ++ ys) := by
  induction rs generalizing done xs dest k with
  | nil =>
    obtain ⟨k, rfl⟩ := Nat.exists_eq_succ_of_ne_zero (Nat.ne_zero_of_lt hk)
    refine ⟨dest, [], rfl, ?_, rfl, ?_⟩
    · rw [List.append_nil]
      exact hd
    · rw [List.append_nil xs]
      exact h
  | cons r rs ih =>
    obtain ⟨k, rfl⟩ := Nat.exists_eq_succ_of_ne_zero (Nat.ne_zero_of_lt hk)
    obtain ⟨c, v⟩ := r
    obtain ⟨dest₁, hinsert, hd₁, hfresh, hframe⟩ := hd.insert_frame v
    have h₁ := h.step (v := v) hfresh hframe
    have hcell : dest.nodes c = some ⟨v, headOr rs none, lastOr none done⟩ := h.source.seg.lookup
    have hcell₁ : dest₁.nodes c = some ⟨v, headOr rs none, lastOr none done⟩ :=
      h₁.source.seg.lookup
    have hdone : done ++ (c, v) :: rs = (done ++ [(c, v)]) ++ rs := by simp
    have hxs : xs ++ (dest.fresh, v) :: ys = (xs ++ [(dest.fresh, v)]) ++ ys := by simp
    rw [hdone, hxs] at h₁
    rw [hxs] at hd₁
    obtain ⟨dest', zs, hloop, hd', hpay, h'⟩ := ih h₁ hd₁ (Nat.lt_of_succ_lt_succ hk)
    rw [List.length_append, List.length_singleton] at hloop
    rw [← hdone] at h'
    have hzs : xs ++ [(dest.fresh, v)] ++ zs ++ ys = xs ++ (dest.fresh, v) :: zs ++ ys := by simp
    rw [hzs] at hd' h'
    refine ⟨dest', (dest.fresh, v) :: zs, ?_, hd', ?_, h'⟩
    · rw [headOr_cons]
      unfold copyToLoop
      simp only [hcell, hinsert, hcell₁, Option.bind_eq_bind, Option.bind_some]
      exact hloop
    · rw [payloads_cons, payloads_cons, hpay]

end LinkedList

theorem ArrayList.copyToLoop_spec {a : ArrayList T} {vs : List T} (h : a.Holds vs)
    {rs us ws : List T} {i : Nat} (hrs : vs.drop i = rs) {dest : LinkedList T}
    (hd : dest.Holds (us ++ ws)) :
    ∃ dest', a.copyToLoop rs.length i us.length dest = some dest' ∧
      dest'.Holds (us ++ rs ++ ws) := by
  induction rs generalizing i us dest with
  | nil => exact ⟨dest, rfl, by rwa [List.append_nil]⟩
  | cons r rs ih =>
    have hi : i < vs.length := by
      by_contra hge
      rw [List.drop_eq_nil_of_le (Nat.not_lt.mp hge)] at hrs
      exact absurd hrs.symm (List.cons_ne_nil r rs)
    have hsplit := List.drop_eq_getElem_cons hi
    rw [hrs] at hsplit
    obtain ⟨rfl, htail⟩ := List.cons.inj hsplit
    have hitem : a.arr i = vs[i] :=
      Option.some.inj ((h.item i hi).symm.trans (List.getElem?_eq_getElem hi))
    obtain ⟨dest₁, hinsert, hd₁⟩ := hd.insert vs[i]
    have hus : us ++ vs[i] :: ws = (us ++ [vs[i]]) ++ ws := by simp
    rw [hus] at hd₁
    obtain ⟨dest', hloop, hd'⟩ := ih htail.symm hd₁
    rw [List.length_append, List.length_singleton] at hloop
    refine ⟨dest', ?_, ?_⟩
    · rw [List.length_cons]
      unfold copyToLoop
      simp only [hitem, hinsert, Option.bind_eq_bind, Option.bind_some]
      exact hloop
    · have happend : us ++ [vs[i]] ++ rs ++ ws = us ++ vs[i] :: rs ++ ws := by simp
      rwa [← happend]

namespace IList
variable {l : IList T} {dest : LinkedList T} {vs ds : List T}

/-- The list holds `vs` and `dest` holds `ds`, and they are different lists: the nodes of a
linked one are others in the same store. -/
def Apart : IList T → LinkedList T → List T → List T → Prop
  | array a, dest, vs, ds => a.Holds vs ∧ dest.Holds ds
  | linked q, dest, vs, ds => q.sharing dest = q ∧ ∃ ps qs, LinkedList.Beside q dest ps qs ∧
      LinkedList.Rep dest qs ∧ payloads ps = vs ∧ payloads qs = ds

/-- Splits what is at the destination where `CopyTo` begins. -/
theorem copyTo_spec (us ws : List T) (h : l.Apart dest vs (us ++ ws)) :
    ∃ l' dest', l.copyTo dest us.length = some (l', dest') ∧ dest'.Holds (us ++ vs ++ ws) ∧
      l'.Holds vs := by
  cases l with
  | array a =>
    obtain ⟨ha, hd⟩ := h
    obtain ⟨dest', hloop, hd'⟩ := ArrayList.copyToLoop_spec ha (i := 0) (List.drop_zero) hd
    have hcount : a.count.toNat = vs.length := by rw [ha.count, Int.toNat_natCast]
    have hcopy : a.copyTo dest us.length = some dest' := by
      unfold ArrayList.copyTo
      rw [hcount]
      exact hloop
    exact ⟨array a, dest', congrArg (Option.map (array a, ·)) hcopy, hd', ha⟩
  | linked q =>
    obtain ⟨-, ps, qs, hbeside, hd, rfl, hqs⟩ := h
    obtain ⟨xs, ys, rfl, rfl, rfl⟩ := LinkedList.payloads_eq_append hqs
    have hlen := LinkedList.length_le_of_bound hbeside.source.nodup hbeside.source.bound
    have hnone : q.Beside dest ([] ++ ps) (xs ++ ys) := hbeside
    obtain ⟨dest', zs, hloop, hd', hzs, hbeside'⟩ :=
      LinkedList.copyToLoop_spec hnone hd (Nat.lt_succ_of_le hlen)
    have hcopy : q.copyTo dest (payloads xs).length = some dest' := by
      have hfirst : q.f = headOr ps none := hbeside.source.first
      unfold LinkedList.copyTo
      rw [hfirst, payloads_length]
      exact hloop
    refine ⟨linked (q.sharing dest'), dest',
      congrArg (Option.map fun dest => (linked (q.sharing dest), dest)) hcopy, ⟨_, hd', ?_⟩,
      ⟨_, hbeside'.source, rfl⟩⟩
    rw [payloads_append, payloads_append, hzs]

theorem Holds.apart_newList (h : l.Holds vs) : l.Apart l.newList vs [] := by
  cases l with
  | array a => exact ⟨h, LinkedList.holds_empty⟩
  | linked q =>
    obtain ⟨ps, hr, rfl⟩ := h
    refine ⟨rfl, ps, [], ⟨hr, fun _ _ => List.not_mem_nil⟩, ?_, rfl, rfl⟩
    exact ⟨trivial, rfl, rfl, List.nodup_nil, fun a ha => absurd ha List.not_mem_nil, rfl⟩

theorem Holds.copyTo_newList (h : l.Holds vs) :
    ∃ l' dest, l.copyTo l.newList 0 = some (l', dest) ∧ dest.Holds vs := by
  obtain ⟨l', dest, hcopy, hdest, -⟩ := copyTo_spec [] [] h.apart_newList
  rw [List.nil_append, List.append_nil] at hdest
  exact ⟨l', dest, hcopy, hdest⟩

end IList

namespace SectionTable
variable {l : SectionTable T} {ks ps : List T}

theorem Holds.convertToLinkedList (h : l.Holds ks ps) :
    ∃ l', l.convertToLinkedList = some l' ∧ l'.Holds ks ps ∧ l'.sections = l.sections ∧
      l'.kernelSections.isArray = false ∧ l'.processSections.isArray = false := by
  obtain ⟨_, new_k, hk, hks⟩ := h.kernel.copyTo_newList
  obtain ⟨_, new_p, hp, hps⟩ := h.process.copyTo_newList
  refine ⟨{ l with kernelSections := .linked new_k, processSections := .linked new_p }, ?_,
    ⟨hks, hps⟩, rfl, rfl, rfl⟩
  unfold SectionTable.convertToLinkedList
  rw [hk, hp]
  rfl

end SectionTable

/-- `dest` holds `ds` before the call, and `t` is a section list. -/
theorem copyTo_splices {l : IList T} {dest : LinkedList T} {vs ds : List T}
    (h : l.Apart dest vs ds) {index : Nat} (hindex : index ≤ ds.length) {t : SectionTable T}
    {ks ps : List T} (ht : t.Holds ks ps) :
    (∃ l' dest', l.copyTo dest index = some (l', dest') ∧
      dest'.Holds (ds.take index ++ vs ++ ds.drop index) ∧ l'.Holds vs) ∧
    ∃ t', t.convertToLinkedList = some t' ∧ t'.Holds ks ps ∧ t'.sections = t.sections ∧
      t'.kernelSections.isArray = false ∧ t'.processSections.isArray = false := by
  refine ⟨?_, ht.convertToLinkedList⟩
  have hsplit : ds = ds.take index ++ ds.drop index := (List.take_append_drop index ds).symm
  rw [hsplit] at h
  have hspec := IList.copyTo_spec _ _ h
  rw [List.length_take_of_le hindex] at hspec
  exact hspec

/-- Two lists with their nodes in one store: 7 and 8, and 1 and 2. -/
def twoLists : Nat → Option (Node Nat)
  | 0 => some ⟨7, some 1, none⟩
  | 1 => some ⟨8, none, some 0⟩
  | 2 => some ⟨1, some 3, none⟩
  | 3 => some ⟨2, none, some 2⟩
  | _ => none

def sevenEight : LinkedList Nat := ⟨twoLists, 4, some 0, some 1, 2⟩

def oneTwo : LinkedList Nat := ⟨twoLists, 4, some 2, some 3, 2⟩

theorem sevenEight_rep : LinkedList.Rep sevenEight [(0, 7), (1, 8)] :=
  ⟨⟨rfl, rfl, trivial⟩, rfl, rfl, by decide, by decide, rfl⟩

theorem oneTwo_rep : LinkedList.Rep oneTwo [(2, 1), (3, 2)] :=
  ⟨⟨rfl, rfl, trivial⟩, rfl, rfl, by decide, by decide, rfl⟩

/-- A section list with an array and a linked list. -/
def mixedTable : SectionTable Nat where
  kernelSections := .array ⟨2, fun i => if i = 0 then 3 else 4⟩
  processSections := .linked sevenEight
  sections := fun _ => ⟨0, 0, 0, 0, 0, 0, 0, 0⟩

theorem mixedTable_holds : mixedTable.Holds [3, 4] [7, 8] := by
  refine ⟨⟨rfl, fun i hi => ?_⟩, ⟨_, sevenEight_rep, rfl⟩⟩
  match i, hi with
  | 0, _ => rfl
  | 1, _ => rfl

theorem copyTo_splices_between :
    (∃ l' dest', (IList.linked sevenEight).copyTo oneTwo 1 = some (l', dest') ∧
      dest'.Holds [1, 7, 8, 2] ∧ l'.Holds [7, 8]) ∧
    ∃ t', mixedTable.convertToLinkedList = some t' ∧ t'.Holds [3, 4] [7, 8] ∧
      t'.sections = mixedTable.sections ∧
      t'.kernelSections.isArray = false ∧ t'.processSections.isArray = false := by
  have h : (IList.linked sevenEight).Apart oneTwo [7, 8] [1, 2] :=
    ⟨rfl, _, _, ⟨sevenEight_rep, by decide⟩, oneTwo_rep, rfl, rfl⟩
  have hindex : 1 ≤ [1, 2].length := by decide
  exact copyTo_splices h hindex mixedTable_holds

end Tysos
