import Mathlib.Data.List.Induction
import Mathlib.Data.List.Nodup
import Mathlib.Logic.Function.Basic

/-!
# Doubly linked segments over a store of cells

A store maps addresses to cells. `Seg h pv ps tl` says that the cells of `ps`, a list
of addresses with their payloads, are linked in both directions in `h`, that the first
one points back to `pv` and that the last one points on to `tl`.
-/

namespace DoublyLinked
set_option autoImplicit false

universe u
variable {N : Type u}

structure Cell (N : Type u) where
  item : N
  next : Option Nat
  prev : Option Nat

abbrev Store (N : Type u) := Nat → Option (Cell N)

/-- Where a link to the segment leads: to its first cell, or past it when it is empty. -/
def headOr (ps : List (Nat × N)) (tl : Option Nat) : Option Nat :=
  match ps with
  | [] => tl
  | p :: _ => some p.1

def lastOr (pv : Option Nat) : List (Nat × N) → Option Nat
  | [] => pv
  | p :: ps => lastOr (some p.1) ps

def Seg (h : Store N) : Option Nat → List (Nat × N) → Option Nat → Prop
  | _, [], _ => True
  | pv, p :: ps, tl => h p.1 = some ⟨p.2, headOr ps tl, pv⟩ ∧ Seg h (some p.1) ps tl

def addrs (ps : List (Nat × N)) : List Nat := ps.map Prod.fst

def payloads (ps : List (Nat × N)) : List N := ps.map Prod.snd

@[simp] theorem headOr_nil (tl : Option Nat) : headOr ([] : List (Nat × N)) tl = tl := rfl

@[simp] theorem headOr_cons (p : Nat × N) (ps : List (Nat × N)) (tl : Option Nat) :
    headOr (p :: ps) tl = some p.1 := rfl

@[simp] theorem lastOr_nil (pv : Option Nat) : lastOr pv ([] : List (Nat × N)) = pv := rfl

@[simp] theorem lastOr_cons (pv : Option Nat) (p : Nat × N) (ps : List (Nat × N)) :
    lastOr pv (p :: ps) = lastOr (some p.1) ps := rfl

@[simp] theorem addrs_nil : addrs ([] : List (Nat × N)) = [] := rfl

@[simp] theorem addrs_cons (p : Nat × N) (ps : List (Nat × N)) :
    addrs (p :: ps) = p.1 :: addrs ps := rfl

@[simp] theorem addrs_append (ps qs : List (Nat × N)) :
    addrs (ps ++ qs) = addrs ps ++ addrs qs := by simp [addrs]

@[simp] theorem payloads_nil : payloads ([] : List (Nat × N)) = [] := rfl

@[simp] theorem payloads_cons (p : Nat × N) (ps : List (Nat × N)) :
    payloads (p :: ps) = p.2 :: payloads ps := rfl

@[simp] theorem payloads_append (ps qs : List (Nat × N)) :
    payloads (ps ++ qs) = payloads ps ++ payloads qs := by simp [payloads]

@[simp] theorem payloads_length (ps : List (Nat × N)) : (payloads ps).length = ps.length := by
  simp [payloads]

theorem headOr_append (ps qs : List (Nat × N)) (tl : Option Nat) :
    headOr (ps ++ qs) tl = headOr ps (headOr qs tl) := by
  cases ps <;> rfl

theorem lastOr_append (pv : Option Nat) (ps qs : List (Nat × N)) :
    lastOr pv (ps ++ qs) = lastOr (lastOr pv ps) qs := by
  induction ps generalizing pv with
  | nil => rfl
  | cons p ps ih => exact ih (some p.1)

theorem seg_append (h : Store N) (pv tl : Option Nat) (ps qs : List (Nat × N)) :
    Seg h pv (ps ++ qs) tl ↔ Seg h pv ps (headOr qs tl) ∧ Seg h (lastOr pv ps) qs tl := by
  induction ps generalizing pv with
  | nil => simp [Seg]
  | cons p ps ih => simp only [List.cons_append, Seg, headOr_append, ih, lastOr_cons, and_assoc]

theorem Seg.frame {h h' : Store N} {pv tl : Option Nat} {ps : List (Nat × N)}
    (hs : Seg h pv ps tl) (heq : ∀ a ∈ addrs ps, h' a = h a) : Seg h' pv ps tl := by
  induction ps generalizing pv with
  | nil => trivial
  | cons p ps ih =>
    refine ⟨?_, ih hs.2 fun a ha => heq a (List.mem_cons_of_mem _ ha)⟩
    rw [heq p.1 List.mem_cons_self]
    exact hs.1

theorem Seg.update {h : Store N} {pv tl : Option Nat} {ps : List (Nat × N)} {a : Nat}
    {c : Option (Cell N)} (hs : Seg h pv ps tl) (ha : a ∉ addrs ps) :
    Seg (Function.update h a c) pv ps tl := by
  apply hs.frame
  intro b hb
  exact Function.update_of_ne (ne_of_mem_of_not_mem hb ha) _ _

/-- Redirect the back link of the first cell and change its payload. -/
theorem Seg.relink_head {h : Store N} {pv tl : Option Nat} {a : Nat} {v : N}
    {ps : List (Nat × N)} (hs : Seg h pv ((a, v) :: ps) tl) (ha : a ∉ addrs ps) (w : N)
    (b : Option Nat) :
    Seg (Function.update h a (some ⟨w, headOr ps tl, b⟩)) b ((a, w) :: ps) tl :=
  ⟨by simp, hs.2.update ha⟩

/-- Redirect the forward link of the last cell. -/
theorem Seg.relink_last {h : Store N} {pv tl : Option Nat} {a : Nat} {v : N}
    {ps : List (Nat × N)} (hs : Seg h pv (ps ++ [(a, v)]) tl) (ha : a ∉ addrs ps)
    (b : Option Nat) :
    Seg (Function.update h a (some ⟨v, b, lastOr pv ps⟩)) pv (ps ++ [(a, v)]) b := by
  rw [seg_append] at hs ⊢
  exact ⟨hs.1.update ha, by simp [Seg]⟩

theorem Seg.lookup {h : Store N} {pv tl : Option Nat} {xs ys : List (Nat × N)} {a : Nat} {v : N}
    (hs : Seg h pv (xs ++ (a, v) :: ys) tl) :
    h a = some ⟨v, headOr ys tl, lastOr pv xs⟩ :=
  ((seg_append _ _ _ _ _).mp hs).2.1

/-- Following one of the links of the cells visits the addresses `as` and then ends. -/
inductive Chain (link : Cell N → Option Nat) (h : Store N) : Option Nat → List Nat → Prop where
  | null : Chain link h none []
  | cell {a : Nat} {c : Cell N} {as : List Nat} (hc : h a = some c)
      (rest : Chain link h (link c) as) : Chain link h (some a) (a :: as)

theorem Seg.forward {h : Store N} {pv : Option Nat} {ps : List (Nat × N)}
    (hs : Seg h pv ps none) : Chain Cell.next h (headOr ps none) (addrs ps) := by
  induction ps generalizing pv with
  | nil => exact Chain.null
  | cons p ps ih => exact Chain.cell hs.1 (ih hs.2)

theorem Seg.backward {h : Store N} {tl : Option Nat} {ps : List (Nat × N)}
    (hs : Seg h none ps tl) : Chain Cell.prev h (lastOr none ps) (addrs ps).reverse := by
  induction ps using List.reverseRecOn generalizing tl with
  | nil => exact Chain.null
  | append_singleton ps p ih =>
    have hleft := ((seg_append _ _ _ _ _).mp hs).1
    rw [lastOr_append, addrs_append, List.reverse_append]
    exact Chain.cell hs.lookup (ih hleft)

theorem eq_nil_or_snoc (ps : List (Nat × N)) :
    ps = [] ∨ ∃ qs a v, ps = qs ++ [(a, v)] := by
  rcases List.eq_nil_or_concat ps with h | ⟨qs, p, h⟩
  · exact Or.inl h
  · exact Or.inr ⟨qs, p.1, p.2, by simpa using h⟩

theorem not_mem_left {xs ys : List (Nat × N)} {a : Nat} {v : N}
    (h : (addrs (xs ++ (a, v) :: ys)).Nodup) : a ∉ addrs xs := by
  intro ha
  simp only [addrs_append, addrs_cons] at h
  exact (List.nodup_append.mp h).2.2 a ha a List.mem_cons_self rfl

theorem not_mem_right {xs ys : List (Nat × N)} {a : Nat} {v : N}
    (h : (addrs (xs ++ (a, v) :: ys)).Nodup) : a ∉ addrs ys := by
  simp only [addrs_append, addrs_cons] at h
  exact (List.nodup_cons.mp (List.nodup_append.mp h).2.1).1

theorem nodup_insert {xs ys : List (Nat × N)} {a : Nat} {v : N}
    (h : (addrs (xs ++ ys)).Nodup) (ha : a ∉ addrs (xs ++ ys)) :
    (addrs (xs ++ (a, v) :: ys)).Nodup := by
  simp only [addrs_append, addrs_cons] at *
  exact List.nodup_middle.mpr (List.nodup_cons.mpr ⟨ha, h⟩)

theorem nodup_erase {xs ys : List (Nat × N)} {a : Nat} {v : N}
    (h : (addrs (xs ++ (a, v) :: ys)).Nodup) : (addrs (xs ++ ys)).Nodup := by
  simp only [addrs_append, addrs_cons] at *
  exact (List.nodup_cons.mp (List.nodup_middle.mp h)).2

end DoublyLinked
