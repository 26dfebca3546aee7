import Mathlib.Logic.Basic

/-!
# Two-level page tables

A store of frames with an entry for each index. The frame of a directory leads, through its
present entries, to the frames of tables, and these to the frames of pages. An entry of the
directory may lead back to the directory itself: then the tables are reached like pages.
-/

namespace PageTables
set_option autoImplicit false

universe u v w
variable {F : Type u} {I : Type v} {E : Type w}

/-- How an entry is read. -/
structure Format (F : Type u) (E : Type w) where
  present : E → Bool
  frame : E → F

/-- The entry for page `b` of table `a`, if table and page are present. -/
def walk (fmt : Format F E) (m : F → I → E) (dir : F) (a b : I) : Option E :=
  if fmt.present (m dir a) then
    if fmt.present (m (fmt.frame (m dir a)) b) then some (m (fmt.frame (m dir a)) b) else none
  else none

/-- No entry of the directory is for frame `p`. -/
def Spare (fmt : Format F E) (m : F → I → E) (dir p : F) : Prop :=
  ∀ a, fmt.present (m dir a) = true → fmt.frame (m dir a) ≠ p

section Update
variable [DecidableEq F]

def setWord [DecidableEq I] (m : F → I → E) (f : F) (i : I) (e : E) : F → I → E :=
  fun f' i' => if f' = f ∧ i' = i then e else m f' i'

def setFrame (m : F → I → E) (f : F) (e : E) : F → I → E :=
  fun f' i' => if f' = f then e else m f' i'

@[simp] theorem setWord_self [DecidableEq I] (m : F → I → E) (f : F) (i : I) (e : E) :
    setWord m f i e f i = e := if_pos ⟨rfl, rfl⟩

theorem setWord_of_frame_ne [DecidableEq I] {m : F → I → E} {f f' : F} (h : f' ≠ f) (i i' : I)
    (e : E) : setWord m f i e f' i' = m f' i' := if_neg fun hc => h hc.1

theorem setWord_of_index_ne [DecidableEq I] {m : F → I → E} {i i' : I} (h : i' ≠ i) (f f' : F)
    (e : E) : setWord m f i e f' i' = m f' i' := if_neg fun hc => h hc.2

@[simp] theorem setFrame_self (m : F → I → E) (f : F) (e : E) (i : I) :
    setFrame m f e f i = e := if_pos rfl

theorem setFrame_of_ne {m : F → I → E} {f f' : F} (h : f' ≠ f) (e : E) (i : I) :
    setFrame m f e f' i = m f' i := if_neg h

theorem setWord_setWord [DecidableEq I] (m : F → I → E) (f : F) (i : I) (e e' : E) :
    setWord (setWord m f i e) f i e' = setWord m f i e' := by
  funext f' i'
  unfold setWord
  split <;> rfl

theorem setWord_eq_self [DecidableEq I] {m : F → I → E} {f : F} {i : I} {e : E}
    (h : m f i = e) : setWord m f i e = m := by
  funext f' i'
  unfold setWord
  split
  · rename_i hsame
    rw [hsame.1, hsame.2, h]
  · rfl

theorem setFrame_eq_self {m : F → I → E} {f : F} {e : E} (h : ∀ i, m f i = e) :
    setFrame m f e = m := by
  funext f' i'
  unfold setFrame
  split
  · rename_i hsame
    rw [hsame, h]
  · rfl

theorem setFrame_setFrame (m : F → I → E) (f : F) (e e' : E) :
    setFrame (setFrame m f e) f e' = setFrame m f e' := by
  funext f' i'
  unfold setFrame
  split <;> rfl

theorem setFrame_setWord_self [DecidableEq I] (m : F → I → E) (f : F) (i : I) (e e' : E) :
    setFrame (setWord m f i e) f e' = setFrame m f e' := by
  funext f' i'
  by_cases hf : f' = f
  · rw [hf, setFrame_self, setFrame_self]
  · rw [setFrame_of_ne hf, setFrame_of_ne hf, setWord_of_frame_ne hf]

theorem setFrame_setWord [DecidableEq I] (m : F → I → E) {f p : F} (h : f ≠ p) (i : I)
    (e e' : E) : setFrame (setWord m f i e) p e' = setWord (setFrame m p e') f i e := by
  funext f' i'
  by_cases hp : f' = p
  · subst f'
    rw [setFrame_self, setWord_of_frame_ne (Ne.symm h), setFrame_self]
  · rw [setFrame_of_ne hp]
    unfold setWord
    rw [setFrame_of_ne hp]

end Update

/-- The directory is its own table number `s`, and the other tables are in frames of their own. -/
structure SelfMapped (fmt : Format F E) (m : F → I → E) (dir : F) (s : I) : Prop where
  present : fmt.present (m dir s) = true
  frame : fmt.frame (m dir s) = dir
  tables_ne : ∀ a, a ≠ s → fmt.present (m dir a) = true → fmt.frame (m dir a) ≠ dir
  tables_inj : ∀ a b, a ≠ s → b ≠ s → fmt.present (m dir a) = true →
    fmt.present (m dir b) = true → fmt.frame (m dir a) = fmt.frame (m dir b) → a = b

section SelfMapped
variable {fmt : Format F E} {m : F → I → E} {dir p : F} {s : I}

/-- Through the directory's own table the tables are seen as pages. -/
theorem walk_self (hpres : fmt.present (m dir s) = true) (hframe : fmt.frame (m dir s) = dir)
    (a : I) : walk fmt m dir s a = if fmt.present (m dir a) then some (m dir a) else none := by
  unfold walk
  rw [if_pos hpres, hframe]

theorem Spare.ne_dir (h : SelfMapped fmt m dir s) (hp : Spare fmt m dir p) : p ≠ dir := by
  have hself := hp s h.present
  rw [h.frame] at hself
  exact hself.symm

theorem Spare.congr {m' : F → I → E} (hp : Spare fmt m dir p)
    (hdir : ∀ a, m' dir a = m dir a) : Spare fmt m' dir p := by
  intro a ha
  rw [hdir] at ha ⊢
  exact hp a ha

/-- One walk reads two words. -/
theorem walk_congr_at {m' : F → I → E} {a b : I} (hdir : m' dir a = m dir a)
    (htable : fmt.present (m dir a) = true →
      m' (fmt.frame (m dir a)) b = m (fmt.frame (m dir a)) b) :
    walk fmt m' dir a b = walk fmt m dir a b := by
  unfold walk
  rw [hdir]
  by_cases hpres : fmt.present (m dir a) = true
  · rw [if_pos hpres, if_pos hpres, htable hpres]
  · rw [if_neg hpres, if_neg hpres]

theorem walk_congr {m' : F → I → E} (hdir : ∀ a, m' dir a = m dir a) {a : I}
    (htable : fmt.present (m dir a) = true →
      ∀ b, m' (fmt.frame (m dir a)) b = m (fmt.frame (m dir a)) b) (b : I) :
    walk fmt m' dir a b = walk fmt m dir a b :=
  walk_congr_at (hdir a) fun hpres => htable hpres b

theorem SelfMapped.congr {m' : F → I → E} (h : SelfMapped fmt m dir s)
    (hdir : ∀ a, m' dir a = m dir a) : SelfMapped fmt m' dir s := by
  refine ⟨?_, ?_, ?_, ?_⟩
  · rw [hdir]
    exact h.present
  · rw [hdir]
    exact h.frame
  · intro a ha
    rw [hdir]
    exact h.tables_ne a ha
  · intro a b ha hb
    rw [hdir, hdir]
    exact h.tables_inj a b ha hb

variable [DecidableEq F]

theorem walk_setFrame (h : SelfMapped fmt m dir s) (hp : Spare fmt m dir p) (e : E) (a b : I) :
    walk fmt (setFrame m p e) dir a b = walk fmt m dir a b := by
  apply walk_congr
  · exact fun a => setFrame_of_ne (hp.ne_dir h).symm e a
  · exact fun ha b => setFrame_of_ne (hp _ ha) e b

theorem SelfMapped.setFrame (h : SelfMapped fmt m dir s) (hp : Spare fmt m dir p) (e : E) :
    SelfMapped fmt (setFrame m p e) dir s :=
  h.congr fun a => setFrame_of_ne (hp.ne_dir h).symm e a

variable [DecidableEq I]

/-- Writing one entry of a table changes one page; the directory is as before. -/
theorem walk_setEntry (h : SelfMapped fmt m dir s) {a : I} (ha : a ≠ s)
    (hpres : fmt.present (m dir a) = true) (b : I) (e : E) {a' : I} (ha' : a' ≠ s) (b' : I) :
    walk fmt (setWord m (fmt.frame (m dir a)) b e) dir a' b' =
      if a' = a ∧ b' = b then (if fmt.present e then some e else none)
      else walk fmt m dir a' b' := by
  have hdir : ∀ i, setWord m (fmt.frame (m dir a)) b e dir i = m dir i :=
    fun i => setWord_of_frame_ne (h.tables_ne a ha hpres).symm b i e
  by_cases haa : a' = a
  · subst a'
    unfold walk
    rw [hdir a, if_pos hpres]
    by_cases hbb : b' = b
    · subst b'
      have hsame : a = a ∧ b = b := ⟨rfl, rfl⟩
      rw [setWord_self, if_pos hsame]
    · have hother : ¬ (a = a ∧ b' = b) := fun hc => hbb hc.2
      rw [setWord_of_index_ne hbb, if_neg hother, if_pos hpres]
  · rw [if_neg fun hc => haa hc.1]
    apply walk_congr hdir
    intro hpres' i
    apply setWord_of_frame_ne
    exact fun heq => haa (h.tables_inj a' a ha' ha hpres' hpres heq)

theorem SelfMapped.setEntry (h : SelfMapped fmt m dir s) {a : I} (ha : a ≠ s)
    (hpres : fmt.present (m dir a) = true) (b : I) (e : E) :
    SelfMapped fmt (setWord m (fmt.frame (m dir a)) b e) dir s :=
  h.congr fun i => setWord_of_frame_ne (h.tables_ne a ha hpres).symm b i e

/-- A table without entries, in a spare frame, changes no page outside the tables. -/
theorem walk_newTable (h : SelfMapped fmt m dir s) (hp : Spare fmt m dir p) {a : I}
    (habs : fmt.present (m dir a) = false) {e z : E} (he : fmt.frame e = p)
    (hz : fmt.present z = false) {a' : I} (ha' : a' ≠ s) (b' : I) :
    walk fmt (setWord (setFrame m p z) dir a e) dir a' b' = walk fmt m dir a' b' := by
  have hne := (hp.ne_dir h).symm
  by_cases haa : a' = a
  · subst a'
    have hnone : walk fmt m dir a b' = none := by
      unfold walk
      rw [habs, if_neg Bool.false_ne_true]
    rw [hnone]
    unfold walk
    rw [setWord_self, he, setWord_of_frame_ne (Ne.symm hne), setFrame_self, hz,
      if_neg Bool.false_ne_true, ite_self]
  · apply walk_congr_at
    · rw [setWord_of_index_ne haa, setFrame_of_ne hne]
    · intro hpres
      rw [setWord_of_frame_ne (h.tables_ne a' ha' hpres), setFrame_of_ne (hp _ hpres)]

theorem SelfMapped.newTable (h : SelfMapped fmt m dir s) (hp : Spare fmt m dir p) {a : I}
    (ha : a ≠ s) {e z : E} (he : fmt.frame e = p) :
    SelfMapped fmt (setWord (PageTables.setFrame m p z) dir a e) dir s := by
  have hne := (hp.ne_dir h).symm
  have hold : ∀ i, i ≠ a → setWord (PageTables.setFrame m p z) dir a e dir i = m dir i := by
    intro i hi
    rw [setWord_of_index_ne hi, setFrame_of_ne hne]
  refine ⟨?_, ?_, ?_, ?_⟩
  · rw [hold s (Ne.symm ha)]
    exact h.present
  · rw [hold s (Ne.symm ha)]
    exact h.frame
  · intro i hi hpres
    by_cases hia : i = a
    · rw [hia, setWord_self, he]
      exact Ne.symm hne
    · rw [hold i hia] at hpres ⊢
      exact h.tables_ne i hi hpres
  · intro i j hi hj hpi hpj heq
    by_cases hia : i = a <;> by_cases hja : j = a
    · rw [hia, hja]
    · rw [hia, setWord_self, he, hold j hja] at heq
      rw [hold j hja] at hpj
      exact absurd heq.symm (hp _ hpj)
    · rw [hja, setWord_self, he, hold i hia] at heq
      rw [hold i hia] at hpi
      exact absurd heq (hp _ hpi)
    · rw [hold i hia] at hpi heq
      rw [hold j hja] at hpj heq
      exact h.tables_inj i j hi hj hpi hpj heq

theorem Spare.newTable (h : SelfMapped fmt m dir s) (hp : Spare fmt m dir p) {a : I} {e z : E}
    (he : fmt.frame e = p) {q : F} (hq : Spare fmt m dir q) (hqp : q ≠ p) :
    Spare fmt (setWord (PageTables.setFrame m p z) dir a e) dir q := by
  intro b hpres
  by_cases hba : b = a
  · rw [hba, setWord_self, he]
    exact hqp.symm
  · rw [setWord_of_index_ne hba, setFrame_of_ne (hp.ne_dir h).symm] at hpres ⊢
    exact hq b hpres

end SelfMapped

end PageTables
