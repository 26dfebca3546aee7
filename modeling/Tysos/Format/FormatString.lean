import Tysos.Format.Printf

/-!
# The format string

Which formats `vfPrintf` stays inside of, and which of the arguments it takes. A backslash or a
percent sign at the very end takes the zero with it, and a `%c` leaves three of the four bytes
of its argument for the next conversion.
-/

namespace Tysos
set_option autoImplicit false

open ByteMemory CString

namespace Formatter

/-- The escapes and conversions are all complete. -/
def complete : List (BitVec 8) → Bool
  | [] => true
  | [c] => c ≠ 0x5c ∧ c ≠ ascii '%'
  | c :: d :: cs =>
    if c = 0x5c then complete cs
    else if c = ascii '%' then complete cs
    else complete (d :: cs)

/-- The pieces of a format; a backslash or a percent sign at its end is none. -/
def pieces : List (BitVec 8) → List Piece
  | [] => []
  | [c] => if c = 0x5c ∨ c = ascii '%' then [] else [.literal c]
  | c :: d :: cs =>
    if c = 0x5c then .escape d :: pieces cs
    else if c = ascii '%' then .conversion d :: pieces cs
    else .literal c :: pieces (d :: cs)

/-- The conversions among the pieces that take an argument. -/
def conversions (ps : List Piece) : List Piece := ps.filter fun pc => pc.Takes

/-- No conversion that takes an argument comes after a `%c`. -/
def aligned : List Piece → Bool
  | [] => true
  | pc :: ps => if pc = .conversion (ascii 'c') then (conversions ps).isEmpty else aligned ps

section Scan
variable {e : Call}

theorem char_of_spells {p : Nat} {c : BitVec 8} {cs : List (BitVec 8)}
    (h : Spells ((textAt e.memory e.format).drop p) (c :: cs)) :
    e.char p = c ∧ c ≠ 0 ∧ Spells ((textAt e.memory e.format).drop (p + 1)) cs := by
  obtain ⟨hc, hne, hrest⟩ := spells_cons.mp h
  rw [Text.drop_drop] at hrest
  exact ⟨hc, hne, hrest⟩

theorem nul_of_spells {p : Nat} (h : Spells ((textAt e.memory e.format).drop p) []) :
    e.char p = 0 := h

theorem scans_cons {p n : Nat} {pc : Piece} {ps : List Piece} (hne : e.char p ≠ 0)
    (hpiece : e.piece p = pc) (h : Scans e (p + pc.size) ps ∧ extent ps = n) :
    Scans e p (pc :: ps) ∧ extent (pc :: ps) = n + pc.size := by
  subst hpiece
  obtain ⟨hscans, hlen⟩ := h
  refine ⟨.piece hne hscans, ?_⟩
  rw [extent_cons, hlen, Nat.add_comm]

theorem piece_eq {p : Nat} {c : BitVec 8} (hc : e.char p = c) :
    e.piece p = if c = 0x5c then .escape (e.char (p + 1))
      else if c = ascii '%' then .conversion (e.char (p + 1)) else .literal c := by
  unfold Call.piece
  rw [hc]

/-- The pieces of a complete format are the ones the loop comes to, and they end at its zero. -/
theorem scans_pieces {p : Nat} {cs : List (BitVec 8)}
    (h : Spells ((textAt e.memory e.format).drop p) cs) (hcs : complete cs = true) :
    Scans e p (pieces cs) ∧ extent (pieces cs) = cs.length := by
  induction cs using pieces.induct generalizing p with
  | case1 => exact ⟨.nul (nul_of_spells h), rfl⟩
  | case2 c hc => exact absurd (of_decide_eq_true hcs) (by tauto)
  | case3 c hc =>
    obtain ⟨hchar, hne, hrest⟩ := char_of_spells h
    have hpiece : e.piece p = .literal c := by
      rw [piece_eq hchar, if_neg (not_or.mp hc).1, if_neg (not_or.mp hc).2]
    unfold pieces
    rw [if_neg hc]
    exact scans_cons (hchar ▸ hne) hpiece ⟨.nul (nul_of_spells hrest), rfl⟩
  | case4 d cs ih =>
    obtain ⟨hchar, hne, hrest⟩ := char_of_spells h
    obtain ⟨hd, -, hrest⟩ := char_of_spells hrest
    have hpiece : e.piece p = .escape d := by rw [piece_eq hchar, if_pos rfl, hd]
    unfold pieces
    rw [if_pos rfl]
    exact scans_cons (hchar ▸ hne) hpiece (ih hrest hcs)
  | case5 d cs hc ih =>
    obtain ⟨hchar, hne, hrest⟩ := char_of_spells h
    obtain ⟨hd, -, hrest⟩ := char_of_spells hrest
    have hpiece : e.piece p = .conversion d := by rw [piece_eq hchar, if_neg hc, if_pos rfl, hd]
    unfold pieces
    rw [if_neg hc, if_pos rfl]
    exact scans_cons (hchar ▸ hne) hpiece (ih hrest hcs)
  | case6 c d cs hc hc' ih =>
    obtain ⟨hchar, hne, hrest⟩ := char_of_spells h
    unfold complete at hcs
    rw [if_neg hc, if_neg hc'] at hcs
    have hpiece : e.piece p = .literal c := by rw [piece_eq hchar, if_neg hc, if_neg hc']
    unfold pieces
    rw [if_neg hc, if_neg hc']
    exact scans_cons (hchar ▸ hne) hpiece (ih hrest hcs)

theorem add_size_le_extent {p k n : Nat} {ps : List Piece} (hne : e.char p ≠ 0)
    (hsize : (e.piece p).size = k) (hps : Scans e p ps)
    (hrest : ∀ qs, Scans e (p + k) qs → n ≤ extent qs) : n + k ≤ extent ps := by
  subst hsize
  cases hps with
  | nul hnul => exact absurd hnul hne
  | piece _ hqs =>
    rw [extent_cons, Nat.add_comm]
    exact Nat.add_le_add_left (hrest _ hqs) _

/-- With a format that is not complete the loop steps over its zero. -/
theorem length_lt_extent {p : Nat} {cs : List (BitVec 8)}
    (h : Spells ((textAt e.memory e.format).drop p) cs) (hcs : complete cs = false)
    {ps : List Piece} (hps : Scans e p ps) : cs.length < extent ps := by
  induction cs using pieces.induct generalizing p ps with
  | case1 => exact absurd hcs (by decide)
  | case2 c hc =>
    obtain ⟨hchar, hne, -⟩ := char_of_spells h
    have hsize : (e.piece p).size = 2 := by
      rw [piece_eq hchar]
      split_ifs <;> first | rfl | tauto
    exact add_size_le_extent (n := 0) (hchar ▸ hne) hsize hps fun qs _ => Nat.zero_le _
  | case3 c hc => exact absurd (of_decide_eq_false hcs) (by tauto)
  | case4 d cs ih =>
    obtain ⟨hchar, hne, hrest⟩ := char_of_spells h
    have hsize : (e.piece p).size = 2 := by
      rw [piece_eq hchar, if_pos rfl]
      rfl
    exact add_size_le_extent (n := cs.length + 1) (hchar ▸ hne) hsize hps
      fun qs hqs => ih (char_of_spells hrest).2.2 hcs hqs
  | case5 d cs hc ih =>
    obtain ⟨hchar, hne, hrest⟩ := char_of_spells h
    have hsize : (e.piece p).size = 2 := by
      rw [piece_eq hchar, if_neg hc, if_pos rfl]
      rfl
    exact add_size_le_extent (n := cs.length + 1) (hchar ▸ hne) hsize hps
      fun qs hqs => ih (char_of_spells hrest).2.2 hcs hqs
  | case6 c d cs hc hc' ih =>
    obtain ⟨hchar, hne, hrest⟩ := char_of_spells h
    unfold complete at hcs
    rw [if_neg hc, if_neg hc'] at hcs
    have hsize : (e.piece p).size = 1 := by
      rw [piece_eq hchar, if_neg hc, if_neg hc']
      rfl
    exact add_size_le_extent (n := cs.length + 2) (hchar ▸ hne) hsize hps
      fun qs hqs => ih hrest hcs hqs

end Scan

section Arguments

theorem Piece.width_eq_one {pc : Piece} (h : pc.width = 1) : pc = .conversion (ascii 'c') := by
  unfold Piece.width at h
  split at h
  next c =>
    by_cases hwide : c = ascii 'x' ∨ c = ascii 'u' ∨ c = ascii 's'
    · rw [if_pos hwide] at h
      exact absurd h (by decide)
    · rw [if_neg hwide] at h
      by_cases hchar : c = ascii 'c'
      · rw [hchar]
      · rw [if_neg hchar] at h
        exact absurd h (by decide)
  next => exact absurd h (by decide)

theorem Piece.width_cases (pc : Piece) : pc.width = 0 ∨ pc.width = 1 ∨ pc.width = 4 := by
  unfold Piece.width
  split
  · split_ifs <;> simp
  · exact .inl rfl

theorem Piece.taken_of_width_ne {pc : Piece} (h : pc.width ≠ 0) (a : Nat) : pc.taken a = [a] :=
  if_pos h

theorem Piece.taken_of_width_eq {pc : Piece} (h : pc.width = 0) (a : Nat) : pc.taken a = [] :=
  if_neg (not_not.mpr h)

theorem conversions_of_width_ne {pc : Piece} (h : pc.width ≠ 0) (ps : List Piece) :
    conversions (pc :: ps) = pc :: conversions ps := by
  unfold conversions
  exact List.filter_cons_of_pos (decide_eq_true h)

theorem conversions_of_width_eq {pc : Piece} (h : pc.width = 0) (ps : List Piece) :
    conversions (pc :: ps) = conversions ps := by
  unfold conversions
  exact List.filter_cons_of_neg (by simp [Piece.Takes, h])

theorem length_takenFrom (a : Nat) (ps : List Piece) :
    (takenFrom a ps).length = (conversions ps).length := by
  induction ps generalizing a with
  | nil => rfl
  | cons pc ps ih =>
    by_cases h : pc.width = 0
    · rw [takenFrom_cons, Piece.taken_of_width_eq h, conversions_of_width_eq h]
      exact ih _
    · rw [takenFrom_cons, Piece.taken_of_width_ne h, conversions_of_width_ne h,
        List.singleton_append, List.length_cons, List.length_cons, ih]

/-- The first argument is taken where the arguments are. -/
theorem head_takenFrom (a : Nat) {ps : List Piece} (h : conversions ps ≠ []) :
    (takenFrom a ps).head? = some a := by
  induction ps with
  | nil => exact absurd rfl h
  | cons pc ps ih =>
    by_cases hwidth : pc.width = 0
    · rw [conversions_of_width_eq hwidth] at h
      rw [takenFrom_cons, Piece.taken_of_width_eq hwidth, hwidth]
      exact ih h
    · rw [takenFrom_cons, Piece.taken_of_width_ne hwidth]
      rfl

/-- The places of `n` arguments of four bytes from `a` on. -/
def slots (a n : Nat) : List Nat := (List.range n).map fun k => a + 4 * k

theorem slots_succ (a n : Nat) : slots a (n + 1) = a :: slots (a + 4) n := by
  unfold slots
  rw [List.range_succ_eq_map, List.map_cons, List.map_map]
  congr 1
  refine List.map_congr_left fun k _ => ?_
  simp only [Function.comp_apply]
  omega

/-- After a step of one byte no argument is taken at its place. -/
theorem takenFrom_ne_slots {ps : List Piece} (h : conversions ps ≠ []) (a : Nat) :
    takenFrom (a + 1) ps ≠ slots (a + 4) (conversions ps).length := by
  intro heq
  have hhead := congrArg List.head? heq
  obtain ⟨n, hn⟩ := Nat.exists_eq_succ_of_ne_zero (mt List.length_eq_zero_iff.mp h)
  rw [head_takenFrom (a + 1) h, hn, slots_succ] at hhead
  exact absurd (Option.some.inj hhead) (by omega)

/-- Each conversion takes an argument of its own exactly if none follows a `%c`. -/
theorem takenFrom_eq_slots (a : Nat) (ps : List Piece) :
    takenFrom a ps = slots a (conversions ps).length ↔ aligned ps = true := by
  induction ps generalizing a with
  | nil => exact iff_of_true rfl rfl
  | cons pc ps ih =>
    rcases pc.width_cases with h | h | h
    · have hne : pc ≠ .conversion (ascii 'c') := by
        rintro rfl
        exact absurd h (by decide)
      rw [takenFrom_cons, Piece.taken_of_width_eq h, conversions_of_width_eq h, h]
      unfold aligned
      rw [if_neg hne]
      exact ih a
    · have hwidth : pc.width ≠ 0 := by omega
      rw [takenFrom_cons, Piece.taken_of_width_ne hwidth, conversions_of_width_ne hwidth, h,
        List.length_cons, slots_succ, List.singleton_append, List.cons_inj_right]
      unfold aligned
      rw [if_pos (Piece.width_eq_one h), List.isEmpty_iff]
      constructor
      · intro heq
        by_contra hconv
        exact takenFrom_ne_slots hconv a heq
      · intro hconv
        have hlen := length_takenFrom (a + 1) ps
        rw [hconv] at hlen ⊢
        exact List.length_eq_zero_iff.mp hlen
    · have hwidth : pc.width ≠ 0 := by omega
      have hne : pc ≠ .conversion (ascii 'c') := by
        rintro rfl
        exact absurd h (by decide)
      rw [takenFrom_cons, Piece.taken_of_width_ne hwidth, conversions_of_width_ne hwidth, h,
        List.length_cons, slots_succ, List.singleton_append, List.cons_inj_right]
      unfold aligned
      rw [if_neg hne]
      exact ih (a + 4)

end Arguments

section Returns
variable {σ : Type} {S : IStream σ} {e : Call}

/-- With a zero anywhere in memory every pointer points to a string. -/
theorem exists_string {cs : List (BitVec 8)} (h : Spells (textAt e.memory e.format) cs)
    (b : Address) : ∃ ds, Spells (textAt e.memory b) ds := by
  refine exists_spells ⟨(e.format + BitVec.ofNat 32 cs.length - b).toNat, ?_⟩
  have hplace : b + (e.format + BitVec.ofNat 32 cs.length - b) =
      e.format + BitVec.ofNat 32 cs.length := by bv_omega
  rw [Stdclib.textAt_apply, BitVec.ofNat_toNat, BitVec.setWidth_eq, hplace]
  exact h.nul

theorem numToStr_returns (hS : S.Accepts) {base : BitVec 32} (h2 : 2 ≤ base.toNat)
    (h16 : base.toNat ≤ 16) (stack : Text (BitVec 8)) (s : σ) (n : BitVec 32) :
    ∃ least s', ∀ fuel, least ≤ fuel → numToStr S stack fuel s n base = some s' := by
  obtain ⟨t, hspells, ht⟩ := numText_spells h2 h16 n stack
  obtain ⟨least, s', hs'⟩ := hS s t _ hspells
  refine ⟨max 32 least, s', fun fuel hfuel => ?_⟩
  unfold numToStr
  rw [ht fuel (le_of_max_le_left hfuel), Option.bind_some, hs' fuel (le_of_max_le_right hfuel)]

variable (hS : S.Accepts) {cs : List (BitVec 8)}
  (hformat : Spells (textAt e.memory e.format) cs)
include hS hformat

theorem send_returns (pc : Piece) (p a : Nat) (s : σ) :
    ∃ least s', ∀ fuel, least ≤ fuel → pc.send S e fuel p a s = some s' := by
  cases pc with
  | literal c => exact ⟨0, _, fun _ _ => rfl⟩
  | escape c => exact ⟨0, _, fun _ _ => rfl⟩
  | conversion c =>
    by_cases hx : c = ascii 'x'
    · simp only [hx, Piece.send_hex]
      exact numToStr_returns hS (by decide) (by decide) _ _ _
    · by_cases hu : c = ascii 'u'
      · simp only [hu, Piece.send_unsigned]
        exact numToStr_returns hS (by decide) (by decide) _ _ _
      · by_cases hs : c = ascii 's'
        · simp only [hs, Piece.send_string]
          obtain ⟨ds, hds⟩ := exists_string hformat (e.word a)
          exact hS s _ ds hds
        · by_cases hc : c = ascii 'c'
          · simp only [hc, Piece.send_char]
            exact ⟨0, _, fun _ _ => rfl⟩
          · exact ⟨0, s, fun fuel _ => Piece.send_unknown S e fuel hx hu hs hc p a s⟩

theorem play_returns (ps : List Piece) (st : Printing σ) :
    ∃ least st', ∀ fuel, least ≤ fuel → play S e fuel ps st = some st' := by
  induction ps generalizing st with
  | nil => exact ⟨0, _, fun _ _ => rfl⟩
  | cons pc ps ih =>
    obtain ⟨l₁, s, hs⟩ := send_returns hS hformat pc st.p st.nextVal st.s
    obtain ⟨l₂, st', hst'⟩ := ih (pc.after st.look s)
    refine ⟨max l₁ l₂, st', fun fuel hfuel => ?_⟩
    unfold play
    rw [hs fuel (le_of_max_le_left hfuel), Option.map_some, Option.bind_some,
      hst' fuel (le_of_max_le_right hfuel)]

/-- The state before the first round. -/
def Printing.start (s : σ) : Printing σ := ⟨s, 0, 0, 0, [], []⟩

omit hS hformat in
theorem vfPrintf_eq {ps : List Piece} (h : Scans e 0 ps) {fuel : Nat} (hfuel : ps.length < fuel)
    (s : σ) : vfPrintf S e fuel s =
      (play S e fuel ps (.start s)).map fun st => { st with s := S.endBatch st.s } := by
  have hloop : Printing.loop S e fuel fuel (.start s) = play S e fuel ps (.start s) :=
    loop_eq h hfuel
  unfold vfPrintf
  rw [← hloop]
  rfl

omit hS hformat in
theorem scans_of_vfPrintf {fuel : Nat} {s : σ} {st : Printing σ}
    (h : vfPrintf S e fuel s = some st) :
    ∃ ps, Scans e 0 ps ∧ ps.length < fuel ∧ ∃ st₀, play S e fuel ps (.start s) = some st₀ ∧
      st = { st₀ with s := S.endBatch st₀.s } := by
  obtain ⟨st₀, hloop, rfl⟩ := Option.map_eq_some_iff.mp h
  obtain ⟨ps, hps, hlen⟩ := scans_of_loop hloop
  exact ⟨ps, hps, hlen, st₀, (loop_eq hps hlen).symm.trans hloop, rfl⟩

/-- `vfPrintf` returns, having looked at the format up to its zero at the most, and having taken
its arguments one after the other. -/
def StaysInside (S : IStream σ) (e : Call) (s : σ) (cs : List (BitVec 8)) : Prop :=
  ∃ st, (∃ least, ∀ fuel, least ≤ fuel → vfPrintf S e fuel s = some st) ∧
    (∀ k ∈ st.looks, k ≤ cs.length) ∧
    st.taken.reverse = slots 0 (conversions (pieces cs)).length

/-- What is left of a complete format's run: where its arguments were taken from. -/
theorem vfPrintf_returns (hcs : complete cs = true) (s : σ) :
    ∃ st, (∃ least, ∀ fuel, least ≤ fuel → vfPrintf S e fuel s = some st) ∧
      (∀ k ∈ st.looks, k ≤ cs.length) ∧ st.taken.reverse = takenFrom 0 (pieces cs) := by
  rw [← Text.drop_zero (textAt e.memory e.format)] at hformat
  obtain ⟨hscans, hextent⟩ := scans_pieces hformat hcs
  rw [Text.drop_zero] at hformat
  obtain ⟨least, st, hplay⟩ := play_returns hS hformat (pieces cs) (.start s)
  have htaken := play_taken (hplay least (Nat.le_refl _))
  obtain ⟨ks, hks, -, hle⟩ := play_looks (hplay least (Nat.le_refl _))
  refine ⟨{ st with s := S.endBatch st.s }, ⟨max least ((pieces cs).length + 1),
    fun fuel hfuel => ?_⟩, fun k hk => ?_, ?_⟩
  · rw [vfPrintf_eq hscans (le_of_max_le_right hfuel), hplay fuel (le_of_max_le_left hfuel)]
    rfl
  · have hk := hle k (by rw [hks] at hk; simpa [Printing.start] using hk)
    rw [hextent] at hk
    exact hk.trans (Nat.le_of_eq (Nat.zero_add _))
  · dsimp only
    rw [htaken, List.reverse_append, List.reverse_reverse]
    rfl

omit hS in
theorem complete_of_inside {s : σ} (h : StaysInside S e s cs) : complete cs = true := by
  obtain ⟨st, ⟨least, hst⟩, hlooks, -⟩ := h
  rw [← Bool.not_eq_false]
  intro hcs
  obtain ⟨ps, hps, -, st₀, hplay, rfl⟩ := scans_of_vfPrintf (hst least (Nat.le_refl _))
  obtain ⟨ks, hks, hend, -⟩ := play_looks hplay
  rw [← Text.drop_zero (textAt e.memory e.format)] at hformat
  have hlt := length_lt_extent hformat hcs hps
  have hle := hlooks _ (hks ▸ List.mem_append_left _ hend)
  exact absurd (hlt.trans_le ((Nat.le_add_left _ _).trans hle)) (Nat.lt_irrefl _)

theorem aligned_of_inside {s : σ} (h : StaysInside S e s cs) : aligned (pieces cs) = true := by
  have hcs := complete_of_inside hformat h
  obtain ⟨st, ⟨least, hst⟩, -, htaken⟩ := h
  obtain ⟨st', ⟨least', hst'⟩, -, htaken'⟩ := vfPrintf_returns hS hformat hcs s
  have heq := (hst _ (Nat.le_max_left least least')).symm.trans
    (hst' _ (Nat.le_max_right least least'))
  obtain rfl := Option.some.inj heq
  exact (takenFrom_eq_slots 0 _).mp (htaken'.symm.trans htaken)

theorem vfPrintf_inside (s : σ) :
    StaysInside S e s cs ↔ complete cs = true ∧ aligned (pieces cs) = true := by
  constructor
  · intro h
    exact ⟨complete_of_inside hformat h, aligned_of_inside hS hformat h⟩
  · intro h
    obtain ⟨hcs, haligned⟩ := h
    obtain ⟨st, hst, hlooks, htaken⟩ := vfPrintf_returns hS hformat hcs s
    exact ⟨st, hst, hlooks, htaken.trans ((takenFrom_eq_slots 0 _).mpr haligned)⟩

end Returns

/-- A call with a format at 0, whose arguments and whatever else there is are zero. -/
def Call.ofFormat (cs : List (BitVec 8)) : Call where
  memory a := cs.getD a.toNat 0
  format := 0
  ap := 0x100
  stack _ _ := 0

theorem vfPrintf_inside_unsigned :
    StaysInside .sink (.ofFormat [ascii '%', ascii 'u']) [] [ascii '%', ascii 'u'] ↔
      complete [ascii '%', ascii 'u'] = true ∧ aligned (pieces [ascii '%', ascii 'u']) = true :=
  vfPrintf_inside IStream.sink_accepts (by decide) []

/-- A percent sign at the end, and a number after a character. -/
theorem not_inside :
    ¬ StaysInside .sink (.ofFormat [ascii '%']) [] [ascii '%'] ∧
      ¬ StaysInside .sink (.ofFormat [ascii '%', ascii 'c', ascii '%', ascii 'u']) []
        [ascii '%', ascii 'c', ascii '%', ascii 'u'] := by
  constructor
  · intro h
    exact absurd (complete_of_inside (by decide) h) (by decide)
  · intro h
    exact absurd (aligned_of_inside IStream.sink_accepts (by decide) h) (by decide)

end Formatter
end Tysos
