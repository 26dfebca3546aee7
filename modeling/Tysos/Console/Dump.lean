import Tysos.Console.Printf
import Tysos.Lists.CopyTo
import Tysos.Lists.Enumerators

/-!
# The section dump

`SectionList::Serialize` goes over the sections with the enumerator of the list and prints a line
for each. `kmain` has the kernel sections dumped on the console, after it has turned the two
arrays into linked lists.
-/

namespace Tysos
open ByteMemory CString Formatter Enumeration
set_option autoImplicit false

/-- Where a function that prints runs: the memory, its stack pointer, and what the stack below it
holds. -/
structure PrintSite where
  memory : Memory
  sp : Address
  stack : Nat → Text (BitVec 8)

namespace PrintSite

/-- The call of `vfPrintf` that `fPrintf` makes, the arguments pushed with the first one last. -/
def call (site : PrintSite) (format : Address) (args : List (BitVec 32)) : Formatter.Call :=
  let st := args.reverse.foldl pushWord (site.memory, site.sp)
  ⟨st.1, format, st.2, site.stack⟩

def fPrintf {σ : Type} (site : PrintSite) (S : IStream σ) (fuel : Nat) (s : σ) (format : Address)
    (args : List (BitVec 32)) : Option σ :=
  (vfPrintf S (site.call format args) fuel s).map Printing.s

/-- The string at `a`, which three arguments do not reach. -/
structure Reads (site : PrintSite) (a : Address) (cs : List (BitVec 8)) : Prop where
  spells : Spells (textAt site.memory a) cs
  clear : Clear a (cs.length + 1) (site.sp - 12) 12

end PrintSite

/-- The strings of `Serialize`. -/
structure SerializeStrings where
  header : Address
  line : Address

namespace SectionTable
variable {T σ : Type}

/-- `"Section dump:\n"`. -/
def headerFormat : List (BitVec 8) := "Section dump:\n".toList.map ascii

/-- `"  %s %x - %x\n"`. -/
def lineFormat : List (BitVec 8) := "  %s %x - %x\n".toList.map ascii

section Source
variable (l : SectionTable T) (names : T → Address) (site : PrintSite)
  (strings : SerializeStrings) (S : IStream σ) (fuel : Nat)

/-- The body of the loop. -/
def serializeLine (s : σ) (x : T) : Option σ :=
  site.fPrintf S fuel s strings.line
    [names x, (l.sections x).base, (l.sections x).base + (l.sections x).length]

def serialize (s : σ) : Option σ :=
  (site.fPrintf S fuel s strings.header []).bind
    (forEach l.enumerator (l.serializeLine names site strings S fuel) fuel l.getEnumerator)

end Source

/-- The line of a section with this name. -/
def lineOf (x : Section) (name : List (BitVec 8)) : List (BitVec 8) :=
  "  ".toList.map ascii ++ name ++ " 0x".toList.map ascii ++ numeral 16 x.base.toNat ++
    " - 0x".toList.map ascii ++ numeral 16 (x.base + x.length).toNat ++ [ascii '\n']

end SectionTable

namespace PrintSite
variable {σ : Type} {S : IStream σ} {keeps : σ → List (BitVec 8) → Prop} {site : PrintSite}
  {format a : Address} {cs ds : List (BitVec 8)} {args : List (BitVec 32)}

theorem call_words (site : PrintSite) (format : Address) {args : List (BitVec 32)}
    (hargs : args.length ≤ 3) :
    Words (site.call format args).memory (site.call format args).ap args := by
  have hnone : Words (site.memory, site.sp).1 (site.memory, site.sp).2 [] := trivial
  have hwords := pushWords_words hnone args.reverse
    (by rw [List.length_reverse, List.length_nil]; omega)
  rw [List.reverse_reverse, List.append_nil] at hwords
  exact hwords

/-- A call finds the strings as they are. -/
theorem Reads.call (h : site.Reads a cs) (format : Address) (hargs : args.length ≤ 3) :
    Spells (textAt (site.call format args).memory a) cs := by
  refine h.spells.congr fun k hk => ?_
  unfold textAt PrintSite.call
  refine pushWords_of_not_inRange (by rw [List.length_reverse]; omega) fun hin => ?_
  rw [List.length_reverse] at hin
  refine h.clear (a + BitVec.ofNat 32 k) ?_ ?_
  · unfold InRange
    have hself : a + BitVec.ofNat 32 k - a = BitVec.ofNat 32 k := by bv_omega
    rw [hself, BitVec.toNat_ofNat]
    exact Nat.lt_of_le_of_lt (Nat.mod_le _ _) (Nat.lt_succ_of_le hk)
  · unfold InRange at hin ⊢
    dsimp only at hin
    bv_omega

theorem fPrintf_records (hS : S.Records keeps) (hformat : site.Reads format cs)
    (hcs : complete cs = true) (hargs : args.length ≤ 3) {s : σ} (h : keeps s ds) :
    ∃ least s', keeps s' (ds ++ (site.call format args).texts 0 (pieces cs)) ∧
      ∀ fuel, least ≤ fuel → site.fPrintf S fuel s format args = some s' := by
  obtain ⟨least, st, hst, hrun⟩ := vfPrintf_records hS (hformat.call format hargs) hcs h
  refine ⟨least, st.s, hst, fun fuel hfuel => ?_⟩
  unfold fPrintf
  rw [hrun fuel hfuel]
  rfl

end PrintSite

namespace SectionTable
variable {T σ : Type} {l : SectionTable T} {names : T → Address} {site : PrintSite}
  {strings : SerializeStrings} {S : IStream σ} {keeps : σ → List (BitVec 8) → Prop}
  {nameOf : T → List (BitVec 8)}

/-- The strings of `Serialize` and the names of these sections are where they are taken from. -/
structure Printable (names : T → Address) (nameOf : T → List (BitVec 8)) (site : PrintSite)
    (strings : SerializeStrings) (vs : List T) : Prop where
  header : site.Reads strings.header headerFormat
  line : site.Reads strings.line lineFormat
  name : ∀ x ∈ vs, site.Reads (names x) (nameOf x)

theorem header_texts (e : Formatter.Call) : e.texts 0 (pieces headerFormat) = headerFormat := rfl

theorem line_texts {e : Formatter.Call} {name base last : BitVec 32} {cs : List (BitVec 8)}
    (hargs : Words e.memory e.ap [name, base, last]) (hname : Spells (textAt e.memory name) cs) :
    e.texts 0 (pieces lineFormat) = "  ".toList.map ascii ++ cs ++ " 0x".toList.map ascii ++
      numeral 16 base.toNat ++ " - 0x".toList.map ascii ++ numeral 16 last.toNat ++
        [ascii '\n'] := by
  obtain ⟨hw₀, hw₁, hw₂, -⟩ := hargs
  have hname₀ : e.word 0 = name := (congrArg (read32 e.memory) (BitVec.add_zero _)).trans hw₀
  have hbase : e.word 4 = base := hw₁
  have hlast : e.word 8 = last := by
    rw [← hw₂, BitVec.add_assoc]
    rfl
  have hstring : Spells (e.string 0) cs := by
    unfold Call.string
    rw [hname₀]
    exact hname
  have hpieces : pieces lineFormat = [.literal (ascii ' '), .literal (ascii ' '),
      .conversion (ascii 's'), .literal (ascii ' '), .conversion (ascii 'x'),
      .literal (ascii ' '), .literal (ascii '-'), .literal (ascii ' '),
      .conversion (ascii 'x'), .literal (ascii '\n')] := by decide
  have htexts : e.texts 0 (pieces lineFormat) = ascii ' ' :: ascii ' ' ::
      (e.text 0 (.conversion (ascii 's')) ++ ascii ' ' :: (e.text 4 (.conversion (ascii 'x')) ++
        ascii ' ' :: ascii '-' :: ascii ' ' :: (e.text 8 (.conversion (ascii 'x')) ++
          [ascii '\n']))) := by
    rw [hpieces]
    rfl
  rw [htexts, Call.text_string hstring, Call.text_hex, Call.text_hex, hbase, hlast]
  simp [ascii]

theorem serializeLine_records (hS : S.Records keeps) (hline : site.Reads strings.line lineFormat)
    {x : T} (hname : site.Reads (names x) (nameOf x)) {s : σ} {ds : List (BitVec 8)}
    (h : keeps s ds) :
    ∃ least s', keeps s' (ds ++ lineOf (l.sections x) (nameOf x)) ∧
      ∀ fuel, least ≤ fuel → l.serializeLine names site strings S fuel s x = some s' := by
  have hthree : [names x, (l.sections x).base, (l.sections x).base +
    (l.sections x).length].length ≤ 3 := Nat.le_refl 3
  obtain ⟨least, s', hs', hrun⟩ := PrintSite.fPrintf_records hS hline (by decide) hthree h
  refine ⟨least, s', ?_, hrun⟩
  rw [line_texts (site.call_words _ hthree) (hname.call _ hthree)] at hs'
  exact hs'

theorem serializeLines_records (hS : S.Records keeps) (hline : site.Reads strings.line lineFormat)
    (vs : List T) (hnames : ∀ x ∈ vs, site.Reads (names x) (nameOf x)) {s : σ}
    {ds : List (BitVec 8)} (h : keeps s ds) :
    ∃ least s', keeps s' (ds ++ vs.flatMap fun x => lineOf (l.sections x) (nameOf x)) ∧
      ∀ fuel, least ≤ fuel → vs.foldlM (l.serializeLine names site strings S fuel) s = some s' := by
  induction vs generalizing s ds with
  | nil =>
    refine ⟨0, s, ?_, fun _ _ => rfl⟩
    rw [List.flatMap_nil, List.append_nil]
    exact h
  | cons x vs ih =>
    obtain ⟨l₁, mid, hmid, hone⟩ :=
      serializeLine_records (l := l) hS hline (hnames x List.mem_cons_self) h
    obtain ⟨l₂, s', hs', hrest⟩ := ih (fun y hy => hnames y (List.mem_cons_of_mem x hy)) hmid
    refine ⟨max l₁ l₂, s', ?_, fun fuel hfuel => ?_⟩
    · rw [List.flatMap_cons, ← List.append_assoc]
      exact hs'
    · rw [List.foldlM_cons, hone fuel (le_of_max_le_left hfuel)]
      exact hrest fuel (le_of_max_le_right hfuel)

/-- `Serialize` of sections the enumerator goes over in the order `vs`. -/
theorem serialize_records (hS : S.Records keeps) {vs : List T}
    {st : IEnumerator × IEnumerator × Bool} (hvs : Yields l.enumerator l.getEnumerator vs st)
    (hp : Printable names nameOf site strings vs) {s : σ} {ds : List (BitVec 8)} (h : keeps s ds) :
    ∃ least s', keeps s'
        (ds ++ (headerFormat ++ vs.flatMap fun x => lineOf (l.sections x) (nameOf x))) ∧
      ∀ fuel, least ≤ fuel → l.serialize names site strings S fuel s = some s' := by
  have noArgs : ([] : List (BitVec 32)).length ≤ 3 := Nat.zero_le 3
  obtain ⟨l₁, mid, hmid, hheader⟩ :=
    PrintSite.fPrintf_records hS hp.header (by decide) noArgs h
  rw [header_texts] at hmid
  obtain ⟨l₂, s', hs', hlines⟩ := serializeLines_records (l := l) hS hp.line vs hp.name hmid
  refine ⟨max (max l₁ l₂) (vs.length + 1), s', ?_, fun fuel hfuel => ?_⟩
  · rw [← List.append_assoc]
    exact hs'
  · have hboth := le_of_max_le_left hfuel
    unfold serialize
    rw [hheader fuel (le_of_max_le_left hboth), Option.bind_some,
      hvs.forEach_eq _ (le_of_max_le_right hfuel)]
    exact hlines fuel (le_of_max_le_right hboth)

/-- The dump of `kmain`, on a console whose screen shows the end of `t`. -/
theorem dump_shows {ks ps : List T} (h : l.Holds ks ps)
    (hp : Printable names nameOf site strings (ks ++ ps)) {v : Vga}
    {t : Transcript Vga.Glyph 80} (hv : v.Shows t) :
    ∃ l', l.convertToLinkedList = some l' ∧
      ∃ least v', (∀ fuel, least ≤ fuel →
          l'.serialize names site strings Vga.stream fuel v = some v') ∧
        v'.Shows ((headerFormat ++ (ks ++ ps.flatMap (List.replicate (ks.length + 1))).flatMap
          fun x => lineOf (l.sections x) (nameOf x)).foldl (Vga.typed (-1)) t) := by
  obtain ⟨l', hconvert, hholds, hsections, hk, hps⟩ := h.convertToLinkedList
  have hvisited : Printable names nameOf site strings
      (ks ++ ps.flatMap (List.replicate (ks.length + 1))) := by
    refine ⟨hp.header, hp.line, fun x hx => hp.name x ?_⟩
    rcases List.mem_append.mp hx with hx | hx
    · exact List.mem_append_left _ hx
    · obtain ⟨y, hy, hxy⟩ := List.mem_flatMap.mp hx
      rw [List.eq_of_mem_replicate hxy]
      exact List.mem_append_right _ hy
  have hnone : v.Shows (([] : List (BitVec 8)).foldl (Vga.typed (-1)) t) := hv
  obtain ⟨least, v', hv', hrun⟩ := serialize_records (Vga.stream_records t)
    (enumerator_yields hholds hk hps) hvisited hnone
  rw [hsections] at hv'
  exact ⟨l', hconvert, least, v', hrun, hv'⟩

def bootName : Fin 4 → List (BitVec 8)
  | 0 => "text".toList.map ascii
  | 1 => "data".toList.map ascii
  | 2 => "heap".toList.map ascii
  | 3 => "init".toList.map ascii

/-- The strings of the dump and the names of the sections, from 0x100 on. -/
def dumpSite : PrintSite where
  memory a := (headerFormat ++ [0] ++ lineFormat ++ [0] ++
    (List.finRange 4).flatMap fun x => bootName x ++ [0]).getD (a - 0x100).toNat 0
  sp := 0x80
  stack _ _ := 0

def bootNameAt (x : Fin 4) : Address := 0x11d + BitVec.ofNat 32 (5 * x)

/-- Two sections of the kernel and two of a process. -/
def bootSections : SectionTable (Fin 4) where
  kernelSections := .array ⟨2, fun i => if i = 0 then 0 else 1⟩
  processSections := .array ⟨2, fun i => if i = 0 then 2 else 3⟩
  sections x := ⟨0, 0x100000 + BitVec.ofNat 32 (0x10000 * x), 0x2000, 0, 0, 0, 0, 0⟩

theorem bootSections_holds : bootSections.Holds [0, 1] [2, 3] := by
  refine ⟨⟨rfl, fun i hi => ?_⟩, ⟨rfl, fun i hi => ?_⟩⟩
  · match i, hi with
    | 0, _ => rfl
    | 1, _ => rfl
  · match i, hi with
    | 0, _ => rfl
    | 1, _ => rfl

theorem bootSections_printable :
    Printable bootNameAt bootName dumpSite ⟨0x100, 0x10f⟩ ([0, 1] ++ [2, 3]) where
  header := ⟨by decide, (clear_of_le (by decide) (by decide)).symm⟩
  line := ⟨by decide, (clear_of_le (by decide) (by decide)).symm⟩
  name x _ := by
    have hspells : ∀ x, Spells (textAt dumpSite.memory (bootNameAt x)) (bootName x) := by decide
    have habove : ∀ x, (dumpSite.sp - 12).toNat + 12 ≤ (bootNameAt x).toNat := by decide
    have hend : ∀ x, (bootNameAt x).toNat + ((bootName x).length + 1) ≤ 2 ^ 32 := by decide
    exact ⟨hspells x, (clear_of_le (hend x) (habove x)).symm⟩

/-- Each section of the process is printed three times, once more than there are kernel sections. -/
theorem dump_shows_boot :
    ∃ l', bootSections.convertToLinkedList = some l' ∧
      ∃ least v', (∀ fuel, least ≤ fuel → l'.serialize bootNameAt dumpSite
          ⟨0x100, 0x10f⟩ Vga.stream fuel (Vga.cleared (fun _ => 0) 0x3d4 []) = some v') ∧
        v'.Shows ((headerFormat ++ [0, 1, 2, 2, 2, 3, 3, 3].flatMap
          fun x => lineOf (bootSections.sections x) (bootName x)).foldl
            (Vga.typed (-1)) (Transcript.empty (by decide))) :=
  dump_shows bootSections_holds bootSections_printable (Vga.shows_cleared _ _ _)

end SectionTable

end Tysos
