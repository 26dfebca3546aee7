import Tysos.Boot.Parse
import Tysos.PhysMem.Init

/-!
# Inside the boot tables

The loops of `Parse` stop at the ends of the arrays, but the string table is looked up with an
index of the loader, and `Init` appends an entry to two of the arrays through addresses in the
header. A full array is appended to where the next one starts.
-/

namespace Tysos
open ByteMemory TableCopy
set_option autoImplicit false

/-- The arrays of the object, one after the other. -/
inductive BootTable where
  | mods
  | mmap
  | elf
  | elfstr
  deriving DecidableEq

/-- The size of the object. -/
def objectSize : Nat := 4300

namespace BootTable

def max : BootTable → Nat
  | mods => modMax
  | mmap => mmapMax
  | elf => elfMax
  | elfstr => elfstrMax

/-- The size of an entry. -/
def size : BootTable → Nat
  | mods => 16
  | mmap => 24
  | elf => 40
  | elfstr => 1

/-- Where the array starts in the object. -/
def offset : BootTable → Nat
  | mods => 100
  | mmap => 740
  | elf => 1700
  | elfstr => 3300

def entry (t : BootTable) (self : Address) (i : Nat) : Address :=
  self + BitVec.ofNat 32 (t.offset + t.size * i)

theorem end_le (t : BootTable) : t.offset + t.size * t.max ≤ objectSize := by
  cases t <;> decide

theorem size_pos (t : BootTable) : 0 < t.size := by
  cases t <;> decide

theorem entry_end_le (t : BootTable) {i : Nat} (hi : i < t.max) :
    t.offset + t.size * i + t.size ≤ t.offset + t.size * t.max := by
  have hle : t.size * (i + 1) ≤ t.size * t.max := Nat.mul_le_mul_left t.size hi
  rw [Nat.mul_succ] at hle
  omega

theorem entries_apart {t u : BootTable} (hne : u ≠ t) {i j : Nat} (hi : i < t.max)
    (hj : j < u.max) :
    t.offset + t.size * i + t.size ≤ u.offset + u.size * j ∨
      u.offset + u.size * j + u.size ≤ t.offset + t.size * i := by
  have hit := entry_end_le t hi
  have hju := entry_end_le u hj
  have hends : t.offset + t.size * t.max ≤ u.offset ∨ u.offset + u.size * u.max ≤ t.offset := by
    revert hne
    cases t <;> cases u <;> decide
  omega

end BootTable

theorem inRange_offset {self x : Address} {p n : Nat} (h : p + n ≤ objectSize) :
    InRange (self + BitVec.ofNat 32 p) n x ↔
      p ≤ (x - self).toNat ∧ (x - self).toNat < p + n := by
  have hsize : objectSize < 2 ^ 32 := by decide
  unfold InRange
  bv_omega

/-- The words `fields` of the entry at `a` are those of an entry of the array, or lie outside
the object. -/
def AppendsTo (t : BootTable) (self : Address) (fields : List Nat) (a : Address) : Prop :=
  (∃ i < t.max, a = t.entry self i) ∨
    ∀ o ∈ fields, Clear (a + BitVec.ofNat 32 o) 4 self objectSize

/-- No entry of another array is written. -/
def Spares (t : BootTable) (self : Address) (fields : List Nat) (a : Address) : Prop :=
  ∀ u ≠ t, ∀ j < u.max, ∀ o ∈ fields, Clear (a + BitVec.ofNat 32 o) 4 (u.entry self j) u.size

section Appends
variable {t : BootTable} {self a : Address} {fields : List Nat}

theorem entry_field (i o : Nat) : t.entry self i + BitVec.ofNat 32 o =
    self + BitVec.ofNat 32 (t.offset + t.size * i + o) := by
  unfold BootTable.entry
  rw [BitVec.add_assoc, ← BitVec.ofNat_add]

theorem AppendsTo.spares (h : AppendsTo t self fields a)
    (hfields : ∀ o ∈ fields, o + 4 ≤ t.size) : Spares t self fields a := by
  intro u hne j hj o ho x hx hentry
  have hu := Nat.le_trans (u.entry_end_le hj) u.end_le
  have hwithin := (inRange_offset hu).mp hentry
  rcases h with ⟨i, hi, rfl⟩ | hclear
  · have ht := Nat.le_trans (t.entry_end_le hi) t.end_le
    have hword := hfields o ho
    rw [entry_field, inRange_offset (by omega)] at hx
    rcases BootTable.entries_apart hne hi hj with hbefore | hafter <;> omega
  · apply hclear o ho x hx
    unfold InRange
    omega

/-- An append to the first free entry of an array that others follow needs room for it. -/
theorem appendsTo_entry_iff {n : Nat} (hn : n ≤ t.max)
    (hnext : ∃ o ∈ fields, t.offset + t.size * t.max + o < objectSize) :
    AppendsTo t self fields (t.entry self n) ↔ n < t.max := by
  constructor
  · intro h
    by_contra hfull
    obtain rfl : n = t.max := Nat.le_antisymm hn (Nat.not_lt.mp hfull)
    have hsize : objectSize < 2 ^ 32 := by decide
    rcases h with ⟨i, hi, heq⟩ | hclear
    · have hend := t.entry_end_le hi
      have hpos := t.size_pos
      have hle := t.end_le
      unfold BootTable.entry at heq
      bv_omega
    · obtain ⟨o, ho, hlt⟩ := hnext
      have hword := hclear o ho (self + BitVec.ofNat 32 (t.offset + t.size * t.max + o))
      rw [entry_field] at hword
      refine hword ?_ ?_
      · unfold InRange
        rw [BitVec.sub_self]
        decide
      · unfold InRange
        bv_omega
  · exact fun hlt => Or.inl ⟨n, hlt, rfl⟩

end Appends

/-- One entry of an array, read or written. -/
structure TableAccess where
  table : BootTable
  index : Nat
  deriving DecidableEq

def TableAccess.InTable (x : TableAccess) : Prop := x.index < x.table.max

/-- The entries written by a loop over a table from index `i` on, in less than `fuel` rounds. -/
def loopAccesses (L : Layout Address) (t : BootTable) :
    Nat → Nat → Address → Option (List TableAccess)
  | 0, _, _ => none
  | fuel + 1, i, a =>
    if L.more i a then
      if i ≥ t.max then some []
      else (loopAccesses L t fuel (i + 1) (L.next a)).map (⟨t, i⟩ :: ·)
    else some []

theorem loopAccesses_eq {α : Type} (L : Layout Address) (t : BootTable) (read : Address → α)
    {fuel i : Nat} (a : Address) (old : Nat → α) (hi : i ≤ t.max) (hfuel : t.max - i < fuel) :
    loopAccesses L t fuel i a = some ((List.range'
      i ((copy L read (t.max - i) i a old).2 - i)).map (TableAccess.mk t)) := by
  induction fuel generalizing i a old with
  | zero => exact absurd hfuel (Nat.not_lt_zero _)
  | succ fuel ih =>
    unfold loopAccesses
    cases hroom : t.max - i with
    | zero =>
      have hfull : i ≥ t.max := Nat.sub_eq_zero_iff_le.mp hroom
      rw [if_pos hfull, copy, Nat.sub_self]
      split <;> rfl
    | succ k =>
      have hlt : i < t.max := by omega
      unfold copy
      cases hmore : L.more i a with
      | false =>
        rw [if_neg Bool.false_ne_true, if_neg Bool.false_ne_true, Nat.sub_self]
        rfl
      | true =>
        have hrest := ih (L.next a) (fun j => if j = i then read a else old j) hlt (by omega)
        have hk : t.max - (i + 1) = k := by omega
        rw [hk] at hrest
        have hcount := count_le (L := L) read k (i + 1) (L.next a)
          fun j => if j = i then read a else old j
        rw [if_pos rfl, if_pos rfl, if_neg (Nat.not_le.mpr hlt), hrest, Option.map_some]
        generalize (copy L read k (i + 1) (L.next a) _).2 = n at hcount ⊢
        have hsplit : n - i = n - (i + 1) + 1 := by omega
        rw [hsplit, List.range'_succ, List.map_cons]

theorem loopAccesses_inTable (L : Layout Address) {t : BootTable} {fuel : Nat} (a : Address)
    (hfuel : t.max < fuel) :
    ∃ log, loopAccesses L t fuel 0 a = some log ∧ ∀ x ∈ log, x.InTable := by
  refine ⟨_, loopAccesses_eq L t (fun _ => ()) a (fun _ => ()) (Nat.zero_le _)
    (Nat.lt_of_le_of_lt (Nat.sub_le _ _) hfuel), ?_⟩
  intro x hx
  obtain ⟨i, hi, rfl⟩ := List.mem_map.mp hx
  have hcount := (count_le (L := L) (fun _ => ()) (t.max - 0) 0 a fun _ => ()).2
  rw [List.mem_range'_1] at hi
  change i < t.max
  omega

namespace MultibootObject

/-- The entries used for the sections and their names, up to one past the end of the array. -/
def elfAccesses (m : Memory) (self : Address) (ob : MultibootObject) (fuel : Nat) :
    Option (List TableAccess) :=
  if ob.header.has Multiboot.elfAvail then do
    let copied ← loopAccesses ob.header.elfLayout .elf fuel 0 ob.header.elfAddr
    let shndx := ob.header.elfShndx.toNat
    if shndx < elfMax then
      let s := (ob.copyElf m self).elf shndx
      let size := if s.shSize.toNat > elfstrMax then elfstrMax else s.shSize.toNat
      some (copied ++ ⟨.elf, shndx⟩ :: (List.range size).map (TableAccess.mk .elfstr))
    else some (copied ++ [⟨.elf, shndx⟩])
  else some []

def modsAccesses (h : MbHeader) (fuel : Nat) : Option (List TableAccess) :=
  if h.has Multiboot.modsAvail then loopAccesses h.modsLayout .mods fuel 0 h.modsAddr
  else some []

def mmapAccesses (m : Memory) (h : MbHeader) (fuel : Nat) : Option (List TableAccess) :=
  if h.has Multiboot.mmapAvail then loopAccesses (h.mmapLayout m) .mmap fuel 0 h.mmapAddr
  else some []

/-- The entries `Parse` reads and writes, if no loop goes on for `fuel` rounds. -/
def parseAccesses (m : Memory) (self : Address) (ob : MultibootObject) (newHeader : Address)
    (fuel : Nat) : Option (List TableAccess) := do
  let ob := { ob with header := MbHeader.read m newHeader }
  let elf ← ob.elfAccesses m self fuel
  let mods ← modsAccesses ob.header fuel
  let mmap ← mmapAccesses m ob.header fuel
  some (elf ++ mods ++ mmap)

/-- Where `Init` appends its entry to the memory map, and what it writes of it. -/
def mmapAppend (ob : MultibootObject) : Address :=
  ob.header.mmapAddr + BitVec.ofNat 32 (ob.mmapCount * BootTable.mmap.size)

def mmapFields : List Nat := [4, 12, 20]

/-- Where `Init` appends the bitmap to the sections. -/
def elfAppend (ob : MultibootObject) : Address :=
  ob.header.elfAddr + ob.header.elfNum * ob.header.elfSize

def elfFields : List Nat := [12, 20, 0]

/-- `Init` appends behind the entries there are. -/
theorem mmapAppend_eq (ob : MultibootObject) : ob.mmapAppend =
    ob.tables.mmapAddr + BitVec.ofNat 32 (ob.tables.mmap.length * BootTable.mmap.size) := by
  unfold mmapAppend tables entries
  rw [List.length_map, List.length_range]

theorem elfAppend_eq (ob : MultibootObject) : ob.elfAppend =
    ob.tables.elfAddr + BitVec.ofNat 32 ob.tables.elf.length * ob.header.elfSize := by
  unfold elfAppend tables sections entries
  rw [List.length_map, List.length_map, List.length_range, BitVec.ofNat_toNat,
    BitVec.setWidth_eq]

/-- Without a memory map the entry is written where it is appended, and nothing else. -/
theorem reserveLow_writes {mb : Multiboot} {m : Memory} (hflag : mb.has Multiboot.mmapAvail = false)
    {x : Address} (hx : ∀ o ∈ mmapFields, ¬ InRange (mb.mmapAddr + BitVec.ofNat 32 o) 4 x) :
    (mb.reserveLow m).2 x = m x := by
  unfold Multiboot.reserveLow
  rw [hflag, if_neg Bool.false_ne_true]
  have hbase := write32_of_not_inRange (m := m) (v := 0) (hx 4 (by decide))
  exact (write32_of_not_inRange (hx 20 (by decide))).trans
    ((write32_of_not_inRange (hx 12 (by decide))).trans hbase)

theorem reserveBitmap_writes {mb : Multiboot} {m : Memory}
    (hflag : mb.has Multiboot.elfAvail = false) (bitmap : Address) {x : Address}
    (hx : ∀ o ∈ elfFields, ¬ InRange (mb.elfAddr + BitVec.ofNat 32 o) 4 x) :
    (mb.reserveBitmap m bitmap).2 x = m x := by
  unfold Multiboot.reserveBitmap
  rw [hflag, if_neg Bool.false_ne_true]
  have hname := hx 0 (by decide)
  rw [BitVec.add_zero] at hname
  have haddr := write32_of_not_inRange (m := m) (v := bitmap) (hx 12 (by decide))
  exact (write32_of_not_inRange hname).trans
    ((write32_of_not_inRange (hx 20 (by decide))).trans haddr)

/-- `Parse` ends and keeps to the arrays, and so do the appends of `Init` after it. -/
structure StaysInTables (m : Memory) (home : Address) (ob : MultibootObject)
    (newHeader : Address) (ob' : MultibootObject) : Prop where
  parsed : ob.parse m home newHeader = some ob'
  parse : ∃ fuel log, ob.parseAccesses m home newHeader fuel = some log ∧ ∀ x ∈ log, x.InTable
  mmap : AppendsTo .mmap home mmapFields ob'.mmapAppend
  mmapSpares : Spares .mmap home mmapFields ob'.mmapAppend
  elf : PhysMemAllocator.bitmapPlace ob'.tables m ≠ 0 →
    AppendsTo .elf home elfFields ob'.elfAppend ∧ Spares .elf home elfFields ob'.elfAppend

end MultibootObject

namespace MbHeader
open MultibootObject

/-- The tables as `Parse` leaves them. -/
def recorded (m : Memory) (self : Address) (h : MbHeader) (es : List MbMmap) : Multiboot where
  flags := h.flags
  memUpper := h.memUpper
  mmapAddr := if h.has Multiboot.mmapAvail then mmapAt self else h.mmapAddr
  elfAddr := if h.has Multiboot.elfAvail then elfAt self else h.elfAddr
  mmap := es.take mmapMax
  elf := (((h.elfTable m).take elfMax).modify h.elfShndx.toNat
    fun s => { s with shAddr := elfstrAt self }).map Elf32Shdr.toElfShdr
  mods := (h.modsTable m).take modMax

/-- The string table is one of the sections there is room for, and the memory map leaves room for
one more entry, as do the sections if one is appended. A table the header does not have is
appended to where the address of the loader points. -/
structure LeavesRoom (m : Memory) (home : Address) (h : MbHeader) (es : List MbMmap) : Prop where
  strings : h.has Multiboot.elfAvail = true → h.elfShndx.toNat < elfMax
  map : h.MmapTable m es
  mmap : es.length < mmapMax
  mmapAddr : h.has Multiboot.mmapAvail = false → AppendsTo .mmap home mmapFields h.mmapAddr
  elf : PhysMemAllocator.bitmapPlace (h.recorded m home es) m ≠ 0 →
    if h.has Multiboot.elfAvail then h.elfNum.toNat < elfMax
    else AppendsTo .elf home elfFields h.elfAddr

end MbHeader

namespace MultibootObject

theorem elfAccesses_inTable (m : Memory) (self : Address) (ob : MultibootObject) {fuel : Nat}
    (hfuel : elfMax < fuel)
    (hstr : ob.header.has Multiboot.elfAvail = true → ob.header.elfShndx.toNat < elfMax) :
    ∃ log, ob.elfAccesses m self fuel = some log ∧ ∀ x ∈ log, x.InTable := by
  unfold elfAccesses
  by_cases hflag : ob.header.has Multiboot.elfAvail = true
  · obtain ⟨copied, hloop, hcopied⟩ :=
      loopAccesses_inTable (t := .elf) ob.header.elfLayout ob.header.elfAddr hfuel
    rw [if_pos hflag, hloop]
    dsimp only [Option.bind_eq_bind, Option.bind_some]
    rw [if_pos (hstr hflag)]
    refine ⟨_, rfl, fun x hx => ?_⟩
    rcases List.mem_append.mp hx with hx | hx
    · exact hcopied x hx
    · rcases List.mem_cons.mp hx with rfl | hx
      · exact hstr hflag
      · obtain ⟨i, hi, rfl⟩ := List.mem_map.mp hx
        have hlt := List.mem_range.mp hi
        change i < elfstrMax
        split at hlt <;> omega
  · rw [if_neg hflag]
    exact ⟨[], rfl, fun x hx => absurd hx List.not_mem_nil⟩

theorem modsAccesses_inTable (h : MbHeader) {fuel : Nat} (hfuel : modMax < fuel) :
    ∃ log, modsAccesses h fuel = some log ∧ ∀ x ∈ log, x.InTable := by
  unfold modsAccesses
  split
  · exact loopAccesses_inTable h.modsLayout h.modsAddr hfuel
  · exact ⟨[], rfl, fun x hx => absurd hx List.not_mem_nil⟩

theorem mmapAccesses_inTable (m : Memory) (h : MbHeader) {fuel : Nat} (hfuel : mmapMax < fuel) :
    ∃ log, mmapAccesses m h fuel = some log ∧ ∀ x ∈ log, x.InTable := by
  unfold mmapAccesses
  split
  · exact loopAccesses_inTable (h.mmapLayout m) h.mmapAddr hfuel
  · exact ⟨[], rfl, fun x hx => absurd hx List.not_mem_nil⟩

/-- With the string table among the sections there is room for, `Parse` keeps to the arrays. -/
theorem parseAccesses_inTable {m : Memory} (self : Address) (ob : MultibootObject)
    {newHeader : Address} (hstr : (MbHeader.read m newHeader).has Multiboot.elfAvail = true →
      (MbHeader.read m newHeader).elfShndx.toNat < elfMax) :
    ∃ fuel log, ob.parseAccesses m self newHeader fuel = some log ∧ ∀ x ∈ log, x.InTable := by
  have hfuel : 40 < 41 := Nat.lt_succ_self 40
  obtain ⟨elf, helf, hinElf⟩ := elfAccesses_inTable m self
    { ob with header := MbHeader.read m newHeader } hfuel hstr
  obtain ⟨mods, hmods, hinMods⟩ := modsAccesses_inTable (MbHeader.read m newHeader) hfuel
  obtain ⟨mmap, hmmap, hinMmap⟩ := mmapAccesses_inTable m (MbHeader.read m newHeader) hfuel
  refine ⟨41, elf ++ mods ++ mmap, ?_, ?_⟩
  · unfold parseAccesses
    dsimp only
    rw [helf, hmods, hmmap]
    rfl
  · intro x hx
    rcases List.mem_append.mp hx with hx | hx
    · exact (List.mem_append.mp hx).elim (hinElf x) (hinMods x)
    · exact hinMmap x hx

section Stages
variable {m : Memory} {self : Address} {ob : MultibootObject}

theorem parseMods_header : ∃ count addr, (ob.parseMods m self).header =
    { ob.header with modsCount := count, modsAddr := addr } := by
  unfold parseMods
  split
  · exact ⟨_, _, rfl⟩
  · exact ⟨_, _, rfl⟩

theorem parseMmap_header : (ob.parseMmap m self).header =
    { ob.header with
      mmapAddr := if ob.header.has Multiboot.mmapAvail then mmapAt self
        else ob.header.mmapAddr } := by
  unfold parseMmap
  split
  · rw [copyMmap]
  · rfl

/-- There is room for another entry if the walk over the memory map comes to its end before. -/
theorem parseMmap_appendsTo_iff (hflag : ob.header.has Multiboot.mmapAvail = true) :
    AppendsTo .mmap self mmapFields (ob.parseMmap m self).mmapAppend ↔
      ∃ as, Walk (ob.header.mmapLayout m) 0 ob.header.mmapAddr as ∧ as.length < mmapMax := by
  have hcount := (count_le (L := ob.header.mmapLayout m) (readMmap m) mmapMax 0
    ob.header.mmapAddr ob.mmap).2
  have happend : (ob.parseMmap m self).mmapAppend = BootTable.mmap.entry self
      (copy (ob.header.mmapLayout m) (readMmap m) mmapMax 0 ob.header.mmapAddr ob.mmap).2 := by
    unfold mmapAppend
    rw [parseMmap_header]
    unfold parseMmap copyMmap BootTable.entry mmapAt
    dsimp only
    rw [if_pos hflag, if_pos hflag, BitVec.ofNat_add, Nat.mul_comm, BitVec.add_assoc]
    rfl
  rw [Nat.zero_add] at hcount
  rw [happend, appendsTo_entry_iff hcount (by decide),
    ← count_lt_iff (readMmap m) mmapMax (t := ob.mmap), Nat.zero_add]
  rfl

theorem parseElf_eq_none (hflag : ob.header.has Multiboot.elfAvail = true)
    (hstr : ¬ ob.header.elfShndx.toNat < elfMax) : ob.parseElf m self = none := by
  unfold parseElf
  rw [if_pos hflag]
  exact if_neg hstr

/-- The number of sections is that of the loader, as far as there is room. -/
theorem parseElf_header {ob' : MultibootObject} (h : ob.parseElf m self = some ob') :
    ∃ num size, ob'.header =
      { ob.header with
        elfNum := num
        elfSize := size
        elfAddr := if ob.header.has Multiboot.elfAvail then elfAt self
          else ob.header.elfAddr } ∧
      ob'.elfAppend = if ob.header.has Multiboot.elfAvail then
        BootTable.elf.entry self (min elfMax ob.header.elfNum.toNat) else ob.header.elfAddr := by
  have hwalk : Walk ob.header.elfLayout 0 ob.header.elfAddr _ :=
    walk_counted (Nat.zero_add _) ob.header.elfAddr
  have hcount := (copy_walk (readShdr m) elfMax ob.elf hwalk).1
  rw [length_places, Nat.zero_add] at hcount
  unfold parseElf at h
  by_cases hflag : ob.header.has Multiboot.elfAvail = true
  · rw [if_pos hflag] at h ⊢
    unfold copyStrings at h
    dsimp only at h
    split at h
    · obtain rfl := Option.some.inj h
      refine ⟨_, _, rfl, ?_⟩
      unfold elfAppend copyElf BootTable.entry elfAt
      dsimp only
      rw [hcount, if_pos hflag, BitVec.ofNat_add, BitVec.ofNat_mul, BitVec.mul_comm,
        ← BitVec.add_assoc]
      rfl
    · cases h
  · rw [if_neg hflag] at h ⊢
    obtain rfl := Option.some.inj h
    refine ⟨0, _, rfl, ?_⟩
    unfold elfAppend
    dsimp only
    rw [if_neg hflag]
    simp

end Stages

section Parsed
variable {m : Memory} {self newHeader : Address} {ob ob' : MultibootObject}
  (hparse : ob.parse m self newHeader = some ob')
include hparse

theorem parse_stages : ∃ ob₁,
    { ob with header := MbHeader.read m newHeader }.parseElf m self = some ob₁ ∧
      ob' = (ob₁.parseMods m self).parseMmap m self := by
  obtain ⟨ob₁, helf, hrest⟩ := Option.bind_eq_some_iff.mp hparse
  exact ⟨ob₁, helf, (Option.some.inj hrest).symm⟩

theorem parse_strings (hflag : (MbHeader.read m newHeader).has Multiboot.elfAvail = true) :
    (MbHeader.read m newHeader).elfShndx.toNat < elfMax := by
  obtain ⟨ob₁, helf, -⟩ := parse_stages hparse
  by_contra hstr
  have hnone : { ob with header := MbHeader.read m newHeader }.parseElf m self = none :=
    parseElf_eq_none hflag hstr
  rw [hnone] at helf
  cases helf

/-- Before the memory map is copied the header is the loader's but for sections and modules. -/
theorem parse_before_mmap : ∃ ob₂ num size count addr, ob' = parseMmap m self ob₂ ∧ ob₂.header =
    { MbHeader.read m newHeader with
      elfNum := num
      elfSize := size
      elfAddr := if (MbHeader.read m newHeader).has Multiboot.elfAvail then elfAt self
        else (MbHeader.read m newHeader).elfAddr
      modsCount := count
      modsAddr := addr } := by
  obtain ⟨ob₁, helf, rfl⟩ := parse_stages hparse
  obtain ⟨num, size, hheader, -⟩ := parseElf_header helf
  obtain ⟨count, addr, hmods⟩ : ∃ count addr, (ob₁.parseMods m self).header =
    { ob₁.header with modsCount := count, modsAddr := addr } := parseMods_header
  refine ⟨_, num, size, count, addr, rfl, ?_⟩
  rw [hmods, hheader]

/-- The header as `Parse` leaves it; the numbers of sections and modules are not spelled out. -/
theorem parse_header : ∃ num size count addr, ob'.header =
    { MbHeader.read m newHeader with
      elfNum := num
      elfSize := size
      elfAddr := if (MbHeader.read m newHeader).has Multiboot.elfAvail then elfAt self
        else (MbHeader.read m newHeader).elfAddr
      modsCount := count
      modsAddr := addr
      mmapAddr := if (MbHeader.read m newHeader).has Multiboot.mmapAvail then mmapAt self
        else (MbHeader.read m newHeader).mmapAddr } := by
  obtain ⟨ob₂, num, size, count, addr, rfl, hheader⟩ := parse_before_mmap hparse
  refine ⟨num, size, count, addr, ?_⟩
  rw [parseMmap_header, hheader]
  rfl

/-- What `CheckRange` and `FindRange` are asked about after `Parse`. -/
theorem parse_tables {es : List MbMmap} (hmap : (MbHeader.read m newHeader).MmapTable m es) :
    ob'.tables = (MbHeader.read m newHeader).recorded m self es := by
  obtain ⟨ob₂, hparse₂, -, hrec⟩ := parse_records_capped self ob hmap (parse_strings hparse)
  obtain rfl : ob' = ob₂ := Option.some.inj (hparse.symm.trans hparse₂)
  obtain ⟨num, size, count, addr, hheader⟩ := parse_header hparse
  have hmmap := hrec.mmap
  have hmods := hrec.mods
  have helf := hrec.elf
  unfold tables at hmmap hmods ⊢
  dsimp only at hmmap hmods
  unfold MbHeader.recorded
  rw [hmmap, hmods, helf, hheader]
  rfl

theorem parse_mmapAppend_of_has
    (hflag : (MbHeader.read m newHeader).has Multiboot.mmapAvail = true) :
    AppendsTo .mmap self mmapFields ob'.mmapAppend ↔
      ∃ as, Walk ((MbHeader.read m newHeader).mmapLayout m) 0
        (MbHeader.read m newHeader).mmapAddr as ∧ as.length < mmapMax := by
  obtain ⟨ob₂, num, size, count, addr, rfl, hheader⟩ := parse_before_mmap hparse
  have hiff := @parseMmap_appendsTo_iff m self ob₂
  rw [hheader] at hiff
  exact hiff hflag

theorem parse_mmapAppend_of_not
    (hflag : (MbHeader.read m newHeader).has Multiboot.mmapAvail = false) :
    ob'.mmapAppend = (MbHeader.read m newHeader).mmapAddr := by
  rw [mmapAppend_eq, parse_tables hparse (MbHeader.mmapTable_nil hflag)]
  unfold MbHeader.recorded
  dsimp only
  rw [hflag, if_neg Bool.false_ne_true, List.take_nil, List.length_nil, Nat.zero_mul,
    BitVec.add_zero]

theorem parse_mmapAppend_iff : AppendsTo .mmap self mmapFields ob'.mmapAppend ↔
    ∃ es, (MbHeader.read m newHeader).MmapTable m es ∧ es.length < mmapMax ∧
      ((MbHeader.read m newHeader).has Multiboot.mmapAvail = false →
        AppendsTo .mmap self mmapFields (MbHeader.read m newHeader).mmapAddr) := by
  cases hflag : (MbHeader.read m newHeader).has Multiboot.mmapAvail with
  | true =>
    rw [parse_mmapAppend_of_has hparse hflag]
    constructor
    · intro h
      obtain ⟨as, hwalk, hlen⟩ := h
      refine ⟨as.map (readMmap m), (MbHeader.mmapTable_iff hflag).mpr ⟨as, hwalk, rfl⟩, ?_,
        fun hfalse => by cases hfalse⟩
      rwa [List.length_map]
    · intro h
      obtain ⟨es, hmap, hlen, -⟩ := h
      obtain ⟨as, hwalk, rfl⟩ := (MbHeader.mmapTable_iff hflag).mp hmap
      rw [List.length_map] at hlen
      exact ⟨as, hwalk, hlen⟩
  | false =>
    rw [parse_mmapAppend_of_not hparse hflag]
    constructor
    · exact fun h => ⟨[], MbHeader.mmapTable_nil hflag, by decide, fun _ => h⟩
    · intro h
      obtain ⟨es, -, -, haddr⟩ := h
      exact haddr rfl

theorem parse_elfAppend :
    ob'.elfAppend = if (MbHeader.read m newHeader).has Multiboot.elfAvail then
      BootTable.elf.entry self (min elfMax (MbHeader.read m newHeader).elfNum.toNat)
    else (MbHeader.read m newHeader).elfAddr := by
  obtain ⟨ob₁, helf, rfl⟩ := parse_stages hparse
  obtain ⟨num, size, hheader, happend⟩ := parseElf_header helf
  obtain ⟨count, addr, hmods⟩ : ∃ count addr, (ob₁.parseMods m self).header =
    { ob₁.header with modsCount := count, modsAddr := addr } := parseMods_header
  have hkept : ((ob₁.parseMods m self).parseMmap m self).elfAppend = ob₁.elfAppend := by
    unfold elfAppend
    rw [parseMmap_header, hmods]
  exact hkept.trans happend

theorem parse_elfAppend_iff : AppendsTo .elf self elfFields ob'.elfAppend ↔
    if (MbHeader.read m newHeader).has Multiboot.elfAvail then
      (MbHeader.read m newHeader).elfNum.toNat < elfMax
    else AppendsTo .elf self elfFields (MbHeader.read m newHeader).elfAddr := by
  rw [parse_elfAppend hparse]
  cases (MbHeader.read m newHeader).has Multiboot.elfAvail with
  | true =>
    rw [if_pos rfl, if_pos rfl]
    generalize (MbHeader.read m newHeader).elfNum.toNat = n
    have hroom : AppendsTo .elf self elfFields (BootTable.elf.entry self (min elfMax n)) ↔
        min elfMax n < elfMax := appendsTo_entry_iff (Nat.min_le_left _ _) (by decide)
    rw [hroom]
    omega
  | false => exact Iff.rfl

end Parsed

/-- The arrays are kept to exactly when the header leaves room in them. -/
theorem parse_staysInTables_iff (m : Memory) (self newHeader : Address) (ob : MultibootObject) :
    (∃ ob', StaysInTables m self ob newHeader ob') ↔
      ∃ es, (MbHeader.read m newHeader).LeavesRoom m self es := by
  constructor
  · intro h
    obtain ⟨ob', h⟩ := h
    obtain ⟨es, hmap, hlen, haddr⟩ := (parse_mmapAppend_iff h.parsed).mp h.mmap
    refine ⟨es, parse_strings h.parsed, hmap, hlen, haddr, fun hplace => ?_⟩
    rw [← parse_tables h.parsed hmap] at hplace
    exact (parse_elfAppend_iff h.parsed).mp (h.elf hplace).1
  · intro h
    obtain ⟨es, h⟩ := h
    obtain ⟨ob', hparse, -⟩ := parse_records_capped self ob h.map h.strings
    have hmmap : AppendsTo .mmap self mmapFields ob'.mmapAppend :=
      (parse_mmapAppend_iff hparse).mpr ⟨es, h.map, h.mmap, h.mmapAddr⟩
    refine ⟨ob', hparse, parseAccesses_inTable self ob h.strings, hmmap,
      hmmap.spares (by decide), fun hplace => ?_⟩
    rw [parse_tables hparse h.map] at hplace
    have helf := (parse_elfAppend_iff hparse).mpr (h.elf hplace)
    exact ⟨helf, helf.spares (by decide)⟩

/-- A header at 0 with a memory map of 40 entries from 64 on, and nothing else. -/
def fullMap : Memory := fun a =>
  if a = 0 then 0x40 else if a = 44 then 0xC0 else if a = 45 then 3 else if a = 48 then 64 else
  if 64 ≤ a.toNat ∧ (a.toNat - 64) % 24 = 0 then 20 else 0

theorem fullMap_count : (copy ((MbHeader.read fullMap 0).mmapLayout fullMap) (readMmap fullMap)
    mmapMax 0 (MbHeader.read fullMap 0).mmapAddr emptyObject.mmap).2 = 40 := by
  decide +kernel

/-- The entry appended to the full memory map is written over the first section. -/
theorem fullMap_append_outside : ¬ ∀ (m : Memory) (self newHeader : Address)
    (ob : MultibootObject), ∃ ob', StaysInTables m self ob newHeader ob' := by
  intro h
  obtain ⟨ob', hstays⟩ := h fullMap 0x100000 0 emptyObject
  obtain ⟨es, hmap, hlen, -⟩ := (parse_mmapAppend_iff hstays.parsed).mp hstays.mmap
  have hflag : (MbHeader.read fullMap 0).has Multiboot.mmapAvail = true := by decide
  obtain ⟨as, hwalk, rfl⟩ := (MbHeader.mmapTable_iff hflag).mp hmap
  rw [List.length_map] at hlen
  have hcount := (count_lt_iff (readMmap fullMap) mmapMax (t := emptyObject.mmap)).mpr
    ⟨as, hwalk, hlen⟩
  rw [fullMap_count] at hcount
  exact absurd hcount (by decide)

end MultibootObject
end Tysos
