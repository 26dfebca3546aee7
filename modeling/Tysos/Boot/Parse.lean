import Tysos.Boot.CheckRange
import Tysos.Support.TableCopy
import Mathlib.Data.List.TakeWhile

/-!
# Parsing the multiboot header

`Multiboot::Parse` copies the header and the tables it refers to into the object. The object
lies apart from the memory of the loader, and its arrays have room for 40 entries and 1000
bytes of names; what does not fit is left behind.
-/

namespace Tysos
open ByteMemory TableCopy
set_option autoImplicit false

structure MbHeader where
  flags : BitVec 32
  memUpper : BitVec 32
  modsCount : BitVec 32
  modsAddr : BitVec 32
  elfNum : BitVec 32
  elfSize : BitVec 32
  elfAddr : BitVec 32
  elfShndx : BitVec 32
  mmapLength : BitVec 32
  mmapAddr : BitVec 32

/-- A section header with the offset of its name. -/
structure Elf32Shdr extends ElfShdr where
  shName : BitVec 32
  deriving DecidableEq

namespace MbHeader

def has (h : MbHeader) (flag : BitVec 32) : Bool := h.flags &&& flag ≠ 0

def read (m : Memory) (a : Address) : MbHeader where
  flags := read32 m a
  memUpper := read32 m (a + 8)
  modsCount := read32 m (a + 20)
  modsAddr := read32 m (a + 24)
  elfNum := read32 m (a + 28)
  elfSize := read32 m (a + 32)
  elfAddr := read32 m (a + 36)
  elfShndx := read32 m (a + 40)
  mmapLength := read32 m (a + 44)
  mmapAddr := read32 m (a + 48)

end MbHeader

def readShdr (m : Memory) (a : Address) : Elf32Shdr :=
  ⟨⟨read32 m (a + 12), read32 m (a + 20)⟩, read32 m a⟩

def readMod (m : Memory) (a : Address) : MbMod := ⟨read32 m a, read32 m (a + 4)⟩

/-- The size of the entry, its first word, is not kept. -/
def readMmap (m : Memory) (a : Address) : MbMmap :=
  ⟨read32 m (a + 4), read32 m (a + 8), read32 m (a + 12), read32 m (a + 16), read32 m (a + 20)⟩

/-- The object; the arrays are used up to index 40 and the names up to 1000. -/
structure MultibootObject where
  header : MbHeader
  mmapCount : Nat
  mods : Nat → MbMod
  mmap : Nat → MbMmap
  elf : Nat → Elf32Shdr
  elfstr : Nat → BitVec 8

def modMax : Nat := 40
def mmapMax : Nat := 40
def elfMax : Nat := 40
def elfstrMax : Nat := 1000

namespace MbHeader

def elfLayout (h : MbHeader) : Layout Address := counted h.elfNum.toNat fun a => a + h.elfSize

def modsLayout (h : MbHeader) : Layout Address := counted h.modsCount.toNat fun a => a + 16

/-- Each entry of the memory map is preceded by its size, which does not count itself. -/
def mmapLayout (m : Memory) (h : MbHeader) : Layout Address where
  more := fun _ a => a < h.mmapAddr + h.mmapLength
  next := fun a => a + (read32 m a + 4)

end MbHeader

namespace MultibootObject

/-- Where the arrays are in the object at `self`. -/
def modsAt (self : Address) : Address := self + 100
def mmapAt (self : Address) : Address := self + 740
def elfAt (self : Address) : Address := self + 1700
def elfstrAt (self : Address) : Address := self + 3300

def copyElf (m : Memory) (self : Address) (ob : MultibootObject) : MultibootObject :=
  let copied := copy ob.header.elfLayout (readShdr m) elfMax 0 ob.header.elfAddr ob.elf
  { ob with
    elf := copied.1
    header.elfSize := 40
    header.elfAddr := elfAt self
    header.elfNum := BitVec.ofNat 32 copied.2 }

/-- `none` is a write past the end of the array. -/
def copyStrings (m : Memory) (self : Address) (ob : MultibootObject) : Option MultibootObject :=
  let shndx := ob.header.elfShndx.toNat
  if shndx < elfMax then
    let s := ob.elf shndx
    let size := if s.shSize.toNat > elfstrMax then elfstrMax else s.shSize.toNat
    some { ob with
      elfstr := fun i => if i < size then m (s.shAddr + BitVec.ofNat 32 i) else ob.elfstr i
      elf := fun i => if i = shndx then { s with shAddr := elfstrAt self } else ob.elf i }
  else none

def copyMods (m : Memory) (self : Address) (ob : MultibootObject) : MultibootObject :=
  let copied := copy ob.header.modsLayout (readMod m) modMax 0 ob.header.modsAddr ob.mods
  { ob with
    mods := copied.1
    header.modsAddr := modsAt self
    header.modsCount := BitVec.ofNat 32 copied.2 }

def copyMmap (m : Memory) (self : Address) (ob : MultibootObject) : MultibootObject :=
  let copied := copy (ob.header.mmapLayout m) (readMmap m) mmapMax 0 ob.header.mmapAddr ob.mmap
  { ob with
    mmap := copied.1
    mmapCount := copied.2
    header.mmapAddr := mmapAt self }

def parseElf (m : Memory) (self : Address) (ob : MultibootObject) : Option MultibootObject :=
  if ob.header.has Multiboot.elfAvail then (ob.copyElf m self).copyStrings m self
  else some { ob with header.elfNum := 0 }

def parseMods (m : Memory) (self : Address) (ob : MultibootObject) : MultibootObject :=
  if ob.header.has Multiboot.modsAvail then ob.copyMods m self
  else { ob with header.modsCount := 0 }

def parseMmap (m : Memory) (self : Address) (ob : MultibootObject) : MultibootObject :=
  if ob.header.has Multiboot.mmapAvail then ob.copyMmap m self
  else { ob with mmapCount := 0 }

def parse (m : Memory) (self : Address) (ob : MultibootObject) (newHeader : Address) :
    Option MultibootObject := do
  let ob ← { ob with header := MbHeader.read m newHeader }.parseElf m self
  some ((ob.parseMods m self).parseMmap m self)

/-- The section headers in use. -/
def sections (ob : MultibootObject) : List Elf32Shdr := entries ob.elf ob.header.elfNum.toNat

/-- The tables as `CheckRange` and `FindRange` read them. -/
def tables (ob : MultibootObject) : Multiboot where
  flags := ob.header.flags
  memUpper := ob.header.memUpper
  mmapAddr := ob.header.mmapAddr
  elfAddr := ob.header.elfAddr
  mmap := entries ob.mmap ob.mmapCount
  elf := ob.sections.map Elf32Shdr.toElfShdr
  mods := entries ob.mods ob.header.modsCount.toNat

end MultibootObject

/-- The tables a header refers to, each read to its end. -/
structure LoaderTables where
  mmap : List MbMmap
  mods : List MbMod
  elf : List Elf32Shdr
  shndx : Nat
  strings : List (BitVec 8)

namespace LoaderTables

/-- What there is room for. -/
def capped (T : LoaderTables) : LoaderTables where
  mmap := T.mmap.take mmapMax
  mods := T.mods.take modMax
  elf := T.elf.take elfMax
  shndx := T.shndx
  strings := T.strings.take elfstrMax

/-- The name at an offset of a string table, up to the byte 0 after it. -/
def nameAt (strings : List (BitVec 8)) (offset : BitVec 32) : List (BitVec 8) :=
  (strings.drop offset.toNat).takeWhile (· ≠ 0)

/-- There is room for everything. -/
structure Fits (T : LoaderTables) : Prop where
  mmap : T.mmap.length ≤ mmapMax
  mods : T.mods.length ≤ modMax
  elf : T.elf.length ≤ elfMax
  strings : T.strings.length ≤ elfstrMax

theorem Fits.capped {T : LoaderTables} (h : T.Fits) : T.capped = T := by
  unfold LoaderTables.capped
  rw [List.take_of_length_le h.mmap, List.take_of_length_le h.mods,
    List.take_of_length_le h.elf, List.take_of_length_le h.strings]

/-- The object at `home` has recorded the tables. -/
structure Recorded (T : LoaderTables) (home : Address) (ob : MultibootObject) : Prop where
  mmap : ob.tables.mmap = T.mmap
  mods : ob.tables.mods = T.mods
  elf : ob.sections =
    T.elf.modify T.shndx fun s => { s with shAddr := MultibootObject.elfstrAt home }
  names : ∀ s ∈ T.elf, 0 ∈ T.strings.drop s.shName.toNat →
    nameAt (entries ob.elfstr elfstrMax) s.shName = nameAt T.strings s.shName
  passed : ∀ base length : BitVec 32, 0 < length.toNat →
    base.toNat + length.toNat ≤ 2 ^ 32 → ob.tables.checkRange base length = true →
    (∀ e ∈ T.mmap, e.type ≠ Multiboot.mmapTypeAvail → ¬ e.Truncated →
      Disjoint (span base length) e.bytes) ∧
    (∀ e ∈ T.mods, Disjoint (span base length) e.bytes) ∧
    ∀ i s, T.elf[i]? = some s → i ≠ T.shndx → s.shAddr.toNat + s.shSize.toNat ≤ 2 ^ 32 →
      Disjoint (span base length) (span s.shAddr s.shSize)

/-- A name that ends within a part of the string table is read from that part alike. -/
theorem nameAt_of_prefix {xs ys : List (BitVec 8)} {offset : BitVec 32}
    (hinit : xs <+: ys) (hend : 0 ∈ xs.drop offset.toNat) :
    nameAt ys offset = nameAt xs offset := by
  obtain ⟨rest, rfl⟩ := hinit
  have hle : offset.toNat ≤ xs.length := by
    by_contra hlt
    rw [List.drop_eq_nil_of_le (by omega)] at hend
    exact List.not_mem_nil hend
  unfold nameAt
  rw [List.drop_append_of_le_length hle, List.takeWhile_append, if_neg]
  intro hlen
  rw [← (List.takeWhile_prefix _).eq_of_length hlen] at hend
  exact absurd (List.mem_takeWhile_imp hend) (by simp)

end LoaderTables

namespace MbHeader

/-- The bytes of a string table. -/
def stringsAt (m : Memory) (s : Elf32Shdr) : List (BitVec 8) :=
  (List.range s.shSize.toNat).map fun i => m (s.shAddr + BitVec.ofNat 32 i)

def elfTable (m : Memory) (h : MbHeader) : List Elf32Shdr :=
  if h.has Multiboot.elfAvail then
    (places (fun a => a + h.elfSize) h.elfNum.toNat h.elfAddr).map (readShdr m)
  else []

def modsTable (m : Memory) (h : MbHeader) : List MbMod :=
  if h.has Multiboot.modsAvail then
    (places (fun a => a + 16) h.modsCount.toNat h.modsAddr).map (readMod m)
  else []

theorem length_elfTable_le (m : Memory) (h : MbHeader) :
    (h.elfTable m).length ≤ h.elfNum.toNat := by
  unfold elfTable
  split
  · rw [List.length_map, length_places]
  · exact Nat.zero_le _

theorem length_modsTable_le (m : Memory) (h : MbHeader) :
    (h.modsTable m).length ≤ h.modsCount.toNat := by
  unfold modsTable
  split
  · rw [List.length_map, length_places]
  · exact Nat.zero_le _

/-- The walk over the memory map comes to its end. -/
def MmapTable (m : Memory) (h : MbHeader) (es : List MbMmap) : Prop :=
  if h.has Multiboot.mmapAvail then
    ∃ as, Walk (h.mmapLayout m) 0 h.mmapAddr as ∧ es = as.map (readMmap m)
  else es = []

theorem mmapTable_iff {m : Memory} {h : MbHeader} (hflag : h.has Multiboot.mmapAvail = true)
    {es : List MbMmap} :
    h.MmapTable m es ↔ ∃ as, Walk (h.mmapLayout m) 0 h.mmapAddr as ∧ es = as.map (readMmap m) := by
  unfold MmapTable
  rw [if_pos hflag]

theorem mmapTable_nil {m : Memory} {h : MbHeader} (hflag : h.has Multiboot.mmapAvail = false) :
    h.MmapTable m [] := by
  unfold MmapTable
  rw [hflag, if_neg Bool.false_ne_true]

def stringTable (m : Memory) (h : MbHeader) : List (BitVec 8) :=
  match (h.elfTable m)[h.elfShndx.toNat]? with
  | some s => stringsAt m s
  | none => []

/-- The tables with the memory map `es`. -/
def tables (m : Memory) (h : MbHeader) (es : List MbMmap) : LoaderTables where
  mmap := es
  mods := h.modsTable m
  elf := h.elfTable m
  shndx := h.elfShndx.toNat
  strings := h.stringTable m

end MbHeader

namespace MultibootObject

section Stages
variable {m : Memory} {self : Address} {ob ob' : MultibootObject}

@[simp] theorem parseMods_flags : (ob.parseMods m self).header.flags = ob.header.flags := by
  unfold parseMods
  split <;> rfl

@[simp] theorem parseMods_elfstr : (ob.parseMods m self).elfstr = ob.elfstr := by
  unfold parseMods
  split <;> rfl

@[simp] theorem parseMods_sections : (ob.parseMods m self).sections = ob.sections := by
  unfold parseMods
  split <;> rfl

@[simp] theorem parseMods_mmapLayout :
    (ob.parseMods m self).header.mmapLayout m = ob.header.mmapLayout m := by
  unfold parseMods
  split <;> rfl

@[simp] theorem parseMods_mmapAddr :
    (ob.parseMods m self).header.mmapAddr = ob.header.mmapAddr := by
  unfold parseMods
  split <;> rfl

@[simp] theorem parseMmap_flags : (ob.parseMmap m self).header.flags = ob.header.flags := by
  unfold parseMmap
  split
  · rw [copyMmap]
  · rfl

@[simp] theorem parseMmap_elfstr : (ob.parseMmap m self).elfstr = ob.elfstr := by
  unfold parseMmap
  split
  · rw [copyMmap]
  · rfl

@[simp] theorem parseMmap_sections : (ob.parseMmap m self).sections = ob.sections := by
  unfold parseMmap
  split
  · simp only [copyMmap, sections]
  · rfl

@[simp] theorem parseMmap_mods : (ob.parseMmap m self).tables.mods = ob.tables.mods := by
  unfold parseMmap
  split
  · simp only [copyMmap, tables]
  · rfl

end Stages

theorem parseMmap_mmap {m : Memory} {self : Address} {ob : MultibootObject} {es : List MbMmap}
    (hes : ob.header.MmapTable m es) : (ob.parseMmap m self).tables.mmap = es.take mmapMax := by
  unfold MbHeader.MmapTable at hes
  unfold parseMmap
  by_cases hflag : ob.header.has Multiboot.mmapAvail
  · rw [if_pos hflag] at hes ⊢
    obtain ⟨as, hwalk, rfl⟩ := hes
    simp only [copyMmap, tables]
    exact entries_copy (readMmap m) mmapMax ob.mmap hwalk
  · rw [if_neg hflag] at hes ⊢
    rw [hes]
    rfl

theorem count_toNat {k n : Nat} (hk : k ≤ 40) :
    (BitVec.ofNat 32 (min k n)).toNat = min k n := by
  rw [BitVec.toNat_ofNat]
  omega

theorem parseMods_mods (m : Memory) (self : Address) (ob : MultibootObject) :
    (ob.parseMods m self).tables.mods = (ob.header.modsTable m).take modMax := by
  unfold parseMods MbHeader.modsTable
  by_cases hflag : ob.header.has Multiboot.modsAvail
  · rw [if_pos hflag, if_pos hflag]
    have hwalk : Walk ob.header.modsLayout 0 ob.header.modsAddr _ :=
      walk_counted (Nat.zero_add _) ob.header.modsAddr
    have hcount := (copy_walk (readMod m) modMax ob.mods hwalk).1
    rw [← entries_copy (readMod m) modMax ob.mods hwalk]
    have hmax : modMax ≤ 40 := Nat.le_refl 40
    simp only [copyMods, tables]
    rw [hcount, Nat.zero_add, count_toNat hmax]
  · rw [if_neg hflag, if_neg hflag]
    rfl

theorem copyElf_sections (m : Memory) (self : Address) {ob : MultibootObject}
    (hflag : ob.header.has Multiboot.elfAvail = true) :
    (ob.copyElf m self).sections = (ob.header.elfTable m).take elfMax := by
  have hwalk : Walk ob.header.elfLayout 0 ob.header.elfAddr _ :=
    walk_counted (Nat.zero_add _) ob.header.elfAddr
  have hcount := (copy_walk (readShdr m) elfMax ob.elf hwalk).1
  have hmax : elfMax ≤ 40 := Nat.le_refl 40
  unfold MbHeader.elfTable
  rw [if_pos hflag, ← entries_copy (readShdr m) elfMax ob.elf hwalk]
  simp only [copyElf, sections]
  rw [hcount, Nat.zero_add, count_toNat hmax]

/-- An entry of the copied table, also one past the number of sections. -/
theorem copyElf_entry (m : Memory) (self : Address) {ob : MultibootObject}
    (hflag : ob.header.has Multiboot.elfAvail = true) {i : Nat} (hi : i < elfMax)
    {s : Elf32Shdr} (hs : (ob.header.elfTable m)[i]? = some s) : (ob.copyElf m self).elf i = s := by
  have hwalk : Walk ob.header.elfLayout 0 ob.header.elfAddr _ :=
    walk_counted (Nat.zero_add _) ob.header.elfAddr
  unfold MbHeader.elfTable at hs
  rw [if_pos hflag, List.getElem?_map] at hs
  obtain ⟨a, ha, rfl⟩ := Option.map_eq_some_iff.mp hs
  have hentry := (copy_walk (readShdr m) elfMax ob.elf hwalk).2 i a hi ha
  rwa [Nat.zero_add] at hentry

theorem copied_strings_prefix (m : Memory) (s : Elf32Shdr) (old : Nat → BitVec 8) :
    (MbHeader.stringsAt m s).take elfstrMax <+: entries (fun i =>
      if i < (if s.shSize.toNat > elfstrMax then elfstrMax else s.shSize.toNat) then
        m (s.shAddr + BitVec.ofNat 32 i)
      else old i) elfstrMax := by
  rw [List.prefix_iff_getElem?]
  intro i hi
  unfold MbHeader.stringsAt at hi ⊢
  rw [List.length_take, List.length_map, List.length_range] at hi
  have hsize : i < if s.shSize.toNat > elfstrMax then elfstrMax else s.shSize.toNat := by
    split <;> omega
  rw [getElem?_entries, if_pos (by omega), if_pos hsize]
  simp

/-- The sections and names after `Parse` has copied them; the rest of the header is kept. -/
theorem parseElf_spec (m : Memory) (self : Address) (ob : MultibootObject)
    (hstr : ob.header.has Multiboot.elfAvail = true → ob.header.elfShndx.toNat < elfMax) :
    ∃ ob', ob.parseElf m self = some ob' ∧
      (∃ num size addr, ob'.header =
        { ob.header with elfNum := num, elfSize := size, elfAddr := addr }) ∧
      ob'.sections = ((ob.header.elfTable m).take elfMax).modify ob.header.elfShndx.toNat
        (fun s => { s with shAddr := elfstrAt self }) ∧
      (ob.header.stringTable m).take elfstrMax <+: entries ob'.elfstr elfstrMax := by
  unfold parseElf
  by_cases hflag : ob.header.has Multiboot.elfAvail = true
  · have hlt := hstr hflag
    have hcopied : (ob.copyElf m self).header.elfShndx.toNat < elfMax := hlt
    rw [if_pos hflag, copyStrings, if_pos hcopied]
    refine ⟨_, rfl, ⟨_, _, _, rfl⟩, ?_, ?_⟩
    · rw [← copyElf_sections m self hflag]
      exact entries_modify (ob.copyElf m self).elf _ _ fun s => { s with shAddr := elfstrAt self }
    · unfold MbHeader.stringTable
      cases hs : (ob.header.elfTable m)[ob.header.elfShndx.toNat]? with
      | none => exact List.nil_prefix
      | some s =>
        have hentry := copyElf_entry m self hflag hlt hs
        have hinit := copied_strings_prefix m s ob.elfstr
        rw [← hentry] at hinit
        rw [← hentry]
        exact hinit
  · have hnone : ob.header.elfTable m = [] := if_neg hflag
    rw [if_neg hflag]
    refine ⟨_, rfl, ⟨_, _, _, rfl⟩, ?_, ?_⟩
    · rw [hnone, List.take_nil, List.modify_nil]
      rfl
    · unfold MbHeader.stringTable
      rw [hnone]
      exact List.nil_prefix

theorem disjoint_of_checkRange {T : LoaderTables} {self : Address} {ob : MultibootObject}
    (hmap : T.mmap = [] ∨ ob.tables.has Multiboot.mmapAvail = true)
    (hmod : T.mods = [] ∨ ob.tables.has Multiboot.modsAvail = true)
    (hsec : T.elf = [] ∨ ob.tables.has Multiboot.elfAvail = true)
    (hmmap : ob.tables.mmap = T.mmap) (hmods : ob.tables.mods = T.mods)
    (helf : ob.sections = T.elf.modify T.shndx fun s => { s with shAddr := elfstrAt self })
    {base length : BitVec 32} (hpos : 0 < length.toNat)
    (hend : base.toNat + length.toNat ≤ 2 ^ 32)
    (hcheck : ob.tables.checkRange base length = true) :
    (∀ e ∈ T.mmap, e.type ≠ Multiboot.mmapTypeAvail → ¬ e.Truncated →
      Disjoint (span base length) e.bytes) ∧
    (∀ e ∈ T.mods, Disjoint (span base length) e.bytes) ∧
    ∀ i s, T.elf[i]? = some s → i ≠ T.shndx → s.shAddr.toNat + s.shSize.toNat ≤ 2 ^ 32 →
      Disjoint (span base length) (span s.shAddr s.shSize) := by
  refine ⟨?_, ?_, ?_⟩
  · intro e he htype hfull
    have hflag := hmap.resolve_left (List.ne_nil_of_mem he)
    rw [← hmmap] at he
    exact Multiboot.disjoint_mmap hpos hend hcheck hflag he htype hfull
  · intro e he
    have hflag := hmod.resolve_left (List.ne_nil_of_mem he)
    rw [← hmods] at he
    exact Multiboot.disjoint_mods hpos hend hcheck hflag he
  · intro i s hs hne hwrap
    have hflag := hsec.resolve_left (List.ne_nil_of_mem (List.mem_of_getElem? hs))
    have hkept : ob.sections[i]? = some s := by
      rw [helf, List.getElem?_modify, hs]
      simp [Ne.symm hne]
    have hmem : s.toElfShdr ∈ ob.tables.elf :=
      List.mem_map_of_mem (List.mem_of_getElem? hkept)
    exact Multiboot.disjoint_elf hpos hend hcheck hflag hmem hwrap

/-- The first 40 entries of each table and the first 1000 bytes of the names are recorded. -/
theorem parse_records_capped {m : Memory} (self : Address) (ob : MultibootObject)
    {newHeader : Address} {es : List MbMmap}
    (hmmap : (MbHeader.read m newHeader).MmapTable m es)
    (hstr : (MbHeader.read m newHeader).has Multiboot.elfAvail = true →
      (MbHeader.read m newHeader).elfShndx.toNat < elfMax) :
    ∃ ob', ob.parse m self newHeader = some ob' ∧
      ob'.header.flags = (MbHeader.read m newHeader).flags ∧
      ((MbHeader.read m newHeader).tables m es).capped.Recorded self ob' := by
  generalize hh : MbHeader.read m newHeader = h at hmmap hstr ⊢
  obtain ⟨ob₁, hparse, ⟨num, size, addr, hheader⟩, hsections, hstrings⟩ :=
    parseElf_spec m self { ob with header := h } hstr
  have hflags : ((ob₁.parseMods m self).parseMmap m self).header.flags = h.flags := by
    rw [parseMmap_flags, parseMods_flags, hheader]
  have hmap : ((ob₁.parseMods m self).parseMmap m self).tables.mmap = es.take mmapMax := by
    apply parseMmap_mmap
    unfold MbHeader.MmapTable MbHeader.has
    rw [parseMods_flags, parseMods_mmapLayout, parseMods_mmapAddr, hheader]
    exact hmmap
  have hmods : ((ob₁.parseMods m self).parseMmap m self).tables.mods =
      (h.modsTable m).take modMax := by
    rw [parseMmap_mods, parseMods_mods, hheader]
    rfl
  have helf : ((ob₁.parseMods m self).parseMmap m self).sections =
      ((h.elfTable m).take elfMax).modify h.elfShndx.toNat
        (fun s => { s with shAddr := elfstrAt self }) := by
    rw [parseMmap_sections, parseMods_sections, hsections]
  have hhas : ∀ flag, ((ob₁.parseMods m self).parseMmap m self).tables.has flag = h.has flag := by
    intro flag
    unfold Multiboot.has MbHeader.has
    rw [← hflags]
    rfl
  refine ⟨(ob₁.parseMods m self).parseMmap m self, ?_, hflags, hmap, hmods, helf, ?_, ?_⟩
  · unfold parse
    rw [hh, hparse]
    rfl
  · intro s hs hend
    rw [parseMmap_elfstr, parseMods_elfstr]
    exact LoaderTables.nameAt_of_prefix hstrings hend
  · intro base length hpos hend hcheck
    refine disjoint_of_checkRange ?_ ?_ ?_ hmap hmods helf hpos hend hcheck
    · rw [hhas]
      by_cases hflag : h.has Multiboot.mmapAvail = true
      · exact Or.inr hflag
      · have hnil : es = [] := by
          unfold MbHeader.MmapTable at hmmap
          rwa [if_neg hflag] at hmmap
        exact Or.inl (by rw [hnil]; rfl)
    · rw [hhas]
      by_cases hflag : h.has Multiboot.modsAvail = true
      · exact Or.inr hflag
      · have hnil : h.modsTable m = [] := if_neg hflag
        exact Or.inl (by simp only [LoaderTables.capped, MbHeader.tables, hnil, List.take_nil])
    · rw [hhas]
      by_cases hflag : h.has Multiboot.elfAvail = true
      · exact Or.inr hflag
      · have hnil : h.elfTable m = [] := if_neg hflag
        exact Or.inl (by simp only [LoaderTables.capped, MbHeader.tables, hnil, List.take_nil])

/-- What there is room for is recorded, and everything where everything fits. -/
theorem parse_keeps_what_fits {m : Memory} (self : Address) (ob : MultibootObject)
    {newHeader : Address} {es : List MbMmap}
    (hmmap : (MbHeader.read m newHeader).MmapTable m es)
    (hstr : (MbHeader.read m newHeader).has Multiboot.elfAvail = true →
      (MbHeader.read m newHeader).elfShndx.toNat < elfMax) :
    ∃ ob', ob.parse m self newHeader = some ob' ∧
      ((MbHeader.read m newHeader).tables m es).capped.Recorded self ob' ∧
      (((MbHeader.read m newHeader).tables m es).Fits →
        ((MbHeader.read m newHeader).tables m es).Recorded self ob') := by
  obtain ⟨ob', hparse, -, hrecorded⟩ := parse_records_capped self ob hmmap hstr
  refine ⟨ob', hparse, hrecorded, fun hfits => ?_⟩
  rwa [hfits.capped] at hrecorded

def emptyObject : MultibootObject where
  header := MbHeader.read (fun _ => 0) 0
  mmapCount := 0
  mods := fun _ => ⟨0, 0⟩
  mmap := fun _ => ⟨0, 0, 0, 0, 0⟩
  elf := fun _ => ⟨⟨0, 0⟩, 0⟩
  elfstr := fun _ => 0

/-- A header at 0x9000, and behind it two modules, three sections, the map of memory and the names
of the sections. -/
def loaderMemory : Memory :=
  let m := writeWords (fun _ => 0) 0x9400 [0x65742e00, 0x2e007478, 0x74736873, 0x62617472]
  let m := writeWords m 0x9300 [20, 0, 0, 0x9fc00, 0, 1, 20, 0xf0000, 0, 0x10000, 0, 2,
    20, 0x100000, 0, 0xf00000, 0, 1]
  let m := writeWords m 0x9228 [1, 1, 6, 0x100000, 0x1000, 0x4000, 0, 0, 16, 0,
    7, 3, 0, 0x9400, 0x5000, 17, 0, 0, 1, 0]
  let m := writeWords m 0x9100 [0x200000, 0x201000, 0, 0, 0x202000, 0x203000, 0, 0]
  writeWords m 0x9000 [0x68, 0, 0, 0, 0, 2, 0x9100, 3, 40, 0x9200, 2, 72, 0x9300]

def loaderTables : LoaderTables where
  mmap := [⟨0, 0, 0x9fc00, 0, 1⟩, ⟨0xf0000, 0, 0x10000, 0, 2⟩, ⟨0x100000, 0, 0xf00000, 0, 1⟩]
  mods := [⟨0x200000, 0x201000⟩, ⟨0x202000, 0x203000⟩]
  elf := [⟨⟨0, 0⟩, 0⟩, ⟨⟨0x100000, 0x4000⟩, 1⟩, ⟨⟨0x9400, 17⟩, 7⟩]
  shndx := 2
  strings := [0, 0x2e, 0x74, 0x65, 0x78, 0x74, 0, 0x2e, 0x73, 0x68, 0x73, 0x74, 0x72, 0x74, 0x61,
    0x62, 0]

theorem loaderMemory_mmap :
    (MbHeader.read loaderMemory 0x9000).MmapTable loaderMemory loaderTables.mmap := by
  rw [MbHeader.mmapTable_iff (by decide)]
  refine ⟨[0x9300, 0x9318, 0x9330], ?_, by decide⟩
  exact .entry (by decide) (.entry (by decide) (.entry (by decide) (.stop (by decide))))

theorem loaderMemory_tables :
    (MbHeader.read loaderMemory 0x9000).tables loaderMemory loaderTables.mmap = loaderTables := by
  unfold MbHeader.tables
  have hmods : (MbHeader.read loaderMemory 0x9000).modsTable loaderMemory = loaderTables.mods := by
    decide
  have helf : (MbHeader.read loaderMemory 0x9000).elfTable loaderMemory = loaderTables.elf := by
    decide
  have hstrings : (MbHeader.read loaderMemory 0x9000).stringTable loaderMemory =
      loaderTables.strings := by
    unfold MbHeader.stringTable
    rw [helf]
    decide
  rw [hmods, helf, hstrings]
  rfl

theorem loaderTables_fit : loaderTables.Fits := by
  constructor <;> decide

/-- All of them are recorded, so that a page of the second module is not free. -/
theorem loaderTables_kept : ∃ ob', emptyObject.parse loaderMemory 0x102000 0x9000 = some ob' ∧
    loaderTables.Recorded 0x102000 ob' ∧ ob'.tables.checkRange 0x202000 0x1000 = false := by
  obtain ⟨ob', hparse, -, hall⟩ := parse_keeps_what_fits 0x102000 emptyObject loaderMemory_mmap
    fun _ => by decide
  rw [loaderMemory_tables] at hall
  have hrecorded := hall loaderTables_fit
  refine ⟨ob', hparse, hrecorded, Bool.eq_false_iff.mpr fun hcheck => ?_⟩
  obtain ⟨-, hmods, -⟩ := hrecorded.passed 0x202000 0x1000 (by decide) (by decide) hcheck
  have hapart := hmods ⟨0x202000, 0x203000⟩ (by decide)
  have hrange : 0x202000 ∈ span 0x202000 0x1000 := ⟨by decide, by decide⟩
  exact Set.disjoint_left.mp hapart hrange ⟨by decide, by decide⟩

/-- 41 modules of a page each, from 2 MB on. -/
def manyModules : Memory :=
  let entries := (List.range 41).flatMap fun i =>
    [0x200000 + BitVec.ofNat 32 i * 0x1000, 0x201000 + BitVec.ofNat 32 i * 0x1000, 0, 0]
  writeWords (writeWords (fun _ => 0) 0x9100 entries) 0x9000 [8, 0, 0, 0, 0, 41, 0x9100]

/-- The last of 41 modules is lost. -/
theorem module_lost : ¬ ∀ (m : Memory) (self : Address) (ob : MultibootObject)
    (newHeader : Address) (es : List MbMmap), (MbHeader.read m newHeader).MmapTable m es →
    ((MbHeader.read m newHeader).has Multiboot.elfAvail = true →
      (MbHeader.read m newHeader).elfShndx < (MbHeader.read m newHeader).elfNum) →
    ∃ ob', ob.parse m self newHeader = some ob' ∧
      ((MbHeader.read m newHeader).tables m es).Recorded self ob' := by
  intro h
  have hmmap : (MbHeader.read manyModules 0x9000).MmapTable manyModules [] :=
    MbHeader.mmapTable_nil (by decide)
  have hnoelf : (MbHeader.read manyModules 0x9000).has Multiboot.elfAvail ≠ true := by decide
  obtain ⟨ob₁, hparse₁, hall⟩ :=
    h manyModules 0x102000 emptyObject 0x9000 [] hmmap fun hflag => absurd hflag hnoelf
  obtain ⟨ob₂, hparse₂, -, hcapped⟩ := parse_records_capped 0x102000 emptyObject hmmap
    fun hflag => absurd hflag hnoelf
  obtain rfl : ob₁ = ob₂ := Option.some.inj (hparse₁.symm.trans hparse₂)
  have hlength : ((MbHeader.read manyModules 0x9000).modsTable manyModules).length = 41 := by
    have hflag : (MbHeader.read manyModules 0x9000).has Multiboot.modsAvail = true := by decide
    have hcount : (MbHeader.read manyModules 0x9000).modsCount.toNat = 41 := by decide
    unfold MbHeader.modsTable
    rw [if_pos hflag, List.length_map, length_places, hcount]
  have hfull := congrArg List.length (hall.mods.symm.trans hcapped.mods)
  have htake : ((MbHeader.read manyModules 0x9000).tables manyModules []).capped.mods.length =
      40 := by
    simp only [LoaderTables.capped, MbHeader.tables, List.length_take, hlength]
    decide
  rw [htake] at hfull
  exact absurd (hlength.symm.trans hfull) (by decide)

end MultibootObject
end Tysos
