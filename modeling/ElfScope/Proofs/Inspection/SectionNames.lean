import Mathlib
import ElfScope.Proofs.Bytes.Locality
import ElfScope.Proofs.Elf.FileHeaders
import ElfScope.Proofs.Elf.Image
import ElfScope.Proofs.Inspection.Notes
import ElfScope.Proofs.Text.Utf8

/-! # Where section names come from

The name of a section that is found starts in the table of names. Where it is terminated in the table,
it is the part of the table up to there. The end of the table is not looked at: a name that is not
terminated in it goes on behind it, and is empty where the file has no terminator left at all.
-/
namespace ElfScope
open Elf

theorem Bytes.beforeNul?_eq_none {bs : Bytes} : bs.beforeNul? = none ↔ (0 : UInt8) ∉ bs := by
  induction bs with
  | nil => simp [Bytes.beforeNul?]
  | cons b bs ih =>
    by_cases hb : b = 0
    · simp [Bytes.beforeNul?, hb]
    · have hb' : (0 : UInt8) ≠ b := fun h => hb h.symm
      simp [Bytes.beforeNul?, hb, hb', ih]

/-- Bytes with a single terminator are cut behind it or not. -/
theorem Bytes.nul_mem_take {bs : Bytes} (h : (0 : UInt8) ∉ bs) (rest : Bytes) (n : Nat) :
    (0 : UInt8) ∈ (bs ++ 0 :: rest).take n ↔ bs.length < n := by
  rw [List.take_append, List.mem_append]
  constructor
  · rintro (hfront | hback)
    · exact absurd (List.mem_of_mem_take hfront) h
    · by_contra hn
      rw [Nat.sub_eq_zero_of_le (not_lt.mp hn)] at hback
      cases hback
  · intro hn
    obtain ⟨k, hk⟩ := Nat.exists_eq_add_of_lt hn
    rw [show n - bs.length = k + 1 by omega, List.take_succ_cons]
    exact .inr List.mem_cons_self

namespace Elf.File

/-- The number of the table of names. One that does not fit in the file header stands in the first
section. -/
def nameIndex (f : File) : Nat :=
  if f.header.nameTableIndex = extendedIndex then ((f.sectionHeader? 0).map (·.link)).getD 0
  else f.header.nameTableIndex

/-- The table that names are read from is the section with that number. -/
theorem ReadFrom.nameTable_eq {data : Bytes} {f : File} (h : f.ReadFrom data) :
    f.nameTable = f.sectionHeader? f.nameIndex := by
  have hread := h.nameTable
  unfold readNameTable at hread
  extract_lets finish at hread
  -- whatever the number is, what is read is its header
  have hfinish {index : Nat} (hindex : finish index = .ok f.nameTable) :
      f.nameTable = f.sectionHeader? index := by
    obtain ⟨table, htable, hrest⟩ := Except.bind_eq_ok.mp hindex
    have hsame : f.nameTable = table := by
      cases table with
      | none => exact (Except.ok.inj hrest).symm
      | some s =>
        dsimp only at hrest
        split_ifs at hrest with hcompressed
        · obtain ⟨c, -, hrest⟩ := Except.bind_eq_ok.mp hrest
          exact (Except.ok.inj hrest).symm
        · exact (Except.ok.inj hrest).symm
    unfold sectionHeader?
    rw [h.bytes, htable, hsame]
  unfold nameIndex
  by_cases hextended : f.header.nameTableIndex = extendedIndex
  · rw [if_neg (not_not_intro hextended)] at hread
    obtain ⟨first, hfirst, hread⟩ := Except.bind_eq_ok.mp hread
    have hheader : f.sectionHeader? 0 = first := by
      unfold sectionHeader?
      rw [h.bytes, hfirst]
    rw [if_pos hextended, hheader]
    cases first with
    | none => cases hread
    | some s => exact hfinish hread
  · rw [if_pos hextended] at hread
    rw [if_neg hextended]
    exact hfinish hread

/-- A section has the header with its number, and its name is read for that header. -/
theorem header_of_section? {f : File} {index : Nat} {s : Section} (h : f.section? index = some s) :
    f.sectionHeader? index = some s.header ∧ f.sectionName? s.header = some s.name := by
  unfold section? sectionFrom? at h
  obtain ⟨header, hheader, h⟩ := Option.bind_eq_some_iff.mp h
  obtain ⟨name, hname, h⟩ := Option.bind_eq_some_iff.mp h
  obtain ⟨compression, hcompression, h⟩ := Option.bind_eq_some_iff.mp h
  dsimp only at h
  split_ifs at h with hrules
  cases h
  exact ⟨hheader, hname⟩

end Elf.File

/-! ### Names and terminators -/

/-- The name stands in the table, with a NUL after it. -/
structure NameIn (data : Bytes) (table h : SectionHeader) (name : Text) (bs rest : Bytes) : Prop where
  bytes : data.drop (table.offset + h.name) = bs ++ 0 :: rest
  nul : (0 : UInt8) ∉ bs
  inside : h.name + bs.length < table.size
  name : name = Utf8.decodeLossy bs

/-- What the name of a section can be that starts in the table. -/
structure NamedFrom (data : Bytes) (table h : SectionHeader) (name : Text) : Prop where
  starts : h.name < table.size
  terminated : (0 : UInt8) ∈ data.slice (table.offset + h.name) (table.size - h.name) →
    ∃ bs rest, NameIn data table h name bs rest
  goesOn : (0 : UInt8) ∉ data.slice (table.offset + h.name) (table.size - h.name) →
    (0 : UInt8) ∈ data.drop (table.offset + h.name) →
      ∃ bs rest, data.drop (table.offset + h.name) = bs ++ 0 :: rest ∧ (0 : UInt8) ∉ bs ∧
        table.size ≤ h.name + bs.length ∧ name = Utf8.decodeLossy bs
  endless : (0 : UInt8) ∉ data.drop (table.offset + h.name) → name = []

/-- Why the name of a section is not found. -/
inductive NameMissing (f : File) (index : Nat) : Prop where
  | unread (h : f.section? index = none)
  | noTable (h : f.nameIndex = 0)
  | firstUnread (h : f.header.nameTableIndex = extendedIndex) (hfirst : f.section? 0 = none)
  | tableUnread (h : f.section? f.nameIndex = none)
  | outside (s table : Section) (h : f.section? index = some s)
      (htable : f.section? f.nameIndex = some table) (hname : table.header.size ≤ s.header.name)

/-- An empty name has its terminator at once, or none at all. -/
theorem NamedFrom.of_empty {data : Bytes} {table h : SectionHeader}
    (hname : NamedFrom data table h []) :
    data[table.offset + h.name]? = some 0 ∨ (0 : UInt8) ∉ data.drop (table.offset + h.name) := by
  have hfirst {bs rest : Bytes} (hbytes : data.drop (table.offset + h.name) = bs ++ 0 :: rest)
      (hdecode : [] = Utf8.decodeLossy bs) : data[table.offset + h.name]? = some 0 := by
    rw [Utf8.decodeLossy_eq_nil.mp hdecode.symm] at hbytes
    have hhead := congrArg (·[0]?) hbytes
    simpa using hhead
  by_cases hnul : (0 : UInt8) ∈ data.drop (table.offset + h.name)
  · by_cases hin : (0 : UInt8) ∈ data.slice (table.offset + h.name) (table.size - h.name)
    · obtain ⟨bs, rest, hnamed⟩ := hname.terminated hin
      exact .inl (hfirst hnamed.bytes hnamed.name)
    · obtain ⟨bs, rest, hbytes, -, -, hdecode⟩ := hname.goesOn hin hnul
      exact .inl (hfirst hbytes hdecode)
  · exact .inr hnul

theorem namedFrom_of_sectionName? {f : File} {table h : SectionHeader} {name : Text}
    (htable : f.nameTable = some table) (hname : f.sectionName? h = some name)
    (hstarts : h.name < table.size) : NamedFrom f.bytes table h name := by
  unfold File.sectionName? at hname
  rw [htable] at hname
  dsimp only at hname
  split_ifs at hname
  cases hname
  cases hbytes : Bytes.beforeNul? (f.bytes.drop (table.offset + h.name)) with
  | none =>
    have hnone := Bytes.beforeNul?_eq_none.mp hbytes
    refine ⟨hstarts, fun hin => ?_, fun _ hin => ?_, fun _ => rfl⟩
    · exact absurd (List.mem_of_mem_take hin) hnone
    · exact absurd hin hnone
  | some bs =>
    obtain ⟨hnul, hdrop⟩ := Decoder.beforeNul?_eq_some hbytes
    rw [List.append_assoc, List.singleton_append] at hdrop
    have hin : (0 : UInt8) ∈ f.bytes.slice (table.offset + h.name) (table.size - h.name) ↔
        h.name + bs.length < table.size := by
      unfold Bytes.slice
      rw [hdrop, Bytes.nul_mem_take hnul]
      omega
    refine ⟨hstarts, fun hslice => ?_, fun hslice _ => ?_, fun hnone => ?_⟩
    · exact ⟨bs, _, hdrop, hnul, hin.mp hslice, rfl⟩
    · exact ⟨bs, _, hdrop, hnul, not_lt.mp fun hlt => hslice (hin.mpr hlt), rfl⟩
    · rw [hdrop] at hnone
      simp at hnone

namespace SectionEntry

variable {f : File}

theorem nameTableSize_eq (f : File) :
    (nameTableSize f).1 =
      if f.header.nameTableIndex = extendedIndex ∧ f.section? 0 = none then none
      else if f.nameIndex = 0 then none
      else (f.section? f.nameIndex).map (·.header.size) := by
  have hnumber {index : Nat}
      (h : (if f.header.nameTableIndex = extendedIndex then (f.section? 0).map (·.header.link)
        else some f.header.nameTableIndex) = some index) :
      (nameTableSize f).1 =
        if index = 0 then none else (f.section? index).map (·.header.size) := by
    unfold nameTableSize
    rw [h]
    cases index with
    | zero => rfl
    | succ index =>
      rw [if_neg (Nat.succ_ne_zero index)]
      cases hs : f.section? (index + 1) <;> simp [hs]
  unfold File.nameIndex
  by_cases hextended : f.header.nameTableIndex = extendedIndex
  · rw [if_pos hextended] at hnumber ⊢
    cases hfirst : f.section? 0 with
    | none =>
      unfold nameTableSize
      rw [if_pos hextended, if_pos ⟨hextended, rfl⟩, hfirst]
      rfl
    | some s =>
      rw [(File.header_of_section? hfirst).1, if_neg (by simp)]
      exact hnumber (by rw [hfirst]; rfl)
  · rw [if_neg hextended] at hnumber ⊢
    rw [if_neg fun h => hextended h.1]
    exact hnumber rfl

theorem mem_entriesOf {e : SectionEntry} (h : e ∈ Inspection.entriesOf f) :
    e = read f (nameTableSize f).1 e.index := by
  unfold Inspection.entriesOf readAll at h
  cases hcount : f.sectionCount? with
  | none =>
    rw [hcount] at h
    cases h
  | some count =>
    rw [hcount] at h
    dsimp only at h
    split_ifs at h with hpositive
    · obtain ⟨index, -, rfl⟩ := List.mem_map.mp h
      have hindex : (read f (nameTableSize f).1 index).index = index := by
        unfold read
        split
        · split_ifs <;> rfl
        · rfl
      rw [hindex]
    · rw [Nat.eq_zero_of_not_pos hpositive] at h
      cases h

/-- An entry without a section is unnamed, and there is a reason for it. One with a section has the
name that was read for its header, which starts in the table. -/
theorem read_cases (f : File) (index : Nat) :
    (read f (nameTableSize f).1 index = ⟨index, unnamed, none⟩ ∧ NameMissing f index) ∨
      ∃ s table : Section, f.section? index = some s ∧ f.section? f.nameIndex = some table ∧
        s.header.name < table.header.size ∧
        read f (nameTableSize f).1 index = ⟨index, s.name, some s⟩ := by
  have hsize := nameTableSize_eq f
  unfold read
  cases hs : f.section? index with
  | none => exact .inl ⟨rfl, .unread hs⟩
  | some s =>
    split_ifs at hsize with hfirst hzero
    · rw [hsize]
      exact .inl ⟨rfl, .firstUnread hfirst.1 hfirst.2⟩
    · rw [hsize]
      exact .inl ⟨rfl, .noTable hzero⟩
    · rw [hsize]
      cases htable : f.section? f.nameIndex with
      | none => exact .inl ⟨rfl, .tableUnread htable⟩
      | some table =>
        simp only [Option.map_some]
        by_cases hname : s.header.name < table.header.size
        · rw [if_pos hname]
          exact .inr ⟨s, table, rfl, rfl, hname, rfl⟩
        · rw [if_neg hname]
          exact .inl ⟨rfl, .outside s table hs htable (not_lt.mp hname)⟩

end SectionEntry

namespace Inspection

/-! ### Reported names -/

/-- The sections of a file either have no section object, are unnamed, and there is a reason for it; or
they have the name that starts at their offset in the table of names. -/
theorem sections_named {data : Bytes} {role : Role} {source : Text} {i : Inspection}
    (h : ofBytes data role source = .ok i) :
    ∀ e ∈ (sections.run i).1,
      (e.found = none ∧ e.name = SectionEntry.unnamed ∧ NameMissing i.file e.index) ∨
      ∃ s table, e.found = some s ∧ i.file.sectionHeader? e.index = some s.header ∧
        i.file.sectionHeader? i.file.nameIndex = some table ∧
        NamedFrom data table s.header e.name ∧
        (e.name = [] → data[table.offset + s.header.name]? = some 0 ∨
          (0 : UInt8) ∉ data.drop (table.offset + s.header.name)) := by
  obtain ⟨hread, hi⟩ := file_of_ofBytes h
  have hfile := File.readFrom hread
  have hsections : (sections.run i).1 = entriesOf i.file :=
    (answers_sections i.file i hi).1
  intro e he
  rw [hsections] at he
  have hentry := SectionEntry.mem_entriesOf he
  rcases SectionEntry.read_cases i.file e.index with
    ⟨hmissing, hreason⟩ | ⟨s, table, hs, htable, hstarts, hfound⟩
  · rw [hmissing] at hentry
    exact .inl ⟨congrArg SectionEntry.found hentry, congrArg SectionEntry.name hentry, hreason⟩
  · rw [hfound] at hentry
    have hname : e.name = s.name := congrArg SectionEntry.name hentry
    obtain ⟨hheader, hsname⟩ := File.header_of_section? hs
    obtain ⟨htableHeader, -⟩ := File.header_of_section? htable
    have hfrom : NamedFrom data table.header s.header s.name := by
      rw [← hfile.bytes]
      exact namedFrom_of_sectionName? (hfile.nameTable_eq.trans htableHeader) hsname hstarts
    refine .inr ⟨s, table.header, congrArg SectionEntry.found hentry, hheader, htableHeader,
      hname ▸ hfrom, fun hempty => ?_⟩
    rw [← hname, hempty] at hfrom
    exact hfrom.of_empty

/-- Two sections with names at the start of a table of a given size. The bytes are at its place, and
nothing comes after them. -/
def namesFile (size : Nat) (bytes : Bytes) : Bytes :=
  let l : Layout := ⟨false, .little⟩
  let header : FileHeader :=
    { type := 2, machine := 40, entry := 0, programOffset := 0, sectionOffset := 52,
      programEntrySize := 32, programCount := 0, sectionEntrySize := 40, sectionCount := 2,
      nameTableIndex := 1 }
  let table : SectionHeader := { SectionHeader.blank with type := 3, offset := 132, size }
  l.identification ++ header.encode l ++
    (SectionHeader.blank.encode l ++ (table.encode l ++ bytes))

/-- What is told of such a file. -/
def toldOf (size : Nat) (bytes : Bytes) :
    Option (List SectionEntry × Option SectionHeader × Bytes) :=
  (ofBytes (namesFile size bytes) .elf []).toOption.map fun i =>
    ((sections.run i).1, i.file.sectionHeader? i.file.nameIndex, i.file.bytes)

/-- Both sections under one name. -/
def bothNamed (size : Nat) (name : Text) : List SectionEntry × Option SectionHeader :=
  let table : SectionHeader := { SectionHeader.blank with type := 3, offset := 132, size }
  ([⟨0, name, some ⟨.blank, name, none⟩⟩, ⟨1, name, some ⟨table, name, none⟩⟩], some table)

theorem exists_of_toldOf {size : Nat} {bytes file : Bytes} {name : Text}
    (h : toldOf size bytes = some ((bothNamed size name).1, (bothNamed size name).2, file)) :
    ∃ i, ofBytes (namesFile size bytes) .elf [] = .ok i ∧
      (sections.run i).1 = (bothNamed size name).1 ∧
      i.file.sectionHeader? i.file.nameIndex = (bothNamed size name).2 ∧ i.file.bytes = file := by
  unfold toldOf at h
  cases hi : ofBytes (namesFile size bytes) .elf [] with
  | error e =>
    rw [hi] at h
    cases h
  | ok i =>
    rw [hi] at h
    simp only [Except.toOption, Option.map_some, Option.some.injEq, Prod.mk.injEq] at h
    exact ⟨i, rfl, h⟩

/-- In a table of two bytes the name is terminated. -/
theorem sections_named_terminated :
    ∃ i, ofBytes (namesFile 2 [97, 0]) .elf [] = .ok i ∧ (sections.run i).1.length = 2 ∧
      ∀ e ∈ (sections.run i).1, ∃ s table, e.found = some s ∧
        NamedFrom (namesFile 2 [97, 0]) table s.header (Text.ofString "a") := by
  have htold : toldOf 2 [97, 0] = some ((bothNamed 2 (Text.ofString "a")).1,
      (bothNamed 2 (Text.ofString "a")).2, namesFile 2 [97, 0]) := by
    decide +kernel
  obtain ⟨i, hi, hsections, -, -⟩ := exists_of_toldOf htold
  refine ⟨i, hi, by rw [hsections]; rfl, fun e he => ?_⟩
  have hfound : e.found ≠ none ∧ e.name = Text.ofString "a" := by
    rw [hsections] at he
    rcases List.mem_cons.mp he with rfl | he
    · exact ⟨by simp, rfl⟩
    · obtain rfl := List.mem_singleton.mp he
      exact ⟨by simp, rfl⟩
  rcases sections_named hi e he with ⟨hnone, -, -⟩ | ⟨s, table, hs, -, -, hname, -⟩
  · exact absurd hnone hfound.1
  · exact ⟨s, table, hs, hfound.2 ▸ hname⟩

/-- All names stand in the table of names. -/
def NamesInTable (i : Inspection) : Prop :=
  ∀ e ∈ (sections.run i).1, ∀ s, e.found = some s →
    ∃ table bs rest, i.file.sectionHeader? i.file.nameIndex = some table ∧
      NameIn i.file.bytes table s.header e.name bs rest

/-- In a table of one byte there is no name but the empty one. -/
theorem exists_not_namesInTable {bytes : Bytes} {name : Text}
    (htold : toldOf 1 bytes =
      some ((bothNamed 1 name).1, (bothNamed 1 name).2, namesFile 1 bytes))
    (hbyte : (namesFile 1 bytes)[132]? = some 97) :
    ∃ i, ofBytes (namesFile 1 bytes) .elf [] = .ok i ∧ ¬NamesInTable i ∧
      (sections.run i).1.map (fun e => (e.name, e.found.isSome)) = [(name, true), (name, true)] := by
  obtain ⟨i, hi, hsections, htable, hfile⟩ := exists_of_toldOf htold
  refine ⟨i, hi, fun hall => ?_, ?_⟩
  · obtain ⟨table, bs, rest, htable', hname⟩ :=
      hall ⟨0, name, some ⟨.blank, name, none⟩⟩ (by rw [hsections]; exact List.mem_cons_self) _ rfl
    obtain rfl := Option.some.inj (htable.symm.trans htable')
    have hlength : 0 + bs.length < 1 := hname.inside
    have hbs : bs = [] := List.length_eq_zero_iff.mp (by omega)
    have hbytes := congrArg (·[0]?) hname.bytes
    simp [hbs, SectionHeader.blank, hfile, hbyte] at hbytes
  · rw [hsections]
    rfl

/-- A name that ends behind its table, and one that does not end: the first is reported with what stands
behind the table, and the second as empty. -/
theorem unended_names_reported :
    (∃ i, ofBytes (namesFile 1 [97, 0]) .elf [] = .ok i ∧ ¬NamesInTable i ∧
      (sections.run i).1.map (fun e => (e.name, e.found.isSome)) =
        [(Text.ofString "a", true), (Text.ofString "a", true)]) ∧
    ∃ i, ofBytes (namesFile 1 [97]) .elf [] = .ok i ∧ ¬NamesInTable i ∧
      (sections.run i).1.map (fun e => (e.name, e.found.isSome)) = [([], true), ([], true)] :=
  ⟨exists_not_namesInTable (by decide +kernel) (by decide +kernel),
    exists_not_namesInTable (by decide +kernel) (by decide +kernel)⟩

end Inspection

end ElfScope
