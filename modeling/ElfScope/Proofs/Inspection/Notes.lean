import Mathlib
import ElfScope.Proofs.Elf.FileHeaders
import ElfScope.Proofs.Elf.Image
import ElfScope.Proofs.Inspection.Threads

/-! # Threads and program headers

A core dump has a thread for each usable note in its program header table, and the threads are numbered
without gaps. A header that is not a usable note takes no part: the threads are those of the table
without it.
-/
namespace ElfScope
open Elf

namespace Elf.File

/-- The number of program headers. One that does not fit in the file header stands in the first
section. -/
def headerCount? (f : File) : Option Nat :=
  if f.header.programCount = extendedIndex then (f.section? 0).map (·.header.info)
  else some f.header.programCount

/-- The header with a number, as its bytes tell it. -/
def headerAt? (f : File) (index : Nat) : Option ProgramHeader :=
  if 0 < f.header.programOffset ∧ f.header.programEntrySize < f.layout.programHeaderSize then none
  else
    ((ProgramHeader.decoder f.layout).valueAt f.bytes
      (f.header.programOffset + index * f.header.programEntrySize)).toOption

/-- The program header table. A header that cannot be decoded is left open. -/
def headerTable (f : File) : List (Option ProgramHeader) :=
  ((f.headerCount?.map List.range).getD []).map f.headerAt?

theorem ReadFrom.segmentCount?_eq {data : Bytes} {f : File} (h : f.ReadFrom data) :
    f.segmentCount? = f.headerCount? := by
  have hlt := h.inRange.programCount
  unfold segmentCount? headerCount? extendedIndex
  by_cases hcount : f.header.programCount = 0xffff
  · rw [if_neg (by omega), if_pos hcount]
  · rw [if_pos (by omega), if_neg hcount]

/-- A header is read as its bytes tell it, unless it is that of a dynamic segment, which must be
described by a section as well. -/
theorem segment?_eq (f : File) (index : Nat) :
    f.segment? index = f.headerAt? index ∨
      f.segment? index = none ∧ ∃ h, f.headerAt? index = some h ∧ h.isDynamic := by
  unfold segment? headerAt?
  by_cases hsize : 0 < f.header.programOffset ∧
      f.header.programEntrySize < f.layout.programHeaderSize
  · simp only [if_pos hsize, true_or]
  · simp only [if_neg hsize]
    cases (ProgramHeader.decoder f.layout).valueAt f.bytes
      (f.header.programOffset + index * f.header.programEntrySize) with
    | error e => exact .inl rfl
    | ok h =>
      cases hdynamic : h.isDynamic with
      | false => simp [hdynamic, Except.toOption]
      | true =>
        cases f.sectionCount? with
        | none => exact .inr ⟨by simp [hdynamic], h, rfl, hdynamic⟩
        | some count =>
          by_cases hreadable : f.dynamicReadable h.offset count 0
          · exact .inl (by simp [hdynamic, hreadable, Except.toOption])
          · exact .inr ⟨by simp [hdynamic, hreadable], h, rfl, hdynamic⟩

end Elf.File

namespace Inspection

/-! ### Usable notes -/

/-- A note with some content, all of which is in the file. -/
structure UsableNote (data : Bytes) (h : ProgramHeader) : Prop where
  type : h.type = 4
  content : 0 < h.fileSize
  inside : h.offset + h.fileSize ≤ data.length

instance (data : Bytes) (h : ProgramHeader) : Decidable (UsableNote data h) :=
  decidable_of_iff (h.type = 4 ∧ 0 < h.fileSize ∧ h.offset + h.fileSize ≤ data.length)
    ⟨fun h => ⟨h.1, h.2.1, h.2.2⟩, fun h => ⟨h.type, h.content, h.inside⟩⟩

/-- The usable notes of a table, in its order. -/
def usableNotes (data : Bytes) (table : List (Option ProgramHeader)) : List ProgramHeader :=
  (table.filterMap id).filter (UsableNote data ·)

def threadOf (data : Bytes) (id : Nat) (h : ProgramHeader) : ThreadInfo :=
  ⟨id, data.slice h.offset h.fileSize⟩

/-- The threads of a table: one for each usable note, or a single one with blank registers. -/
def threadsIn (data : Bytes) (table : List (Option ProgramHeader)) : List ThreadInfo :=
  if (usableNotes data table).isEmpty then [⟨0, blankRegisters⟩]
  else (usableNotes data table).mapIdx (threadOf data)

theorem noteOf_eq (f : File) (h : ProgramHeader) :
    noteOf f h = if UsableNote f.bytes h then some (f.bytes.slice h.offset h.fileSize) else none := by
  unfold noteOf noteSlice ProgramHeader.isNote
  by_cases htype : h.type = 4
  · rw [if_pos (by simpa using htype)]
    by_cases hend : f.bytes.length < h.offset + h.fileSize
    · rw [if_pos hend, if_neg fun husable => absurd husable.inside (by omega)]
      rfl
    · rw [if_neg hend]
      by_cases hempty : h.offset + h.fileSize = h.offset
      · rw [if_pos hempty, if_neg fun husable => absurd husable.content (by omega)]
        rfl
      · rw [if_neg hempty, if_pos ⟨htype, by omega, by omega⟩]
        rfl
  · rw [if_neg (by simpa using htype), if_neg fun husable => htype husable.type]

/-- What is taken from a header that cannot be read is what is taken from a dynamic one. -/
theorem bind_noteOf (f : File) (index : Nat) :
    (f.segment? index).bind (noteOf f) = (f.headerAt? index).bind (noteOf f) := by
  rcases f.segment?_eq index with heq | ⟨hnone, h, hheader, hdynamic⟩
  · rw [heq]
  · have hnote : h.isNote = false := by
      simp only [ProgramHeader.isDynamic, decide_eq_true_eq] at hdynamic
      simp [ProgramHeader.isNote, hdynamic]
    rw [hnone, hheader, Option.bind_none, Option.bind_some, noteOf, hnote]
    rfl

theorem notesOf_eq {data : Bytes} {f : File} (h : f.ReadFrom data) :
    notesOf f = (usableNotes data f.headerTable).map fun p => data.slice p.offset p.fileSize := by
  have htable : notesOf f = f.headerTable.filterMap (·.bind (noteOf f)) := by
    unfold notesOf madeOf File.headerTable
    rw [h.segmentCount?_eq]
    cases f.headerCount? with
    | none => rfl
    | some count =>
      simp only [Option.map_some, Option.getD_some, List.filterMap_map]
      exact List.filterMap_congr fun index _ => bind_noteOf f index
  rw [htable]
  unfold usableNotes
  induction f.headerTable with
  | nil => rfl
  | cons entry table ih =>
    cases entry with
    | none => simpa using ih
    | some p =>
      have hnote := noteOf_eq f p
      rw [h.bytes] at hnote
      by_cases husable : UsableNote data p
      · simp [hnote, husable, ih]
      · simp [hnote, husable, ih]

/-- The threads that are told of are those of the program header table. -/
theorem threadsOf_eq {data : Bytes} {f : File} (h : f.ReadFrom data) :
    (threadsOf f).1 :: (threadsOf f).2 = threadsIn data f.headerTable := by
  unfold threadsOf threadsIn
  rw [notesOf_eq h, List.zipIdx_map, List.map_map, List.mapIdx_eq_zipIdx_map]
  cases usableNotes data f.headerTable <;> rfl

theorem threadsIn_of_ne_nil {data : Bytes} {table : List (Option ProgramHeader)}
    (h : usableNotes data table ≠ []) :
    threadsIn data table = (usableNotes data table).mapIdx (threadOf data) := by
  unfold threadsIn
  rw [if_neg (by simpa using h)]

/-- The entry could be left out of the table. -/
theorem threadsIn_skip {data : Bytes} {entry : Option ProgramHeader}
    (hentry : ∀ h ∈ entry, ¬UsableNote data h) (before after : List (Option ProgramHeader)) :
    threadsIn data (before ++ entry :: after) = threadsIn data (before ++ after) := by
  have hskip : usableNotes data (before ++ entry :: after) = usableNotes data (before ++ after) := by
    cases entry with
    | none => simp [usableNotes]
    | some h => simp [usableNotes, hentry h rfl]
  unfold threadsIn
  rw [hskip]

/-! ### The threads of a core dump -/

theorem file_of_ofBytes {data : Bytes} {role : Role} {source : Text} {i : Inspection}
    (h : ofBytes data role source = .ok i) :
    File.read data = .ok i.file ∧ Agrees i.file i := by
  unfold ofBytes at h
  cases hread : File.read data with
  | error e =>
    rw [hread] at h
    cases h
  | ok f =>
    rw [hread] at h
    cases h
    exact ⟨rfl, agrees_new f role source⟩

/-- The threads of a file are its usable notes, in the order of the program header table and numbered
from zero, or a single one with blank registers. A header that is not a usable note could be left out
of the table. A core dump is analyzed to these threads. -/
theorem threads_eq_usableNotes {data : Bytes} {role : Role} {source : Text} {i : Inspection}
    (h : ofBytes data role source = .ok i) :
    let told : ThreadInfo × List ThreadInfo := (threads.run i).1
    let notes := usableNotes data i.file.headerTable
    (notes = [] → told = (⟨0, List.replicate 64 0⟩, [])) ∧
    (notes ≠ [] → (told.1 :: told.2).length = notes.length ∧
      ∀ k p, notes[k]? = some p →
        (told.1 :: told.2)[k]? =
          some ({ id := k, registers := data.slice p.offset p.fileSize } : ThreadInfo)) ∧
    (∀ before entry after, i.file.headerTable = before ++ entry :: after →
      (∀ p ∈ entry, ¬UsableNote data p) → told.1 :: told.2 = threadsIn data (before ++ after)) ∧
    (requireCoreDump i = .ok () →
      (Analysis.coreInfo data source).1 = .ok ⟨i.architecture, told.1, told.2⟩) := by
  obtain ⟨hread, hi⟩ := file_of_ofBytes h
  have htold : (threads.run i).1 = threadsOf i.file :=
    (answers_threads i.file i hi).1
  have hthreads := threadsOf_eq (File.readFrom hread)
  simp only [htold]
  refine ⟨fun hnotes => ?_, fun hnotes => ?_, fun before entry after htable hentry => ?_,
    fun hcore => ?_⟩
  · unfold threadsIn at hthreads
    rw [hnotes] at hthreads
    exact Prod.ext (List.cons.inj hthreads).1 (List.cons.inj hthreads).2
  · rw [hthreads, threadsIn_of_ne_nil hnotes]
    refine ⟨List.length_mapIdx, fun k p hk => ?_⟩
    rw [List.getElem?_mapIdx, hk]
    rfl
  · rw [hthreads, htable]
    exact threadsIn_skip hentry before after
  · have hkind : FileKind.ofType i.file.header.type = .coreDump := by
      by_contra hother
      unfold requireCoreDump fileKind at hcore
      rw [if_neg hother] at hcore
      cases hcore
    rw [Analysis.coreInfo_of_core hread, if_pos hkind]
    rfl

/-- A dump with two notes among headers of all other kinds: one of a segment that is loaded, a note
without content, one that ends behind the file, and a header that is cut off. The second of the two
ends with the file. -/
def mixedDump : Bytes :=
  let l : Layout := ⟨false, .big⟩
  let header : FileHeader :=
    { type := 4, machine := 40, entry := 0, programOffset := 52, sectionOffset := 0,
      programEntrySize := 32, programCount := 6, sectionEntrySize := 40, sectionCount := 0,
      nameTableIndex := 0 }
  let table : List ProgramHeader := [⟨1, 0, 4⟩, ⟨4, 1, 3⟩, ⟨4, 8, 0⟩, ⟨4, 212, 4⟩, ⟨4, 211, 4⟩]
  l.identification ++ header.encode l ++ (table.flatMap (·.encode l) ++ [0, 0, 0])

theorem threads_mixedDump :
    ∃ i, ofBytes mixedDump .core "mixed" = .ok i ∧
      (threads.run i).1 = (⟨0, [0x45, 0x4c, 0x46]⟩, [⟨1, [1, 0, 0, 0]⟩]) ∧
      (Analysis.coreInfo mixedDump "mixed").1 =
        .ok ⟨.arm, ⟨0, [0x45, 0x4c, 0x46]⟩, [⟨1, [1, 0, 0, 0]⟩]⟩ := by
  have hread : (ofBytes mixedDump .core "mixed").toOption.map (fun i =>
      (i.fileKind, i.architecture, i.file.headerTable)) =
      some (.coreDump, .arm, [some ⟨1, 0, 4⟩, some ⟨4, 1, 3⟩] ++ some ⟨4, 8, 0⟩ ::
        [some ⟨4, 212, 4⟩, some ⟨4, 211, 4⟩, none]) := by
    decide +kernel
  cases h : ofBytes mixedDump .core "mixed" with
  | error e =>
    rw [h] at hread
    cases hread
  | ok i =>
    rw [h] at hread
    obtain ⟨hkind, hmachine, htable⟩ : i.fileKind = .coreDump ∧ i.architecture = .arm ∧ _ := by
      simpa only [Except.toOption, Option.map_some, Option.some.injEq, Prod.mk.injEq] using hread
    obtain ⟨-, -, hskip, hcore⟩ := threads_eq_usableNotes h
    -- the empty note is left out, and what is left is computed
    have htold := hskip _ _ _ htable (by decide)
    have hthreads : threadsIn mixedDump ([some ⟨1, 0, 4⟩, some ⟨4, 1, 3⟩] ++
        [some ⟨4, 212, 4⟩, some ⟨4, 211, 4⟩, none]) =
        [⟨0, [0x45, 0x4c, 0x46]⟩, ⟨1, [1, 0, 0, 0]⟩] := by
      decide +kernel
    rw [hthreads] at htold
    obtain ⟨hfirst, hothers⟩ := List.cons.inj htold
    refine ⟨i, rfl, Prod.ext hfirst hothers, ?_⟩
    rw [hcore (by unfold requireCoreDump; rw [if_pos hkind]), hmachine, hfirst, hothers]

end Inspection

end ElfScope
