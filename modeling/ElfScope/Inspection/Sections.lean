import ElfScope.Inspection.Basic

/-! # The section table

Every entry of the table is listed, also one that cannot be read or whose name lies outside the name
table. Such an entry is called `unnamed` and is not found by that name.
-/
namespace ElfScope

namespace SectionEntry

def unnamed : Text := "unnamed"

def logger : Text := "ElfStructureReader"

def warning (message : Text) : LogRecord := ⟨.warning, logger, message⟩

/-- The size of the name table, and a report where it cannot be read. -/
def nameTableSize (f : Elf.File) : Option Nat × Log :=
  let failed : Option Nat × Log := (none, [warning "Cannot read the section name string table"])
  let index :=
    if f.header.nameTableIndex = Elf.extendedIndex then (f.section? 0).map (·.header.link)
    else some f.header.nameTableIndex
  match index with
  | none => failed
  | some 0 => (none, [])
  | some index => match f.section? index with
    | some s => (some s.header.size, [])
    | none => failed

def read (f : Elf.File) (names : Option Nat) (index : Nat) : SectionEntry :=
  match f.section? index, names with
  | some s, some size =>
    if s.header.name < size then ⟨index, s.name, some s⟩ else ⟨index, unnamed, none⟩
  | _, _ => ⟨index, unnamed, none⟩

/-- The entries of the table, with a report of each that cannot be read. -/
def readAll (f : Elf.File) : List SectionEntry × Log :=
  match f.sectionCount? with
  | none => ([], [warning "Cannot read the number of sections"])
  | some count =>
    let (names, log) := if 0 < count then nameTableSize f else (none, [])
    let entries := (List.range count).map (read f names)
    let unread := entries.filter (·.found.isNone)
    (entries, log ++ unread.map fun e => warning ("Cannot read section #" ++ Text.ofNat e.index))

/-- Keeps the section of an entry under its name, unless one is kept there. -/
def keepFirst (named : List (Text × Nat × Elf.Section)) (e : SectionEntry) :
    List (Text × Nat × Elf.Section) :=
  match e.found with
  | none => named
  | some s => if (named.lookup e.name).isSome then named else (e.name, e.index, s) :: named

def byName (entries : List SectionEntry) : List (Text × Nat × Elf.Section) :=
  entries.foldl keepFirst []

end SectionEntry

namespace Inspection

def sections : Inspecting (List SectionEntry) := do
  match (← get).table with
  | some entries => return entries
  | none =>
    let (entries, log) := SectionEntry.readAll (← get).file
    modify fun i =>
      { i with table := some entries, named := SectionEntry.byName entries, log := i.log ++ log }
    return entries

def sectionNames : Inspecting (List Text) := return (← sections).map (·.name)

/-- The first section of a name. -/
def section? (name : Text) : Inspecting (Option (Nat × Elf.Section)) := do
  if (← get).table.isNone then
    let _ ← sections
  return (← get).named.lookup name

def facts : Inspecting BinaryFacts := do
  let names ← sectionNames
  let i ← get
  let facts : BinaryFacts :=
    { architecture := i.architecture, fileKind := i.fileKind, byteOrder := i.byteOrder,
      entryPoint := UInt64.ofNat i.entryPoint, sections := names }
  report .debug SectionEntry.logger
    (i.source ++ ": " ++ Enumeration.value facts.architecture ++ " " ++
      Enumeration.value facts.fileKind ++ " " ++ Enumeration.value facts.byteOrder ++ ", " ++
      Text.ofNat names.length ++ " sections")
  return facts

/-- What is made of the entries of the program header table that can be read, in order. -/
def collectSegments {α : Type} (make : Elf.ProgramHeader → Inspecting (Option α)) :
    Inspecting (List α) := do
  let file := (← get).file
  match file.segmentCount? with
  | none =>
    report .warning SectionEntry.logger "Cannot read the number of segments"
    return []
  | some count =>
    let made ← (List.range count).mapM fun index => do
      match file.segment? index with
      | some h => make h
      | none =>
        report .warning SectionEntry.logger ("Cannot read program header #" ++ Text.ofNat index)
        return none
    return made.filterMap id

def segments : Inspecting (List Elf.ProgramHeader) := collectSegments fun h => return some h

end Inspection

end ElfScope
