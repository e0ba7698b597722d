import ElfScope.Analysis.Error
import ElfScope.Dwarf.Walk
import ElfScope.Elf.Segment

/-! # Inspections

An inspection looks at one opened file. It decodes the section table, the debug sections and the
entries when they are first asked for, and keeps them; what it reports, it reports once.
-/
namespace ElfScope

/-- An entry of the section table. One that cannot be read has no section. -/
structure SectionEntry where
  index : Nat
  name : Text
  found : Option Elf.Section
deriving DecidableEq

/-- The debug sections by name. Those that are passed as missing have no content. -/
structure DebugInfo where
  addressSize : Nat
  sections : List (Text × Option Bytes)
deriving DecidableEq

structure Inspection where
  file : Elf.File
  role : Role
  source : Text
  table : Option (List SectionEntry) := none
  /-- The first section of each name, with its number, once there is a table. -/
  named : List (Text × Nat × Elf.Section) := []
  loaded : List (Text × Bytes) := []
  debug : Option (Option DebugInfo) := none
  desk : Dwarf.Desk := {}
  log : Log := []

abbrev Inspecting (α : Type) := StateM Inspection α

namespace Inspection

def ofBytes (data : Bytes) (role : Role) (source : Text) : Except InputError Inspection :=
  match Elf.File.read data with
  | .ok file => .ok { file, role, source }
  | .error e => .error ⟨role, source, .notElf e⟩

/-- A report of a failure does not tell the cause, which stands in a line of its own after the message. -/
def report (level : Level) (logger message : Text) : Inspecting Unit :=
  modify fun i => { i with log := i.log ++ [⟨level, logger, message⟩] }

def architecture (i : Inspection) : Architecture := .ofMachine i.file.header.machine

def fileKind (i : Inspection) : FileKind := .ofType i.file.header.type

def byteOrder (i : Inspection) : ByteOrder := i.file.layout.order

def entryPoint (i : Inspection) : Nat := i.file.header.entry

def addressSize (i : Inspection) : Nat := i.file.layout.addressSize

end Inspection

end ElfScope
