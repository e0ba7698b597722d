import ElfScope.Inspection.Sections

/-! # Debug sections

A debug section is loaded by its name. It may be stored as it is, in a compressed section, or in an
old compressed form under a name of its own. One that is there and cannot be read is empty.
-/
namespace ElfScope

namespace DebugInfo

/-- The sections that are loaded, in order. -/
def sectionNames : List Text :=
  [".debug_info", ".debug_aranges", ".debug_abbrev", ".debug_frame", ".eh_frame", ".debug_str",
    ".debug_loc", ".debug_ranges", ".debug_line", ".debug_pubtypes", ".debug_pubnames",
    ".debug_addr", ".debug_str_offsets", ".debug_line_str", ".debug_loclists", ".debug_rnglists",
    ".debug_sup", ".gnu_debugaltlink", ".debug_types"]

/-- Sections that are never missing, but empty. -/
def alwaysProvided : List Text := [".debug_info", ".debug_abbrev", ".debug_str", ".debug_line_str"]

/-- The content of a section as it is passed on. -/
def provided (name : Text) (data : Bytes) : Option Bytes :=
  if data.isEmpty ∧ name ∉ alwaysProvided then none else some data

def logger : Text := "DwarfSectionLoader"

def get? (d : DebugInfo) (name : Text) : Option Bytes := (d.sections.lookup name).join

/-- The sections that entries are decoded from. -/
def toSections (d : DebugInfo) : Dwarf.DebugSections where
  info := (d.get? ".debug_info").getD []
  abbreviations := (d.get? ".debug_abbrev").getD []
  strings := (d.get? ".debug_str").getD []
  lineStrings := (d.get? ".debug_line_str").getD []
  addresses := d.get? ".debug_addr"
  stringOffsets := d.get? ".debug_str_offsets"
  locationLists := d.get? ".debug_loclists"
  rangeLists := d.get? ".debug_rnglists"

/-- The old compressed form: a magic word, the size in eight bytes, and a complete zlib stream. -/
def inflateOld? (data : Bytes) : Option Bytes :=
  if data.length < 12 ∨ data.take 4 ≠ [0x5a, 0x4c, 0x49, 0x42] then none
  else do
    let content ← Zlib.inflateWhole? (data.drop 12)
    if content.length = Bytes.value .big (data.slice 4 8) then some content else none

def oldName (name : Text) : Text := ".z" ++ name.drop 1

end DebugInfo

namespace Inspection

/-- The content of a section that was found under a name. -/
def contentOf (s : Elf.Section) (name : Text) (old : Bool) : Inspecting Bytes := do
  if s.header.noBits then
    report .debug DebugInfo.logger ("Section " ++ name ++ " has no content in the file")
    return []
  else
    let data := (← get).file.content? s
    match if old then data.bind DebugInfo.inflateOld? else data with
    | some data => return data
    | none =>
      report .warning DebugInfo.logger ("Cannot read section " ++ name ++ ". Treated as absent")
      return []

def loadNew (name : Text) : Inspecting Bytes := do
  match ← section? name with
  | some (_, s) => contentOf s name false
  | none =>
    if name.startsWith ".debug_" then
      match ← section? (DebugInfo.oldName name) with
      | some (_, s) => contentOf s (DebugInfo.oldName name) true
      | none => return []
    else return []

def load (name : Text) : Inspecting Bytes := do
  match (← get).loaded.lookup name with
  | some data => return data
  | none =>
    let data ← loadNew name
    modify fun i => { i with loaded := (name, data) :: i.loaded }
    return data

def hasDebugInfo : Inspecting Bool := return !(← load ".debug_info").isEmpty

def loadDebugInfo : Inspecting (Option DebugInfo) := do
  if ← hasDebugInfo then
    let sections ← DebugInfo.sectionNames.mapM fun name => do
      let data ← load name
      return (name, DebugInfo.provided name data)
    return some { addressSize := (← get).addressSize, sections }
  else return none

end Inspection

end ElfScope
