import ElfScope.Dwarf.Symbol
import ElfScope.Log.Basic

/-! # Walking the debug information

Records are made of entries one at a time, with their direct children. What cannot be decoded is
reported and left out: an entry, the rest of a unit, or all units from a broken header on.
-/
namespace ElfScope.Dwarf

/-- The records of types, by the offset of their unit and their offset within it. -/
abbrev TypeCache := List ((Nat × Int) × TypeInfo)

/-- What a walk keeps between its steps. -/
structure Desk where
  memories : List (Nat × Memory) := []
  types : TypeCache := []
  found : Symbols := {}
  versionReported : Bool := false
  log : Log := []

abbrev Walk (α : Type) := EStateM Failure Desk α

namespace Desk

def memory (d : Desk) (u : CompileUnit) : Memory := (d.memories.lookup u.offset).getD {}

def remember (d : Desk) (u : CompileUnit) (m : Memory) : Desk :=
  { d with memories := (u.offset, m) :: d.memories.filter (·.1 ≠ u.offset) }

end Desk

namespace Walk

def walkerLogger : Text := "DieTreeWalker"
def extractorLogger : Text := "SymbolExtractor"

/-- A report of a failure does not tell the cause, which stands in a line of its own after the message. -/
def report (level : Level) (logger message : Text) : Walk Unit :=
  modify fun d => { d with log := d.log ++ [⟨level, logger, message⟩] }

/-- Decodes entries of a unit. -/
def inUnit {α : Type} (u : CompileUnit) (act : Reading α) : Walk α := fun d =>
  match act (d.memory u) with
  | .ok a m => .ok a (d.remember u m)
  | .error e m => .error e (d.remember u m)

/-- Gives nothing where an action fails. What has been done is kept. What is endless is not caught: that
is also so for a search in depth that goes in a circle (`CompileUnit.listEndWith`), which a stack of
bounded depth would turn into an error that is caught here. -/
def attempt {α : Type} (act : Walk α) : Walk (Option α) := fun d =>
  match act d with
  | .ok a d => .ok (some a) d
  | .error .endless d => .error .endless d
  | .error _ d => .ok none d

def ofRecord {α : Type} : Except RecordError α → Walk α
  | .ok a => return a
  | .error e => throw (.invalid e)

variable (s : DebugSections) (u : CompileUnit)

/-- What is made of the children from a cursor on. -/
def collectFrom {α : Type} (make : Die → Walk (Option α)) : Nat → Cursor → Walk (List α)
  | 0, _ => throw .endless
  | fuel + 1, cursor => do
    match ← inUnit u (u.advance s cursor) with
    | none => return []
    | some (child, cursor) =>
      let made ← make child
      let rest ← collectFrom make fuel cursor
      return made.toList ++ rest

/-- What is made of the children with a tag. -/
def collectChildren {α : Type} (d : Die) (tag : Nat) (make : Die → Walk (Option α)) :
    Walk (List α) :=
  match d.children? with
  | none => return []
  | some cursor =>
    let choose (child : Die) : Walk (Option α) :=
      if child.tag = some tag then make child else return none
    collectFrom s u choose (CompileUnit.pathLimit s) cursor

def extractVariable (d : Die) (scope : Scope) : Walk VariableInfo := return d.variableInfo scope

/-- Reports a child that no record can be made of. -/
def orSkip {α : Type} (child : Die) (part : Text) (act : Walk α) : Walk (Option α) := do
  match ← attempt act with
  | some a => return some a
  | none =>
    report .warning extractorLogger ("Skipping " ++ part ++ " " ++ child.label)
    return none

def extractFunction (d : Die) : Walk FunctionInfo := do
  let parameters ← collectChildren s u d Tag.formalParameter fun child =>
    orSkip child "parameter" (extractVariable child .parameter)
  ofRecord (d.functionInfo parameters)

def extractMember (d : Die) : Walk MemberInfo := ofRecord d.memberInfo

/-- Only structures and unions have members. -/
def extractMembers (d : Die) : Walk (List MemberInfo) :=
  if d.typeKind = .struct ∨ d.typeKind = .union then
    collectChildren s u d Tag.member fun child => orSkip child "member" (extractMember child)
  else return []

def makeType (d : Die) : Walk TypeInfo := do
  let members ← extractMembers s u d
  ofRecord (d.typeInfo members)

def cacheType (d : Die) (info : TypeInfo) : Walk TypeInfo := do
  modify fun desk => { desk with types := desk.types ++ [((u.offset, d.unitOffset u), info)] }
  return info

/-- A record that was made once is not made again. -/
def extractType (d : Die) : Walk TypeInfo := do
  match (← get).types.lookup (u.offset, d.unitOffset u) with
  | some info => return info
  | none =>
    let info ← makeType s u d
    cacheType u d info

/-- The record of an entry, if it is of a kind that has one. Variables within a subprogram have
none. -/
def recordOf (v : Preorder.Visit Die) : Walk Unit := do
  let d := v.node
  if d.tag = some Tag.subprogram then
    let f ← extractFunction s u d
    modify fun desk => { desk with found.functions := desk.found.functions ++ [f] }
  else if d.tag = some Tag.variableEntry then
    if !v.inside then
      let x ← extractVariable d .global
      modify fun desk => { desk with found.globals := desk.found.globals ++ [x] }
  else if d.tag = some Tag.structureType ∨ d.tag = some Tag.unionType ∨
      d.tag = some Tag.enumerationType then
    let t ← extractType s u d
    modify fun desk => { desk with found.types := desk.found.types ++ [t] }

def processEntry (v : Preorder.Visit Die) : Walk Unit := do
  let pad : Text := (List.replicate v.depth (Text.ofString "|  ")).flatten ++ "|--"
  report .dumpData walkerLogger (pad ++ v.node.label)
  if (← attempt (recordOf s u v)).isNone then
    report .warning walkerLogger ("Skipping " ++ v.node.label)

/-- Handles the entries of a unit in pre-order. -/
def forEntries (handle : Preorder.Visit Die → Walk Unit) : Walk Unit := do
  let top ← inUnit u (u.topDie s)
  Preorder.walk (fun c => inUnit u (u.advance s c)) Die.children? Die.isSubprogram handle
    (throw .endless) (CompileUnit.visitLimit s) top

/-- The entries that are left, up to one that cannot be decoded, and whether there is such a one. -/
def entriesFrom : Nat → List (Preorder.Level Cursor) → Walk (List (Preorder.Visit Die) × Bool)
  | 0, _ => throw .endless
  | fuel + 1, levels => do
    let next := Preorder.next (fun c => inUnit u (u.advance s c)) Die.children? Die.isSubprogram
    match ← attempt (next levels) with
    | none => return ([], true)
    | some none => return ([], false)
    | some (some (v, levels)) =>
      let (rest, stopped) ← entriesFrom fuel levels
      return (v :: rest, stopped)

def entries : Walk (List (Preorder.Visit Die) × Bool) := do
  match ← attempt (inUnit u (u.topDie s)) with
  | none => return ([], true)
  | some top =>
    let v : Preorder.Visit Die := ⟨top, 0, false⟩
    let below := Preorder.below Die.children? Die.isSubprogram v
    let (rest, stopped) ← entriesFrom s u (CompileUnit.visitLimit s) below
    return (v :: rest, stopped)

/-- Reports the first version out of the supported ones. -/
def checkVersion (version : Int) : Walk Unit := do
  if ¬ (2 ≤ version ∧ version ≤ 5) ∧ (← get).versionReported = false then
    modify fun desk => { desk with versionReported := true }
    report .warning walkerLogger
      ("DWARF format version " ++ Text.ofInt version ++ " is not supported, output may be incomplete")

def walkUnit : Walk Unit := do
  checkVersion u.encoding.version
  if (← attempt (forEntries s u (processEntry s u))).isNone then
    report .warning walkerLogger
      ("Cannot decode the compile unit at offset 0x" ++ Text.hex u.offset ++
        ". Skipping the rest of it")

def reportHeader (broken : Bool) : Walk Unit :=
  if broken then
    report .warning walkerLogger "Cannot decode a compile unit header. Stopping the enumeration"
  else return ()

/-- The units, with a report of the header that cannot be decoded. -/
def units : Walk (List CompileUnit) := do
  let (units, broken) := CompileUnit.list s
  reportHeader broken
  return units

def reset : Walk Unit :=
  modify fun desk => { desk with types := [], found := {}, versionReported := false }

/-- What has been found so far, with a report of it. -/
def summarize : Walk Symbols := do
  let found := (← get).found
  report .debug walkerLogger
    ("Found " ++ Text.ofNat found.functions.length ++ " functions, " ++
      Text.ofNat found.globals.length ++ " variables and " ++
      Text.ofNat found.types.length ++ " types")
  return found

/-- The symbols of all units that can be reached. -/
def runUnits : Walk Symbols := do
  let (units, broken) := CompileUnit.list s
  units.forM (walkUnit s)
  reportHeader broken
  summarize

/-- A walk forgets the records of the one before it. Without debug information there are no symbols,
and nothing is said. -/
def run (sections : Option DebugSections) : Walk Symbols := do
  reset
  match sections with
  | none => return {}
  | some s => runUnits s

end Walk

end ElfScope.Dwarf
