import ElfScope.Inspection.DebugSections

/-! # Symbols of a file -/
namespace ElfScope.Inspection

/-- The debug information of this inspection, loaded when it is first asked for. -/
def debugInfo : Inspecting (Option DebugInfo) := do
  match (← get).debug with
  | some d => return d
  | none =>
    let d ← loadDebugInfo
    modify fun i => { i with debug := some d }
    return d

/-- Walks in the debug information. What the walk keeps stays for the next one. -/
def walking {α : Type} (act : Option Dwarf.DebugSections → Dwarf.Walk α) :
    Inspecting (Except Dwarf.Failure α) := do
  let d ← debugInfo
  let i ← get
  let outcome := Dwarf.outcome (act (d.map DebugInfo.toSections)) i.desk
  set { i with desk := { outcome.2 with log := [] }, log := i.log ++ outcome.2.log }
  return outcome.1

def analyzerLogger : Text := "analyzer"

def symbols : Inspecting (Except Dwarf.Failure Symbols) := do
  let d ← debugInfo
  if d.isNone then
    report .debug analyzerLogger ((← get).source ++ ": No debug information")
    return .ok {}
  else walking Dwarf.Walk.run

/-- The symbols from a walk of its own, with nothing kept from others but the section table. -/
def extractSymbols : Inspecting (Except Dwarf.Failure Symbols) := do
  let before ← get
  modify fun i => { i with loaded := [], debug := none, desk := {} }
  let result ← symbols
  modify fun i => { i with loaded := before.loaded, debug := before.debug, desk := before.desk }
  return result

end ElfScope.Inspection
