import ElfScope.Inspection.Symbols
import ElfScope.Inspection.Threads

/-! # Analyzing data in memory

Each analysis gives its outcome and what it reported.
-/
namespace ElfScope.Analysis

/-- The source of data that has no name. -/
def bytesSource : Text := "<bytes>"

/-- The facts of a file, with its symbols unless only the headers are wanted. -/
def elfInfo (data : Bytes) (withDwarf : Bool) (source : Text) : Except InputError ElfInfo × Log :=
  match Inspection.ofBytes data .elf source with
  | .error e => (.error e, [])
  | .ok i =>
    let (facts, i) := Inspection.facts.run i
    if !withDwarf then (.ok (.ofFacts facts), i.log)
    else
      let (symbols, i) := Inspection.extractSymbols.run i
      match symbols with
      | .ok symbols => (.ok (.ofFacts facts symbols), i.log)
      | .error .endless => (.error ⟨.elf, source, .endless⟩, i.log)
      | .error _ =>
        (.ok (.ofFacts facts),
          i.log ++ [⟨.warning, Inspection.analyzerLogger,
            source ++ ": Failed to read the debug symbols"⟩])

def coreInfo (data : Bytes) (source : Text) : Except InputError CoreInfo × Log :=
  match Inspection.ofBytes data .core source with
  | .error e => (.error e, [])
  | .ok i => match i.requireCoreDump with
    | .error e => (.error e, [])
    | .ok _ =>
      let (info, i) := Inspection.coreInfo.run i
      (.ok info, i.log)

/-- The outcome for inputs that may each be given or not. -/
def combine (elf : Option (Except InputError ElfInfo)) (core : Option (Except InputError CoreInfo)) :
    Except AnalysisError AnalysisResult :=
  let failure {α : Type} : Option (Except InputError α) → List InputError
    | some (.error e) => [e]
    | _ => []
  let value {α : Type} : Option (Except InputError α) → Option α
    | some (.ok a) => some a
    | _ => none
  let result : AnalysisResult := { elfInfo := value elf, coreInfo := value core }
  match failure elf ++ failure core with
  | [] => .ok result
  | failures => .error (.inputs failures result)

def ofBytes (elfData coreData : Option Bytes) (withDwarf : Bool) :
    Except AnalysisError AnalysisResult × Log :=
  let elf := elfData.map fun data => elfInfo data withDwarf bytesSource
  let core := coreData.map fun data => coreInfo data bytesSource
  (combine (elf.map (·.1)) (core.map (·.1)),
    (elf.map (·.2)).getD [] ++ (core.map (·.2)).getD [])

end ElfScope.Analysis
