import ElfScope.Analysis.Bytes
import ElfScope.Files.Host

/-! # Analyzing files

Reading a file is part of its analysis. A name that is no name ends the whole analysis.
-/
namespace ElfScope.Analysis

variable {m : Type → Type} [Monad m] [Host m]

/-- The outcome of one input, and what was reported. -/
abbrev Outcome (α : Type) := Except FileError (Except InputError α) × Log

def ofFile {α : Type} (role : Role) (analyze : Bytes → Except InputError α × Log) (path : Text) :
    m (Outcome α) := do
  match ← Host.readFile path with
  | .ok data =>
    let (result, log) := analyze data
    return (.ok result, log)
  | .error e => match e.system? with
    | some (_, reason) => return (.ok (.error ⟨role, path, .unreadable reason⟩), [])
    | none => return (.error e, [])

def elfFile (withDwarf : Bool) (path : Text) : m (Outcome ElfInfo) :=
  ofFile .elf (elfInfo · withDwarf path) path

def coreFile (path : Text) : m (Outcome CoreInfo) :=
  ofFile .core (coreInfo · path) path

/-- Analyzes the files that are given, and passes on what was reported as it comes. -/
def ofFiles (tell : Log → m Unit) (elfPath corePath : Option Text) (withDwarf : Bool) :
    m (Except AnalysisError AnalysisResult) := do
  let elf ← elfPath.mapM fun path => do
    let (outcome, log) ← elfFile withDwarf path
    tell log
    return outcome
  if let some (.error e) := elf then return .error (.name e)
  let core ← corePath.mapM fun path => do
    let (outcome, log) ← coreFile path
    tell log
    return outcome
  if let some (.error e) := core then return .error (.name e)
  return combine (elf.bind (·.toOption)) (core.bind (·.toOption))

end ElfScope.Analysis
