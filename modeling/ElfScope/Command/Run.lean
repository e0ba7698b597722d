import ElfScope.Analysis.Files
import ElfScope.Command.Error
import ElfScope.Command.Manual
import ElfScope.Record.Writing
import ElfScope.Text.Utf8

/-! # Running commands

A command is carried out in a working directory, and the place of before is always returned to. Its
errors are logged, or passed on where the caller is strict. Bad arguments end the program.
-/
namespace ElfScope

variable {m : Type → Type} [Monad m] [Host m]

/-- Where the records of a run go. -/
structure Reporter (m : Type → Type) [Host m] where
  settings : LogSettings
  sink : Option (Host.Sink m)

namespace Reporter

def tellOne (r : Reporter m) (entry : LogRecord) : m Unit := do
  if r.settings.shows entry then
    let line := r.settings.line (← Host.uptime) entry
    match r.sink with
    | some sink => Host.addTo sink (Utf8.encodeVisibly line)
    | none => Host.complain line

def tell (r : Reporter m) (log : Log) : m Unit := log.forM r.tellOne

end Reporter

/-- How a run ended, and whether its log was set up. -/
structure Ending where
  result : Except Interruption Nat
  logging : Bool

namespace Program

def logger : Text := "CLI"

abbrev Job (m : Type → Type) (α : Type) := ExceptT Interruption m α

def fail {α : Type} (e : CommandError) : Job m α := throw (.failed e)

def orFail {α : Type} (path : Text) (act : m (Except FileError α)) : Job m α := do
  match ← (act : Job m _) with
  | .ok a => return a
  | .error e => fail (.file path e)

/-- Understands arguments, or ends the program with help or a complaint. -/
def understand {α : Type} (f : CommandForm) (usage help : Text) (parsed : Except Stop α) :
    Job m α := do
  match parsed with
  | .ok a => return a
  | .error .help =>
    Host.write help
    throw (.exit 0)
  | .error (.misuse e) =>
    Host.complain (usage ++ f.program ++ ": error: " ++ e.message ++ "\n")
    throw (.exit 2)

def openReporter (level : Text) (a : Arguments) : Job m (Reporter m) := do
  match LogSettings.configure? level (a.value? disableOption) with
  | none => fail (.unknownLevel level)
  | some settings => match a.value? logFileOption with
    | none | some [] => return { settings, sink := none }
    | some name =>
      let path ← Host.absolute name
      let sink ← orFail path (Host.openSink path : m _)
      return { settings, sink := some sink }

end Program

namespace Command

open Program (Job fail orFail)

def logger : Text := "Analyze"

def existsMessage (name : Text) : Text := "File " ++ name ++ " already exist. Overwriting"

def writeOutput (r : Reporter m) (content : Text) : Option Text → Job m Unit
  | none => Host.write (content ++ "\n")
  | some name => do
    if ← Host.isFile name then
      r.tell [⟨.warning, logger, existsMessage name⟩]
    orFail name (Host.writeFile name (Utf8.encode content))

/-- What could be analyzed is written even if something else failed. -/
def analyzeFiles (r : Reporter m) (a : Arguments) : Job m Nat := do
  let elf := a.value? elfOption
  let core := a.value? coreOption
  if elf.isNone && core.isNone then fail .nothingToAnalyze
  let output := a.value? outputOption
  match ← (Analysis.ofFiles r.tell elf core (!a.isOn noDwarfOption) : m _) with
  | .ok result =>
    writeOutput r result.render output
    return 0
  | .error (.name e) => fail (.file [] e)
  | .error (.inputs failures completed) =>
    r.tell (failures.map fun e => ⟨.error, logger, e.message⟩)
    if completed ≠ {} then writeOutput r completed.render output
    return 1

def showVersion (a : Arguments) : Job m Nat := do
  let short := a.value? formatOption = some shortFormat
  Host.write ((if short then Program.version else Program.fullVersion) ++ "\n")
  return 0

def carryOut (c : Command) (r : Reporter m) (arguments : List Text) : Job m Nat := do
  let a ← Program.understand c.form c.usage c.help (c.form.parse arguments)
  match c with
  | .analyze => analyzeFiles r a
  | .version => showVersion a

end Command

namespace Program

structure Settings where
  workingDirectory : Text := "."
  /-- The log level where none is asked for. -/
  level : Text := "warning"
  /-- Whether errors are passed on instead of being logged. -/
  strict : Bool := false

/-- Logs an error, or complains of it plainly if there is no log. -/
def reportError (r : Option (Reporter m)) (arguments : List Text) (e : CommandError) : m Unit :=
  match r with
  | none => Host.complain (e.message ++ "\n")
  | some r => r.tell
      [⟨.error, logger, e.message⟩,
        ⟨.debug, logger, "Command : himmel " ++ Text.join " " arguments⟩]

def runCommand (s : Settings) (c : Command) (a : Arguments) (arguments : List Text) : m Ending := do
  let before ← Host.place
  let level := match a.value? levelOption with
    | none | some [] => s.level
    | some level => level
  match ← (openReporter level a : Job m _).run with
  | .error e => finish before none e
  | .ok r =>
    let job : Job m Nat := do
      orFail s.workingDirectory (Host.enter s.workingDirectory)
      c.carryOut r a.rest
    match ← job.run with
    | .error e => finish before (some r) e
    | .ok code =>
      Host.goBack before
      return ⟨.ok code, true⟩
where
  finish (before : Host.Place m) (r : Option (Reporter m)) (e : Interruption) : m Ending := do
    let result ← match e with
      | .failed cause =>
        if s.strict then pure (.error e)
        else do
          reportError r arguments cause
          pure (.ok 1)
      | .exit _ => pure (.error e)
    Host.goBack before
    return ⟨result, r.isSome⟩

/-- Runs a command line. A call for help must come first. -/
def run (s : Settings) (arguments : List Text) : m Ending := do
  if arguments.head? = some (Text.ofString "-h") ∨ arguments.head? = some (Text.ofString "--help") then
    Host.write help
    return ⟨.ok 0, false⟩
  match ← (understand form usage help (form.parseKnown arguments) : Job m _).run with
  | .error e => return ⟨.error e, false⟩
  | .ok a =>
    let name := a.word.getD []
    match Command.ofName? name with
    | some c => runCommand s c a arguments
    | none =>
      if s.strict then return ⟨.error (.failed (.unknownCommand name)), false⟩
      else
        Host.write help
        return ⟨.ok 1, false⟩

/-- The code that the program exits with. -/
def exitCode (e : Ending) : Nat :=
  match e.result with
  | .ok code | .error (.exit code) => code
  | .error (.failed _) => 1

end Program

end ElfScope
