import ElfScope.Command.Run

/-! # The program

The host of a process. Relative names start from a place that the program keeps for itself.
-/
namespace ElfScope

structure Process where
  place : IO.Ref Path
  /-- The time of the start, in milliseconds. -/
  start : Nat

abbrev Terminal := ReaderT Process IO

namespace Terminal

def spell (t : Text) : String := String.ofList (t.map fun c => Char.ofNat c.value)

def faultOf : IO.Error → FileError
  | .noFileOrDirectory .. => .noSuchFile
  | .inappropriateType _ 20 _ => .notADirectory
  | .inappropriateType _ 21 _ => .isADirectory
  | .invalidArgument _ 36 _ => .nameTooLong
  | .inappropriateType _ code reason | .permissionDenied _ code reason
  | .invalidArgument _ code reason | .resourceExhausted _ code reason
  | .alreadyExists _ code reason | .otherError code reason => .other code.toNat reason
  | e => .other 5 (toString e)

/-- The absolute name that the system is asked for. -/
def locate (here : Path) (name : Text) : Except FileError String := do
  Path.checkName name
  if name.isEmpty then throw .noSuchFile
  return spell (if Path.isAbsolute name then name else here.render ++ "/" ++ name)

def withFile {α : Type} (name : Text) (act : String → IO α) : Terminal (Except FileError α) := do
  match locate (← (← read).place.get) name with
  | .error e => return .error e
  | .ok path => match ← (act path).toBaseIO with
    | .ok a => return .ok a
    | .error e => return .error (faultOf e)

def readFile (name : Text) : Terminal (Except FileError Bytes) :=
  withFile name fun path => return (← (← IO.FS.Handle.mk path .read).readBinToEnd).toList

instance : Host Terminal where
  Place := Path
  Sink := IO.FS.Handle
  readFile := readFile
  writeFile name content := withFile name fun path => IO.FS.writeBinFile path ⟨content.toArray⟩
  isFile name := return (← readFile name).isOk
  openSink name := withFile name fun path => IO.FS.Handle.mk path .append
  addTo sink content := do
    sink.write ⟨content.toArray⟩
    sink.flush
  absolute name := return Path.absolute (← (← read).place.get) name
  place := do (← read).place.get
  enter name := do
    match ← withFile name fun path => IO.FS.realPath (path ++ "/.") with
    | .error e => return .error e
    | .ok path =>
      (← read).place.set (Path.parts (path.toString : String))
      return .ok ()
  goBack place := do (← read).place.set place
  write t := do
    let out ← IO.getStdout
    out.putStr (spell t)
    out.flush
  complain t := do (← IO.getStderr).putStr (spell t)
  uptime := return Text.ofNat ((← IO.monoMsNow) - (← read).start)

end Terminal

end ElfScope

open ElfScope in
/-- The current directory is the working directory, and the program exits with the code of the
command. -/
def main (arguments : List String) : IO UInt32 := do
  let here := Path.parts ((← IO.FS.realPath ".").toString : String)
  let process : Process := ⟨← IO.mkRef here, ← IO.monoMsNow⟩
  let ending ← (Program.run {} (arguments.map Text.ofString) : Terminal Ending).run process
  return UInt32.ofNat (Program.exitCode ending)
