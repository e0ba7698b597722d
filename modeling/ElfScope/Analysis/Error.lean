import ElfScope.Elf.File
import ElfScope.Files.Path
import ElfScope.Record.Basic

/-! # Errors of an analysis

An input has a role, and a source that it is known by in messages.
-/
namespace ElfScope

inductive Role where
  | elf
  | core
deriving DecidableEq, Repr

namespace Role

def name : Role → Text
  | .elf => "elf"
  | .core => "core"

/-- What an input of the role is called. -/
def title : Role → Text
  | .elf => "ELF"
  | .core => "core dump"

def ofName? (t : Text) : Option Role := [Role.elf, .core].find? (·.name = t)

end Role

/-- Why an input could not be analyzed. -/
inductive InputFault where
  | unreadable (reason : Text)
  | notElf (e : Elf.OpenError)
  | notCoreDump (kind : FileKind)
  /-- The entries of the debug information lead in a circle. -/
  | endless
deriving DecidableEq

structure InputError where
  role : Role
  source : Text
  fault : InputFault
deriving DecidableEq

def InputError.message (e : InputError) : Text :=
  let body : Text := match e.fault with
    | .unreadable reason => "Failed to read " ++ e.role.title ++ " file. " ++ reason
    | .notElf cause => cause.message
    | .notCoreDump kind => "File is not a core dump. Object type is " ++ Enumeration.value kind
    | .endless => "The debug information has no end"
  "[" ++ e.role.name ++ "] " ++ e.source ++ ": " ++ body

/-- Why the inputs could not all be analyzed: some failed, or the name of one is no name. -/
inductive AnalysisError where
  | inputs (failures : List InputError) (completed : AnalysisResult)
  | name (e : FileError)
deriving DecidableEq

def AnalysisError.message (e : AnalysisError) : Text :=
  match e with
  | .inputs failures _ => Text.join "; " (failures.map InputError.message)
  | .name e => e.message []

end ElfScope
