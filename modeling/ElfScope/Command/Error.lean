import ElfScope.Analysis.Error
import ElfScope.Log.Settings

/-! # Errors of a command -/
namespace ElfScope

inductive CommandError where
  | unknownCommand (name : Text)
  | unknownLevel (level : Text)
  | nothingToAnalyze
  | file (path : Text) (e : FileError)
deriving DecidableEq

namespace CommandError

def message : CommandError → Text
  | .unknownCommand name => "Unknown command " ++ name
  | .unknownLevel level => LogSettings.unknownLevelMessage level
  | .nothingToAnalyze => "Nothing to analyze. Specify --elf, --core or both"
  | .file path e => e.message path

end CommandError

/-- What ends a command before it is done: an error, or the end of the whole program. -/
inductive Interruption where
  | failed (e : CommandError)
  | exit (code : Nat)
deriving DecidableEq

end ElfScope
