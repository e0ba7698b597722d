import ElfScope.Log.Basic

/-! # Log settings

Which records are shown, and how a shown record is written.
-/
namespace ElfScope

structure LogSettings where
  threshold : Level
  disabled : List Text
deriving DecidableEq

namespace LogSettings

/-- The logger that all others report to. It cannot be disabled. -/
def root : Text := "root"

/-- Settings from the name of a level and a list of loggers separated by commas; none where the
level is not known. -/
def configure? (level : Text) (disabled : Option Text) : Option LogSettings := do
  let threshold ← Level.ofName? level
  let names := (disabled.map (Text.splitOn ',')).getD []
  return ⟨threshold, (names.map Text.trim).filter fun name => !name.isEmpty && name ≠ root⟩

def unknownLevelMessage (level : Text) : Text := "Unknown log level " ++ level

/-- Detailed logs are timed. -/
def timed (s : LogSettings) : Bool := s.threshold.rank ≤ Level.debug.rank

/-- The shape of a line, with its fields by name. -/
def layout (s : LogSettings) : Text :=
  (if s.timed then "%(relativeCreated)s " else "") ++ "[%(levelname)s] <%(name)s> %(message)s"

def shows (s : LogSettings) (r : LogRecord) : Bool :=
  s.threshold.rank ≤ r.level.rank && !s.disabled.contains r.logger

/-- The line of a record. -/
def line (s : LogSettings) (time : Text) (r : LogRecord) : Text :=
  (if s.timed then time ++ " " else []) ++ "[" ++ r.level.name ++ "] <" ++ r.logger ++ "> " ++
    r.message ++ "\n"

/-- The names of the disabled loggers, each once and in order. -/
def disabledNames (s : LogSettings) : List Text :=
  (s.disabled.eraseDups).mergeSort Text.le

end LogSettings

/-- What is told of an exception that was raised: its message, after one of our own if there is
one, at one level, and its trace at another. A level may be left out, and either part is dropped
where the logger does not take its level. -/
def exceptionReports (threshold : Level) (kind text : Text) (message : Option Text)
    (level trace : Option Level) : List (Level × Text) :=
  let summary := match message with
    | some m => m ++ "\n  Underlying error: " ++ text
    | none => text
  let traced := kind ++ (if text.isEmpty then [] else (": " : Text) ++ text) ++ "\n"
  let part (level : Option Level) (body : Text) : List (Level × Text) :=
    match level with
    | some l => if threshold.rank ≤ l.rank then [(l, body)] else []
    | none => []
  part level summary ++ part trace traced

end ElfScope
