import ElfScope.Log.Basic

/-! # Reading a log back

The records of a text that holds log lines. A line that is no record, such as the second line of a
message, is passed over.
-/
namespace ElfScope.LogLines

/-- Without the time of a timed line. -/
def dropTime (line : Text) : Text :=
  let isTime (c : CodePoint) : Bool := c.isDigit || c = '.'
  match line.takeWhile isTime, line.dropWhile isTime with
  | _ :: _, c :: rest => if c = ' ' then rest else line
  | _, _ => line

def record? (line : Text) : Option LogRecord := do
  let line := dropTime line
  if line.head? ≠ some (CodePoint.ofChar '[') then failure
  let (levelName, rest) ← Text.cut? "] <" (line.drop 1)
  let level ← Level.all.find? (·.name = levelName)
  let (logger, message) ← Text.cut? "> " rest
  return ⟨level, logger, message⟩

def records (t : Text) : Log := (Text.splitOn '\n' t).filterMap record?

end ElfScope.LogLines
