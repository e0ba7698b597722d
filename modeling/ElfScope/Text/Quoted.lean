import ElfScope.Text.Printable

/-! # Quoted text

Text as it stands in messages: in single quotes, or in double quotes where it holds a single quote
and no double one. What cannot be printed is written as an escape.
-/
namespace ElfScope.Text

def quoteMark (t : Text) : CodePoint :=
  if t.contains (CodePoint.ofChar '\'') && !t.contains (CodePoint.ofChar '"') then '"' else '\''

def escapePoint (mark c : CodePoint) : Text :=
  if c = mark ∨ c = '\\' then ['\\', c]
  else if c = '\t' then "\\t"
  else if c = '\n' then "\\n"
  else if c = '\r' then "\\r"
  else if isPrintable c then [c]
  else if c.value < 0x100 then "\\x" ++ hexPadded 2 c.value
  else if c.value < 0x10000 then "\\u" ++ hexPadded 4 c.value
  else "\\U" ++ hexPadded 8 c.value

def quoted (t : Text) : Text :=
  let mark := quoteMark t
  mark :: t.flatMap (escapePoint mark) ++ [mark]

end ElfScope.Text
