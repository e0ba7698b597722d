import ElfScope.Json.Basic

/-! # Writing JSON

The text is ASCII. Without an indent it is one line, with a blank after each comma and colon; with
one, each item stands on its own line. An empty array or object is always closed at once.
-/
namespace ElfScope.Json

def unitEscape (n : Nat) : Text := "\\u" ++ Text.hexPadded 4 n

def escape (c : CodePoint) : Text :=
  let n := c.value
  if c = '"' then "\\\""
  else if c = '\\' then "\\\\"
  else if c = '\n' then "\\n"
  else if c = '\r' then "\\r"
  else if c = '\t' then "\\t"
  else if n = 0x0c then "\\f"
  else if n = 0x08 then "\\b"
  else if 0x20 ≤ n ∧ n ≤ 0x7e then [c]
  else if n < 0x10000 then unitEscape n
  else unitEscape (0xd800 + (n - 0x10000) / 0x400) ++ unitEscape (0xdc00 + (n - 0x10000) % 0x400)

def renderString (t : Text) : Text := "\"" ++ t.flatMap escape ++ "\""

/-- The break before an item at a level, if items have lines of their own. -/
def lineBreak : Option Nat → Nat → Text
  | none, _ => []
  | some indent, level => "\n" ++ (List.replicate (indent * level) (CodePoint.ofChar ' ') : Text)

def comma : Option Nat → Text
  | none => ", "
  | some _ => ","

def renderReal : Real → Text
  | .notANumber => "NaN"
  | .infinite false => "Infinity"
  | .infinite true => "-Infinity"
  | r => r.text

mutual

def renderAt (indent : Option Nat) (level : Nat) : Json → Text
  | .null => "null"
  | .bool b => if b then "true" else "false"
  | .int n => Text.ofInt n
  | .real r => renderReal r
  | .string t => renderString t
  | .array [] => "[]"
  | .array (item :: rest) =>
    "[" ++ lineBreak indent (level + 1) ++ renderAt indent (level + 1) item ++
      renderItems indent (level + 1) rest ++ lineBreak indent level ++ "]"
  | .object [] => "\x7b\x7d"
  | .object (field :: rest) =>
    "\x7b" ++ lineBreak indent (level + 1) ++ renderField indent (level + 1) field ++
      renderFields indent (level + 1) rest ++ lineBreak indent level ++ "\x7d"

def renderItems (indent : Option Nat) (level : Nat) : List Json → Text
  | [] => []
  | item :: rest =>
    comma indent ++ lineBreak indent level ++ renderAt indent level item ++
      renderItems indent level rest

def renderField (indent : Option Nat) (level : Nat) : Text × Json → Text
  | (key, value) => renderString key ++ ": " ++ renderAt indent level value

def renderFields (indent : Option Nat) (level : Nat) : List (Text × Json) → Text
  | [] => []
  | field :: rest =>
    comma indent ++ lineBreak indent level ++ renderField indent level field ++
      renderFields indent level rest

end

def render (indent : Option Nat) (j : Json) : Text := renderAt indent 0 j

end ElfScope.Json
