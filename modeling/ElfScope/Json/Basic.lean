import ElfScope.Json.Real
import ElfScope.Text.Quoted

/-! # JSON values

An object keeps its keys in the order in which they first appear, and the last value of each.
-/
namespace ElfScope

inductive Json where
  | null
  | bool (b : Bool)
  | int (n : Int)
  | real (r : Json.Real)
  | string (t : Text)
  | array (items : List Json)
  | object (fields : List (Text × Json))
deriving BEq, Inhabited

namespace Json

/-- Replaces the value of a key in place, or adds the key at the end. -/
def insertField (key : Text) (value : Json) : List (Text × Json) → List (Text × Json)
  | [] => [(key, value)]
  | (k, v) :: rest =>
    if k = key then (k, value) :: rest else (k, v) :: insertField key value rest

def field? (key : Text) : List (Text × Json) → Option Json
  | [] => none
  | (k, v) :: rest => if k = key then some v else field? key rest

mutual

/-- A value as it stands in messages. -/
def quoted : Json → Text
  | .null => "None"
  | .bool b => if b then "True" else "False"
  | .int n => Text.ofInt n
  | .real r => r.text
  | .string t => t.quoted
  | .array items => "[" ++ Text.join ", " (quotedItems items) ++ "]"
  | .object fields => "\x7b" ++ Text.join ", " (quotedFields fields) ++ "\x7d"

def quotedItems : List Json → List Text
  | [] => []
  | item :: rest => quoted item :: quotedItems rest

def quotedFields : List (Text × Json) → List Text
  | [] => []
  | (key, value) :: rest => (key.quoted ++ ": " ++ quoted value) :: quotedFields rest

end

end ElfScope.Json
