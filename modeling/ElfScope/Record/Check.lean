import ElfScope.Record.Error
import ElfScope.Record.Kind

/-! # Checks

The types and ranges that the fields of a record are held to.
-/
namespace ElfScope

/-- The types of values, by the names that messages use. -/
inductive ValueType where
  | int
  | str
  | bool
  | float
  | list
  | dict
  | tuple
  | bytes
  | none
deriving DecidableEq, Repr

namespace ValueType

def name : ValueType → Text
  | .int => "int"
  | .str => "str"
  | .bool => "bool"
  | .float => "float"
  | .list => "list"
  | .dict => "dict"
  | .tuple => "tuple"
  | .bytes => "bytes"
  | .none => "NoneType"

def all : List ValueType := [.int, .str, .bool, .float, .list, .dict, .tuple, .bytes, .none]

def ofName? (t : Text) : Option ValueType := all.find? (·.name = t)

end ValueType

def Json.type : Json → ValueType
  | .null => .none
  | .bool _ => .bool
  | .int _ => .int
  | .real _ => .float
  | .string _ => .str
  | .array _ => .list
  | .object _ => .dict

namespace Check

def maxWord : Int := 0xffffffffffffffff

/-- A truth value is no integer. -/
def isType (name : Text) (expected found : ValueType) : Except RecordError Unit :=
  if found = expected then .ok () else .error (.wrongType name expected.name found.name)

def isOneOf (name : Text) (expected : List ValueType) (found : ValueType) : Except RecordError Unit :=
  if found ∈ expected then .ok ()
  else .error (.noneOfTypes name (expected.map ValueType.name) found.name)

/-- The limits themselves are allowed. -/
def inRange (name : Text) (minimum maximum : Option Int) (n : Int) : Except RecordError Unit := do
  if let some low := minimum then
    if n < low then throw (.belowMinimum name low n)
  if let some high := maximum then
    if high < n then throw (.aboveMaximum name high n)

def integer (name : Text) : Json → Except RecordError Int
  | .int n => .ok n
  | v => .error (.wrongType name ValueType.int.name v.type.name)

def integerInRange (name : Text) (minimum maximum : Option Int) (v : Json) : Except RecordError Int := do
  let n ← integer name v
  inRange name minimum maximum n
  return n

def text (name : Text) : Json → Except RecordError Text
  | .string t => .ok t
  | v => .error (.wrongType name ValueType.str.name v.type.name)

/-- A number of 64 bits. -/
def wordOf (name : Text) (n : Int) : Except RecordError UInt64 := do
  inRange name (some 0) (some maxWord) n
  return UInt64.ofNat n.toNat

def word (name : Text) (v : Json) : Except RecordError UInt64 := do
  wordOf name (← integer name v)

/-- Lets null through. -/
def optional {α : Type} (check : Json → Except RecordError α) : Json → Except RecordError (Option α)
  | .null => .ok none
  | v => some <$> check v

def itemName (name : Text) (index : Nat) : Text := name ++ "[" ++ Text.ofNat index ++ "]"

/-- Every item is of one type. -/
def items (name : Text) (expected : ValueType) (vs : List Json) : Except RecordError Unit :=
  vs.zipIdx.forM fun (v, index) => isType (itemName name index) expected v.type

/-- The items of a list, as texts. -/
def texts (name : Text) (vs : List Json) : Except RecordError (List Text) :=
  vs.zipIdx.mapM fun (v, index) => text (itemName name index) v

/-- A truth value counts as a number here. -/
def byte : Json → Except RecordError UInt8
  | .int n => if 0 ≤ n ∧ n < 256 then .ok (UInt8.ofNat n.toNat) else .error .notAByte
  | .bool b => .ok (if b then 1 else 0)
  | v => .error (.notAnInteger v.type.name)

def member {α : Type} [Enumeration α] (v : Json) : Except RecordError α :=
  let found : Option α := match v with
    | .string t => Enumeration.ofValue? t
    | _ => none
  match found with
  | some a => .ok a
  | none => .error (.notAMember v (Enumeration.title α))

end ElfScope.Check
