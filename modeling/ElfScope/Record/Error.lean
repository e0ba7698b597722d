import ElfScope.Json.Parser

/-! # Errors of records

Why a value is not a record, with the wording of each cause.
-/
namespace ElfScope

inductive RecordError where
  | wrongType (name expected found : Text)
  | noneOfTypes (name : Text) (expected : List Text) (found : Text)
  | belowMinimum (name : Text) (minimum value : Int)
  | aboveMaximum (name : Text) (maximum value : Int)
  | notAnObject (key found : Text)
  | missingField (key : Text)
  | notAList (key : Text)
  | notAMember (value : Json) (enumeration : Text)
  | notAByte
  | notAnInteger (found : Text)
  | noThreads
  | resultNotAnObject

/-- An error is about the type of a value, or about a value of the right type. -/
inductive RecordError.Kind where
  | type
  | value
deriving DecidableEq, Repr

namespace RecordError

def kind : RecordError → Kind
  | .wrongType .. | .noneOfTypes .. | .notAnObject .. | .notAList _ | .notAnInteger _
  | .resultNotAnObject => .type
  | .belowMinimum .. | .aboveMaximum .. | .missingField _ | .notAMember .. | .notAByte
  | .noThreads => .value

def doubleQuoted (t : Text) : Text := "\"" ++ t ++ "\""

/-- The wording of a limit; a value too long to be written is told of in its place. -/
def limitMessage (name relation : Text) (limit value : Int) : Text :=
  if Json.maxIntegerDigits < (toString value.natAbs).length then
    Json.tooManyDigits none
  else name ++ " must be " ++ relation ++ " than " ++ Text.ofInt limit ++ ". Got " ++ Text.ofInt value

def message : RecordError → Text
  | .wrongType name expected found =>
    doubleQuoted name ++ " is not of type " ++ doubleQuoted expected ++ ". Got " ++
      doubleQuoted found ++ " instead"
  | .noneOfTypes name expected found =>
    let shown : Text := "[" ++ Text.join ", " (expected.map Text.quoted) ++ "]"
    doubleQuoted name ++ " type is not one of " ++ doubleQuoted shown ++ ". Got " ++
      doubleQuoted found ++ " instead"
  | .belowMinimum name minimum value => limitMessage name "greater" minimum value
  | .aboveMaximum name maximum value => limitMessage name "less" maximum value
  | .notAnObject key found =>
    "Expected an object while reading " ++ doubleQuoted key ++ ". Got " ++ found
  | .missingField key => "Missing field " ++ doubleQuoted key
  | .notAList key => "Field " ++ doubleQuoted key ++ " must be a list"
  | .notAMember value enumeration => value.quoted ++ " is not a valid " ++ enumeration
  | .notAByte => "bytes must be in range(0, 256)"
  | .notAnInteger found =>
    Text.quoted found ++ " object cannot be interpreted as an integer"
  | .noThreads => "A core dump has at least one thread"
  | .resultNotAnObject => "An analysis result must be an object"

end ElfScope.RecordError
