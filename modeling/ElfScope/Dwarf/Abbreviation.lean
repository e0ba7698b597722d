import ElfScope.Dwarf.Form

/-! # Abbreviations

An entry names its tag and the forms of its attributes by the code of an abbreviation. A table of
abbreviations is sound as a whole or not at all.
-/
namespace ElfScope.Dwarf

/-- A form that is not known only matters to the entries that use it. -/
structure AttributeSpec where
  code : Nat
  form : Option Form
  constant : Int
deriving DecidableEq, Repr

structure Abbreviation where
  code : Nat
  tag : Nat
  hasChildren : Bool
  attributes : List AttributeSpec
deriving DecidableEq, Repr

namespace AttributeSpec

/-- None at the pair of zeros that ends a list. -/
def decoder : Decoder (Option AttributeSpec) := do
  let code ← Leb128.unsigned
  let formCode ← Leb128.unsigned
  let form := Form.ofCode? formCode
  let constant ← if form = some .implicitConst then Leb128.signed else pure 0
  return if code = 0 ∧ formCode = 0 then none else some { code, form, constant }

end AttributeSpec

namespace Abbreviation

/-- None at the code zero that ends a table. -/
def decoder : Decoder (Option Abbreviation) := do
  let code ← Leb128.unsigned
  if code = 0 then return none
  let tag ← Leb128.unsigned
  let children ← Decoder.number .little 1
  if 1 < children then throw ⟨1, 1⟩
  let attributes ← Decoder.repeatUntilNone AttributeSpec.decoder
  return some { code, tag, hasChildren := children = 1, attributes }

abbrev Table := List Abbreviation

/-- The table at an offset, which must lie within the section. -/
def table? (contents : Bytes) (offset : Nat) : Option Table :=
  if contents.length ≤ offset then none
  else ((Decoder.repeatUntilNone decoder).valueAt contents offset).toOption

/-- Of two abbreviations with one code the last counts. -/
def find? (t : Table) (code : Nat) : Option Abbreviation := t.reverse.find? (·.code = code)

end Abbreviation

end ElfScope.Dwarf
