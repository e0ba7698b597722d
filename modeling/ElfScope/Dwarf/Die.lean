import ElfScope.Dwarf.CompileUnit

/-! # Entries

A debugging information entry with its attributes. Strings are looked up as an entry is decoded.
The forms that are an index into another section go through a base, which an attribute of the unit's
top entry gives.
-/
namespace ElfScope.Dwarf

namespace AttributeCode

def sibling : Nat := 0x01
def location : Nat := 0x02
def name : Nat := 0x03
def byteSize : Nat := 0x0b
def lowPc : Nat := 0x11
def highPc : Nat := 0x12
def dataMemberLocation : Nat := 0x38
def type : Nat := 0x49
def stringOffsetsBase : Nat := 0x72
def addressBase : Nat := 0x73
def rangeListsBase : Nat := 0x74
def locationListsBase : Nat := 0x8c

end AttributeCode

structure Attribute where
  code : Nat
  form : Form
  value : Value
deriving DecidableEq, Repr

/-- In the order of the abbreviation, one for each code. -/
abbrev Attributes := List Attribute

namespace Attributes

def get? (as : Attributes) (code : Nat) : Option Attribute := as.find? (·.code = code)

/-- An attribute that is there already keeps its place. -/
def set (a : Attribute) : Attributes → Attributes
  | [] => [a]
  | b :: rest => if b.code = a.code then a :: rest else b :: set a rest

end Attributes

/-- A null entry has no tag. -/
structure Die where
  offset : Nat
  size : Nat
  tag : Option Nat
  hasChildren : Bool
  attributes : Attributes
deriving DecidableEq, Repr

def Die.isNull (d : Die) : Bool := d.tag.isNone

def Die.attribute? (d : Die) (code : Nat) : Option Attribute := d.attributes.get? code

def reachable (position : Int) : Bool := 0 ≤ position && position < Bytes.positionLimit

/-- The string at an offset. It is absent where no NUL ends it. -/
def stringAt? (table : Bytes) (offset : Int) : Option Value :=
  if reachable offset then
    some (match Bytes.beforeNul? (table.drop offset.toNat) with
      | some bs => .text bs
      | none => .absent)
  else none

def numberAt? (table : Option Bytes) (width : Nat) (position : Int) : Option Nat :=
  match table with
  | none => none
  | some bs =>
    if reachable position then ((Decoder.number .little width).valueAt bs position.toNat).toOption
    else none

/-- What an indexed form indexes. -/
inductive IndexedTable where
  | strings
  | addresses
  | locationLists
  | rangeLists

def Form.indexed? : Form → Option IndexedTable
  | .strx1 | .strx2 | .strx3 | .strx4 => some .strings
  | .addrx | .addrx1 | .addrx2 | .addrx3 | .addrx4 => some .addresses
  | .loclistx => some .locationLists
  | .rnglistx => some .rangeLists
  | _ => none

namespace CompileUnit

variable (s : DebugSections) (u : CompileUnit)

def baseOf? (bases : Attributes) (code : Nat) : Option Int :=
  match bases.get? code with
  | some { value := .number n, .. } => some n
  | _ => none

/-- Looks an index up, with the bases among some attributes. -/
def lookup? (bases : Attributes) (table : IndexedTable) (index : Int) : Option Value := do
  let width : Nat := u.encoding.offsetSize
  match table with
  | .strings =>
    let base ← baseOf? bases AttributeCode.stringOffsetsBase
    let offset ← numberAt? s.stringOffsets width (base + index * width)
    stringAt? s.strings offset
  | .addresses =>
    let base ← baseOf? bases AttributeCode.addressBase
    let width := u.encoding.addressSize
    let address ← numberAt? s.addresses width (base + index * width)
    return .number address
  | .locationLists =>
    let base ← baseOf? bases AttributeCode.locationListsBase
    let offset ← numberAt? s.locationLists width (base + index * width)
    return .number (base + offset)
  | .rangeLists =>
    let base ← baseOf? bases AttributeCode.rangeListsBase
    let offset ← numberAt? s.rangeLists width (base + index * width)
    return .number (base + offset)

/-- The value of an attribute from what was read for it. Without bases, an index stays as it is. -/
def resolve? (bases : Option Attributes) (form : Form) (value : Value) : Option Value :=
  match form, value with
  | .strp, .number offset => stringAt? s.strings offset
  | .lineStrp, .number offset => stringAt? s.lineStrings offset
  | form, .number index =>
    match form.indexed?, bases with
    | some table, some bases => lookup? s u bases table index
    | _, _ => some value
  | _, _ => some value

/-- The form and value after the number of an indirect form. -/
def indirectValue? : Nat → Bytes → Option (Form × Value × Bytes)
  | 0, _ => none
  | fuel + 1, bs => do
    let (code, rest) ← Leb128.unsigned? bs
    let form ← Form.ofCode? code
    match form with
    | .implicitConst => none
    | .indirect => indirectValue? fuel rest
    | form =>
      let (value, rest) ← (form.decoder u.encoding rest).toOption
      return (form, value, rest)

def value? (spec : AttributeSpec) (bs : Bytes) : Option (Form × Value × Bytes) := do
  match ← spec.form with
  | .implicitConst => return (.implicitConst, .number spec.constant, bs)
  | .indirect => indirectValue? u (bs.length + 1) bs
  | form =>
    let (value, rest) ← (form.decoder u.encoding bs).toOption
    return (form, value, rest)

def attributes? (bases : Option Attributes) :
    List AttributeSpec → Attributes → Bytes → Option (Attributes × Bytes)
  | [], as, bs => some (as, bs)
  | spec :: specs, as, bs => do
    let (form, value, rest) ← value? u spec bs
    let value ← resolve? s u bases form value
    attributes? bases specs (as.set ⟨spec.code, form, value⟩) rest

/-- The entry at an offset. -/
def die? (bases : Option Attributes) (offset : Nat) : Option Die := do
  let (code, rest) ← Leb128.unsigned? (s.info.drop offset)
  if code = 0 then
    return { offset, size := s.info.length - rest.length - offset, tag := none,
             hasChildren := false, attributes := [] }
  let abbreviation ← Abbreviation.find? (← u.table) code
  let (attributes, rest) ← attributes? s u bases abbreviation.attributes [] rest
  return { offset, size := s.info.length - rest.length - offset, tag := some abbreviation.tag,
           hasChildren := abbreviation.hasChildren, attributes }

/-- Resolves the indices among attributes with the bases among these same attributes. Where one
cannot be resolved, those before it have been. -/
def resolveAll : List Nat → Attributes → Attributes × Bool
  | [], as => (as, true)
  | code :: codes, as =>
    match as.get? code with
    | none => resolveAll codes as
    | some a =>
      if a.form.indexed?.isNone then resolveAll codes as
      else match resolve? s u (some as) a.form a.value with
        | none => (as, false)
        | some value => resolveAll codes (as.set { a with value })

end CompileUnit

end ElfScope.Dwarf
