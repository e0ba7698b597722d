import ElfScope.Dwarf.Children
import ElfScope.Record.Basic
import ElfScope.Record.Check
import ElfScope.Text.Utf8

/-! # What an entry tells

Names, addresses, sizes and offsets, each from one attribute of a fitting form. An attribute that is
missing or of another form tells nothing.
-/
namespace ElfScope.Dwarf.Die

def unknownName : Text := "<unknown>"
def anonymousName : Text := "<anonymous>"

def name (d : Die) (default : Text) : Text :=
  match d.attribute? AttributeCode.name with
  | some { form, value := .text bs, .. } => if form.isString then Utf8.decodeLossy bs else default
  | _ => default

/-- The tag, offset and name of an entry, for the log. -/
def label (d : Die) : Text :=
  let tag : Text := match d.tag with
    | none => "None"
    | some n => (Tag.name? n).getD (Text.ofNat n)
  tag ++ " <" ++ Text.hex d.offset ++ "> \"" ++ d.name [] ++ "\""

def lowPc (d : Die) : Int :=
  match d.attribute? AttributeCode.lowPc with
  | some { form := .addr, value := .number n, .. } => n
  | _ => 0

/-- A number that may stand for a size or an offset: negative ones do not. -/
def unsignedConstant? (a : Attribute) : Option Nat :=
  match a.value with
  | .number n => if a.form.isConstant ∧ 0 ≤ n then some n.toNat else none
  | _ => none

/-- The end of the code is given as an address, or as a size. -/
def codeSize? (d : Die) (low : Int) : Option Nat :=
  match d.attribute? AttributeCode.highPc with
  | none => none
  | some { form := .addr, value := .number n, .. } => some (n - low).toNat
  | some a => unsignedConstant? a

def byteSize? (d : Die) : Option Nat :=
  (d.attribute? AttributeCode.byteSize).bind unsignedConstant?

/-- The operand of an expression that is one fixed address of eight bytes. -/
def location? (d : Die) : Option UInt64 :=
  match d.attribute? AttributeCode.location with
  | some { form, value := .block (operator :: operand), .. } =>
    if form.isExpression ∧ operator = 0x03 ∧ operand.length = 8 then
      some (UInt64.ofNat (Bytes.littleValue operand))
    else none
  | _ => none

def memberOffset (d : Die) : Nat :=
  ((d.attribute? AttributeCode.dataMemberLocation).bind unsignedConstant?).getD 0

def hasUnitReference (d : Die) : Bool :=
  (d.attribute? AttributeCode.type).any (·.form.isUnitReference)

def hasType (d : Die) : Bool := (d.attribute? AttributeCode.type).isSome

/-- The offset within the unit. -/
def unitOffset (d : Die) (u : CompileUnit) : Int := (d.offset : Int) - u.offset

def typeKind (d : Die) : TypeKind :=
  match d.tag with
  | none => .unknown
  | some tag =>
    if tag = Tag.structureType then .struct
    else if tag = Tag.unionType then .union
    else if tag = Tag.enumerationType then .enum
    else if tag = Tag.baseType then .basic
    else if tag = Tag.pointerType then .pointer
    else if tag = Tag.arrayType then .array
    else .unknown

def variableInfo (d : Die) (scope : Scope) : VariableInfo where
  name := d.name unknownName
  address := d.location?
  offset := none
  typeInfo := if d.hasType then .unresolved else .void
  scope := scope

def memberInfo (d : Die) : Except RecordError MemberInfo := do
  let offset ← Check.wordOf "offset" d.memberOffset
  return .mk (d.name unknownName) offset .unresolved

def sizeWord (size : Option Nat) : Except RecordError (Option UInt64) :=
  match size with
  | none => return none
  | some n => some <$> Check.wordOf "size" n

def functionInfo (d : Die) (parameters : List VariableInfo) : Except RecordError FunctionInfo := do
  let address ← Check.wordOf "address" d.lowPc
  let size ← sizeWord (d.codeSize? d.lowPc)
  let returnType := if d.hasUnitReference then some TypeInfo.returned else none
  return { name := d.name unknownName, address, size, parameters, returnType }

def typeInfo (d : Die) (members : List MemberInfo) : Except RecordError TypeInfo := do
  let size ← sizeWord d.byteSize?
  return .mk (d.name anonymousName) size d.typeKind members

end ElfScope.Dwarf.Die
