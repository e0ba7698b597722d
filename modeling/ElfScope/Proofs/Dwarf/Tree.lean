import Mathlib
import ElfScope.Dwarf.Symbol
import ElfScope.Proofs.Dwarf.UnitWalk
import ElfScope.Proofs.Text.Utf8

/-! # Trees of entries

Debug information as it is meant before it is written: each unit is a tree of entries, and an entry
has attributes in one of thirteen forms. The records of a forest are told by recursion over it, with
no regard to how it is laid out.
-/
namespace ElfScope.Dwarf

/-- What an attribute holds, by its form. A reference is to the label of an entry of the unit. -/
inductive Datum where
  | addr (n : Nat)
  | data1 (n : Nat)
  | data2 (n : Nat)
  | data4 (n : Nat)
  | data8 (n : Nat)
  | udata (n : Nat)
  | sdata (n : Int)
  | string (t : Text)
  | strp (t : Text)
  | ref4 (label : Text)
  | block1 (bs : Bytes)
  | exprloc (bs : Bytes)
  | implicitConst (n : Int)
deriving DecidableEq

structure Entry where
  tag : Nat
  attributes : List (Nat × Datum)
  label : Option Text := none
deriving DecidableEq

inductive Tree where
  | node (entry : Entry) (children : List Tree)

abbrev Forest := List Tree

namespace Tree

def entry : Tree → Entry
  | .node e _ => e

def children : Tree → Forest
  | .node _ cs => cs

/-- A forest is empty, or a first entry with its children before other trees. -/
theorem forest_induction {P : Forest → Prop} (nil : P [])
    (cons : ∀ e cs ts, P cs → P ts → P (.node e cs :: ts)) : ∀ ts, P ts
  | [] => nil
  | .node e cs :: ts => cons e cs ts (forest_induction nil cons cs) (forest_induction nil cons ts)

end Tree

/-- A unit of the 32-bit format. -/
structure UnitTree where
  version : Nat
  addressSize : Nat
  top : Tree

/-! ### What a datum tells -/

namespace Datum

def form : Datum → Form
  | .addr _ => .addr
  | .data1 _ => .data1
  | .data2 _ => .data2
  | .data4 _ => .data4
  | .data8 _ => .data8
  | .udata _ => .udata
  | .sdata _ => .sdata
  | .string _ => .string
  | .strp _ => .strp
  | .ref4 _ => .ref4
  | .block1 _ => .block1
  | .exprloc _ => .exprloc
  | .implicitConst _ => .implicitConst

def address? : Datum → Option Nat
  | .addr n => some n
  | _ => none

def text? : Datum → Option Text
  | .string t | .strp t => some t
  | _ => none

/-- A plain number, unless it is negative. -/
def constant? : Datum → Option Nat
  | .data1 n | .data2 n | .data4 n | .data8 n | .udata n => some n
  | .sdata n | .implicitConst n => if 0 ≤ n then some n.toNat else none
  | _ => none

/-- The address of an expression that is nothing but one fixed address of eight bytes. -/
def fixedAddress? : Datum → Option UInt64
  | .block1 (operator :: operand) | .exprloc (operator :: operand) =>
    if operator = 0x03 ∧ operand.length = 8 then some (UInt64.ofNat (Bytes.littleValue operand))
    else none
  | _ => none

/-- Numbers fit in the width of the form, or in 64 bits where it has none. Texts can be written in
UTF-8 with a NUL after them. -/
def Fits (addressSize : Nat) : Datum → Prop
  | .addr n => n < Bytes.limit addressSize
  | .data1 n => n < Bytes.limit 1
  | .data2 n => n < Bytes.limit 2
  | .data4 n => n < Bytes.limit 4
  | .data8 n | .udata n => n < Bytes.limit 8
  | .sdata n | .implicitConst n => -2 ^ 63 ≤ n ∧ n < 2 ^ 64
  | .string t | .strp t => t.Scalar ∧ ∀ c ∈ t, c.value ≠ 0
  | .block1 bs => bs.length < Bytes.limit 1
  | .ref4 _ | .exprloc _ => True

instance (addressSize : Nat) : (d : Datum) → Decidable (d.Fits addressSize)
  | .addr _ | .data1 _ | .data2 _ | .data4 _ | .data8 _ | .udata _ | .block1 _ =>
    inferInstanceAs (Decidable (_ < _))
  | .sdata _ | .implicitConst _ => inferInstanceAs (Decidable (_ ∧ _))
  | .string _ | .strp _ => inferInstanceAs (Decidable (_ ∧ _))
  | .ref4 _ | .exprloc _ => inferInstanceAs (Decidable True)

end Datum

/-! ### What an entry tells -/

namespace Entry
variable (e : Entry)

structure WellFormed (addressSize : Nat) (e : Entry) : Prop where
  tag : e.tag ≠ 0
  distinct : (e.attributes.map Prod.fst).Nodup
  codes : ∀ a ∈ e.attributes, a.1 ≠ 0 ∧ a.1 ≠ AttributeCode.sibling
  fits : ∀ a ∈ e.attributes, a.2.Fits addressSize

instance (addressSize : Nat) (e : Entry) : Decidable (e.WellFormed addressSize) :=
  decidable_of_iff (e.tag ≠ 0 ∧ (e.attributes.map Prod.fst).Nodup ∧
      (∀ a ∈ e.attributes, a.1 ≠ 0 ∧ a.1 ≠ AttributeCode.sibling) ∧
      ∀ a ∈ e.attributes, a.2.Fits addressSize)
    ⟨fun h => ⟨h.1, h.2.1, h.2.2.1, h.2.2.2⟩, fun h => ⟨h.tag, h.distinct, h.codes, h.fits⟩⟩

def get? (code : Nat) : Option Datum := e.attributes.lookup code

def isSubprogram : Bool := e.tag = Tag.subprogram

def name (default : Text) : Text := ((e.get? AttributeCode.name).bind Datum.text?).getD default

def lowPc : Nat := ((e.get? AttributeCode.lowPc).bind Datum.address?).getD 0

/-- The size of the code, from its end or as a number. -/
def codeSize? : Option Nat :=
  match e.get? AttributeCode.highPc with
  | some (.addr stop) => some (stop - e.lowPc)
  | some d => d.constant?
  | none => none

def byteSize? : Option Nat := (e.get? AttributeCode.byteSize).bind Datum.constant?

def memberOffset : Nat := ((e.get? AttributeCode.dataMemberLocation).bind Datum.constant?).getD 0

def variableInfo (scope : Scope) : VariableInfo where
  name := e.name "<unknown>"
  address := (e.get? AttributeCode.location).bind Datum.fixedAddress?
  offset := none
  typeInfo := if (e.get? AttributeCode.type).isSome then .unresolved else .void
  scope := scope

def memberInfo : MemberInfo := .mk (e.name "<unknown>") (UInt64.ofNat e.memberOffset) .unresolved

/-- The record of a subprogram with given children. -/
def functionInfo (children : List Entry) : FunctionInfo where
  name := e.name "<unknown>"
  address := UInt64.ofNat e.lowPc
  size := e.codeSize?.map UInt64.ofNat
  parameters := (children.filter (·.tag = Tag.formalParameter)).map (·.variableInfo .parameter)
  returnType :=
    if ((e.get? AttributeCode.type).map Datum.form) = some .ref4 then some .returned else none

/-- The record of a structure, union or enumeration with given children. Enumerations have no
members. -/
def typeInfo (kind : TypeKind) (children : List Entry) : TypeInfo :=
  .mk (e.name "<anonymous>") (e.byteSize?.map UInt64.ofNat) kind
    (if kind = .enum then [] else (children.filter (·.tag = Tag.member)).map memberInfo)

/-- The record of an entry with given children, if it is of a kind that has one. -/
def symbols (inside : Bool) (children : List Entry) : Symbols :=
  if e.tag = Tag.subprogram then { functions := [e.functionInfo children] }
  else if e.tag = Tag.variableEntry then
    if inside then {} else { globals := [e.variableInfo .global] }
  else if e.tag = Tag.structureType then { types := [e.typeInfo .struct children] }
  else if e.tag = Tag.unionType then { types := [e.typeInfo .union children] }
  else if e.tag = Tag.enumerationType then { types := [e.typeInfo .enum children] }
  else {}

end Entry

/-! ### What a forest tells -/

mutual

/-- A tree and all trees within it, in pre-order. -/
def Tree.nodes : Tree → Forest
  | .node e cs => .node e cs :: Forest.nodes cs

def Forest.nodes : Forest → Forest
  | [] => []
  | t :: ts => t.nodes ++ Forest.nodes ts

end

mutual

/-- The records of a tree in pre-order, within a subprogram or not. -/
def Tree.symbols (inside : Bool) : Tree → Symbols
  | .node e cs =>
    e.symbols inside (cs.map Tree.entry) ++ Forest.symbols (inside || e.isSubprogram) cs

def Forest.symbols (inside : Bool) : Forest → Symbols
  | [] => {}
  | t :: ts => t.symbols inside ++ Forest.symbols inside ts

end

namespace Forest

@[simp] theorem nodes_nil : nodes [] = [] := rfl

@[simp] theorem nodes_cons (e : Entry) (cs ts : Forest) :
    nodes (.node e cs :: ts) = .node e cs :: (nodes cs ++ nodes ts) := rfl

end Forest

/-- The records of units, unit by unit. -/
def UnitTree.symbols (units : List UnitTree) : Symbols :=
  Symbols.concat (units.map (·.top.symbols false))

end ElfScope.Dwarf
