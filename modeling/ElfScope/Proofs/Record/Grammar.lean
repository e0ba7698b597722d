import Mathlib
import ElfScope.Record.Reading
import ElfScope.Record.Writing

/-! # The grammar of records

Which JSON values are records of a class, and what is left of such a value when it is written
again: the keys of the class, in its own order, at every level.
-/
namespace ElfScope

inductive RecordClass where
  | typeInfo
  | memberInfo
  | variableInfo
  | functionInfo
  | elfInfo
  | threadInfo
  | coreInfo
  | analysisResult
deriving DecidableEq, Repr

/-- What may stand in a field. A number may have limits, which are allowed themselves; a list may
have to be of some length. -/
inductive Shape where
  | text
  | integer (minimum maximum : Option Int)
  | byte
  | oneOf (values : List Text)
  | optional (s : Shape)
  | list (least : Nat) (items : Shape)
  | record (c : RecordClass)

namespace Shape

def word : Shape := .integer (some 0) (some 0xffffffffffffffff)

/-- The values of an enumeration. -/
def member (α : Type) [Enumeration α] : Shape :=
  .oneOf ((Enumeration.all : List α).map Enumeration.value)

end Shape

namespace RecordClass

/-- The keys of a class, each with what may stand there. -/
def fields : RecordClass → List (Text × Shape)
  | .typeInfo => [("name", .text), ("size", .optional .word), ("kind", .member TypeKind),
      ("members", .list 0 (.record .memberInfo))]
  | .memberInfo => [("name", .text), ("offset", .word), ("type_info", .record .typeInfo)]
  | .variableInfo => [("name", .text), ("address", .optional .word),
      ("offset", .optional (.integer none none)), ("type_info", .record .typeInfo),
      ("scope", .member Scope)]
  | .functionInfo => [("name", .text), ("address", .word), ("size", .optional .word),
      ("parameters", .list 0 (.record .variableInfo)),
      ("return_type", .optional (.record .typeInfo))]
  | .elfInfo => [("architecture", .member Architecture), ("entry_point", .word),
      ("sections", .list 0 .text), ("file_type", .member FileKind),
      ("endianness", .member ByteOrder), ("functions", .list 0 (.record .functionInfo)),
      ("variables", .list 0 (.record .variableInfo)), ("types", .list 0 (.record .typeInfo))]
  | .threadInfo => [("thread_id", .integer (some 0) none), ("registers", .list 0 .byte)]
  | .coreInfo => [("architecture", .member Architecture),
      ("threads", .list 1 (.record .threadInfo))]
  | .analysisResult => [("elf_info", .optional (.record .elfInfo)),
      ("coredump_info", .optional (.record .coreInfo))]

/-- Every key must be present. -/
def Complete (c : RecordClass) : Prop := c ≠ .analysisResult

end RecordClass

/-- What stands at a key, or null. -/
def Json.part (key : Text) (fs : List (Text × Json)) : Json := (field? key fs).getD .null

theorem Json.part_of_field? {key : Text} {fs : List (Text × Json)} {v : Json}
    (h : field? key fs = some v) : part key fs = v := by
  rw [part, h, Option.getD_some]

theorem Json.sizeOf_part_lt (key : Text) (fs : List (Text × Json)) :
    sizeOf (part key fs) < sizeOf (Json.object fs) := by
  simp only [Json.object.sizeOf_spec]
  cases h : field? key fs with
  | none =>
    have hpos : 0 < sizeOf fs := by cases fs <;> simp +arith
    simp only [part, h, Option.getD_none, Json.null.sizeOf_spec]
    omega
  | some v =>
    have hlt := sizeOf_field? h
    rw [part_of_field? h]
    omega

namespace Shape

open Json (field? part)

/-- The values of a shape. Keys that a class does not know are allowed, and so is a truth value in
the place of a byte. -/
inductive Accepts : Shape → Json → Prop
  | text (t : Text) : Accepts .text (.string t)
  | integer {minimum maximum : Option Int} {n : Int} (low : ∀ m ∈ minimum, m ≤ n)
      (high : ∀ m ∈ maximum, n ≤ m) : Accepts (.integer minimum maximum) (.int n)
  | byte {n : Int} (low : 0 ≤ n) (high : n ≤ 255) : Accepts .byte (.int n)
  | flag (b : Bool) : Accepts .byte (.bool b)
  | oneOf {values : List Text} {t : Text} (h : t ∈ values) : Accepts (.oneOf values) (.string t)
  | null (s : Shape) : Accepts (.optional s) .null
  | given {s : Shape} {j : Json} (h : Accepts s j) : Accepts (.optional s) j
  | list {least : Nat} {s : Shape} {vs : List Json} (length : least ≤ vs.length)
      (items : ∀ v ∈ vs, Accepts s v) : Accepts (.list least s) (.array vs)
  | record {c : RecordClass} {fs : List (Text × Json)}
      (present : c.Complete → ∀ f ∈ c.fields, ∃ v, field? f.1 fs = some v)
      (fields : ∀ f ∈ c.fields, ∀ v, field? f.1 fs = some v → Accepts f.2 v) :
      Accepts (.record c) (.object fs)

/-- A value without the keys that its class does not know, and with numbers in the place of truth
values. A part that is missing is null. -/
def clean : Shape → Json → Json
  | .byte, .bool b => .int (if b then 1 else 0)
  | .optional _, .null => .null
  | .optional s, j => clean s j
  | .list _ s, .array vs => .array (vs.attach.map fun v => clean s v.val)
  | .record c, .object fs => .object (c.fields.map fun f => (f.1, clean f.2 (part f.1 fs)))
  | _, j => j
termination_by s j => (sizeOf j, sizeOf s)
decreasing_by
  · apply Prod.Lex.right
    simp only [optional.sizeOf_spec]
    omega
  · apply Prod.Lex.left
    have hv := List.sizeOf_lt_of_mem v.property
    simp only [Json.array.sizeOf_spec]
    omega
  · exact Prod.Lex.left _ _ (Json.sizeOf_part_lt f.1 fs)

section Clean
variable (s : Shape) (least : Nat) (c : RecordClass)

@[simp] theorem clean_text (t : Text) : clean .text (.string t) = .string t := by
  simp [clean]

@[simp] theorem clean_integer (minimum maximum : Option Int) (n : Int) :
    clean (.integer minimum maximum) (.int n) = .int n := by
  simp [clean]

@[simp] theorem clean_byte (n : Int) : clean .byte (.int n) = .int n := by
  simp [clean]

@[simp] theorem clean_flag (b : Bool) : clean .byte (.bool b) = .int (if b then 1 else 0) := by
  simp [clean]

@[simp] theorem clean_oneOf (values : List Text) (t : Text) :
    clean (.oneOf values) (.string t) = .string t := by
  simp [clean]

@[simp] theorem clean_null : clean (.optional s) .null = .null := by
  simp [clean]

theorem clean_given {j : Json} (h : j ≠ .null) : clean (.optional s) j = clean s j := by
  cases j <;> simp_all [clean]

@[simp] theorem clean_list (vs : List Json) :
    clean (.list least s) (.array vs) = .array (vs.map (clean s)) := by
  simp [clean]

theorem clean_record (fs : List (Text × Json)) :
    clean (.record c) (.object fs) =
      .object (c.fields.map fun f => (f.1, clean f.2 (part f.1 fs))) := by
  simp [clean]

end Clean

end Shape
end ElfScope
