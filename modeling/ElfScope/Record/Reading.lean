import ElfScope.Record.Basic
import ElfScope.Record.Check
import ElfScope.Text.Utf8

/-! # Reading records

Records from JSON values. The fields are looked up and converted in a fixed order, and checked
after that, so that of two faults the same one is always told of.
-/
namespace ElfScope

namespace Json

theorem sizeOf_field? {key : Text} {fs : List (Text × Json)} {v : Json} (h : field? key fs = some v) :
    sizeOf v < sizeOf fs := by
  induction fs with
  | nil => simp [field?] at h
  | cons f rest ih =>
    obtain ⟨k, w⟩ := f
    simp only [field?] at h
    split at h
    · cases h
      simp only [List.cons.sizeOf_spec, Prod.mk.sizeOf_spec]
      omega
    · have := ih h
      simp only [List.cons.sizeOf_spec, Prod.mk.sizeOf_spec]
      omega

/-- A part of a value. -/
abbrev Part (j : Json) := { v : Json // sizeOf v < sizeOf j }

def field (j : Json) (key : Text) : Except RecordError (Part j) :=
  match j with
  | .object fs =>
    match h : field? key fs with
    | some v => .ok ⟨v, by have := sizeOf_field? h; simp only [Json.object.sizeOf_spec]; omega⟩
    | none => .error (.missingField key)
  | j => .error (.notAnObject key j.type.name)

def listField (j : Json) (key : Text) : Except RecordError (List (Part j)) := do
  match ← field j key with
  | ⟨.array vs, h⟩ =>
    return vs.attach.map fun ⟨v, hv⟩ => ⟨v, by
      have := List.sizeOf_lt_of_mem hv
      simp only [Json.array.sizeOf_spec] at h
      omega⟩
  | _ => throw (.notAList key)

end Json

open Json (field listField)

mutual

def TypeInfo.ofJson (j : Json) : Except RecordError TypeInfo := do
  let name ← field j "name"
  let size ← field j "size"
  let kind ← Check.member (← field j "kind").val
  let members ← (← listField j "members").mapM fun m => MemberInfo.ofJson m.val
  let name ← Check.text "name" name.val
  let size ← Check.optional (Check.word "size") size.val
  return .mk name size kind members
termination_by sizeOf j
decreasing_by exact m.property

def MemberInfo.ofJson (j : Json) : Except RecordError MemberInfo := do
  let name ← field j "name"
  let offset ← field j "offset"
  let typeInfo ← field j "type_info"
  let typeInfo ← TypeInfo.ofJson typeInfo.val
  let name ← Check.text "name" name.val
  let offset ← Check.word "offset" offset.val
  return .mk name offset typeInfo
termination_by sizeOf j
decreasing_by exact typeInfo.property

end

def VariableInfo.ofJson (j : Json) : Except RecordError VariableInfo := do
  let name ← field j "name"
  let address ← field j "address"
  let offset ← field j "offset"
  let typeInfo ← TypeInfo.ofJson (← field j "type_info").val
  let scope ← Check.member (← field j "scope").val
  let name ← Check.text "name" name.val
  let address ← Check.optional (Check.word "address") address.val
  let offset ← Check.optional (Check.integer "offset") offset.val
  return { name, address, offset, typeInfo, scope }

def FunctionInfo.ofJson (j : Json) : Except RecordError FunctionInfo := do
  let returnType ← field j "return_type"
  let name ← field j "name"
  let address ← field j "address"
  let size ← field j "size"
  let parameters ← (← listField j "parameters").mapM fun p => VariableInfo.ofJson p.val
  let returnType ← Check.optional TypeInfo.ofJson returnType.val
  let name ← Check.text "name" name.val
  let address ← Check.word "address" address.val
  let size ← Check.optional (Check.word "size") size.val
  return { name, address, size, parameters, returnType }

def ElfInfo.ofJson (j : Json) : Except RecordError ElfInfo := do
  let architecture ← Check.member (← field j "architecture").val
  let entryPoint ← field j "entry_point"
  let sections ← listField j "sections"
  let fileType ← Check.member (← field j "file_type").val
  let byteOrder ← Check.member (← field j "endianness").val
  let functions ← (← listField j "functions").mapM fun f => FunctionInfo.ofJson f.val
  let globals ← (← listField j "variables").mapM fun v => VariableInfo.ofJson v.val
  let types ← (← listField j "types").mapM fun t => TypeInfo.ofJson t.val
  let entryPoint ← Check.word "entry_point" entryPoint.val
  let sections ← Check.texts "sections" (sections.map (·.val))
  return { architecture, entryPoint, sections, fileType, byteOrder, functions, globals, types }

def ThreadInfo.ofJson (j : Json) : Except RecordError ThreadInfo := do
  let id ← field j "thread_id"
  let registers ← (← listField j "registers").mapM fun b => Check.byte b.val
  let id ← Check.integerInRange "thread_id" (some 0) none id.val
  return { id := id.toNat, registers }

def CoreInfo.ofJson (j : Json) : Except RecordError CoreInfo := do
  let architecture ← Check.member (← field j "architecture").val
  match ← (← listField j "threads").mapM fun t => ThreadInfo.ofJson t.val with
  | [] => throw .noThreads
  | first :: others => return { architecture, first, others }

/-- A part that is null or missing is absent. -/
def AnalysisResult.ofJson (j : Json) : Except RecordError AnalysisResult :=
  match j with
  | .object fs => do
    let part (key : Text) : Json := (Json.field? key fs).getD .null
    let elfInfo ← Check.optional ElfInfo.ofJson (part "elf_info")
    let coreInfo ← Check.optional CoreInfo.ofJson (part "coredump_info")
    return { elfInfo, coreInfo }
  | _ => throw .resultNotAnObject

/-- The facts of a file from loose values. -/
def BinaryFacts.ofParts (architecture : Architecture) (fileKind : FileKind) (byteOrder : ByteOrder)
    (entryPoint : Json) (sections : List Json) : Except RecordError BinaryFacts := do
  let entryPoint ← Check.word "entry_point" entryPoint
  let sections ← Check.texts "sections" sections
  return { architecture, fileKind, byteOrder, entryPoint, sections }

/-- Symbols from lists of records; a list that is not given is empty. -/
def Symbols.ofJson (j : Json) : Except RecordError Symbols := do
  let items (key : Text) : List Json := match j with
    | .object fs => match Json.field? key fs with
      | some (.array vs) => vs
      | _ => []
    | _ => []
  let functions ← (items "functions").mapM FunctionInfo.ofJson
  let globals ← (items "variables").mapM VariableInfo.ofJson
  let types ← (items "types").mapM TypeInfo.ofJson
  return { functions, globals, types }

inductive ResultError where
  | undecodable
  | text (e : Json.ParseError)
  | record (e : RecordError)

/-- How deep the arrays and objects of a document may be nested. -/
def AnalysisResult.maxDepth : Nat := 990

/-- A result from the text of a JSON document. -/
def AnalysisResult.parse (t : Text) : Except ResultError AnalysisResult :=
  match Json.parse maxDepth t with
  | .error e => .error (.text e)
  | .ok j => match AnalysisResult.ofJson j with
    | .error e => .error (.record e)
    | .ok r => .ok r

/-- A result from the bytes of a document, which must be valid UTF-8. -/
def AnalysisResult.parseBytes (bs : Bytes) : Except ResultError AnalysisResult :=
  match Utf8.decode? bs with
  | none => .error .undecodable
  | some t => AnalysisResult.parse t

end ElfScope
