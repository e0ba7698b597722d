import ElfScope.Json.Printer
import ElfScope.Record.Basic

/-! # Writing records

Records as JSON values, with their fields in a fixed order.
-/
namespace ElfScope

namespace Json

def ofWord (n : UInt64) : Json := .int n.toNat
def ofOption {α : Type} (write : α → Json) : Option α → Json
  | none => .null
  | some a => write a
def ofMember {α : Type} [Enumeration α] (a : α) : Json := .string (Enumeration.value a)
def ofBytes (bs : Bytes) : Json := .array (bs.map fun b => .int b.toNat)

end Json

open Json (ofWord ofOption ofMember ofBytes)

mutual

def TypeInfo.toJson : TypeInfo → Json
  | .mk name size kind members =>
    .object [("name", .string name), ("size", ofOption ofWord size), ("kind", ofMember kind),
      ("members", .array (membersToJson members))]

def MemberInfo.toJson : MemberInfo → Json
  | .mk name offset typeInfo =>
    .object [("name", .string name), ("offset", ofWord offset), ("type_info", typeInfo.toJson)]

def membersToJson : List MemberInfo → List Json
  | [] => []
  | m :: ms => m.toJson :: membersToJson ms

end

def VariableInfo.toJson (v : VariableInfo) : Json :=
  .object [("name", .string v.name), ("address", ofOption ofWord v.address),
    ("offset", ofOption .int v.offset), ("type_info", v.typeInfo.toJson),
    ("scope", ofMember v.scope)]

def FunctionInfo.toJson (f : FunctionInfo) : Json :=
  .object [("name", .string f.name), ("address", ofWord f.address),
    ("size", ofOption ofWord f.size), ("parameters", .array (f.parameters.map (·.toJson))),
    ("return_type", ofOption (·.toJson) f.returnType)]

def Symbols.toJson (s : Symbols) : Json :=
  .object [("functions", .array (s.functions.map (·.toJson))),
    ("variables", .array (s.globals.map (·.toJson))), ("types", .array (s.types.map (·.toJson)))]

def BinaryFacts.toJson (f : BinaryFacts) : Json :=
  .object [("architecture", ofMember f.architecture), ("file_kind", ofMember f.fileKind),
    ("endianness", ofMember f.byteOrder), ("entry_point", ofWord f.entryPoint),
    ("sections", .array (f.sections.map .string))]

def ElfInfo.toJson (e : ElfInfo) : Json :=
  .object [("architecture", ofMember e.architecture), ("entry_point", ofWord e.entryPoint),
    ("sections", .array (e.sections.map .string)), ("file_type", ofMember e.fileType),
    ("endianness", ofMember e.byteOrder), ("functions", .array (e.functions.map (·.toJson))),
    ("variables", .array (e.globals.map (·.toJson))), ("types", .array (e.types.map (·.toJson)))]

def ThreadInfo.toJson (t : ThreadInfo) : Json :=
  .object [("thread_id", .int t.id), ("registers", ofBytes t.registers)]

def CoreInfo.toJson (c : CoreInfo) : Json :=
  .object [("architecture", ofMember c.architecture),
    ("threads", .array (c.threads.map (·.toJson)))]

def AnalysisResult.toJson (r : AnalysisResult) : Json :=
  .object [("elf_info", ofOption (·.toJson) r.elfInfo),
    ("coredump_info", ofOption (·.toJson) r.coreInfo)]

/-- The document of a result; four columns of indent unless told otherwise. -/
def AnalysisResult.render (r : AnalysisResult) (indent : Option Nat := some 4) : Text :=
  r.toJson.render indent

end ElfScope
