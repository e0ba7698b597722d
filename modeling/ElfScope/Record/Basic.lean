import ElfScope.Record.Kind

/-! # Records

What an analysis gives: facts of the file, symbols of its debug information, and threads of a core
dump. Addresses, offsets and sizes are words of 64 bits.
-/
namespace ElfScope

mutual

inductive TypeInfo where
  | mk (name : Text) (size : Option UInt64) (kind : TypeKind) (members : List MemberInfo)

inductive MemberInfo where
  | mk (name : Text) (offset : UInt64) (typeInfo : TypeInfo)

end

mutual

def TypeInfo.decEq : (a b : TypeInfo) → Decidable (a = b)
  | .mk n s k ms, .mk n' s' k' ms' =>
    match membersDecEq ms ms' with
    | .isTrue hm =>
      if h : n = n' ∧ s = s' ∧ k = k' then .isTrue (by simp [h, hm])
      else .isFalse (by simp only [TypeInfo.mk.injEq]; exact fun e => h ⟨e.1, e.2.1, e.2.2.1⟩)
    | .isFalse hm => .isFalse (by simp only [TypeInfo.mk.injEq]; exact fun e => hm e.2.2.2)

def MemberInfo.decEq : (a b : MemberInfo) → Decidable (a = b)
  | .mk n o t, .mk n' o' t' =>
    match TypeInfo.decEq t t' with
    | .isTrue ht =>
      if h : n = n' ∧ o = o' then .isTrue (by simp [h, ht])
      else .isFalse (by simp only [MemberInfo.mk.injEq]; exact fun e => h ⟨e.1, e.2.1⟩)
    | .isFalse ht => .isFalse (by simp only [MemberInfo.mk.injEq]; exact fun e => ht e.2.2)

def membersDecEq : (as bs : List MemberInfo) → Decidable (as = bs)
  | [], [] => .isTrue rfl
  | [], _ :: _ => .isFalse (by simp)
  | _ :: _, [] => .isFalse (by simp)
  | a :: as, b :: bs =>
    match MemberInfo.decEq a b, membersDecEq as bs with
    | .isTrue h, .isTrue hs => .isTrue (by rw [h, hs])
    | .isFalse h, _ => .isFalse (by simp only [List.cons.injEq]; exact fun e => h e.1)
    | _, .isFalse hs => .isFalse (by simp only [List.cons.injEq]; exact fun e => hs e.2)

end

instance : DecidableEq TypeInfo := TypeInfo.decEq
instance : DecidableEq MemberInfo := MemberInfo.decEq

namespace TypeInfo

/-- Stands for a type that is referred to: references are not followed. -/
def unresolved : TypeInfo := .mk "unknown" none .basic []
def void : TypeInfo := .mk "void" none .basic []
def returned : TypeInfo := .mk "<return_type>" none .unknown []

end TypeInfo

structure VariableInfo where
  name : Text
  address : Option UInt64
  offset : Option Int
  typeInfo : TypeInfo
  scope : Scope
deriving DecidableEq

structure FunctionInfo where
  name : Text
  address : UInt64
  size : Option UInt64
  parameters : List VariableInfo
  returnType : Option TypeInfo
deriving DecidableEq

structure Symbols where
  functions : List FunctionInfo := []
  globals : List VariableInfo := []
  types : List TypeInfo := []
deriving DecidableEq

structure BinaryFacts where
  architecture : Architecture
  fileKind : FileKind
  byteOrder : ByteOrder
  entryPoint : UInt64
  sections : List Text
deriving DecidableEq

structure ElfInfo where
  architecture : Architecture
  entryPoint : UInt64
  sections : List Text
  fileType : FileKind
  byteOrder : ByteOrder
  functions : List FunctionInfo := []
  globals : List VariableInfo := []
  types : List TypeInfo := []
deriving DecidableEq

/-- The facts, decorated with symbols. -/
def ElfInfo.ofFacts (facts : BinaryFacts) (symbols : Symbols := {}) : ElfInfo where
  architecture := facts.architecture
  entryPoint := facts.entryPoint
  sections := facts.sections
  fileType := facts.fileKind
  byteOrder := facts.byteOrder
  functions := symbols.functions
  globals := symbols.globals
  types := symbols.types

structure ThreadInfo where
  id : Nat
  registers : Bytes
deriving DecidableEq

/-- A core dump has at least one thread. -/
structure CoreInfo where
  architecture : Architecture
  first : ThreadInfo
  others : List ThreadInfo
deriving DecidableEq

def CoreInfo.threads (c : CoreInfo) : List ThreadInfo := c.first :: c.others

/-- A part is absent when its input was not given. -/
structure AnalysisResult where
  elfInfo : Option ElfInfo := none
  coreInfo : Option CoreInfo := none
deriving DecidableEq

end ElfScope
