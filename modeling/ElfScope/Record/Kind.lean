import ElfScope.Bytes.Basic
import ElfScope.Text.Basic

/-! # Kinds

The closed sets of the analysis. Each member has a name, and a value that stands for it in the
output.
-/
namespace ElfScope

class Enumeration (α : Type) where
  title : Text
  all : List α
  value : α → Text
  name : α → Text := value

namespace Enumeration

def ofValue? {α : Type} [Enumeration α] (t : Text) : Option α :=
  (all : List α).find? fun a => value a = t

end Enumeration

inductive Architecture where
  | x86_64
  | i386
  | aarch64
  | arm
  | riscv
  | unknown
deriving DecidableEq, Repr

inductive FileKind where
  | executable
  | sharedObject
  | relocatable
  | coreDump
  | unknown
deriving DecidableEq, Repr

inductive TypeKind where
  | basic
  | struct
  | enum
  | union
  | pointer
  | array
  | unknown
deriving DecidableEq, Repr

inductive Scope where
  | global
  | local
  | parameter
deriving DecidableEq, Repr

instance : Enumeration Architecture where
  title := "Architecture"
  all := [.x86_64, .i386, .aarch64, .arm, .riscv, .unknown]
  value
    | .x86_64 => "x86_64"
    | .i386 => "i386"
    | .aarch64 => "aarch64"
    | .arm => "arm"
    | .riscv => "riscv"
    | .unknown => "unknown"

instance : Enumeration FileKind where
  title := "FileKind"
  all := [.executable, .sharedObject, .relocatable, .coreDump, .unknown]
  value
    | .executable => "executable"
    | .sharedObject => "shared_object"
    | .relocatable => "relocatable"
    | .coreDump => "core_dump"
    | .unknown => "unknown"

instance : Enumeration ByteOrder where
  title := "Endianness"
  all := [.little, .big]
  value
    | .little => "little_endian"
    | .big => "big_endian"
  name
    | .little => "Little"
    | .big => "Big"

instance : Enumeration TypeKind where
  title := "TypeKind"
  all := [.basic, .struct, .enum, .union, .pointer, .array, .unknown]
  value
    | .basic => "basic"
    | .struct => "struct"
    | .enum => "enum"
    | .union => "union"
    | .pointer => "pointer"
    | .array => "array"
    | .unknown => "unknown"

instance : Enumeration Scope where
  title := "VariableScope"
  all := [.global, .local, .parameter]
  value
    | .global => "global"
    | .local => "local"
    | .parameter => "parameter"
  name
    | .global => "GLOBAL"
    | .local => "LOCAL"
    | .parameter => "PARAMETER"

namespace Architecture

def ofMachine : Nat → Architecture
  | 62 => .x86_64
  | 3 => .i386
  | 183 => .aarch64
  | 40 => .arm
  | 243 => .riscv
  | _ => .unknown

/-- By the constant of the ELF standard. -/
def ofMachineName (t : Text) : Architecture :=
  if t = Text.ofString "EM_X86_64" then .x86_64
  else if t = Text.ofString "EM_386" then .i386
  else if t = Text.ofString "EM_AARCH64" then .aarch64
  else if t = Text.ofString "EM_ARM" then .arm
  else if t = Text.ofString "EM_RISCV" then .riscv
  else .unknown

end Architecture

namespace FileKind

def ofType : Nat → FileKind
  | 2 => .executable
  | 3 => .sharedObject
  | 1 => .relocatable
  | 4 => .coreDump
  | _ => .unknown

/-- By the constant of the ELF standard. -/
def ofTypeName (t : Text) : FileKind :=
  if t = Text.ofString "ET_EXEC" then .executable
  else if t = Text.ofString "ET_DYN" then .sharedObject
  else if t = Text.ofString "ET_REL" then .relocatable
  else if t = Text.ofString "ET_CORE" then .coreDump
  else .unknown

end FileKind

end ElfScope
