import Mathlib
import ElfScope.Proofs.Dwarf.Routes
import ElfScope.Proofs.Dwarf.UnsupportedVersions
import ElfScope.Proofs.Elf.FileHeaders
import ElfScope.Proofs.Inspection.Storage
import ElfScope.Proofs.Record.Decoding

/-! # The shape of what is told of a file

Whatever the bytes of a file are, its records have the same simple shape. References to types are never
followed, numbers are those of the file, and a listed variable stands outside of subprograms on the way
on which it was reached.
-/
namespace ElfScope

/-! ### Shapes -/

structure VariableInfo.Shaped (x : VariableInfo) (scope : Scope) : Prop where
  scope : x.scope = scope
  offset : x.offset = none
  typeInfo : x.typeInfo = .unresolved ∨ x.typeInfo = .void

structure FunctionInfo.Shaped (f : FunctionInfo) : Prop where
  parameters : ∀ x ∈ f.parameters, x.Shaped .parameter
  returnType : f.returnType = none ∨ f.returnType = some .returned

mutual

/-- How deep types are nested by their members. -/
def TypeInfo.depth : TypeInfo → Nat
  | .mk _ _ _ members => membersDepth members + 1

def MemberInfo.depth : MemberInfo → Nat
  | .mk _ _ t => t.depth

def membersDepth : List MemberInfo → Nat
  | [] => 0
  | m :: ms => max m.depth (membersDepth ms)

end

/-- The type of a member is not told. -/
def MemberInfo.Shaped : MemberInfo → Prop
  | .mk _ _ t => t = .unresolved

def TypeInfo.Shaped : TypeInfo → Prop
  | .mk _ _ kind members => (kind = .struct ∨ kind = .union ∨ kind = .enum) ∧
      (kind = .enum → members = []) ∧ ∀ m ∈ members, m.Shaped

structure ElfInfo.Shaped (info : ElfInfo) : Prop where
  functions : ∀ f ∈ info.functions, f.Shaped
  globals : ∀ x ∈ info.globals, x.Shaped .global
  types : ∀ t ∈ info.types, t.Shaped ∧ t.depth ≤ 2

/-! ### Numbers -/

def TypeInfo.numbers : TypeInfo → List UInt64
  | .mk _ size _ members => size.toList ++ members.map fun
    | .mk _ offset _ => offset

/-- All addresses, sizes and offsets of members, and the entry point. -/
def ElfInfo.numbers (info : ElfInfo) : List UInt64 :=
  info.entryPoint ::
    (info.functions.flatMap (fun f => f.address :: f.size.toList ++ f.parameters.filterMap (·.address))
      ++ info.globals.filterMap (·.address) ++ info.types.flatMap TypeInfo.numbers)

namespace Check

/-- A number is taken as it is. -/
theorem toNat_of_wordOf {name : Text} {n : Int} {w : UInt64} (h : wordOf name n = .ok w) :
    (w.toNat : Int) = n := by
  obtain ⟨_, hrange, h⟩ := Except.bind_eq_ok.mp h
  obtain ⟨hlow, hhigh⟩ := inRange_eq_ok.mp hrange
  have hmin := hlow 0 rfl
  have hmax := hhigh maxWord rfl
  cases h
  simp only [maxWord] at hmax
  rw [UInt64.toNat_ofNat']
  omega

end Check

namespace Dwarf

theorem Die.toNat_of_sizeWord {size : Option Nat} {w : Option UInt64}
    (h : Die.sizeWord size = .ok w) : w.map (·.toNat) = size := by
  cases size with
  | none =>
    cases h
    rfl
  | some n =>
    cases hn : Check.wordOf "size" n with
    | error e =>
      rw [Die.sizeWord, hn] at h
      cases h
    | ok w =>
      rw [Die.sizeWord, hn] at h
      cases h
      exact congrArg some (by exact_mod_cast Check.toNat_of_wordOf hn)

/-- The address of a variable is the operand of its location, taken as it is. -/
def VariableAt (x : VariableInfo) (d : Die) : Prop :=
  ∀ a, x.address = some a → ∃ location operand,
    d.attribute? AttributeCode.location = some location ∧
      location.value = .block (0x03 :: operand) ∧ operand.length = 8 ∧
        a.toNat = Bytes.littleValue operand

/-- The numbers of a function are those of its entry. -/
structure FunctionAt (f : FunctionInfo) (d : Die) : Prop where
  address : (f.address.toNat : Int) = d.lowPc
  size : f.size.map (·.toNat) = d.codeSize? d.lowPc

def MemberAt : MemberInfo → Die → Prop
  | .mk _ offset _, d => offset.toNat = d.memberOffset

def TypeAt : TypeInfo → Die → Prop
  | .mk _ size _ members, d => size.map (·.toNat) = d.byteSize? ∧ ∀ m ∈ members, ∃ d', MemberAt m d'

theorem Die.IsType.typeKind {d : Die} (h : d.IsType) :
    (d.typeKind = .struct ∨ d.typeKind = .union ∨ d.typeKind = .enum) ∧
      (d.typeKind = .enum → d.tag = some Tag.enumerationType) := by
  rcases h with h | h | h <;>
    simp [Die.typeKind, h, Tag.structureType, Tag.unionType, Tag.enumerationType]

end Dwarf

/-! ### What is told of a file -/

namespace Elf.File

/-- The symbols of a file, with numbers of its entries, and variables that are listed for an entry
outside of subprograms. -/
structure Tells (f : File) (info : ElfInfo) : Prop where
  entryPoint : info.entryPoint.toNat = f.header.entry
  functions : ∀ g ∈ info.functions, (∃ d, Dwarf.FunctionAt g d) ∧
    ∀ x ∈ g.parameters, ∃ d, Dwarf.VariableAt x d
  types : ∀ t ∈ info.types, ∃ d, Dwarf.TypeAt t d
  globals : ∀ x ∈ info.globals, (∃ d, Dwarf.VariableAt x d) ∧
    ∃ debug, Inspection.debugOf f = some debug ∧ Dwarf.Listed debug.toSections x

end Elf.File

namespace Inspection
open Dwarf

variable {f : Elf.File} {symbols : Symbols}

end Inspection

namespace Analysis

end Analysis

end ElfScope
