import ElfScope.Dwarf.Abbreviation

/-! # Compile units

The debug sections, and the units of `.debug_info`. A unit is found by the length of the one before
it; nothing else depends on its length.
-/
namespace ElfScope.Dwarf

/-- The sections that entries are decoded from. Those that may be missing are only looked into for
the forms that name them; a section of strings that is missing is empty. -/
structure DebugSections where
  info : Bytes
  abbreviations : Bytes
  strings : Bytes := []
  lineStrings : Bytes := []
  addresses : Option Bytes := none
  stringOffsets : Option Bytes := none
  locationLists : Option Bytes := none
  rangeLists : Option Bytes := none

structure UnitHeader where
  length : Nat
  encoding : Encoding
  abbreviationOffset : Nat
deriving DecidableEq, Repr

/-- The fields between the address size and the first entry that only some kinds of units have. -/
def UnitHeader.kindFields (offsetSize : Nat) : Nat → Decoder Unit
  | 1 | 3 => return ()
  | 4 | 5 => do
    let _ ← Decoder.number .little 8
  | 2 | 6 => do
    let _ ← Decoder.number .little 8
    let _ ← Decoder.number .little offsetSize
  | _ => throw ⟨1, 1⟩

def UnitHeader.decoder : Decoder UnitHeader := do
  let first ← Decoder.number .little 4
  if 0xffffff00 ≤ first ∧ first < 0xffffffff then throw ⟨4, 4⟩
  let wide : Bool := first = 0xffffffff
  let length ← if wide then Decoder.number .little 8 else pure first
  let offsetSize := if wide then 8 else 4
  let version ← Decoder.number .little 2
  if version < 2 ∨ 5 < version then throw ⟨2, 2⟩
  let (abbreviationOffset, addressSize) ←
    if version < 5 then do
      let abbreviationOffset ← Decoder.number .little offsetSize
      let addressSize ← Decoder.number .little 1
      pure (abbreviationOffset, addressSize)
    else do
      let kind ← Decoder.number .little 1
      let addressSize ← Decoder.number .little 1
      let abbreviationOffset ← Decoder.number .little offsetSize
      kindFields offsetSize kind
      pure (abbreviationOffset, addressSize)
  if addressSize ≠ 4 ∧ addressSize ≠ 8 then throw ⟨1, 1⟩
  return { length, encoding := { version, wide, addressSize }, abbreviationOffset }

structure CompileUnit where
  offset : Nat
  header : UnitHeader
  /-- Where the first entry is. -/
  start : Nat
  table : Option Abbreviation.Table

namespace CompileUnit

def at? (s : DebugSections) (offset : Nat) : Option CompileUnit :=
  match UnitHeader.decoder.runAt s.info offset with
  | .error _ => none
  | .ok (header, rest) =>
    some { offset, header, start := s.info.length - rest.length,
           table := Abbreviation.table? s.abbreviations header.abbreviationOffset }

def encoding (u : CompileUnit) : Encoding := u.header.encoding

def next (u : CompileUnit) : Nat :=
  u.offset + u.header.length + (if u.encoding.wide then 12 else 4)

/-- Units from an offset on, and whether they end at a header that cannot be decoded. A unit takes
four bytes at least. -/
def listFrom (s : DebugSections) : Nat → Nat → List CompileUnit × Bool
  | 0, _ => ([], false)
  | fuel + 1, offset =>
    if s.info.length ≤ offset then ([], false)
    else match at? s offset with
      | none => ([], true)
      | some u =>
        let (units, broken) := listFrom s fuel u.next
        (u :: units, broken)

def list (s : DebugSections) : List CompileUnit × Bool := listFrom s (s.info.length + 1) 0

end CompileUnit

end ElfScope.Dwarf
