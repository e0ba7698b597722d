import ElfScope.Bytes.Leb128

/-! # Attribute forms

How the value of an attribute is laid out, and what is read for each form before anything is looked
up in another section.
-/
namespace ElfScope.Dwarf

/-- The forms that can be read. String indices are read in their fixed widths only. -/
inductive Form where
  | addr | ref | block2 | block4 | data2 | data4 | data8 | string | block | block1 | data1 | flag
  | sdata | strp | udata | refAddr | ref1 | ref2 | ref4 | ref8 | refUdata | indirect | secOffset
  | exprloc | flagPresent | addrx | refSup4 | strpSup | data16 | lineStrp | refSig8
  | implicitConst | loclistx | rnglistx | refSup8 | strx1 | strx2 | strx3 | strx4 | addrx1
  | addrx2 | addrx3 | addrx4 | gnuRefAlt | gnuStrpAlt
deriving DecidableEq, Repr

namespace Form

def code : Form → Nat
  | addr => 0x01 | ref => 0x02 | block2 => 0x03 | block4 => 0x04 | data2 => 0x05 | data4 => 0x06
  | data8 => 0x07 | string => 0x08 | block => 0x09 | block1 => 0x0a | data1 => 0x0b | flag => 0x0c
  | sdata => 0x0d | strp => 0x0e | udata => 0x0f | refAddr => 0x10 | ref1 => 0x11 | ref2 => 0x12
  | ref4 => 0x13 | ref8 => 0x14 | refUdata => 0x15 | indirect => 0x16 | secOffset => 0x17
  | exprloc => 0x18 | flagPresent => 0x19 | addrx => 0x1b | refSup4 => 0x1c
  | strpSup => 0x1d | data16 => 0x1e | lineStrp => 0x1f | refSig8 => 0x20 | implicitConst => 0x21
  | loclistx => 0x22 | rnglistx => 0x23 | refSup8 => 0x24 | strx1 => 0x25 | strx2 => 0x26
  | strx3 => 0x27 | strx4 => 0x28 | addrx1 => 0x29 | addrx2 => 0x2a | addrx3 => 0x2b
  | addrx4 => 0x2c | gnuRefAlt => 0x1f20 | gnuStrpAlt => 0x1f21

def all : List Form :=
  [addr, ref, block2, block4, data2, data4, data8, string, block, block1, data1, flag, sdata, strp,
    udata, refAddr, ref1, ref2, ref4, ref8, refUdata, indirect, secOffset, exprloc, flagPresent,
    addrx, refSup4, strpSup, data16, lineStrp, refSig8, implicitConst, loclistx, rnglistx,
    refSup8, strx1, strx2, strx3, strx4, addrx1, addrx2, addrx3, addrx4, gnuRefAlt, gnuStrpAlt]

def ofCode? (n : Nat) : Option Form := all.find? (·.code = n)

theorem ofCode?_code (f : Form) : ofCode? f.code = some f := by
  cases f <;> rfl

/-- A string, inline or in a table. -/
def isString : Form → Bool
  | string | strp | lineStrp | strx1 | strx2 | strx3 | strx4 => true
  | _ => false

/-- A plain number that may stand for a size or an offset. -/
def isConstant : Form → Bool
  | data1 | data2 | data4 | data8 | udata | sdata | implicitConst => true
  | _ => false

/-- The bytes of an expression. -/
def isExpression : Form → Bool
  | exprloc | block | block1 | block2 | block4 => true
  | _ => false

/-- A reference within the unit. -/
def isUnitReference : Form → Bool
  | ref1 | ref2 | ref4 | ref8 | refUdata => true
  | _ => false

end Form

/-- What the sizes of values depend on. -/
structure Encoding where
  version : Nat
  wide : Bool
  addressSize : Nat
deriving DecidableEq, Repr

def Encoding.offsetSize (e : Encoding) : Nat := if e.wide then 8 else 4

inductive Value where
  | number (n : Int)
  | text (bs : Bytes)
  | block (bs : Bytes)
  | absent
deriving DecidableEq, Repr

namespace Form

def unsigned (width : Nat) : Decoder Value :=
  return .number (← Decoder.number .little width)

def leb : Decoder Value :=
  return .number (← Leb128.unsigned)

def sizedBlock (width : Nat) : Decoder Value := do
  let size ← Decoder.number .little width
  return .block (← Decoder.take size)

/-- What is written for a form. Nothing is written for an implicit constant, and an indirect form
is the number of another one. -/
def decoder (e : Encoding) : Form → Decoder Value
  | addr => unsigned e.addressSize
  | block1 => sizedBlock 1
  | block2 => sizedBlock 2
  | block4 => sizedBlock 4
  | block | exprloc => do
    let size ← Leb128.unsigned
    return .block (← Decoder.take size)
  | data16 => return .block (← Decoder.take 16)
  | sdata => return .number (← Leb128.signed)
  | string => return .text (← Decoder.nulTerminated)
  | flag => do
    let n ← Decoder.number .little 1
    return .number (if n = 0 then 0 else 1)
  | flagPresent => return .number 1
  | implicitConst => return .absent
  | udata | refUdata | addrx | loclistx | rnglistx | indirect => leb
  | data1 | ref1 | strx1 | addrx1 => unsigned 1
  | data2 | ref2 | strx2 | addrx2 => unsigned 2
  | strx3 | addrx3 => unsigned 3
  | data4 | ref4 | ref | refSup4 | addrx4 => unsigned 4
  | data8 | ref8 | refSig8 | refSup8 | strx4 => unsigned 8
  | strp | lineStrp | strpSup | secOffset | gnuRefAlt | gnuStrpAlt => unsigned e.offsetSize
  | refAddr => unsigned (if e.version = 2 then e.addressSize else e.offsetSize)

end Form

end ElfScope.Dwarf
