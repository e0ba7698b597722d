import ElfScope.Bytes.Decoder
import ElfScope.Text.Basic

/-! # ELF headers

The file header and the entries of the two header tables, in both classes and byte orders.
-/
namespace ElfScope.Elf

structure Layout where
  wide : Bool
  order : ByteOrder
deriving DecidableEq, Repr

namespace Layout

def addressSize (l : Layout) : Nat := if l.wide then 8 else 4
def fileHeaderSize (l : Layout) : Nat := if l.wide then 64 else 52
def sectionHeaderSize (l : Layout) : Nat := if l.wide then 64 else 40
def programHeaderSize (l : Layout) : Nat := if l.wide then 56 else 32
def compressionHeaderSize (l : Layout) : Nat := if l.wide then 24 else 12

def half (l : Layout) : Decoder Nat := .number l.order 2
def word (l : Layout) : Decoder Nat := .number l.order 4
def address (l : Layout) : Decoder Nat := .number l.order l.addressSize

end Layout

structure FileHeader where
  type : Nat
  machine : Nat
  entry : Nat
  programOffset : Nat
  sectionOffset : Nat
  programEntrySize : Nat
  programCount : Nat
  sectionEntrySize : Nat
  sectionCount : Nat
  nameTableIndex : Nat
deriving DecidableEq, Repr

/-- What follows the sixteen bytes of identification. -/
def FileHeader.decoder (l : Layout) : Decoder FileHeader := do
  let type ← l.half
  let machine ← l.half
  let _version ← l.word
  let entry ← l.address
  let programOffset ← l.address
  let sectionOffset ← l.address
  let _flags ← l.word
  let _headerSize ← l.half
  let programEntrySize ← l.half
  let programCount ← l.half
  let sectionEntrySize ← l.half
  let sectionCount ← l.half
  let nameTableIndex ← l.half
  return { type, machine, entry, programOffset, sectionOffset, programEntrySize, programCount,
           sectionEntrySize, sectionCount, nameTableIndex }

structure SectionHeader where
  name : Nat
  type : Nat
  flags : Nat
  offset : Nat
  size : Nat
  link : Nat
  info : Nat
  entrySize : Nat
deriving DecidableEq, Repr

namespace SectionHeader

def decoder (l : Layout) : Decoder SectionHeader := do
  let name ← l.word
  let type ← l.word
  let flags ← l.address
  let _address ← l.address
  let offset ← l.address
  let size ← l.address
  let link ← l.word
  let info ← l.word
  let _align ← l.address
  let entrySize ← l.address
  return { name, type, flags, offset, size, link, info, entrySize }

def compressed (h : SectionHeader) : Bool := h.flags.testBit 11

/-- The section takes no room in the file. -/
def noBits (h : SectionHeader) : Bool := h.type = 8

end SectionHeader

structure ProgramHeader where
  type : Nat
  offset : Nat
  fileSize : Nat
deriving DecidableEq, Repr

namespace ProgramHeader

def decoder (l : Layout) : Decoder ProgramHeader := do
  let type ← l.word
  if l.wide then
    let _flags ← l.word
  let offset ← l.address
  let _virtual ← l.address
  let _physical ← l.address
  let fileSize ← l.address
  let _memorySize ← l.address
  if !l.wide then
    let _flags ← l.word
  let _align ← l.address
  return { type, offset, fileSize }

def isNote (h : ProgramHeader) : Bool := h.type = 4
def isDynamic (h : ProgramHeader) : Bool := h.type = 2

end ProgramHeader

structure CompressionHeader where
  type : Nat
  size : Nat
deriving DecidableEq, Repr

def CompressionHeader.decoder (l : Layout) : Decoder CompressionHeader := do
  let type ← l.word
  if l.wide then
    let _reserved ← l.word
  let size ← l.address
  let _align ← l.address
  return { type, size }

end ElfScope.Elf
