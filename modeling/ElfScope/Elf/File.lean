import ElfScope.Elf.Header

/-! # ELF files

A file is opened when its identification is sound and the header of its section name table can be
read, or lies beyond the end.
-/
namespace ElfScope.Elf

/-- Why a file could not be opened. -/
inductive OpenError where
  | tooSmall (size : Nat)
  | badMagic
  | badClass (value : Nat)
  | truncatedHeader (size : Nat)
  | badByteOrder (value : Nat)
  | smallSectionEntry (size : Nat)
  | shortage (s : Shortage)
  | noFirstSection
  | farPosition
deriving DecidableEq, Repr

def OpenError.message (e : OpenError) : Text :=
  match e with
  | .truncatedHeader size => "Header is truncated (" ++ Text.ofNat size ++ " bytes)" |> about
  | .tooSmall size => "Too small (" ++ Text.ofNat size ++ " bytes)" |> about
  | .badMagic => about "Bad magic"
  | .badClass value => "Invalid EI_CLASS " ++ Text.ofNat value |> about
  | .badByteOrder value => "Invalid EI_DATA " ++ Text.ofNat value |> about
  | .smallSectionEntry size => "Too small e_shentsize: " ++ Text.ofNat size |> about
  | .shortage s =>
    "expected " ++ Text.ofNat s.expected ++ ", found " ++ Text.ofNat s.found |> about
  | .noFirstSection => about "'NoneType' object is not subscriptable"
  | .farPosition => about "Python int too large to convert to C ssize_t"
where
  about (t : Text) : Text := "File is not a valid ELF binary. " ++ t

/-- The bytes of a file with what was read on opening it. -/
structure File where
  bytes : Bytes
  layout : Layout
  header : FileHeader
  nameTable : Option SectionHeader

def magic : Bytes := [0x7f, 0x45, 0x4c, 0x46]

/-- The class and byte order that the identification tells. -/
def identify (bs : Bytes) : Except OpenError Layout := do
  let size := bs.length
  if size < 16 then throw (.tooSmall size)
  if bs.take 4 ≠ magic then throw .badMagic
  let cls := (bs[4]?.getD 0).toNat
  if cls ≠ 1 ∧ cls ≠ 2 then throw (.badClass cls)
  let wide : Bool := cls = 2
  if size < (Layout.mk wide .little).fileHeaderSize then throw (.truncatedHeader size)
  match (bs[5]?.getD 0).toNat with
  | 1 => return ⟨wide, .little⟩
  | 2 => return ⟨wide, .big⟩
  | n => throw (.badByteOrder n)

/-- The header of a section by its number, which the number of sections does not bound. There is
none where its position lies beyond the end. -/
def readSectionHeader (bs : Bytes) (l : Layout) (h : FileHeader) (index : Nat) :
    Except OpenError (Option SectionHeader) :=
  if 0 < h.sectionOffset ∧ h.sectionEntrySize < l.sectionHeaderSize then
    .error (.smallSectionEntry h.sectionEntrySize)
  else
    let position := h.sectionOffset + index * h.sectionEntrySize
    if bs.length < position then .ok none
    else match (SectionHeader.decoder l).valueAt bs position with
      | .ok s => .ok (some s)
      | .error s => .error (.shortage s)

def readCompressionHeader (bs : Bytes) (l : Layout) (position : Nat) :
    Except OpenError CompressionHeader :=
  if Bytes.positionLimit ≤ position then .error .farPosition
  else (CompressionHeader.decoder l).valueAt bs position |>.mapError .shortage

/-- The number that says that the real index stands in the first section header. -/
def extendedIndex : Nat := 0xffff

def readNameTable (bs : Bytes) (l : Layout) (h : FileHeader) :
    Except OpenError (Option SectionHeader) := do
  let index ←
    if h.nameTableIndex ≠ extendedIndex then pure h.nameTableIndex
    else match ← readSectionHeader bs l h 0 with
      | some s => pure s.link
      | none => throw .noFirstSection
  let table ← readSectionHeader bs l h index
  if let some s := table then
    if s.compressed then
      let _ ← readCompressionHeader bs l s.offset
  return table

namespace File

def read (bs : Bytes) : Except OpenError File := do
  let layout ← identify bs
  let header ← (FileHeader.decoder layout).valueAt bs 16 |>.mapError .shortage
  let nameTable ← readNameTable bs layout header
  return { bytes := bs, layout, header, nameTable }

def sectionHeader? (f : File) (index : Nat) : Option SectionHeader :=
  match readSectionHeader f.bytes f.layout f.header index with
  | .ok h => h
  | .error _ => none

/-- A table with no number of its own has it in the first section header. -/
def sectionCount? (f : File) : Option Nat :=
  if f.header.sectionOffset = 0 then some 0
  else if f.header.sectionCount ≠ 0 then some f.header.sectionCount
  else (f.sectionHeader? 0).map (·.size)

end File

end ElfScope.Elf
