import ElfScope.Elf.File
import ElfScope.Text.Utf8
import ElfScope.Zlib.Inflate

/-! # Sections

A section can be read when its header and name can, and when the rules of its type hold. The
content of a compressed section is inflated.
-/
namespace ElfScope.Elf

structure Section where
  header : SectionHeader
  name : Text
  compression : Option CompressionHeader
deriving DecidableEq

namespace SectionType

def symbols : List Nat := [2, 11, 0x6ffffff3]
def versionTables : List Nat := [0x6ffffffd, 0x6ffffffe]
def versionIndices : Nat := 0x6fffffff
def symbolInfo : Nat := 0x6ffffffc
def hash : Nat := 5
def gnuHash : Nat := 0x6ffffff6
def dynamic : Nat := 6
def attributes : Nat := 0x70000003

/-- The entry size that a table of relocations must have. -/
def relocationSize? (l : Layout) : Nat → Option Nat
  | 4 => some (3 * l.addressSize)
  | 9 => some (2 * l.addressSize)
  | 19 => some l.addressSize
  | _ => none

end SectionType

namespace File

/-- Without a NUL before the end of the file the name is empty. -/
def sectionName? (f : File) (h : SectionHeader) : Option Text :=
  match f.nameTable with
  | none => none
  | some table =>
    let position := table.offset + h.name
    if Bytes.positionLimit ≤ position then none
    else some (Utf8.decodeLossy ((Bytes.beforeNul? (f.bytes.drop position)).getD []))

/-- Buckets and chains of a hash table fit in the file. -/
def hashFits (f : File) (offset : Nat) : Bool :=
  let counts : Decoder (Nat × Nat) := return (← f.layout.word, ← f.layout.word)
  match counts.runAt f.bytes offset with
  | .ok ((buckets, chains), rest) => 4 * (buckets + chains) ≤ rest.length
  | .error _ => false

def gnuHashFits (f : File) (offset : Nat) : Bool :=
  let counts : Decoder (Nat × Nat) := do
    let buckets ← f.layout.word
    let _symbolOffset ← f.layout.word
    let bloom ← f.layout.word
    let _bloomShift ← f.layout.word
    return (buckets, bloom)
  match counts.runAt f.bytes offset with
  | .ok ((buckets, bloom), rest) => f.layout.addressSize * bloom + 4 * buckets ≤ rest.length
  | .error _ => false

/-- The rules of a section's type. `linked` reads the section that a header is linked to, provided
that its type is one of those given; any type will do where none is. -/
def typeRules (f : File) (linked : SectionHeader → List Nat → Bool) (h : SectionHeader) : Bool :=
  let t := h.type
  if t ∈ SectionType.symbols then
    linked h [3] && 0 < h.entrySize && h.size % h.entrySize = 0
  else if t ∈ SectionType.versionTables then linked h [3]
  else if t = SectionType.versionIndices then linked h []
  else if t = SectionType.symbolInfo then linked h [2, 11]
  else if t = SectionType.hash then linked h [2, 11] && f.hashFits h.offset
  else if t = SectionType.gnuHash then linked h [2, 11] && f.gnuHashFits h.offset
  else if t = SectionType.dynamic then linked h [3, 8]
  else if t = SectionType.attributes ∧ f.header.machine ∈ [40, 243] then
    (f.bytes.drop h.offset).head? = some 0x41
  else match SectionType.relocationSize? f.layout t with
    | some size => h.entrySize = size
    | none => true

/-- The header of the compressed content, where the content is compressed. -/
def compression? (f : File) (h : SectionHeader) : Option (Option CompressionHeader) :=
  if h.compressed then
    match readCompressionHeader f.bytes f.layout h.offset with
    | .ok c => some (some c)
    | .error _ => none
  else some none

/-- Follows at most `fuel` links. More links than the file has positions go in a circle. -/
def sectionFrom? (f : File) : Nat → Nat → Option Section
  | 0, _ => none
  | fuel + 1, index => do
    let header ← f.sectionHeader? index
    let name ← f.sectionName? header
    let compression ← f.compression? header
    let linked (h : SectionHeader) (types : List Nat) : Bool :=
      match f.sectionHeader? h.link with
      | none => false
      | some target =>
        (types.isEmpty || types.contains target.type) && (f.sectionFrom? fuel h.link).isSome
    if f.typeRules linked header then pure { header, name, compression } else none

def section? (f : File) (index : Nat) : Option Section :=
  f.sectionFrom? (f.bytes.length + 2) index

/-- Bytes at a position, cut at the end of the file. -/
def bytesAt? (f : File) (position size : Nat) : Option Bytes :=
  if Bytes.positionLimit ≤ position ∨ Bytes.positionLimit ≤ size then none
  else some (f.bytes.slice position size)

def compressedContent? (f : File) (h : SectionHeader) (c : CompressionHeader) : Option Bytes := do
  let headerSize := f.layout.compressionHeaderSize
  let size := if h.size < headerSize then f.bytes.length else h.size - headerSize
  let input ← f.bytesAt? (h.offset + headerSize) size
  if c.type ≠ 1 then none
  let content ← Zlib.inflateUpTo? c.size input
  if content.length = c.size then some content else none

def content? (f : File) (s : Section) : Option Bytes :=
  match s.compression with
  | some c => f.compressedContent? s.header c
  | none => f.bytesAt? s.header.offset s.header.size

end File

end ElfScope.Elf
