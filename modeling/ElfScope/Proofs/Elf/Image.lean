import Mathlib
import ElfScope.Elf.Section
import ElfScope.Proofs.Bytes.Reads
import ElfScope.Proofs.Text.Utf8

/-! # Images of files

A file as it is laid out from its parts: the identification and the file header, the program headers,
the contents of segments and of sections, and the section headers. Every section starts at a multiple
of eight. The table of section names is the last section.
-/
namespace ElfScope.Elf

/-! ### Headers -/

namespace Layout
variable (l : Layout)

def encodeHalf (n : Nat) : Bytes := Bytes.ofNat l.order 2 n
def encodeWord (n : Nat) : Bytes := Bytes.ofNat l.order 4 n
def encodeAddress (n : Nat) : Bytes := Bytes.ofNat l.order l.addressSize n

@[simp] theorem length_encodeHalf (n : Nat) : (l.encodeHalf n).length = 2 := Bytes.length_ofNat ..

@[simp] theorem length_encodeWord (n : Nat) : (l.encodeWord n).length = 4 := Bytes.length_ofNat ..

@[simp] theorem length_encodeAddress (n : Nat) : (l.encodeAddress n).length = l.addressSize :=
  Bytes.length_ofNat ..

variable {l}

theorem reads_half {n : Nat} (h : n < Bytes.limit 2) : l.half.Reads (l.encodeHalf n) n :=
  Decoder.reads_number l.order h

theorem reads_word {n : Nat} (h : n < Bytes.limit 4) : l.word.Reads (l.encodeWord n) n :=
  Decoder.reads_number l.order h

theorem reads_address {n : Nat} (h : n < Bytes.limit l.addressSize) :
    l.address.Reads (l.encodeAddress n) n :=
  Decoder.reads_number l.order h

def classCode (l : Layout) : UInt8 := if l.wide then 2 else 1

def orderCode (l : Layout) : UInt8 := if l.order = .little then 1 else 2

/-- The sixteen bytes that a file starts with. -/
def identification (l : Layout) : Bytes :=
  magic ++ (l.classCode :: l.orderCode :: 1 :: List.replicate 9 0)

end Layout

namespace FileHeader

def encode (l : Layout) (h : FileHeader) : Bytes :=
  l.encodeHalf h.type ++ (l.encodeHalf h.machine ++ (l.encodeWord 1 ++ (l.encodeAddress h.entry ++
    (l.encodeAddress h.programOffset ++ (l.encodeAddress h.sectionOffset ++ (l.encodeWord 0 ++
      (l.encodeHalf l.fileHeaderSize ++ (l.encodeHalf h.programEntrySize ++
        (l.encodeHalf h.programCount ++ (l.encodeHalf h.sectionEntrySize ++
          (l.encodeHalf h.sectionCount ++ l.encodeHalf h.nameTableIndex)))))))))))

structure Fits (l : Layout) (h : FileHeader) : Prop where
  type : h.type < Bytes.limit 2
  machine : h.machine < Bytes.limit 2
  entry : h.entry < Bytes.limit l.addressSize
  programOffset : h.programOffset < Bytes.limit l.addressSize
  sectionOffset : h.sectionOffset < Bytes.limit l.addressSize
  programEntrySize : h.programEntrySize < Bytes.limit 2
  programCount : h.programCount < Bytes.limit 2
  sectionEntrySize : h.sectionEntrySize < Bytes.limit 2
  sectionCount : h.sectionCount < Bytes.limit 2
  nameTableIndex : h.nameTableIndex < Bytes.limit 2

variable {l : Layout} {h : FileHeader}

theorem length_encode (l : Layout) (h : FileHeader) :
    16 + (h.encode l).length = l.fileHeaderSize := by
  rcases l with ⟨_ | _, order⟩ <;> simp [encode, Layout.fileHeaderSize, Layout.addressSize]

theorem reads_encode (hfits : h.Fits l) : (decoder l).Reads (h.encode l) h := by
  have hone : (1 : Nat) < Bytes.limit 4 := by decide
  have hzero : (0 : Nat) < Bytes.limit 4 := by decide
  have hsize : l.fileHeaderSize < Bytes.limit 2 := by
    rcases l with ⟨_ | _, _ | _⟩ <;> decide
  refine (Layout.reads_half hfits.type).bind ?_
  refine (Layout.reads_half hfits.machine).bind ?_
  refine (Layout.reads_word hone).bind ?_
  refine (Layout.reads_address hfits.entry).bind ?_
  refine (Layout.reads_address hfits.programOffset).bind ?_
  refine (Layout.reads_address hfits.sectionOffset).bind ?_
  refine (Layout.reads_word hzero).bind ?_
  refine (Layout.reads_half hsize).bind ?_
  refine (Layout.reads_half hfits.programEntrySize).bind ?_
  refine (Layout.reads_half hfits.programCount).bind ?_
  refine (Layout.reads_half hfits.sectionEntrySize).bind ?_
  refine (Layout.reads_half hfits.sectionCount).bind ?_
  exact (Layout.reads_half hfits.nameTableIndex).last (Decoder.reads_pure h)

end FileHeader

namespace SectionHeader

def encode (l : Layout) (h : SectionHeader) : Bytes :=
  l.encodeWord h.name ++ (l.encodeWord h.type ++ (l.encodeAddress h.flags ++ (l.encodeAddress 0 ++
    (l.encodeAddress h.offset ++ (l.encodeAddress h.size ++ (l.encodeWord h.link ++
      (l.encodeWord h.info ++ (l.encodeAddress 1 ++ l.encodeAddress h.entrySize))))))))

structure Fits (l : Layout) (h : SectionHeader) : Prop where
  name : h.name < Bytes.limit 4
  type : h.type < Bytes.limit 4
  flags : h.flags < Bytes.limit l.addressSize
  offset : h.offset < Bytes.limit l.addressSize
  size : h.size < Bytes.limit l.addressSize
  link : h.link < Bytes.limit 4
  info : h.info < Bytes.limit 4
  entrySize : h.entrySize < Bytes.limit l.addressSize

/-- The header before all others. -/
def blank : SectionHeader := ⟨0, 0, 0, 0, 0, 0, 0, 0⟩

variable {l : Layout} {h : SectionHeader}

theorem length_encode (l : Layout) (h : SectionHeader) :
    (h.encode l).length = l.sectionHeaderSize := by
  rcases l with ⟨_ | _, order⟩ <;> simp [encode, Layout.sectionHeaderSize, Layout.addressSize]

theorem reads_encode (hfits : h.Fits l) : (decoder l).Reads (h.encode l) h := by
  have hsmall {n : Nat} (hn : n < 2) : n < Bytes.limit l.addressSize := by
    refine lt_of_lt_of_le hn ?_
    rcases l with ⟨_ | _, _ | _⟩ <;> decide
  refine (Layout.reads_word hfits.name).bind ?_
  refine (Layout.reads_word hfits.type).bind ?_
  refine (Layout.reads_address hfits.flags).bind ?_
  refine (Layout.reads_address (hsmall (by decide))).bind ?_
  refine (Layout.reads_address hfits.offset).bind ?_
  refine (Layout.reads_address hfits.size).bind ?_
  refine (Layout.reads_word hfits.link).bind ?_
  refine (Layout.reads_word hfits.info).bind ?_
  refine (Layout.reads_address (hsmall (by decide))).bind ?_
  exact (Layout.reads_address hfits.entrySize).last (Decoder.reads_pure h)

end SectionHeader

def ProgramHeader.encode (l : Layout) (h : ProgramHeader) : Bytes :=
  l.encodeWord h.type ++ ((if l.wide then l.encodeWord 0 else []) ++ (l.encodeAddress h.offset ++
    (l.encodeAddress 0 ++ (l.encodeAddress 0 ++ (l.encodeAddress h.fileSize ++
      (l.encodeAddress h.fileSize ++ ((if l.wide then [] else l.encodeWord 0) ++
        l.encodeAddress 1)))))))

namespace CompressionHeader

/-- The header of compressed content, which tells of an alignment too. -/
def encode (l : Layout) (align : Nat) (c : CompressionHeader) : Bytes :=
  l.encodeWord c.type ++ ((if l.wide then l.encodeWord 0 else []) ++
    (l.encodeAddress c.size ++ l.encodeAddress align))

structure Fits (l : Layout) (c : CompressionHeader) : Prop where
  type : c.type < Bytes.limit 4
  size : c.size < Bytes.limit l.addressSize

variable {l : Layout} {c : CompressionHeader}

theorem length_encode (l : Layout) (align : Nat) (c : CompressionHeader) :
    (c.encode l align).length = l.compressionHeaderSize := by
  rcases l with ⟨_ | _, order⟩ <;>
    simp [encode, Layout.compressionHeaderSize, Layout.addressSize]

/-- The alignment may be too large for its field. -/
theorem reads_encode (hfits : c.Fits l) (align : Nat) :
    (decoder l).Reads (c.encode l align) c := by
  have hzero : (0 : Nat) < Bytes.limit 4 := by decide
  have htype := Layout.reads_word (l := l) hfits.type
  have hreserved := Layout.reads_word (l := l) hzero
  have hsize := Layout.reads_address (l := l) hfits.size
  have halign : l.address.Reads (l.encodeAddress align) (align % Bytes.limit l.addressSize) :=
    Decoder.reads_number_mod l.order l.addressSize align
  rcases l with ⟨_ | _, order⟩
  · exact htype.bind (hsize.bind (halign.last (Decoder.reads_pure c)))
  · exact htype.bind (hreserved.bind (hsize.bind (halign.last (Decoder.reads_pure c))))

end CompressionHeader

/-! ### Parts -/

/-- A section before it has a place. One that takes no room has a size of its own. -/
structure ImageSection where
  name : Text
  content : Bytes
  type : Nat := 1
  flags : Nat := 0
  blankSize : Nat := 0
deriving DecidableEq

namespace ImageSection

def stored (p : ImageSection) : Bytes := if p.type = 8 then [] else p.content

def size (p : ImageSection) : Nat := if p.type = 8 then p.blankSize else p.content.length

/-- The name can be written before a NUL, and the numbers fit in a header. -/
structure Fits (l : Layout) (p : ImageSection) : Prop where
  scalar : p.name.Scalar
  noNul : ∀ c ∈ p.name, c.value ≠ 0
  type : p.type < Bytes.limit 4
  flags : p.flags < Bytes.limit l.addressSize
  blankSize : p.blankSize < Bytes.limit l.addressSize

instance (l : Layout) (p : ImageSection) : Decidable (p.Fits l) :=
  decidable_of_iff (p.name.Scalar ∧ (∀ c ∈ p.name, c.value ≠ 0) ∧ p.type < Bytes.limit 4 ∧
      p.flags < Bytes.limit l.addressSize ∧ p.blankSize < Bytes.limit l.addressSize)
    ⟨fun h => ⟨h.1, h.2.1, h.2.2.1, h.2.2.2.1, h.2.2.2.2⟩,
      fun h => ⟨h.scalar, h.noNul, h.type, h.flags, h.blankSize⟩⟩

end ImageSection

/-- A segment before it has a place. One without content points to a place of its own. -/
structure ImageSegment where
  type : Nat
  content : Option Bytes
  offset : Nat := 0
  fileSize : Nat := 0

/-- The segments from a position on. -/
def placeSegments (position : Nat) : List ImageSegment → List ProgramHeader
  | [] => []
  | g :: gs => match g.content with
    | none => ⟨g.type, g.offset, g.fileSize⟩ :: placeSegments position gs
    | some bs => ⟨g.type, position, bs.length⟩ :: placeSegments (position + bs.length) gs

/-- The first multiple of eight from a position on. -/
def aligned (position : Nat) : Nat := (position + 7) / 8 * 8

def padding (position : Nat) : Bytes := List.replicate (aligned position - position) 0

/-- A section with the places of its content in the file and of its name in the table of names. -/
structure Placement where
  part : ImageSection
  offset : Nat
  nameOffset : Nat

def Placement.header (x : Placement) : SectionHeader where
  name := x.nameOffset
  type := x.part.type
  flags := x.part.flags
  offset := x.offset
  size := x.part.size
  link := 0
  info := 0
  entrySize := 0

/-- The places of sections from a position on, and from one in the table of names on. -/
def place (position nameOffset : Nat) : List ImageSection → List Placement
  | [] => []
  | p :: ps => ⟨p, aligned position, nameOffset⟩ ::
    place (aligned position + p.stored.length) (nameOffset + (Utf8.encode p.name).length + 1) ps

/-- The contents of sections from a position on, up to the next multiple of eight. -/
def encodeContents (position : Nat) : List ImageSection → Bytes
  | [] => padding position
  | p :: ps => padding position ++
    (p.stored ++ encodeContents (aligned position + p.stored.length) ps)

/-- What a file is laid out from. -/
structure Image where
  layout : Layout
  type : Nat
  machine : Nat
  entry : Nat
  sections : List ImageSection
  segments : List ImageSegment := []

namespace Image
variable (m : Image)

/-- The table of names, which has its own name too. -/
def nameTable : ImageSection where
  name := ".shstrtab"
  content := 0 :: Utf8.encodeTexts (m.sections.map (·.name) ++ [Text.ofString ".shstrtab"])
  type := 3

def parts : List ImageSection := m.sections ++ [m.nameTable]

def segmentStart : Nat :=
  m.layout.fileHeaderSize + m.layout.programHeaderSize * m.segments.length

def segmentContents : Bytes := m.segments.flatMap fun g => g.content.getD []

def contentStart : Nat := m.segmentStart + m.segmentContents.length

def contents : Bytes := encodeContents m.contentStart m.parts

def placements : List Placement := place m.contentStart 1 m.parts

def headers : List SectionHeader :=
  .blank :: m.placements.map Placement.header

def programTable : Bytes :=
  (placeSegments m.segmentStart m.segments).flatMap (ProgramHeader.encode m.layout)

def sectionTable : Bytes := m.headers.flatMap (SectionHeader.encode m.layout)

/-- Without sections there is no table of them. -/
def fileHeader : FileHeader where
  type := m.type
  machine := m.machine
  entry := m.entry
  programOffset := if m.segments.isEmpty then 0 else m.layout.fileHeaderSize
  sectionOffset := if m.sections.isEmpty then 0 else m.contentStart + m.contents.length
  programEntrySize := m.layout.programHeaderSize
  programCount := m.segments.length
  sectionEntrySize := m.layout.sectionHeaderSize
  sectionCount := if m.sections.isEmpty then 0 else m.sections.length + 2
  nameTableIndex := if m.sections.isEmpty then 0 else m.sections.length + 1

def encode : Bytes :=
  m.layout.identification ++ (m.fileHeader.encode m.layout ++ (m.programTable ++
    (m.segmentContents ++ if m.sections.isEmpty then [] else m.contents ++ m.sectionTable)))

/-- Sizes and numbers fit in the headers. -/
structure Fits (m : Image) : Prop where
  type : m.type < Bytes.limit 2
  machine : m.machine < Bytes.limit 2
  entry : m.entry < Bytes.limit m.layout.addressSize
  segmentCount : m.segments.length < Bytes.limit 2
  sectionCount : m.sections.length + 2 < Bytes.limit 2
  length : m.encode.length < Bytes.limit m.layout.addressSize
  reachable : m.encode.length < Bytes.positionLimit
  names : m.nameTable.content.length < Bytes.limit 4
  sections : ∀ p ∈ m.sections, p.Fits m.layout

end Image

/-! ### Numbers in the first section header -/

/-- Which numbers the first section header has in place of the file header: how many sections there
are, and which one is the table of names. -/
structure Numbering where
  countMoved : Bool := false
  indexMoved : Bool := false

namespace Image
variable (m : Image) (n : Numbering)

def firstHeader : SectionHeader :=
  { SectionHeader.blank with
    size := if n.countMoved then m.sections.length + 2 else 0
    link := if n.indexMoved then m.sections.length + 1 else 0 }

def headersAs : List SectionHeader := m.firstHeader n :: m.placements.map Placement.header

def sectionTableAs : Bytes := (m.headersAs n).flatMap (SectionHeader.encode m.layout)

def fileHeaderAs : FileHeader :=
  { m.fileHeader with
    sectionCount := if m.sections.isEmpty then 0
      else if n.countMoved then 0 else m.sections.length + 2
    nameTableIndex := if m.sections.isEmpty then 0
      else if n.indexMoved then extendedIndex else m.sections.length + 1 }

def encodeAs : Bytes :=
  m.layout.identification ++ ((m.fileHeaderAs n).encode m.layout ++ (m.programTable ++
    (m.segmentContents ++ if m.sections.isEmpty then [] else m.contents ++ m.sectionTableAs n)))

theorem encodeAs_plain : m.encodeAs {} = m.encode := rfl

/-- Sizes and numbers fit where they stand. -/
structure FitsAs (m : Image) (n : Numbering) : Prop where
  type : m.type < Bytes.limit 2
  machine : m.machine < Bytes.limit 2
  entry : m.entry < Bytes.limit m.layout.addressSize
  segmentCount : m.segments.length < Bytes.limit 2
  sectionCount : m.sections.length + 2 <
    Bytes.limit (if n.countMoved then m.layout.addressSize else 2)
  nameTableIndex : m.sections.length + 1 <
    if n.indexMoved then Bytes.limit 4 else extendedIndex
  length : (m.encodeAs n).length < Bytes.limit m.layout.addressSize
  reachable : (m.encodeAs n).length < Bytes.positionLimit
  names : m.nameTable.content.length < Bytes.limit 4
  sections : ∀ p ∈ m.sections, p.Fits m.layout

variable {m}

theorem Fits.plain (h : m.Fits) : m.FitsAs {} where
  type := h.type
  machine := h.machine
  entry := h.entry
  segmentCount := h.segmentCount
  sectionCount := h.sectionCount
  nameTableIndex := by
    have hcount := h.sectionCount
    have hlimit : Bytes.limit 2 = extendedIndex + 1 := by decide
    change m.sections.length + 1 < extendedIndex
    omega
  length := h.length
  reachable := h.reachable
  names := h.names
  sections := h.sections

end Image

end ElfScope.Elf
