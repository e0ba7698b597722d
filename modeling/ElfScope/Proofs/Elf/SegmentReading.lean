import Mathlib
import ElfScope.Elf.Segment
import ElfScope.Proofs.Elf.ImageReading

/-! # Reading segments, and images without sections

The program headers of an image are read as they were placed, in the order of its segments. Where there
are no sections, what is taken for the header of the table of names is the start of the file itself.
-/
namespace ElfScope.Elf

namespace ProgramHeader

structure Fits (l : Layout) (h : ProgramHeader) : Prop where
  type : h.type < Bytes.limit 4
  offset : h.offset < Bytes.limit l.addressSize
  fileSize : h.fileSize < Bytes.limit l.addressSize

theorem reads_encode {l : Layout} {h : ProgramHeader} (hfits : h.Fits l) :
    (decoder l).Reads (h.encode l) h := by
  have hzero : (0 : Nat) < Bytes.limit 4 := by decide
  have hsmall {n : Nat} (hn : n < 2) : n < Bytes.limit l.addressSize := by
    refine lt_of_lt_of_le hn ?_
    rcases l with ⟨_ | _, _ | _⟩ <;> decide
  have htype := Layout.reads_word (l := l) hfits.type
  have hflags := Layout.reads_word (l := l) hzero
  have hoffset := Layout.reads_address (l := l) hfits.offset
  have hplace := Layout.reads_address (l := l) (hsmall (show 0 < 2 by decide))
  have hsize := Layout.reads_address (l := l) hfits.fileSize
  have halign := Layout.reads_address (l := l) (hsmall (show 1 < 2 by decide))
  rcases l with ⟨_ | _, order⟩
  · refine htype.bind (hoffset.bind (hplace.bind (hplace.bind (hsize.bind (hsize.bind ?_)))))
    exact hflags.bind (halign.last (Decoder.reads_pure h))
  · refine htype.bind (hflags.bind (hoffset.bind (hplace.bind (hplace.bind (hsize.bind ?_)))))
    exact hsize.bind (halign.last (Decoder.reads_pure h))

end ProgramHeader

/-! ### Segments -/

/-- A segment whose numbers fit in a header. Dynamic ones are read together with sections. -/
structure ImageSegment.Fits (l : Layout) (g : ImageSegment) : Prop where
  type : g.type < Bytes.limit 4
  notDynamic : g.type ≠ 2
  offset : g.offset < Bytes.limit l.addressSize
  fileSize : g.fileSize < Bytes.limit l.addressSize

instance (l : Layout) (g : ImageSegment) : Decidable (g.Fits l) :=
  decidable_of_iff (g.type < Bytes.limit 4 ∧ g.type ≠ 2 ∧ g.offset < Bytes.limit l.addressSize ∧
      g.fileSize < Bytes.limit l.addressSize)
    ⟨fun h => ⟨h.1, h.2.1, h.2.2.1, h.2.2.2⟩, fun h => ⟨h.type, h.notDynamic, h.offset, h.fileSize⟩⟩

theorem fits_placeSegments {l : Layout} {gs : List ImageSegment} {position : Nat}
    (hgs : ∀ g ∈ gs, g.Fits l)
    (hend : position + (gs.flatMap fun g => g.content.getD []).length < Bytes.limit l.addressSize) :
    ∀ h ∈ placeSegments position gs, h.Fits l ∧ h.isDynamic = false := by
  induction gs generalizing position with
  | nil => simp [placeSegments]
  | cons g gs ih =>
    obtain ⟨hg, hgs⟩ := List.forall_mem_cons.mp hgs
    rw [List.flatMap_cons, List.length_append] at hend
    have hdynamic : decide (g.type = 2) = false := decide_eq_false hg.notDynamic
    unfold placeSegments
    cases hc : g.content with
    | none =>
      rw [hc] at hend
      refine List.forall_mem_cons.mpr ⟨⟨⟨hg.type, hg.offset, hg.fileSize⟩, hdynamic⟩, ih hgs ?_⟩
      simpa using hend
    | some bs =>
      rw [hc, Option.getD_some] at hend
      refine List.forall_mem_cons.mpr ⟨⟨⟨hg.type, ?_, ?_⟩, hdynamic⟩, ih hgs ?_⟩
      · change position < _
        omega
      · change bs.length < _
        omega
      · omega

namespace Image
variable {m : Image} {n : Numbering}

/-- The program headers, in the order of the segments. -/
def programHeaders (m : Image) : List ProgramHeader := placeSegments m.segmentStart m.segments

/-- All segments can be counted and read. -/
structure Segmented (m : Image) : Prop where
  count : m.segments.length < extendedIndex
  segments : ∀ g ∈ m.segments, g.Fits m.layout

theorem contentStart_le (m : Image) (n : Numbering) : m.contentStart ≤ (m.encodeAs n).length := by
  have hheader := FileHeader.length_encode m.layout (m.fileHeaderAs n)
  unfold encodeAs
  simp only [List.length_append, length_identification, length_programTable, contentStart,
    segmentStart]
  omega

theorem fits_programHeaders (hm : m.FitsAs n) (hg : m.Segmented) :
    ∀ h ∈ m.programHeaders, h.Fits m.layout ∧ h.isDynamic = false :=
  fits_placeSegments hg.segments ((contentStart_le m n).trans_lt hm.length)

/-- An opened file of the bytes and the file header of an image. -/
structure Opens (m : Image) (n : Numbering) (f : File) : Prop where
  bytes : f.bytes = m.encodeAs n
  layout : f.layout = m.layout
  header : f.header = m.fileHeaderAs n

theorem Opens.segmentCount? {f : File} (hf : m.Opens n f) (hg : m.Segmented) :
    f.segmentCount? = some m.programHeaders.length := by
  have hcount : f.header.programCount = m.segments.length := congrArg _ hf.header
  unfold File.segmentCount?
  rw [hcount, if_pos hg.count, programHeaders, length_placeSegments]

theorem Opens.segment? {f : File} (hf : m.Opens n f) (hm : m.FitsAs n) (hg : m.Segmented) {i : Nat}
    {h : ProgramHeader} (hi : m.programHeaders[i]? = some h) : f.segment? i = some h := by
  obtain ⟨hfits, hdynamic⟩ := fits_programHeaders hm hg h (List.mem_of_getElem? hi)
  have hheld : (m.encodeAs n).Holds (m.layout.fileHeaderSize + i * m.layout.programHeaderSize)
      (h.encode m.layout) :=
    (holds_programTable m n).within (holds_flatMap (ProgramHeader.length_encode m.layout) hi)
  have hread := (ProgramHeader.reads_encode hfits).valueAt hheld
  have hsegments : m.segments.isEmpty = false := by
    cases hempty : m.segments with
    | nil =>
      rw [programHeaders, hempty] at hi
      cases hi
    | cons g gs => rfl
  have hposition : f.header.programOffset + i * f.header.programEntrySize =
      m.layout.fileHeaderSize + i * m.layout.programHeaderSize := by
    rw [hf.header]
    change (if m.segments.isEmpty then 0 else m.layout.fileHeaderSize) + _ = _
    rw [hsegments]
    rfl
  have hsize : ¬(0 < f.header.programOffset ∧
      f.header.programEntrySize < f.layout.programHeaderSize) := by
    rw [hf.header, hf.layout]
    exact fun h => lt_irrefl _ h.2
  unfold File.segment?
  rw [if_neg hsize]
  simp only [hposition, hf.bytes, hf.layout, hread, hdynamic]
  rfl

end Image

/-! ### Without sections -/

namespace Layout

theorem identification_eq (l : Layout) : l.identification = magic ++
    ([l.classCode, l.orderCode, 1, 0] ++ (l.encodeAddress 0 ++
      List.replicate (8 - l.addressSize) 0)) := by
  rcases l with ⟨_ | _, _ | _⟩ <;> rfl

end Layout

/-- The start of a file is a section header too, and not that of a compressed section. -/
theorem SectionHeader.exists_valueAt_identification {l : Layout} {rest : Bytes}
    (h : l.fileHeaderSize ≤ (l.identification ++ rest).length) :
    ∃ s, (decoder l).valueAt (l.identification ++ rest) 0 = .ok s ∧ s.compressed = false := by
  have hlength := congrArg List.length l.identification_eq
  have hsizes : 16 + 5 * l.addressSize + 8 ≤ l.fileHeaderSize ∧ l.addressSize ≤ 8 := by
    rcases l with ⟨_ | _, _ | _⟩ <;> decide
  rw [List.length_append] at h
  simp only [Image.length_identification] at hlength h
  have hzero : (0 : Nat) < Bytes.limit l.addressSize := by
    rcases l with ⟨_ | _, _ | _⟩ <;> decide
  let tail := List.replicate (8 - l.addressSize) 0 ++ rest
  let size := l.addressSize + (l.addressSize + (l.addressSize + (4 + (4 + (l.addressSize +
    (l.addressSize + 0))))))
  have htail : (tail.take size).length = size := by
    rw [List.length_take, List.length_append, List.length_replicate]
    omega
  have hword (bs : Bytes) (hbs : bs.length = 4) := Decoder.readsAny_number l.order 4 bs hbs
  obtain ⟨name, hname, -⟩ := hword magic rfl
  obtain ⟨type, htype, -⟩ := hword [l.classCode, l.orderCode, 1, 0] rfl
  have hreads : ∃ s, (decoder l).Reads (magic ++ ([l.classCode, l.orderCode, 1, 0] ++
      (l.encodeAddress 0 ++ tail.take size))) s ∧ s.flags = 0 := by
    refine hname.exists_bind (htype.exists_bind ((Layout.reads_address hzero).exists_bind ?_))
    have haddress := Decoder.readsAny_number l.order l.addressSize
    have hword := Decoder.readsAny_number l.order 4
    refine (haddress.bind fun _ => haddress.bind fun _ => haddress.bind fun _ => hword.bind fun _ =>
      hword.bind fun _ => haddress.bind fun _ => haddress.bind fun _ => ?_) (tail.take size) htail
    exact Decoder.readsAny_pure rfl
  obtain ⟨s, hs, hflags⟩ := hreads
  refine ⟨s, hs.valueAt ⟨tail.drop size, ?_⟩, ?_⟩
  · rw [List.drop_zero, Layout.identification_eq]
    simp only [List.append_assoc, List.take_append_drop, tail]
  · rw [SectionHeader.compressed, hflags]
    exact Nat.zero_testBit 11

namespace Image
variable {m : Image} {n : Numbering}

theorem Opens.sectionCount? {f : File} (hf : m.Opens n f) (hs : m.sections = []) :
    f.sectionCount? = some 0 := by
  have hstart : f.header.sectionOffset = 0 := by
    rw [hf.header]
    change (if m.sections.isEmpty then 0 else _) = _
    rw [hs]
    rfl
  unfold File.sectionCount?
  rw [if_pos hstart]

/-- Without sections a file is opened too. -/
theorem exists_read (hm : m.FitsAs n) (hs : m.sections = []) :
    ∃ f, File.read (m.encodeAs n) = .ok f ∧ m.Opens n f := by
  have hempty : m.sections.isEmpty = true := by rw [hs]; rfl
  have hheader := (FileHeader.reads_encode (fits_fileHeader hm)).valueAt (holds_fileHeader m n)
  obtain ⟨s, hread, hplain⟩ :=
    SectionHeader.exists_valueAt_identification (fileHeaderSize_le m n)
  have hstart : (m.fileHeaderAs n).sectionOffset = 0 := if_pos hempty
  have hindex : (m.fileHeaderAs n).nameTableIndex = 0 := if_pos hempty
  have hfirst : readSectionHeader (m.encodeAs n) m.layout (m.fileHeaderAs n) 0 = .ok (some s) := by
    unfold readSectionHeader
    rw [hstart, if_neg fun h => lt_irrefl _ h.1]
    simp only [Nat.zero_mul, Nat.add_zero, Nat.not_lt_zero, if_false]
    rw [show (SectionHeader.decoder m.layout).valueAt (m.encodeAs n) 0 = .ok s from hread]
  have htable : readNameTable (m.encodeAs n) m.layout (m.fileHeaderAs n) = .ok (some s) := by
    unfold readNameTable
    rw [hindex, if_pos (by decide)]
    change (readSectionHeader (m.encodeAs n) m.layout (m.fileHeaderAs n) 0 >>= _) = _
    rw [hfirst]
    change (if s.compressed then _ else _) = _
    rw [hplain]
    rfl
  refine ⟨⟨m.encodeAs n, m.layout, m.fileHeaderAs n, some s⟩, ?_, rfl, rfl, rfl⟩
  unfold File.read
  rw [identify_encodeAs]
  change ((FileHeader.decoder m.layout).valueAt (m.encodeAs n) 16).mapError _ >>= _ = _
  rw [hheader]
  change readNameTable (m.encodeAs n) m.layout (m.fileHeaderAs n) >>= _ = _
  rw [htable]
  rfl

end Image

end ElfScope.Elf
