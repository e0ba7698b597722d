import Mathlib
import ElfScope.Proofs.Elf.Image

/-! # Reading images

What is read of an image is what it was laid out from: its headers, and the name and the content of
each section.
-/
namespace ElfScope.Elf

/-! ### Places -/

theorem le_aligned (position : Nat) : position ≤ aligned position := by
  unfold aligned
  omega

@[simp] theorem length_padding (position : Nat) :
    (padding position).length = aligned position - position :=
  List.length_replicate

theorem map_part_place (position nameOffset : Nat) (ps : List ImageSection) :
    (place position nameOffset ps).map Placement.part = ps := by
  induction ps generalizing position nameOffset with
  | nil => rfl
  | cons p ps ih => rw [place, List.map_cons, ih]

theorem exists_contents {ps : List ImageSection} {position nameOffset : Nat} {x : Placement}
    (hx : x ∈ place position nameOffset ps) :
    ∃ front back, encodeContents position ps = front ++ (x.part.stored ++ back) ∧
      x.offset = position + front.length := by
  induction ps generalizing position nameOffset with
  | nil => cases hx
  | cons p ps ih =>
    have hle := le_aligned position
    rcases List.mem_cons.mp hx with rfl | hx
    · refine ⟨padding position, _, rfl, ?_⟩
      rw [length_padding, Nat.add_sub_cancel' hle]
    · obtain ⟨front, back, hbytes, hoffset⟩ := ih hx
      refine ⟨padding position ++ (p.stored ++ front), back, ?_, ?_⟩
      · rw [encodeContents, hbytes]
        simp only [List.append_assoc]
      · rw [hoffset, List.length_append, List.length_append, length_padding]
        omega

theorem exists_names {ps : List ImageSection} {position nameOffset : Nat} {x : Placement}
    (hx : x ∈ place position nameOffset ps) :
    ∃ front back, Utf8.encodeTexts (ps.map (·.name)) =
        front ++ ((Utf8.encode x.part.name ++ [0]) ++ back) ∧
      x.nameOffset = nameOffset + front.length := by
  induction ps generalizing position nameOffset with
  | nil => cases hx
  | cons p ps ih =>
    rcases List.mem_cons.mp hx with rfl | hx
    · exact ⟨[], _, rfl, rfl⟩
    · obtain ⟨front, back, hbytes, hoffset⟩ := ih hx
      refine ⟨(Utf8.encode p.name ++ [0]) ++ front, back, ?_, ?_⟩
      · unfold Utf8.encodeTexts at hbytes ⊢
        rw [List.map_cons, List.flatMap_cons, hbytes]
        simp only [List.append_assoc]
      · rw [hoffset, List.length_append, List.length_append, List.length_singleton]
        omega

/-- In a table of items of one size each item stands at a multiple of that size. -/
theorem holds_flatMap {β : Type} {encode : β → Bytes} {size : Nat}
    (hsize : ∀ b, (encode b).length = size) {items : List β} {i : Nat} {b : β}
    (h : items[i]? = some b) : Bytes.Holds (items.flatMap encode) (i * size) (encode b) := by
  induction items generalizing i with
  | nil => cases h
  | cons a items ih =>
    rw [List.flatMap_cons]
    cases i with
    | zero =>
      cases h
      rw [Nat.zero_mul]
      exact List.prefix_append _ _
    | succ i =>
      have hrest := ih h
      have hall : Bytes.Holds (encode a ++ items.flatMap encode) (0 + (encode a).length)
          (items.flatMap encode) :=
        Bytes.Holds.right (List.prefix_refl _)
      have hitem := hall.within hrest
      rw [hsize, Nat.zero_add, Nat.add_comm] at hitem
      rw [Nat.succ_mul]
      exact hitem

theorem length_placeSegments (position : Nat) (gs : List ImageSegment) :
    (placeSegments position gs).length = gs.length := by
  induction gs generalizing position with
  | nil => rfl
  | cons g gs ih =>
    rw [placeSegments]
    cases g.content <;> simp [ih]

theorem ProgramHeader.length_encode (l : Layout) (h : ProgramHeader) :
    (h.encode l).length = l.programHeaderSize := by
  rcases l with ⟨_ | _, order⟩ <;>
    simp [encode, Layout.programHeaderSize, Layout.addressSize]

namespace Image
variable {m : Image} {n : Numbering}

/-! ### The pieces of an image -/

theorem length_programTable (m : Image) :
    m.programTable.length = m.layout.programHeaderSize * m.segments.length := by
  simp [programTable, List.length_flatMap, ProgramHeader.length_encode, length_placeSegments,
    Nat.mul_comm]

theorem length_identification (l : Layout) : l.identification.length = 16 := by
  simp [Layout.identification, magic]

theorem encodeAs_eq (n : Numbering) (hs : m.sections ≠ []) :
    m.encodeAs n = m.layout.identification ++ ((m.fileHeaderAs n).encode m.layout ++
      (m.programTable ++ (m.segmentContents ++ (m.contents ++ m.sectionTableAs n)))) := by
  have hempty : m.sections.isEmpty = false := by simpa using hs
  rw [encodeAs, hempty]
  rfl

theorem holds_all (m : Image) (n : Numbering) : (m.encodeAs n).Holds 0 (m.encodeAs n) :=
  List.prefix_refl _

theorem holds_fileHeader (m : Image) (n : Numbering) :
    (m.encodeAs n).Holds 16 ((m.fileHeaderAs n).encode m.layout) := by
  have h := (holds_all m n).right.left
  rw [length_identification, Nat.zero_add] at h
  exact h

theorem holds_programTable (m : Image) (n : Numbering) :
    (m.encodeAs n).Holds m.layout.fileHeaderSize m.programTable := by
  have h := (holds_all m n).right.right.left
  rw [length_identification, Nat.zero_add,
    FileHeader.length_encode m.layout (m.fileHeaderAs n)] at h
  exact h

theorem holds_afterSegments (n : Numbering) (hs : m.sections ≠ []) :
    (m.encodeAs n).Holds m.contentStart (m.contents ++ m.sectionTableAs n) := by
  have h := holds_all m n
  rw [encodeAs_eq n hs] at h ⊢
  have hrest := h.right.right.right.right
  rw [length_identification, length_programTable, Nat.zero_add,
    FileHeader.length_encode m.layout (m.fileHeaderAs n)] at hrest
  exact hrest

theorem holds_contents (n : Numbering) (hs : m.sections ≠ []) :
    (m.encodeAs n).Holds m.contentStart m.contents :=
  (holds_afterSegments n hs).left

theorem holds_sectionTable (n : Numbering) (hs : m.sections ≠ []) :
    (m.encodeAs n).Holds (m.contentStart + m.contents.length) (m.sectionTableAs n) :=
  (holds_afterSegments n hs).right

theorem length_encodeAs (n : Numbering) (hs : m.sections ≠ []) :
    m.contentStart + m.contents.length + (m.sectionTableAs n).length = (m.encodeAs n).length := by
  have hheader := FileHeader.length_encode m.layout (m.fileHeaderAs n)
  rw [encodeAs_eq n hs]
  simp only [List.length_append, length_identification, length_programTable, contentStart,
    segmentStart]
  omega

theorem length_headersAs (m : Image) (n : Numbering) :
    (m.headersAs n).length = m.sections.length + 2 := by
  have hplaced := congrArg List.length (map_part_place m.contentStart 1 m.parts)
  rw [List.length_map] at hplaced
  rw [headersAs, List.length_cons, List.length_map, placements, hplaced, parts, List.length_append]
  rfl

theorem holds_header (hs : m.sections ≠ []) {i : Nat} {h : SectionHeader}
    (hi : (m.headersAs n)[i]? = some h) :
    (m.encodeAs n).Holds (m.contentStart + m.contents.length + i * m.layout.sectionHeaderSize)
      (h.encode m.layout) :=
  (holds_sectionTable n hs).within (holds_flatMap (SectionHeader.length_encode m.layout) hi)

/-! ### Headers -/

theorem fileHeaderSize_le (m : Image) (n : Numbering) :
    m.layout.fileHeaderSize ≤ (m.encodeAs n).length := by
  rw [← FileHeader.length_encode m.layout (m.fileHeaderAs n), encodeAs, List.length_append,
    List.length_append, length_identification]
  omega

theorem identify_identification {l : Layout} {rest : Bytes}
    (h : l.fileHeaderSize ≤ (l.identification ++ rest).length) :
    identify (l.identification ++ rest) = .ok l := by
  have hsixteen : ¬(l.identification ++ rest).length < 16 := by
    rw [List.length_append, length_identification]
    omega
  have hheader : ¬(l.identification ++ rest).length < (Layout.mk l.wide .little).fileHeaderSize :=
    not_lt.mpr h
  have hmagic : ¬(l.identification ++ rest).take 4 ≠ magic := not_not.mpr rfl
  have hclass : ((l.identification ++ rest)[4]?.getD 0).toNat = if l.wide then 2 else 1 := by
    change l.classCode.toNat = _
    unfold Layout.classCode
    split_ifs <;> rfl
  have horder : ((l.identification ++ rest)[5]?.getD 0).toNat =
      if l.order = .little then 1 else 2 := by
    change l.orderCode.toNat = _
    unfold Layout.orderCode
    split_ifs <;> rfl
  unfold identify
  simp only [hclass, horder]
  rw [if_neg hsixteen, if_neg hmagic]
  rcases l with ⟨_ | _, _ | _⟩
  all_goals
    simp only [Bool.false_eq_true, if_false, if_true, reduceCtorEq] at hheader ⊢
    rw [if_neg (by decide)]
    simp only [decide_true, decide_false, OfNat.one_ne_ofNat]
    rw [if_neg hheader]
    rfl

theorem identify_encodeAs (m : Image) (n : Numbering) : identify (m.encodeAs n) = .ok m.layout :=
  identify_identification (fileHeaderSize_le m n)

theorem limit_four_le (l : Layout) : Bytes.limit 4 ≤ Bytes.limit l.addressSize := by
  rcases l with ⟨_ | _, _⟩
  · exact le_rfl
  · exact (by decide : Bytes.limit 4 ≤ Bytes.limit 8)

theorem fits_fileHeader (hm : m.FitsAs n) : (m.fileHeaderAs n).Fits m.layout := by
  have hlength := hm.length
  have hheader := fileHeaderSize_le m n
  have hpos : 0 < Bytes.limit m.layout.addressSize := lt_of_le_of_lt (Nat.zero_le _) hlength
  have hcount := hm.sectionCount
  have hindex := hm.nameTableIndex
  have hextended : extendedIndex < Bytes.limit 2 := by decide
  have hprogram : m.layout.programHeaderSize < Bytes.limit 2 := by
    rcases m.layout with ⟨_ | _, _⟩
    · exact (by decide : 32 < Bytes.limit 2)
    · exact (by decide : 56 < Bytes.limit 2)
  have hsection : m.layout.sectionHeaderSize < Bytes.limit 2 := by
    rcases m.layout with ⟨_ | _, _⟩
    · exact (by decide : 40 < Bytes.limit 2)
    · exact (by decide : 64 < Bytes.limit 2)
  refine ⟨hm.type, hm.machine, hm.entry, ?_, ?_, hprogram, hm.segmentCount, hsection, ?_, ?_⟩
  · change (if _ then _ else _) < _
    split_ifs
    · exact hpos
    · exact hheader.trans_lt hlength
  · change (if _ then _ else _) < _
    split_ifs with hempty
    · exact hpos
    · have hend := length_encodeAs n (m := m) (by simpa using hempty)
      have hle : m.contentStart + m.contents.length ≤ (m.encodeAs n).length := by omega
      exact hle.trans_lt hlength
  · change (if _ then _ else if _ then _ else _) < _
    split_ifs at hcount ⊢
    · decide
    · decide
    · decide
    · exact hcount
  · change (if _ then _ else if _ then _ else _) < _
    split_ifs at hindex ⊢
    · decide
    · decide
    · exact hextended
    · exact hindex.trans hextended

theorem fits_parts (hm : m.FitsAs n) {p : ImageSection} (hp : p ∈ m.parts) : p.Fits m.layout := by
  rcases List.mem_append.mp hp with hp | hp
  · exact hm.sections p hp
  · cases List.mem_singleton.mp hp
    have hzero : 0 < Bytes.limit m.layout.addressSize :=
      lt_of_lt_of_le (by decide) (limit_four_le m.layout)
    refine ⟨Text.scalar_ofString _, ?_, (by decide : 3 < Bytes.limit 4), hzero, hzero⟩
    change ∀ c ∈ Text.ofString ".shstrtab", c.value ≠ 0
    decide

/-- The content of a section stands at its place. -/
theorem holds_stored (n : Numbering) (hs : m.sections ≠ []) {x : Placement}
    (hx : x ∈ m.placements) : (m.encodeAs n).Holds x.offset x.part.stored ∧
      x.offset + x.part.stored.length ≤ (m.encodeAs n).length := by
  obtain ⟨front, back, hbytes, hoffset⟩ := exists_contents hx
  have hall : m.contents = front ++ (x.part.stored ++ back) := hbytes
  have hheld := holds_contents n hs
  have hend := length_encodeAs n hs
  rw [hall] at hheld hend
  constructor
  · rw [hoffset]
    exact hheld.within (Bytes.holds_append front x.part.stored back)
  · simp only [List.length_append] at hend
    omega

theorem names_parts (m : Image) :
    m.nameTable.content = 0 :: Utf8.encodeTexts (m.parts.map (·.name)) := by
  simp [parts, nameTable]

/-- The name of a section stands at its place in the table of names. -/
theorem holds_name {x : Placement} (hx : x ∈ m.placements) :
    m.nameTable.content.Holds x.nameOffset (Utf8.encode x.part.name ++ [0]) ∧
      x.nameOffset < m.nameTable.content.length := by
  obtain ⟨front, back, hbytes, hoffset⟩ := exists_names hx
  have hall : m.nameTable.content =
      (0 :: front) ++ ((Utf8.encode x.part.name ++ [0]) ++ back) := by
    rw [names_parts, hbytes]
    rfl
  have hlength : x.nameOffset = ((0 : UInt8) :: front).length := by
    rw [hoffset, List.length_cons, Nat.add_comm]
  rw [hall, hlength]
  refine ⟨Bytes.holds_append _ _ back, ?_⟩
  simp only [List.length_append, List.length_singleton]
  omega

theorem part_mem {x : Placement} (hx : x ∈ m.placements) : x.part ∈ m.parts := by
  rw [← map_part_place m.contentStart 1 m.parts]
  exact List.mem_map_of_mem hx

theorem size_lt (hm : m.FitsAs n) (hs : m.sections ≠ []) {x : Placement}
    (hx : x ∈ m.placements) : x.part.size < Bytes.limit m.layout.addressSize := by
  have hend := (holds_stored n hs hx).2
  have hlength := hm.length
  unfold ImageSection.stored at hend
  unfold ImageSection.size
  split_ifs at hend ⊢
  · exact (fits_parts hm (part_mem hx)).blankSize
  · omega

theorem fits_header (hm : m.FitsAs n) (hs : m.sections ≠ []) {h : SectionHeader}
    (hh : h ∈ m.headersAs n) : h.Fits m.layout := by
  have hlimit := limit_four_le m.layout
  have hfour : 0 < Bytes.limit 4 := by decide
  have hzero : 0 < Bytes.limit m.layout.addressSize := lt_of_lt_of_le hfour hlimit
  rcases List.mem_cons.mp hh with rfl | hh
  · have hcount := hm.sectionCount
    have hindex := hm.nameTableIndex
    refine ⟨hfour, hfour, hzero, hzero, ?_, ?_, hfour, hzero⟩
    · change (if _ then _ else _) < _
      split_ifs at hcount ⊢
      · exact hcount
      · exact hzero
    · change (if _ then _ else _) < _
      split_ifs at hindex ⊢
      · exact hindex
      · exact hfour
  · obtain ⟨x, hx, rfl⟩ := List.mem_map.mp hh
    have hpart := fits_parts hm (part_mem hx)
    have hoffset : x.offset < Bytes.limit m.layout.addressSize :=
      lt_of_le_of_lt (Nat.le_of_add_right_le (holds_stored n hs hx).2) hm.length
    exact ⟨(holds_name hx).2.trans hm.names, hpart.type, hpart.flags, hoffset, size_lt hm hs hx,
      hfour, hfour, hzero⟩

theorem sectionOffset_eq (n : Numbering) (hs : m.sections ≠ []) :
    (m.fileHeaderAs n).sectionOffset = m.contentStart + m.contents.length := by
  have hempty : m.sections.isEmpty = false := by simpa using hs
  simp [fileHeaderAs, fileHeader, hempty]

theorem nameTableIndex_eq (n : Numbering) (hs : m.sections ≠ []) :
    (m.fileHeaderAs n).nameTableIndex =
      if n.indexMoved then extendedIndex else m.sections.length + 1 := by
  have hempty : m.sections.isEmpty = false := by simpa using hs
  simp [fileHeaderAs, hempty]

theorem readSectionHeader_encodeAs (hm : m.FitsAs n) (hs : m.sections ≠ []) {i : Nat}
    {h : SectionHeader} (hi : (m.headersAs n)[i]? = some h) :
    readSectionHeader (m.encodeAs n) m.layout (m.fileHeaderAs n) i = .ok (some h) := by
  have hheld := holds_header hs hi
  have hread := (SectionHeader.reads_encode
    (fits_header hm hs (List.mem_of_getElem? hi))).valueAt hheld
  have hne : h.encode m.layout ≠ [] := by
    apply List.ne_nil_of_length_pos
    rw [SectionHeader.length_encode, Layout.sectionHeaderSize]
    split_ifs <;> omega
  have hle := hheld.le_length hne
  have hsize : ¬(0 < (m.fileHeaderAs n).sectionOffset ∧
      (m.fileHeaderAs n).sectionEntrySize < m.layout.sectionHeaderSize) :=
    fun h => lt_irrefl _ h.2
  have hposition : (m.fileHeaderAs n).sectionOffset + i * (m.fileHeaderAs n).sectionEntrySize =
      m.contentStart + m.contents.length + i * m.layout.sectionHeaderSize := by
    rw [sectionOffset_eq n hs]
    rfl
  unfold readSectionHeader
  rw [if_neg hsize]
  simp only [hposition]
  rw [if_neg (by omega)]
  simp only [hread]

/-! ### The file of an image -/

theorem getElem?_headersAs {i : Nat} {x : Placement} (hx : m.placements[i]? = some x) :
    (m.headersAs n)[i + 1]? = some x.header := by
  rw [headersAs, List.getElem?_cons_succ, List.getElem?_map, hx]
  rfl

/-- The table of names has a place of its own, after all others. -/
theorem exists_nameTable (m : Image) (n : Numbering) : ∃ x ∈ m.placements,
    x.part = m.nameTable ∧ (m.headersAs n)[m.sections.length + 1]? = some x.header := by
  have hpart : (m.placements.map Placement.part)[m.sections.length]? = some m.nameTable := by
    rw [placements, map_part_place, parts, List.getElem?_append_right le_rfl, Nat.sub_self]
    rfl
  rw [List.getElem?_map] at hpart
  obtain ⟨x, hx, hpart⟩ := Option.map_eq_some_iff.mp hpart
  exact ⟨x, List.mem_of_getElem? hx, hpart, getElem?_headersAs hx⟩

/-- The file as it is opened. -/
def fileAs (m : Image) (n : Numbering) : File where
  bytes := m.encodeAs n
  layout := m.layout
  header := m.fileHeaderAs n
  nameTable := (m.headersAs n)[m.sections.length + 1]?

def file (m : Image) : File where
  bytes := m.encode
  layout := m.layout
  header := m.fileHeader
  nameTable := m.headers[m.sections.length + 1]?

theorem read_encodeAs (hm : m.FitsAs n) (hs : m.sections ≠ []) :
    File.read (m.encodeAs n) = .ok (m.fileAs n) := by
  obtain ⟨x, hx, hpart, hheader⟩ := exists_nameTable m n
  have hfileHeader := (FileHeader.reads_encode (fits_fileHeader hm)).valueAt (holds_fileHeader m n)
  have hsection := readSectionHeader_encodeAs hm hs hheader
  have hcompressed : x.header.compressed = false := by
    rw [SectionHeader.compressed, Placement.header, hpart]
    exact Nat.zero_testBit 11
  have hfirst := readSectionHeader_encodeAs hm hs (i := 0) rfl
  have htable : readNameTable (m.encodeAs n) m.layout (m.fileHeaderAs n) =
      .ok (some x.header) := by
    have hindex := hm.nameTableIndex
    unfold readNameTable
    rw [nameTableIndex_eq n hs]
    by_cases hmoved : n.indexMoved
    case' pos =>
      have hlink : (m.firstHeader n).link = m.sections.length + 1 := if_pos hmoved
      rw [if_pos hmoved, if_neg (not_not.mpr rfl), hfirst]
      change (readSectionHeader (m.encodeAs n) m.layout (m.fileHeaderAs n)
        (m.firstHeader n).link >>= _) = _
      rw [hlink]
    case' neg =>
      rw [if_neg hmoved] at hindex ⊢
      rw [if_pos hindex.ne]
    all_goals
      change (readSectionHeader (m.encodeAs n) m.layout (m.fileHeaderAs n)
        (m.sections.length + 1) >>= _) = _
      rw [hsection]
      change (if x.header.compressed then _ else _) = _
      rw [hcompressed]
      rfl
  unfold File.read
  rw [identify_encodeAs]
  change ((FileHeader.decoder m.layout).valueAt (m.encodeAs n) 16).mapError _ >>= _ = _
  rw [hfileHeader]
  change readNameTable (m.encodeAs n) m.layout (m.fileHeaderAs n) >>= _ = _
  rw [htable, fileAs, hheader]
  rfl

theorem sectionHeader?_fileAs (hm : m.FitsAs n) (hs : m.sections ≠ []) {i : Nat}
    {h : SectionHeader} (hi : (m.headersAs n)[i]? = some h) :
    (m.fileAs n).sectionHeader? i = some h := by
  have hread : readSectionHeader (m.fileAs n).bytes (m.fileAs n).layout (m.fileAs n).header i =
      .ok (some h) :=
    readSectionHeader_encodeAs hm hs hi
  unfold File.sectionHeader?
  rw [hread]

theorem sectionCount?_fileAs (hm : m.FitsAs n) (hs : m.sections ≠ []) :
    (m.fileAs n).sectionCount? = some (m.sections.length + 2) := by
  have hempty : m.sections.isEmpty = false := by simpa using hs
  have hstart : (m.fileAs n).header.sectionOffset ≠ 0 := by
    change (m.fileHeaderAs n).sectionOffset ≠ 0
    have hheader := FileHeader.length_encode m.layout (m.fileHeaderAs n)
    rw [sectionOffset_eq n hs, contentStart, segmentStart]
    omega
  have hcount : (m.fileAs n).header.sectionCount =
      if n.countMoved then 0 else m.sections.length + 2 := by
    change (if m.sections.isEmpty then 0 else _) = _
    rw [hempty]
    rfl
  have hfirst := sectionHeader?_fileAs hm hs (i := 0) rfl
  unfold File.sectionCount?
  rw [if_neg hstart, hcount, hfirst]
  split_ifs with hmoved hzero hzero
  · exact absurd rfl hzero
  · change some (if n.countMoved then m.sections.length + 2 else 0) = _
    rw [if_pos hmoved]
  · rfl
  · omega

theorem sectionName?_fileAs (hm : m.FitsAs n) (hs : m.sections ≠ []) {h : SectionHeader} {t : Text}
    (hscalar : t.Scalar) (hnul : ∀ c ∈ t, c.value ≠ 0)
    (hheld : m.nameTable.content.Holds h.name (Utf8.encode t ++ [0])) :
    (m.fileAs n).sectionName? h = some t := by
  obtain ⟨x, hx, hpart, hheader⟩ := exists_nameTable m n
  have htable : (m.fileAs n).nameTable = some x.header := hheader
  have hcontent : (m.encodeAs n).Holds x.offset m.nameTable.content := by
    have h := (holds_stored n hs hx).1
    rw [hpart] at h
    exact h
  have hname := hcontent.within hheld
  have hle := hname.le_length (by simp)
  have hreach := hm.reachable
  have hbytes : (m.fileAs n).bytes.drop (x.offset + h.name) = (Utf8.encode t ++ [0]) ++ _ :=
    hname.eq_append
  unfold File.sectionName?
  rw [htable]
  change (if Bytes.positionLimit ≤ x.offset + h.name then none else
    some (Utf8.decodeLossy ((Bytes.beforeNul? ((m.fileAs n).bytes.drop
      (x.offset + h.name))).getD []))) = _
  rw [if_neg (by omega), hbytes, List.append_assoc, List.singleton_append,
    Bytes.beforeNul?_append _ _ (Utf8.zero_notMem_encode hnul)]
  exact congrArg some (Utf8.decodeLossy_encode hscalar)

end Image

/-! ### Sections -/

namespace File
variable {f : File} {h : SectionHeader}

/-- Types that no rules are about. -/
def plainTypes : List Nat := [0, 1, 3, 8]

theorem typeRules_of_plain (ht : h.type ∈ plainTypes) (f : File)
    (linked : SectionHeader → List Nat → Bool) : f.typeRules linked h = true := by
  unfold typeRules
  simp only [plainTypes, List.mem_cons, List.not_mem_nil, or_false] at ht
  rcases ht with ht | ht | ht | ht <;> rw [ht] <;> rfl

/-- A section is read when its header, its name and the kind of its content are. -/
theorem section?_of_header {i : Nat} {t : Text} {c : Option CompressionHeader}
    (hh : f.sectionHeader? i = some h) (hname : f.sectionName? h = some t)
    (hc : f.compression? h = some c) (ht : h.type ∈ plainTypes) :
    f.section? i = some ⟨h, t, c⟩ := by
  unfold section?
  rw [sectionFrom?, hh, Option.bind_eq_bind, Option.bind_some, hname, Option.bind_eq_bind,
    Option.bind_some, hc, Option.bind_eq_bind, Option.bind_some]
  simp only [typeRules_of_plain ht]
  rfl

theorem compression?_of_plain (hc : h.compressed = false) (f : File) :
    f.compression? h = some none := by
  unfold compression?
  rw [hc]
  rfl

end File

/-- The header of compressed content that a section starts with, if its flags tell of one. -/
def ImageSection.compression (l : Layout) (p : ImageSection) : Option CompressionHeader :=
  if p.flags.testBit 11 then ((CompressionHeader.decoder l).valueAt p.stored 0).toOption else none

/-- A section is of a type that no rules are about, and starts with a header of compressed content if
its flags tell of one. -/
structure ImageSection.Readable (l : Layout) (p : ImageSection) : Prop where
  type : p.type ∈ File.plainTypes
  compressed : p.flags.testBit 11 = true →
    ∃ (c : CompressionHeader) (align : Nat) (rest : Bytes),
      c.Fits l ∧ p.stored = c.encode l align ++ rest

theorem ImageSection.compression_of_stored {l : Layout} {p : ImageSection} {c : CompressionHeader}
    {align : Nat} {rest : Bytes} (hflags : p.flags.testBit 11 = true) (hc : c.Fits l)
    (hstored : p.stored = c.encode l align ++ rest) : p.compression l = some c := by
  have hheld : p.stored.Holds 0 (c.encode l align) := ⟨rest, hstored.symm⟩
  rw [compression, if_pos hflags, (CompressionHeader.reads_encode hc align).valueAt hheld]
  rfl

theorem ImageSection.compression_of_plain (l : Layout) {p : ImageSection}
    (hflags : p.flags.testBit 11 = false) : p.compression l = none := by
  rw [compression, hflags]
  rfl

/-- The section at a place, as it is read. -/
def Placement.sectionIn (l : Layout) (x : Placement) : Section :=
  ⟨x.header, x.part.name, x.part.compression l⟩

/-- The section at a place, as it is read where it is not compressed. -/
def Placement.section (x : Placement) : Section := ⟨x.header, x.part.name, none⟩

theorem Placement.sectionIn_of_plain (l : Layout) {x : Placement}
    (hflags : x.part.flags.testBit 11 = false) : x.sectionIn l = x.section := by
  rw [sectionIn, ImageSection.compression_of_plain l hflags]
  rfl

namespace Image
variable {m : Image} {n : Numbering}

/-- All sections of an image, as they are read. The first one has no content. -/
def foundIn (m : Image) (n : Numbering) : List Section :=
  ⟨m.firstHeader n, [], none⟩ :: m.placements.map (Placement.sectionIn m.layout)

/-- All sections of an image without compressed ones. -/
def foundAs (m : Image) (n : Numbering) : List Section :=
  ⟨m.firstHeader n, [], none⟩ :: m.placements.map Placement.section

def found (m : Image) : List Section :=
  ⟨.blank, [], none⟩ :: m.placements.map Placement.section

def Readable (m : Image) : Prop := ∀ p ∈ m.sections, p.Readable m.layout

/-- Sections are of types that no rules are about, and none is compressed. -/
structure Plain (m : Image) : Prop where
  types : ∀ p ∈ m.sections, p.type ∈ File.plainTypes
  flags : ∀ p ∈ m.sections, p.flags.testBit 11 = false

theorem Plain.readable (hp : m.Plain) : m.Readable := by
  intro p hmem
  refine ⟨hp.types p hmem, fun hflags => ?_⟩
  rw [hp.flags p hmem] at hflags
  cases hflags

theorem readable_parts (hr : m.Readable) {p : ImageSection} (h : p ∈ m.parts) :
    p.Readable m.layout := by
  rcases List.mem_append.mp h with h | h
  · exact hr p h
  · cases List.mem_singleton.mp h
    refine ⟨(by decide : 3 ∈ File.plainTypes), fun hflags => ?_⟩
    change (0 : Nat).testBit 11 = true at hflags
    rw [Nat.zero_testBit] at hflags
    cases hflags

theorem flags_parts (hp : m.Plain) {p : ImageSection} (h : p ∈ m.parts) :
    p.flags.testBit 11 = false := by
  rcases List.mem_append.mp h with h | h
  · exact hp.flags p h
  · cases List.mem_singleton.mp h
    exact Nat.zero_testBit 11

theorem foundIn_of_plain (hp : m.Plain) (n : Numbering) : m.foundIn n = m.foundAs n := by
  unfold foundIn foundAs
  congr 1
  apply List.map_congr_left
  intro x hx
  exact Placement.sectionIn_of_plain m.layout (flags_parts hp (part_mem hx))

theorem headersAs_found (m : Image) (n : Numbering) :
    m.headersAs n = (m.foundIn n).map (·.header) := by
  simp only [headersAs, foundIn, List.map_cons, List.map_map]
  rfl

/-- The kind of content that a section has is read from its place. -/
theorem compression?_fileAs (hm : m.FitsAs n) (hs : m.sections ≠ []) {x : Placement}
    (hx : x ∈ m.placements) (hr : x.part.Readable m.layout) :
    (m.fileAs n).compression? x.header = some (x.part.compression m.layout) := by
  cases hflags : x.part.flags.testBit 11 with
  | false =>
    have hplain : x.header.compressed = false := hflags
    rw [ImageSection.compression_of_plain m.layout hflags]
    exact File.compression?_of_plain hplain (m.fileAs n)
  | true =>
    obtain ⟨c, align, rest, hc, hstored⟩ := hr.compressed hflags
    obtain ⟨hheld, hle⟩ := holds_stored n hs hx
    have hreach := hm.reachable
    rw [hstored] at hheld
    have hread := (CompressionHeader.reads_encode hc align).valueAt hheld.left
    have hheader : readCompressionHeader (m.fileAs n).bytes (m.fileAs n).layout x.header.offset =
        .ok c := by
      change readCompressionHeader (m.encodeAs n) m.layout x.offset = .ok c
      unfold readCompressionHeader
      rw [if_neg (by omega), hread]
      rfl
    have hcompressed : x.header.compressed = true := hflags
    rw [ImageSection.compression_of_stored hflags hc hstored]
    unfold File.compression?
    rw [if_pos hcompressed, hheader]

/-- Each section is read, and its name lies within the table of names. -/
theorem section?_fileAs (hm : m.FitsAs n) (hs : m.sections ≠ []) (hr : m.Readable) {i : Nat}
    {s : Section} (hi : (m.foundIn n)[i]? = some s) :
    (m.fileAs n).section? i = some s ∧ s.header.name < m.nameTable.content.length := by
  have hheader : (m.headersAs n)[i]? = some s.header := by
    rw [headersAs_found, List.getElem?_map, hi]
    rfl
  have hread := sectionHeader?_fileAs hm hs hheader
  rcases List.mem_cons.mp (List.mem_of_getElem? hi) with rfl | hmem
  · have hblank : m.nameTable.content.Holds 0 (Utf8.encode [] ++ [0]) :=
      List.prefix_append [0] _
    have hname := @sectionName?_fileAs m n hm hs (m.firstHeader n) [] Text.Scalar.nil
      (fun c hc => by cases hc) hblank
    have hflags : (m.firstHeader n).compressed = false := Nat.zero_testBit 11
    have htype : (m.firstHeader n).type ∈ File.plainTypes := List.mem_cons_self
    exact ⟨File.section?_of_header hread hname (File.compression?_of_plain hflags (m.fileAs n)) htype,
      Nat.zero_lt_succ _⟩
  · obtain ⟨x, hx, rfl⟩ := List.mem_map.mp hmem
    have hpart := part_mem hx
    have hfits := fits_parts hm hpart
    have hreadable := readable_parts hr hpart
    obtain ⟨hheld, hlt⟩ := holds_name hx
    have hname := @sectionName?_fileAs m n hm hs x.header x.part.name hfits.scalar hfits.noNul hheld
    have hsection := File.section?_of_header (h := x.header) hread hname
      (compression?_fileAs hm hs hx hreadable) hreadable.type
    exact ⟨hsection, hlt⟩

/-- A section with room in the file has its content there. -/
theorem content?_fileAs (hm : m.FitsAs n) (hs : m.sections ≠ []) {x : Placement}
    (hx : x ∈ m.placements) (hroom : x.part.type ≠ 8) :
    (m.fileAs n).content? x.section = some x.part.stored := by
  obtain ⟨hheld, hle⟩ := holds_stored n hs hx
  have hreach := hm.reachable
  have hsize : x.part.size = x.part.stored.length := by
    rw [ImageSection.size, ImageSection.stored, if_neg hroom, if_neg hroom]
  change (if Bytes.positionLimit ≤ x.offset ∨ Bytes.positionLimit ≤ x.part.size then none
    else some ((m.encodeAs n).slice x.offset x.part.size)) = _
  rw [hsize, if_neg (by omega), hheld.slice]

/-! ### Plain numbering -/

theorem fileAs_plain (m : Image) : m.fileAs {} = m.file := rfl

theorem foundAs_plain (m : Image) : m.foundAs {} = m.found := rfl

theorem read_encode (hm : m.Fits) (hs : m.sections ≠ []) : File.read m.encode = .ok m.file := by
  rw [← encodeAs_plain, ← fileAs_plain]
  exact read_encodeAs hm.plain hs

theorem content?_file (hm : m.Fits) (hs : m.sections ≠ []) {x : Placement} (hx : x ∈ m.placements)
    (hroom : x.part.type ≠ 8) : m.file.content? x.section = some x.part.stored := by
  rw [← fileAs_plain]
  exact content?_fileAs hm.plain hs hx hroom

end Image

end ElfScope.Elf
