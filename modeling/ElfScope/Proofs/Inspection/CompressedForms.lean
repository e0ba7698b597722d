import Mathlib
import ElfScope.Proofs.Inspection.Notes
import ElfScope.Proofs.Inspection.Storage

/-! # The two compressed forms

The old form is loaded where its stream is complete and has the size that is told. A compressed section
is inflated up to that size only, and what would come after it is not asked for. So the forms load the
same content, or none, but where the stream goes on, or fails, after as many bytes as are told.
-/
namespace ElfScope
open Elf

namespace Inspection

/-- The section found under a name is compressed: it tells of a size, and a stream comes behind. -/
structure HoldsCompressed (i : Inspection) (name : Text) (size : Nat) (stream : Bytes) (s : Section) :
    Prop where
  found : ∃ k, ((section? name).run i).1 = some (k, s)
  present : s.header.noBits = false
  compression : s.compression = some ⟨1, size⟩
  length : s.header.size = i.file.layout.compressionHeaderSize + stream.length
  input : i.file.bytesAt? (s.header.offset + i.file.layout.compressionHeaderSize) stream.length =
    some stream

/-- No section is found under a name, and the one under the old name has the size and the stream in the
old form. -/
structure HoldsOld (i : Inspection) (name : Text) (size : Nat) (stream : Bytes) (s : Section) :
    Prop where
  missing : ((section? name).run i).1 = none
  found : ∃ k, ((section? (DebugInfo.oldName name)).run i).1 = some (k, s)
  present : s.header.noBits = false
  content : i.file.content? s = some (DebugInfo.encodeOld size stream)

variable {i : Inspection} {name : Text} {size : Nat} {stream : Bytes} {s : Section}

/-! ### What is loaded -/

theorem HoldsCompressed.dataOf_eq (h : HoldsCompressed i name size stream s)
    (hi : Agrees i.file i) :
    dataOf i.file name = (Zlib.ofSize size (Zlib.inflateUpTo? size stream)).getD [] := by
  obtain ⟨k, hk⟩ := h.found
  rw [(answers_section? i.file name i hi).1] at hk
  have hfirst : (firstOf i.file name).map Prod.snd = some s := by rw [hk]; rfl
  have hcontent := File.content?_of_compressed h.compression h.length h.input
  rw [dataOf_of_first hfirst, storedOf, h.present, hcontent]
  rfl

theorem HoldsOld.dataOf_eq (h : HoldsOld i name size stream s) (hi : Agrees i.file i)
    (hname : name.startsWith ".debug_" = true) (hsize : size < Bytes.limit 8) :
    dataOf i.file name = (Zlib.ofSize size (Zlib.inflateWhole? stream)).getD [] := by
  have hmissing := h.missing
  rw [(answers_section? i.file name i hi).1] at hmissing
  obtain ⟨k, hk⟩ := h.found
  rw [(answers_section? i.file _ i hi).1] at hk
  have hold : (firstOf i.file (DebugInfo.oldName name)).map Prod.snd = some s := by rw [hk]; rfl
  rw [dataOf_of_old hmissing hname hold, storedOf_of_content h.present h.content, if_pos rfl,
    DebugInfo.inflateOld?_encodeOld stream hsize]

end Inspection

/-! ### Streams that are not what they tell -/

namespace Zlib
variable {size : Nat} {input : Bytes}

theorem getD_ofSize_whole (size : Nat) (input : Bytes) :
    (ofSize size (inflateWhole? input)).getD [] =
      if (inflate none input).halted = none ∧ (inflate none input).content.length = size then
        (inflate none input).content
      else [] := by
  unfold inflateWhole?
  obtain ⟨content, halted⟩ := inflate none input
  cases halted with
  | some h => simp
  | none =>
    by_cases hlength : content.length = size
    · simp [hlength, ofSize_some]
    · simp [hlength, ofSize_of_ne]

/-- A size of zero leaves nothing to load, with or without content. -/
theorem getD_ofSize_zero (content : Option Bytes) : (ofSize 0 content).getD [] = [] := by
  cases content with
  | none => rfl
  | some bs =>
    by_cases hlength : bs.length = 0
    · rw [ofSize_some hlength]
      exact List.length_eq_zero_iff.mp hlength
    · rw [ofSize_of_ne hlength]
      rfl

theorem getD_ofSize_of_less (h : (inflate none input).content.length < size) :
    (ofSize size (inflateUpTo? size input)).getD [] = [] := by
  rw [inflateUpTo?_of_less h]
  split_ifs
  · rfl
  · rw [ofSize_of_ne h.ne]
    rfl

theorem getD_ofSize_of_more (hsize : 0 < size) (h : size < (inflate none input).content.length) :
    (ofSize size (inflateUpTo? size input)).getD [] = (inflate none input).content.take size := by
  rw [inflateUpTo?_of_more hsize h, ofSize_some (List.length_take_of_le h.le)]
  rfl

theorem getD_ofSize_of_equal (h : (inflate none input).content.length = size) :
    (ofSize size (inflateUpTo? size input)).getD [] = (inflate none input).content ∨
      (ofSize size (inflateUpTo? size input)).getD [] = [] ∧
        (inflate none input).halted = some .corrupt := by
  rcases inflateUpTo?_of_equal h with hgiven | ⟨hnone, hcorrupt⟩
  · rw [hgiven, ofSize_some h]
    exact .inl rfl
  · rw [hnone]
    exact .inr ⟨rfl, hcorrupt⟩

/-- What is loaded of a stream in the two forms is the same, but where it goes on, or fails, after as
many bytes as are told. -/
theorem getD_ofSize_agree (size : Nat) (input : Bytes) :
    (ofSize size (inflateUpTo? size input)).getD [] =
        (ofSize size (inflateWhole? input)).getD [] ∨
      0 < size ∧ (ofSize size (inflateWhole? input)).getD [] = [] ∧
        (size < (inflate none input).content.length ∨
          (inflate none input).content.length = size ∧ (inflate none input).halted ≠ none) := by
  rcases Nat.eq_zero_or_pos size with rfl | hpos
  · rw [getD_ofSize_zero, getD_ofSize_zero]
    exact .inl rfl
  rw [getD_ofSize_whole]
  rcases lt_trichotomy (inflate none input).content.length size with hless | hequal | hmore
  · rw [getD_ofSize_of_less hless, if_neg fun h => hless.ne h.2]
    exact .inl rfl
  · by_cases hend : (inflate none input).halted = none
    · rw [if_pos ⟨hend, hequal⟩]
      refine .inl ((getD_ofSize_of_equal hequal).resolve_right fun h => ?_)
      rw [hend] at h
      cases h.2
    · rw [if_neg fun h => hend h.1]
      exact .inr ⟨hpos, rfl, .inr ⟨hequal, hend⟩⟩
  · rw [if_neg fun h => hmore.ne' h.2]
    exact .inr ⟨hpos, rfl, .inl hmore⟩

end Zlib

namespace Inspection

/-- What is loaded where a size and a stream are held in the compressed form and in the old form, by what
comes of the whole stream. -/
structure FormsLoaded (whole : Zlib.Inflated) (size : Nat) (compressed old : Bytes) : Prop where
  old_eq : old = if whole.halted = none ∧ whole.content.length = size then whole.content else []
  shorter : whole.content.length < size ∨ size = 0 → compressed = []
  /-- The compressed form is cut to the size. -/
  longer : 0 < size → size < whole.content.length → compressed = whole.content.take size
  /-- It is also loaded where the stream ends too early after as many bytes. -/
  sound : whole.content.length = size → whole.halted ≠ some .corrupt → compressed = whole.content
  allOrNone : whole.content.length = size → compressed = whole.content ∨ compressed = []
  alike : compressed = old ∨ 0 < size ∧ old = [] ∧ (size < whole.content.length ∨
    whole.content.length = size ∧ whole.halted ≠ none)

/-- Files that hold a size and a stream in the two forms. The old form is loaded where the stream is
complete and has the size. The compressed form is cut to the size, and is also loaded where the stream
ends too early after as many bytes. Otherwise neither form is loaded. -/
theorem compressed_forms {data data' : Bytes} {role role' : Role} {source source' : Text}
    {i i' : Inspection} {name : Text} {size : Nat} {stream : Bytes} {s s' : Section}
    (h : ofBytes data role source = .ok i) (h' : ofBytes data' role' source' = .ok i')
    (hname : name.startsWith ".debug_" = true) (hsize : size < 2 ^ 32)
    (hnew : HoldsCompressed i name size stream s) (hold : HoldsOld i' name size stream s') :
    FormsLoaded (Zlib.inflate none stream) size ((load name).run i).1 ((load name).run i').1 := by
  have hagrees := (file_of_ofBytes h).2
  have hagrees' := (file_of_ofBytes h').2
  have hlimit : size < Bytes.limit 8 := hsize.trans (by decide)
  have hload : ((load name).run i).1 =
      (Zlib.ofSize size (Zlib.inflateUpTo? size stream)).getD [] :=
    ((answers_load i.file name i hagrees).1).trans (hnew.dataOf_eq hagrees)
  have hload' : ((load name).run i').1 =
      (Zlib.ofSize size (Zlib.inflateWhole? stream)).getD [] :=
    ((answers_load i'.file name i' hagrees').1).trans (hold.dataOf_eq hagrees' hname hlimit)
  rw [hload, hload']
  constructor
  case old_eq => exact Zlib.getD_ofSize_whole size stream
  case shorter =>
    rintro (hless | rfl)
    · exact Zlib.getD_ofSize_of_less hless
    · exact Zlib.getD_ofSize_zero _
  case longer => exact Zlib.getD_ofSize_of_more
  case sound =>
    intro hequal hsound
    exact (Zlib.getD_ofSize_of_equal hequal).resolve_right fun h => hsound h.2
  case allOrNone => exact fun hequal => (Zlib.getD_ofSize_of_equal hequal).imp_right And.left
  case alike => exact Zlib.getD_ofSize_agree size stream

/-! ### Images in the two forms -/

section
variable {m : Image} {n : Numbering} {p : ImageSection}

/-- The first section of a name is found in an image. -/
theorem section?_of_find? (hm : m.FitsAs n) (hs : m.sections ≠ []) (hr : m.Readable)
    (hname : name ≠ []) (hfind : m.sections.find? (·.name = name) = some p) (role : Role)
    (source : Text) : ∃ x ∈ m.placements, x.part = p ∧
      ∃ k, ((section? name).run { file := m.fileAs n, role, source }).1 =
        some (k, x.sectionIn m.layout) := by
  have hparts : m.parts.find? (·.name = name) = some p := by
    rw [Image.parts, List.find?_append, hfind, Option.some_or]
  obtain ⟨x, hx, hpart⟩ := Option.map_eq_some_iff.mp ((Image.find?_parts m name).symm.trans hparts)
  have hfirst := Image.firstOf_fileAs (n := n) hm hs hr hname
  rw [hx] at hfirst
  obtain ⟨⟨k, s⟩, hk, rfl⟩ := Option.map_eq_some_iff.mp hfirst
  refine ⟨x, List.mem_of_find?_eq_some hx, hpart, k, ?_⟩
  rw [(answers_section? (m.fileAs n) name _ (agrees_new _ role source)).1, hk]

theorem section?_of_none (hm : m.FitsAs n) (hs : m.sections ≠ []) (hr : m.Readable)
    (hname : name ≠ []) (hlast : name ≠ Text.ofString ".shstrtab")
    (hfind : m.sections.find? (·.name = name) = none) (role : Role) (source : Text) :
    ((section? name).run { file := m.fileAs n, role, source }).1 = none := by
  have hparts : m.parts.find? (·.name = name) = none := by
    rw [Image.parts, List.find?_append, hfind, Option.none_or, List.find?_singleton,
      if_neg fun h => hlast (of_decide_eq_true h).symm]
  have hfirst := Image.firstOf_fileAs (n := n) hm hs hr hname
  rw [Option.map_eq_none_iff.mp ((Image.find?_parts m name).symm.trans hparts)] at hfirst
  rw [(answers_section? (m.fileAs n) name _ (agrees_new _ role source)).1]
  exact Option.map_eq_none_iff.mp hfirst

/-- An image can hold any size and any stream in a compressed section, whatever its class and its byte
order are. -/
theorem exists_holdsCompressed (hm : m.FitsAs n) (hs : m.sections ≠ []) (hr : m.Readable)
    (hname : name ≠ []) (hfind : m.sections.find? (·.name = name) = some p)
    (hroom : p.type ≠ 8) (hflags : p.flags.testBit 11 = true) {align : Nat}
    (hsize : size < Bytes.limit m.layout.addressSize)
    (hcontent : p.content = CompressionHeader.encode m.layout align ⟨1, size⟩ ++ stream)
    (role : Role) (source : Text) : ∃ i s, ofBytes (m.encodeAs n) role source = .ok i ∧
      HoldsCompressed i name size stream s := by
  obtain ⟨x, hx, rfl, hfound⟩ := section?_of_find? hm hs hr hname hfind role source
  obtain ⟨hcompression, hlength, hinput⟩ :=
    Image.compressed_parts hm hs hx hflags hroom hsize hcontent
  exact ⟨_, _, ofBytes_of_read (Image.read_encodeAs hm hs) role source,
    ⟨hfound, decide_eq_false hroom, hcompression, hlength, hinput⟩⟩

theorem exists_holdsOld (hm : m.FitsAs n) (hs : m.sections ≠ []) (hr : m.Readable)
    (hname : name.startsWith ".debug_" = true) (hmissing : m.sections.find? (·.name = name) = none)
    (hfind : m.sections.find? (·.name = DebugInfo.oldName name) = some p) (hroom : p.type ≠ 8)
    (hflags : p.flags.testBit 11 = false) (hcontent : p.content = DebugInfo.encodeOld size stream)
    (role : Role) (source : Text) : ∃ i s, ofBytes (m.encodeAs n) role source = .ok i ∧
      HoldsOld i name size stream s := by
  have hstart : name ≠ [] ∧ name ≠ Text.ofString ".shstrtab" := by
    constructor <;> (rintro rfl; revert hname; decide)
  have hold : DebugInfo.oldName name ≠ [] := List.cons_ne_nil _ _
  obtain ⟨x, hx, rfl, hfound⟩ := section?_of_find? hm hs hr hold hfind role source
  have hplain := Image.content?_plain hm hs hx hflags hroom
  rw [hcontent] at hplain
  exact ⟨_, _, ofBytes_of_read (Image.read_encodeAs hm hs) role source,
    ⟨section?_of_none hm hs hr hstart.1 hstart.2 hmissing role source, hfound,
      decide_eq_false hroom, hplain⟩⟩

end

/-- An image of one section. -/
def imageOf (l : Layout) (p : ImageSection) : Image where
  layout := l
  type := 2
  machine := 62
  entry := 0
  sections := [p]

theorem imageOf_fits {l : Layout} {name : String} {content : Bytes} {flags : Nat}
    (hnul : ∀ c ∈ Text.ofString name, c.value ≠ 0) (hflags : flags < 4096)
    (hnames : (Utf8.encodeTexts [Text.ofString name, ".shstrtab"]).length < 4095)
    (hlength : ((imageOf l { name := name, content, flags }).encodeAs {}).length < 4096) :
    (imageOf l { name := name, content, flags }).FitsAs {} := by
  have hsmall {k : Nat} (hk : k < 4096) : k < Bytes.limit l.addressSize := by
    refine hk.trans_le ?_
    rcases l with ⟨_ | _, order⟩
    · exact (by decide : 4096 ≤ Bytes.limit 4)
    · exact (by decide : 4096 ≤ Bytes.limit 8)
  have hfits : ImageSection.Fits l { name := name, content, flags } :=
    ⟨Text.scalar_ofString name, hnul, (by decide : 1 < Bytes.limit 4), hsmall hflags,
      hsmall (by decide : 0 < 4096)⟩
  exact {
    type := (by decide : 2 < Bytes.limit 2)
    machine := (by decide : 62 < Bytes.limit 2)
    entry := hsmall (by decide : 0 < 4096)
    segmentCount := (by decide : 0 < Bytes.limit 2)
    sectionCount := (by decide : 3 < Bytes.limit 2)
    nameTableIndex := (by decide : 2 < extendedIndex)
    length := hsmall hlength
    reachable := hlength.trans (by decide)
    names := (Nat.succ_lt_succ hnames).trans (by decide)
    sections := List.forall_mem_singleton.mpr hfits }

def compressedPart (l : Layout) (size : Nat) (stream : Bytes) : ImageSection where
  name := ".debug_info"
  content := CompressionHeader.encode l 1 ⟨1, size⟩ ++ stream
  flags := 2048

def oldPart (size : Nat) (stream : Bytes) : ImageSection where
  name := ".zdebug_info"
  content := DebugInfo.encodeOld size stream

/-- A file of each form. -/
structure BothForms (l : Layout) (size : Nat) (stream : Bytes) (i i' : Inspection) : Prop where
  opened : ofBytes ((imageOf l (compressedPart l size stream)).encodeAs {}) .elf [] = .ok i
  opened' : ofBytes ((imageOf l (oldPart size stream)).encodeAs {}) .elf [] = .ok i'
  compressed : ∃ s, HoldsCompressed i ".debug_info" size stream s
  old : ∃ s, HoldsOld i' ".debug_info" size stream s

theorem exists_bothForms (l : Layout) (size : Nat) (stream : Bytes) (hsize : size < 2 ^ 32)
    (hlength : ((imageOf l (compressedPart l size stream)).encodeAs {}).length < 4096)
    (hlength' : ((imageOf l (oldPart size stream)).encodeAs {}).length < 4096) :
    ∃ i i', BothForms l size stream i i' := by
  have hwide {k : Nat} (hk : k < 2 ^ 32) : k < Bytes.limit l.addressSize := by
    refine hk.trans_le ?_
    rcases l with ⟨_ | _, order⟩
    · exact (by decide : 2 ^ 32 ≤ Bytes.limit 4)
    · exact (by decide : 2 ^ 32 ≤ Bytes.limit 8)
  have hm : (imageOf l (compressedPart l size stream)).FitsAs {} :=
    imageOf_fits (by decide +kernel) (by decide) (by decide +kernel) hlength
  have hm' : (imageOf l (oldPart size stream)).FitsAs {} :=
    imageOf_fits (by decide +kernel) (by decide) (by decide +kernel) hlength'
  have hr : (imageOf l (compressedPart l size stream)).Readable := by
    refine List.forall_mem_singleton.mpr ⟨(by decide : 1 ∈ File.plainTypes), fun _ => ?_⟩
    exact ⟨⟨1, size⟩, 1, stream, ⟨(by decide : 1 < Bytes.limit 4), hwide hsize⟩, rfl⟩
  have hr' : (imageOf l (oldPart size stream)).Readable :=
    List.forall_mem_singleton.mpr ⟨(by decide : 1 ∈ File.plainTypes),
      fun h => absurd h (by decide : ¬Nat.testBit 0 11)⟩
  obtain ⟨i, s, hi, hs⟩ := exists_holdsCompressed hm (List.cons_ne_nil _ _) hr
    (List.cons_ne_nil _ _ : Text.ofString ".debug_info" ≠ []) (List.find?_cons_of_pos rfl)
    (by decide : 1 ≠ 8) (by decide : Nat.testBit 2048 11) (hwide hsize) rfl .elf []
  obtain ⟨i', s', hi', hs'⟩ := exists_holdsOld hm' (List.cons_ne_nil _ _) hr'
    (by decide : (Text.ofString ".debug_info").startsWith ".debug_" = true) rfl
    (List.find?_cons_of_pos rfl) (by decide : 1 ≠ 8) (by decide : Nat.testBit 0 11 = false) rfl
    .elf []
  exact ⟨i, i', hi, hi', ⟨s, hs⟩, ⟨s', hs'⟩⟩

/-- Five bytes that are stored as they are, and their checksum. -/
def helloStream : Bytes :=
  [0x78, 1, 1, 5, 0, 0xfa, 0xff, 0x68, 0x65, 0x6c, 0x6c, 0x6f, 6, 0x2c, 2, 0x15]

theorem compressed_forms_hello :
    ∃ i i', BothForms ⟨true, .little⟩ 5 helloStream i i' ∧
      ((load ".debug_info").run i).1 = [0x68, 0x65, 0x6c, 0x6c, 0x6f] ∧
      ((load ".debug_info").run i').1 = [0x68, 0x65, 0x6c, 0x6c, 0x6f] := by
  have hwhole : Zlib.inflate none helloStream = ⟨[0x68, 0x65, 0x6c, 0x6c, 0x6f], none⟩ := by
    decide +kernel
  obtain ⟨i, i', hforms⟩ := exists_bothForms ⟨true, .little⟩ 5 helloStream
    (by decide) (by decide +kernel) (by decide +kernel)
  obtain ⟨s, hs⟩ := hforms.compressed
  obtain ⟨s', hs'⟩ := hforms.old
  have hloaded := compressed_forms hforms.opened hforms.opened' (by decide) (by decide) hs hs'
  rw [hwhole] at hloaded
  exact ⟨i, i', hforms, hloaded.sound rfl (by decide), hloaded.old_eq⟩

theorem BothForms.loads {l : Layout} {i i' : Inspection} (h : BothForms l size stream i i')
    (hsize : size < 2 ^ 32) :
    ((load ".debug_info").run i).1 = (Zlib.ofSize size (Zlib.inflateUpTo? size stream)).getD [] ∧
      ((load ".debug_info").run i').1 = (Zlib.ofSize size (Zlib.inflateWhole? stream)).getD [] := by
  obtain ⟨s, hs⟩ := h.compressed
  obtain ⟨s', hs'⟩ := h.old
  have hagrees := (file_of_ofBytes h.opened).2
  have hagrees' := (file_of_ofBytes h.opened').2
  have hlimit : size < Bytes.limit 8 := hsize.trans (by decide)
  constructor
  · exact (answers_load i.file _ i hagrees).1.trans (hs.dataOf_eq hagrees)
  · exact (answers_load i'.file _ i' hagrees').1.trans (hs'.dataOf_eq hagrees' (by decide) hlimit)

/-- A stream of more content than is told, and one without its checksum: the compressed form is loaded,
the old form is not. -/
theorem cut_streams_loaded :
    (∃ i i', BothForms ⟨true, .little⟩ 3 helloStream i i' ∧
      ((load ".debug_info").run i).1 = [0x68, 0x65, 0x6c] ∧
      ((load ".debug_info").run i').1 = []) ∧
    ∃ i i', BothForms ⟨true, .little⟩ 5 (helloStream.take 12) i i' ∧
      ((load ".debug_info").run i).1 = [0x68, 0x65, 0x6c, 0x6c, 0x6f] ∧
      ((load ".debug_info").run i').1 = [] := by
  constructor
  · obtain ⟨i, i', hforms⟩ := exists_bothForms ⟨true, .little⟩ 3 helloStream
      (by decide) (by decide +kernel) (by decide +kernel)
    obtain ⟨hnew, hold⟩ := hforms.loads (by decide)
    exact ⟨i, i', hforms, hnew.trans (by decide +kernel), hold.trans (by decide +kernel)⟩
  · obtain ⟨i, i', hforms⟩ := exists_bothForms ⟨true, .little⟩ 5 (helloStream.take 12)
      (by decide) (by decide +kernel) (by decide +kernel)
    obtain ⟨hnew, hold⟩ := hforms.loads (by decide)
    exact ⟨i, i', hforms, hnew.trans (by decide +kernel), hold.trans (by decide +kernel)⟩

end Inspection

end ElfScope
