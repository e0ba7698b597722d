import Mathlib
import ElfScope.Proofs.Inspection.Structure
import ElfScope.Proofs.Zlib.Room

/-! # Forms of storage

A debug section is stored as it is, in a compressed section, or in the old compressed form under a name
of its own. What is loaded under its name is the content in each form, so the symbols do not tell the
forms apart, nor the class, the byte order and the order of the sections of the file.
-/
namespace ElfScope
open Elf

/-! ### Compressed content -/

namespace Elf

/-- Compressed content is what its input inflates to, if that has the size that the header tells. -/
theorem File.compressedContent?_eq {f : File} {h : SectionHeader} {c : CompressionHeader}
    {input : Bytes} (htype : c.type = 1)
    (hsize : h.size = f.layout.compressionHeaderSize + input.length)
    (hinput : f.bytesAt? (h.offset + f.layout.compressionHeaderSize) input.length = some input) :
    f.compressedContent? h c = Zlib.ofSize c.size (Zlib.inflateUpTo? c.size input) := by
  have hcut : ¬h.size < f.layout.compressionHeaderSize := by omega
  have hrest : h.size - f.layout.compressionHeaderSize = input.length := by omega
  unfold compressedContent?
  simp only
  rw [if_neg hcut, hrest, hinput, Option.bind_eq_bind, Option.bind_some, if_neg (not_not.mpr htype)]
  rfl

theorem File.content?_of_compressed {f : File} {s : Section} {size : Nat} {input : Bytes}
    (hcompression : s.compression = some ⟨1, size⟩)
    (hsize : s.header.size = f.layout.compressionHeaderSize + input.length)
    (hinput : f.bytesAt? (s.header.offset + f.layout.compressionHeaderSize) input.length =
      some input) : f.content? s = Zlib.ofSize size (Zlib.inflateUpTo? size input) := by
  unfold content?
  rw [hcompression]
  exact compressedContent?_eq rfl hsize hinput

/-- What is read of a compressed section: the size that its header tells, and the stream behind the
header. -/
theorem Image.compressed_parts {m : Image} {n : Numbering} (hm : m.FitsAs n) (hs : m.sections ≠ [])
    {x : Placement} (hx : x ∈ m.placements) (hflags : x.part.flags.testBit 11 = true)
    (hroom : x.part.type ≠ 8) {align size : Nat} {stream : Bytes}
    (hsize : size < Bytes.limit m.layout.addressSize)
    (hstored : x.part.content = CompressionHeader.encode m.layout align ⟨1, size⟩ ++ stream) :
    (x.sectionIn m.layout).compression = some ⟨1, size⟩ ∧
      (x.sectionIn m.layout).header.size = m.layout.compressionHeaderSize + stream.length ∧
      (m.fileAs n).bytesAt? ((x.sectionIn m.layout).header.offset + m.layout.compressionHeaderSize)
        stream.length = some stream := by
  have hfits : (⟨1, size⟩ : CompressionHeader).Fits m.layout := ⟨(by decide : 1 < Bytes.limit 4), hsize⟩
  have hpart : x.part.stored = CompressionHeader.encode m.layout align ⟨1, size⟩ ++ stream := by
    rw [ImageSection.stored, if_neg hroom, hstored]
  have hlength : x.part.size = m.layout.compressionHeaderSize + stream.length := by
    rw [ImageSection.size, if_neg hroom, hstored, List.length_append,
      CompressionHeader.length_encode]
  obtain ⟨hheld, hle⟩ := holds_stored n hs hx
  rw [hpart] at hheld hle
  rw [List.length_append, CompressionHeader.length_encode] at hle
  have hinput := hheld.right
  rw [CompressionHeader.length_encode] at hinput
  have hreach := hm.reachable
  have hbytes : (m.fileAs n).bytesAt? (x.offset + m.layout.compressionHeaderSize) stream.length =
      some stream := by
    unfold File.bytesAt?
    rw [if_neg (by omega)]
    exact congrArg some hinput.slice
  exact ⟨ImageSection.compression_of_stored hflags hfits hpart, hlength, hbytes⟩

/-- A section that is not compressed has the content that it was given. -/
theorem Image.content?_plain {m : Image} {n : Numbering} (hm : m.FitsAs n) (hs : m.sections ≠ [])
    {x : Placement} (hx : x ∈ m.placements) (hflags : x.part.flags.testBit 11 = false)
    (hroom : x.part.type ≠ 8) :
    (m.fileAs n).content? (x.sectionIn m.layout) = some x.part.content := by
  rw [Placement.sectionIn_of_plain m.layout hflags, content?_fileAs hm hs hx hroom,
    ImageSection.stored, if_neg hroom]

end Elf

namespace DebugInfo

/-- The old compressed form of a content. -/
def encodeOld (size : Nat) (stream : Bytes) : Bytes :=
  [0x5a, 0x4c, 0x49, 0x42] ++ (Bytes.ofNat .big 8 size ++ stream)

theorem inflateOld?_encodeOld {size : Nat} (stream : Bytes) (hsize : size < Bytes.limit 8) :
    inflateOld? (encodeOld size stream) = Zlib.ofSize size (Zlib.inflateWhole? stream) := by
  have hlength : (Bytes.ofNat .big 8 size).length = 8 := Bytes.length_ofNat ..
  have hmagic : ¬((encodeOld size stream).length < 12 ∨
      (encodeOld size stream).take 4 ≠ [0x5a, 0x4c, 0x49, 0x42]) := by
    rintro (h | h)
    · rw [encodeOld, List.length_append, List.length_append, hlength] at h
      change 4 + _ < 12 at h
      omega
    · exact h rfl
  have hsplit : encodeOld size stream =
      ([0x5a, 0x4c, 0x49, 0x42] ++ Bytes.ofNat .big 8 size) ++ stream := rfl
  have hfront : ([0x5a, 0x4c, 0x49, 0x42] ++ Bytes.ofNat .big 8 size).length = 12 := by
    rw [List.length_append, hlength]
    rfl
  have hrest : (encodeOld size stream).drop 12 = stream := by
    rw [hsplit, List.drop_left' hfront]
  have hheld : Bytes.Holds (encodeOld size stream) 4 (Bytes.ofNat .big 8 size) :=
    Bytes.holds_append [0x5a, 0x4c, 0x49, 0x42] _ stream
  have hslice := hheld.slice
  rw [hlength] at hslice
  unfold inflateOld?
  rw [if_neg hmagic, hrest, Option.bind_eq_bind, hslice, Bytes.value_ofNat, Nat.mod_eq_of_lt hsize]
  rfl

/-! ### Forms -/

/-- A section stores the content of a name: as it is, in a compressed section, or in the old compressed
form under the old name. -/
inductive Stores (l : Layout) (p : ImageSection) (name : Text) (content : Bytes) : Prop where
  | plain : p.name = name → p.flags.testBit 11 = false → p.content = content → Stores l p name content
  | compressed (align : Nat) (stream : Bytes) : p.name = name → p.flags.testBit 11 = true →
      p.content = CompressionHeader.encode l align ⟨1, content.length⟩ ++ stream →
      content.length < Bytes.limit l.addressSize → Zlib.inflateWhole? stream = some content →
      Stores l p name content
  | old (stream : Bytes) : p.name = oldName name → name.startsWith ".debug_" = true →
      p.flags.testBit 11 = false → p.content = encodeOld content.length stream →
      content.length < Bytes.limit 8 → Zlib.inflateWhole? stream = some content →
      Stores l p name content

/-- The names that debug sections are stored under. -/
def storedNames : List Text :=
  sectionNames ++ (sectionNames.filter (·.startsWith ".debug_")).map oldName

/-- The name that the content of a section is loaded under. -/
def plainName (stored : Text) : Text :=
  if sectionNames.contains stored then stored else "." ++ stored.drop 2

/-- The names start with a point, and with another letter than old names and the table of names. -/
theorem start_of_mem {name : Text} (h : name ∈ sectionNames) :
    name.head? = some (CodePoint.ofChar '.') ∧ name[1]? ≠ some (CodePoint.ofChar 'z') ∧
      name[1]? ≠ some (CodePoint.ofChar 's') := by
  have hall : ∀ name ∈ sectionNames, name.head? = some (CodePoint.ofChar '.') ∧
      name[1]? ≠ some (CodePoint.ofChar 'z') ∧ name[1]? ≠ some (CodePoint.ofChar 's') := by
    decide +kernel
  exact hall name h

theorem oldName_notMem (name : Text) : oldName name ∉ sectionNames :=
  fun h => (start_of_mem h).2.1 rfl

theorem ne_of_mem_storedNames {name : Text} (h : name ∈ storedNames) :
    name ≠ [] ∧ name ≠ Text.ofString ".shstrtab" := by
  rcases List.mem_append.mp h with h | h
  · obtain ⟨hpoint, -, hletter⟩ := start_of_mem h
    constructor
    · rintro rfl
      cases hpoint
    · rintro rfl
      exact hletter rfl
  · obtain ⟨plain, -, rfl⟩ := List.mem_map.mp h
    constructor
    · exact List.cons_ne_nil _ _
    · intro hname
      have hletter := congrArg (fun t : Text => t[1]?) hname
      exact absurd hletter (by decide : some (CodePoint.ofChar 'z') ≠ some (CodePoint.ofChar 's'))

theorem nodup_sectionNames : sectionNames.Nodup := by
  have hends : (sectionNames.map (·.drop 7)).Nodup := by decide +kernel
  exact hends.of_map

theorem plainName_of_mem {name : Text} (h : name ∈ sectionNames) : plainName name = name :=
  if_pos (List.contains_iff_mem.mpr h)

theorem plainName_oldName {name : Text} (h : name ∈ sectionNames) :
    plainName (oldName name) = name := by
  have hpoint := (start_of_mem h).1
  rw [plainName, if_neg fun h => oldName_notMem name (List.contains_iff_mem.mp h)]
  cases name with
  | nil => cases hpoint
  | cons c rest =>
    cases hpoint
    rfl

theorem plainName_mem {stored : Text} (h : stored ∈ storedNames) :
    plainName stored ∈ sectionNames := by
  rcases List.mem_append.mp h with h | h
  · rw [plainName_of_mem h]
    exact h
  · obtain ⟨name, hname, rfl⟩ := List.mem_map.mp h
    have hmem := (List.mem_filter.mp hname).1
    rw [plainName_oldName hmem]
    exact hmem

end DebugInfo

open DebugInfo

def Elf.Image.debugSections (m : Image) : List ImageSection :=
  m.sections.filter (storedNames.contains ·.name)

/-- Each debug section of the image stores the content of its name, in a form of its own, and no two
that of the same name. A name that no section stores has no content. -/
structure Elf.Image.Assigns (m : Image) (content : Text → Bytes) : Prop where
  types : ∀ p ∈ m.debugSections, p.type ∈ File.plainTypes ∧ p.type ≠ 8
  stored : ∀ p ∈ m.debugSections,
    Stores m.layout p (plainName p.name) (content (plainName p.name))
  distinct : (m.debugSections.map fun p => plainName p.name).Nodup
  missing : ∀ name ∈ sectionNames, name ∉ (m.debugSections.map fun p => plainName p.name) →
    content name = []
  others : ∀ p ∈ m.sections, p.name ∉ storedNames → p.Readable m.layout

namespace Elf.Image
variable {m : Image} {n : Numbering} {content : Text → Bytes}

theorem Assigns.readable (ha : m.Assigns content) : m.Readable := by
  intro p hp
  by_cases hname : p.name ∈ storedNames
  · have hmem : p ∈ m.debugSections := List.mem_filter.mpr ⟨hp, List.contains_iff_mem.mpr hname⟩
    obtain ⟨htype, hroom⟩ := ha.types p hmem
    refine ⟨htype, fun hflags => ?_⟩
    cases ha.stored p hmem with
    | plain _ hplain =>
      rw [hflags] at hplain
      cases hplain
    | compressed align stream _ _ hcontent hsize =>
      refine ⟨⟨1, _⟩, align, stream, ⟨(by decide : 1 < Bytes.limit 4), hsize⟩, ?_⟩
      rw [ImageSection.stored, if_neg hroom, hcontent]
    | old _ _ _ hplain =>
      rw [hflags] at hplain
      cases hplain
  · exact ha.others p hp hname

/-- Among all parts only debug sections have their names. -/
theorem find?_debugSections (m : Image) {name : Text} (hname : name ∈ storedNames) :
    m.parts.find? (·.name = name) = m.debugSections.find? (·.name = name) := by
  have hlast : decide (m.nameTable.name = name) = false :=
    decide_eq_false fun h => (ne_of_mem_storedNames hname).2 h.symm
  have hsame (p : ImageSection) :
      decide (storedNames.contains p.name = true ∧ decide (p.name = name) = true) =
        decide (p.name = name) := by
    by_cases hp : p.name = name
    · simp [hp, hname]
    · simp [hp]
  rw [parts, List.find?_append, debugSections, List.find?_filter, List.find?_singleton, hlast]
  simp only [hsame]
  cases m.sections.find? (·.name = name) <;> rfl

theorem Assigns.find?_eq_some (ha : m.Assigns content) {p : ImageSection}
    (hp : p ∈ m.debugSections) : m.debugSections.find? (·.name = p.name) = some p := by
  have hsome : (m.debugSections.find? (·.name = p.name)).isSome :=
    List.find?_isSome.mpr ⟨p, hp, decide_eq_true rfl⟩
  obtain ⟨q, hq⟩ := Option.isSome_iff_exists.mp hsome
  have hname : q.name = p.name := by simpa using List.find?_some hq
  have hsame := List.inj_on_of_nodup_map ha.distinct (List.mem_of_find?_eq_some hq) hp
    (congrArg plainName hname)
  rw [hq, hsame]

/-- All contents are stored as they are, in any order. -/
theorem assigns_plain {names : List Text} (hnames : names.Perm sectionNames)
    (hsections : m.sections = names.map fun name => { name, content := content name }) :
    m.Assigns content := by
  have hknown (p : ImageSection) (hp : p ∈ m.sections) : p.name ∈ sectionNames ∧
      p = { name := p.name, content := content p.name } := by
    rw [hsections] at hp
    obtain ⟨name, hname, rfl⟩ := List.mem_map.mp hp
    exact ⟨hnames.mem_iff.mp hname, rfl⟩
  have hall : m.debugSections = m.sections :=
    List.filter_eq_self.mpr fun p hp =>
      List.contains_iff_mem.mpr (List.mem_append_left _ (hknown p hp).1)
  have hplain : (m.debugSections.map fun p => plainName p.name) = names := by
    rw [hall, hsections, List.map_map]
    refine (List.map_congr_left fun name hname => ?_).trans (List.map_id names)
    exact plainName_of_mem (hnames.mem_iff.mp hname)
  constructor
  · intro p hp
    rw [hall] at hp
    rw [(hknown p hp).2]
    exact ⟨(by decide : 1 ∈ File.plainTypes), (by decide : 1 ≠ 8)⟩
  · intro p hp
    rw [hall] at hp
    obtain ⟨hname, hp⟩ := hknown p hp
    rw [plainName_of_mem hname]
    exact .plain rfl (by rw [hp]; exact Nat.zero_testBit 11) (by rw [hp])
  · rw [hplain]
    exact hnames.nodup_iff.mpr nodup_sectionNames
  · intro name hname hmissing
    rw [hplain] at hmissing
    exact absurd (hnames.mem_iff.mpr hname) hmissing
  · intro p hp hname
    exact absurd (List.mem_append_left _ (hknown p hp).1) hname

/-! ### The sections of a name -/

theorem firstOf_of_mem (hm : m.FitsAs n) (hs : m.sections ≠ []) (ha : m.Assigns content)
    {p : ImageSection} (hp : p ∈ m.debugSections) : ∃ x ∈ m.placements, x.part = p ∧
      (Inspection.firstOf (m.fileAs n) p.name).map Prod.snd = some (x.sectionIn m.layout) := by
  have hname : p.name ∈ storedNames := List.contains_iff_mem.mp (List.mem_filter.mp hp).2
  have hfirst := firstOf_fileAs (n := n) hm hs ha.readable (ne_of_mem_storedNames hname).1
  have hfind := find?_parts m p.name
  rw [find?_debugSections m hname, ha.find?_eq_some hp] at hfind
  obtain ⟨x, hx, hpart⟩ := Option.map_eq_some_iff.mp hfind.symm
  refine ⟨x, List.mem_of_find?_eq_some hx, hpart, ?_⟩
  rw [hfirst, hx]
  rfl

theorem firstOf_of_notMem (hm : m.FitsAs n) (hs : m.sections ≠ []) (ha : m.Assigns content)
    {name : Text} (hname : name ∈ storedNames) (h : ∀ p ∈ m.debugSections, p.name ≠ name) :
    Inspection.firstOf (m.fileAs n) name = none := by
  have hfirst := firstOf_fileAs (n := n) hm hs ha.readable (ne_of_mem_storedNames hname).1
  have hnone : m.debugSections.find? (·.name = name) = none :=
    List.find?_eq_none.mpr fun p hp hp' => h p hp (of_decide_eq_true hp')
  have hfind := find?_parts m name
  rw [find?_debugSections m hname, hnone] at hfind
  rw [Option.map_eq_none_iff.mp hfind.symm] at hfirst
  exact Option.map_eq_none_iff.mp hfirst

end Elf.Image

/-! ### Loading -/

namespace Inspection
variable {f : File} {name : Text} {s : Section}

theorem dataOf_of_first (h : (firstOf f name).map Prod.snd = some s) :
    dataOf f name = storedOf f s false := by
  obtain ⟨found, hfound, rfl⟩ := Option.map_eq_some_iff.mp h
  unfold dataOf
  rw [hfound]

theorem dataOf_of_old (h : firstOf f name = none) (hdebug : name.startsWith ".debug_" = true)
    (hold : (firstOf f (oldName name)).map Prod.snd = some s) :
    dataOf f name = storedOf f s true := by
  obtain ⟨found, hfound, rfl⟩ := Option.map_eq_some_iff.mp hold
  unfold dataOf
  rw [h, hfound]
  exact if_pos hdebug

theorem dataOf_of_missing (h : firstOf f name = none)
    (hold : name.startsWith ".debug_" = true → firstOf f (oldName name) = none) :
    dataOf f name = [] := by
  unfold dataOf
  rw [h]
  by_cases hdebug : name.startsWith ".debug_" = true
  · rw [hold hdebug]
    exact if_pos hdebug
  · exact if_neg hdebug

theorem storedOf_of_content {data : Bytes} (hbits : s.header.noBits = false)
    (h : f.content? s = some data) (old : Bool) :
    storedOf f s old = (if old then inflateOld? data else some data).getD [] := by
  unfold storedOf
  rw [hbits, h]
  rfl

end Inspection

namespace Elf.Image
variable {m : Image} {n : Numbering} {content : Text → Bytes}

/-- The content of a section is loaded, whatever the form it is stored in. -/
theorem Assigns.dataOf_of_mem (ha : m.Assigns content) (hm : m.FitsAs n) (hs : m.sections ≠ [])
    {p : ImageSection} (hp : p ∈ m.debugSections) {name : Text} (hplain : plainName p.name = name) :
    Inspection.dataOf (m.fileAs n) name = content name := by
  have hname : name ∈ sectionNames := by
    rw [← hplain]
    exact plainName_mem (List.contains_iff_mem.mp (List.mem_filter.mp hp).2)
  have hroom := (ha.types p hp).2
  have hform := ha.stored p hp
  rw [hplain] at hform
  obtain ⟨x, hx, rfl, hfirst⟩ := firstOf_of_mem hm hs ha hp
  have hbits : (x.sectionIn m.layout).header.noBits = false := decide_eq_false hroom
  cases hform with
  | plain hpart hflags hcontent =>
    have hstored := content?_plain hm hs hx hflags hroom
    rw [hpart] at hfirst
    rw [Inspection.dataOf_of_first hfirst, Inspection.storedOf_of_content hbits hstored, hcontent]
    rfl
  | compressed align stream hpart hflags hcontent hsize hstream =>
    obtain ⟨hcompression, hlength, hinput⟩ :=
      compressed_parts hm hs hx hflags hroom hsize hcontent
    have hinflated := File.content?_of_compressed hcompression hlength hinput
    rw [Zlib.inflateUpTo?_of_whole hstream, Zlib.ofSize_some rfl] at hinflated
    rw [hpart] at hfirst
    rw [Inspection.dataOf_of_first hfirst, Inspection.storedOf_of_content hbits hinflated]
    rfl
  | old stream hpart hdebug hflags hcontent hsize hstream =>
    -- A section of the plain name would store the same content once more.
    have hnone : Inspection.firstOf (m.fileAs n) name = none := by
      apply firstOf_of_notMem hm hs ha (List.mem_append_left _ hname)
      intro q hq hqname
      have hsame : q = x.part := List.inj_on_of_nodup_map ha.distinct hq hp (by
        rw [hqname, plainName_of_mem hname, hplain])
      rw [hsame, hpart] at hqname
      apply oldName_notMem name
      rw [hqname]
      exact hname
    have hstored := content?_plain hm hs hx hflags hroom
    rw [hpart] at hfirst
    rw [Inspection.dataOf_of_old hnone hdebug hfirst,
      Inspection.storedOf_of_content hbits hstored, hcontent, if_pos rfl,
      inflateOld?_encodeOld stream hsize, hstream, Zlib.ofSize_some rfl]
    rfl

theorem Assigns.dataOf_of_notMem (ha : m.Assigns content) (hm : m.FitsAs n) (hs : m.sections ≠ [])
    {name : Text} (hname : name ∈ sectionNames)
    (hmissing : name ∉ m.debugSections.map fun p => plainName p.name) :
    Inspection.dataOf (m.fileAs n) name = [] := by
  have habsent {stored : Text} (h : plainName stored = name) :
      ∀ p ∈ m.debugSections, p.name ≠ stored := by
    rintro p hp rfl
    exact hmissing (List.mem_map.mpr ⟨p, hp, h⟩)
  apply Inspection.dataOf_of_missing
  · exact firstOf_of_notMem hm hs ha (List.mem_append_left _ hname)
      (habsent (plainName_of_mem hname))
  · intro hdebug
    have hold : oldName name ∈ storedNames :=
      List.mem_append_right _ (List.mem_map_of_mem (List.mem_filter.mpr ⟨hname, hdebug⟩))
    exact firstOf_of_notMem hm hs ha hold (habsent (plainName_oldName hname))

/-- Each name is loaded with its content, if there is any. -/
theorem Assigns.dataOf_eq (ha : m.Assigns content) (hm : m.FitsAs n) (hs : m.sections ≠ [])
    {name : Text} (hname : name ∈ sectionNames) :
    Inspection.dataOf (m.fileAs n) name = content name := by
  by_cases hstored : name ∈ m.debugSections.map fun p => plainName p.name
  · obtain ⟨p, hp, hplain⟩ := List.mem_map.mp hstored
    exact ha.dataOf_of_mem hm hs hp hplain
  · rw [ha.missing name hname hstored]
    exact ha.dataOf_of_notMem hm hs hname hstored

/-- The image is opened, also where it has no sections. -/
theorem Assigns.exists_read (ha : m.Assigns content) (hm : m.FitsAs n) :
    ∃ f, File.read (m.encodeAs n) = .ok f ∧
      ∀ name ∈ sectionNames, Inspection.dataOf f name = content name := by
  by_cases hs : m.sections = []
  · obtain ⟨f, hread, hf⟩ := Image.exists_read hm hs
    refine ⟨f, hread, fun name hname => ?_⟩
    have hnone (name : Text) : Inspection.firstOf f name = none := by
      unfold Inspection.firstOf
      rw [Inspection.entriesOf_bare hf hs]
      rfl
    have hmissing : content name = [] := by
      apply ha.missing name hname
      rw [debugSections, hs]
      exact List.not_mem_nil
    rw [hmissing]
    exact Inspection.dataOf_of_missing (hnone name) fun _ => hnone _
  · exact ⟨m.fileAs n, read_encodeAs hm hs, fun name hname => ha.dataOf_eq hm hs hname⟩

end Elf.Image

/-! ### Symbols -/

/-- The sections that entries are decoded from, with their contents. -/
def DebugInfo.sectionsWith (content : Text → Bytes) : Dwarf.DebugSections where
  info := content ".debug_info"
  abbreviations := content ".debug_abbrev"
  strings := content ".debug_str"
  lineStrings := content ".debug_line_str"
  addresses := provided ".debug_addr" (content ".debug_addr")
  stringOffsets := provided ".debug_str_offsets" (content ".debug_str_offsets")
  locationLists := provided ".debug_loclists" (content ".debug_loclists")
  rangeLists := provided ".debug_rnglists" (content ".debug_rnglists")

theorem DebugInfo.toSections_eq {f : File} {d : DebugInfo} {content : Text → Bytes}
    (hd : Inspection.debugOf f = some d)
    (h : ∀ name ∈ sectionNames, Inspection.dataOf f name = content name) :
    d.toSections = sectionsWith content := by
  have hprovided (name : Text) (hname : name ∈ sectionNames) :
      d.get? name = provided name (content name) := by
    rw [get?_eq_provided hd hname, h name hname]
  have halways (name : Text) (hname : name ∈ sectionNames) (hnever : name ∈ alwaysProvided) :
      (d.get? name).getD [] = content name := by
    rw [get?_sections hd hname hnever, h name hname]
  unfold toSections sectionsWith
  rw [halways ".debug_info" (by simp [sectionNames]) (by simp [alwaysProvided]),
    halways ".debug_abbrev" (by simp [sectionNames]) (by simp [alwaysProvided]),
    halways ".debug_str" (by simp [sectionNames]) (by simp [alwaysProvided]),
    halways ".debug_line_str" (by simp [sectionNames]) (by simp [alwaysProvided]),
    hprovided ".debug_addr" (by simp [sectionNames]),
    hprovided ".debug_str_offsets" (by simp [sectionNames]),
    hprovided ".debug_loclists" (by simp [sectionNames]),
    hprovided ".debug_rnglists" (by simp [sectionNames])]

namespace Inspection

/-- The symbols of debug sections with given contents. -/
def symbolsWith (content : Text → Bytes) : Except Dwarf.Failure Symbols :=
  if (content ".debug_info").isEmpty then .ok {}
  else (Dwarf.outcome (Dwarf.Walk.run (some (DebugInfo.sectionsWith content))) {}).1

/-- The symbols depend on what is loaded alone. -/
theorem symbolsOf_eq {f : File} {content : Text → Bytes}
    (h : ∀ name ∈ DebugInfo.sectionNames, dataOf f name = content name) :
    symbolsOf f = symbolsWith content := by
  have hinfo := h ".debug_info" (by decide)
  have hdebug : (debugOf f).isNone = (content ".debug_info").isEmpty := by
    unfold debugOf
    rw [hinfo]
    cases (content ".debug_info").isEmpty <;> rfl
  unfold symbolsOf symbolsWith
  rw [← hdebug]
  cases hd : debugOf f with
  | none => rfl
  | some d =>
    simp only
    rw [DebugInfo.toSections_eq hd h]
    rfl

variable {m m' : Image} {n n' : Numbering} {content : Text → Bytes}

/-- A file that stores contents is opened, and tells of the contents alone. -/
theorem exists_inspection (hm : m.FitsAs n) (ha : m.Assigns content) (role : Role) (source : Text) :
    ∃ i, ofBytes (m.encodeAs n) role source = .ok i ∧
      (∀ names : List Text, (∀ name ∈ names, name ∈ DebugInfo.sectionNames) →
        ((names.mapM load).run i).1 = names.map content) ∧
      (extractSymbols.run i).1 = symbolsWith content := by
  obtain ⟨f, hread, hdata⟩ := ha.exists_read hm
  have hnew := agrees_new f role source
  refine ⟨_, ofBytes_of_read hread role source, ?_, ?_⟩
  · intro names hnames
    have hloads := answers_mapM names fun name _ => answers_load f name
    rw [(hloads _ hnew).1]
    apply List.map_congr_left
    intro name hname
    exact hdata name (hnames name hname)
  · rw [run_extractSymbols hnew, symbolsOf_eq hdata]

/-- Two files that store the same contents, each section in any form and the files in any class, byte
order and order of sections, are loaded alike and have the same symbols, those of the contents. -/
theorem storage_transparent (hm : m.FitsAs n) (hm' : m'.FitsAs n') (ha : m.Assigns content)
    (ha' : m'.Assigns content) (role role' : Role) (source source' : Text) :
    ∃ i i', ofBytes (m.encodeAs n) role source = .ok i ∧
      ofBytes (m'.encodeAs n') role' source' = .ok i' ∧
      (∀ names : List Text, (∀ name ∈ names, name ∈ DebugInfo.sectionNames) →
        ((names.mapM load).run i).1 = names.map content) ∧
      (extractSymbols.run i).1 = (extractSymbols.run i').1 ∧
      (extractSymbols.run i).1 = symbolsWith content := by
  obtain ⟨i, hopen, hloads, hsymbols⟩ := exists_inspection hm ha role source
  obtain ⟨i', hopen', -, hsymbols'⟩ := exists_inspection hm' ha' role' source'
  exact ⟨i, i', hopen, hopen', hloads, hsymbols.trans hsymbols'.symm, hsymbols⟩

/-- A unit with one variable, and the abbreviations of its entries. -/
def variableContent (name : Text) : Bytes :=
  if name = ".debug_info" then [0x0c, 0, 0, 0, 4, 0, 0, 0, 0, 0, 8, 1, 2, 0x78, 0, 0]
  else if name = ".debug_abbrev" then [1, 0x11, 1, 0, 0, 2, 0x34, 0, 3, 8, 0, 0, 0]
  else []

def infoStream : Bytes :=
  [0x78, 0xda, 0xe3, 0x61, 0x60, 0x60, 0x60, 0x61, 0, 1, 0x0e, 0x46, 0xa6, 0x0a, 6, 6, 0, 2, 0xa5, 0,
    0x94]

def abbreviationStream : Bytes :=
  [0x78, 0xda, 0x63, 0x14, 0x64, 0x64, 0x60, 0x60, 0x32, 0x61, 0x60, 0xe6, 0x60, 0x60, 0x60, 0, 0, 2,
    0x9c, 0, 0x55]

def compressedAbbreviations : ImageSection where
  name := ".debug_abbrev"
  content := CompressionHeader.encode ⟨false, .big⟩ 1 ⟨1, 13⟩ ++ abbreviationStream
  flags := 2048

def oldInfo : ImageSection where
  name := ".zdebug_info"
  content := DebugInfo.encodeOld 16 infoStream

def blankFrame : ImageSection where
  name := ".eh_frame"
  content := []
  flags := 2

def codeSection : ImageSection where
  name := ".text"
  content := [0x90]

/-- Each debug section in a form of its own, around one that is none. -/
def mixedImage : Image where
  layout := ⟨false, .big⟩
  type := 3
  machine := 8
  entry := 0
  sections := [compressedAbbreviations, codeSection, oldInfo, blankFrame]

def plainImage : Image where
  layout := ⟨true, .little⟩
  type := 2
  machine := 62
  entry := 0x1000
  sections := DebugInfo.sectionNames.map fun name => { name, content := variableContent name }

theorem debugSections_mixedImage :
    mixedImage.debugSections = [compressedAbbreviations, oldInfo, blankFrame] := by
  decide +kernel

theorem plainNames_mixedImage : (mixedImage.debugSections.map fun p => DebugInfo.plainName p.name) =
    [Text.ofString ".debug_abbrev", ".debug_info", ".eh_frame"] := by
  rw [debugSections_mixedImage]
  decide +kernel

theorem assigns_mixedImage : mixedImage.Assigns variableContent where
  types := by
    rw [debugSections_mixedImage]
    decide
  stored := by
    rw [debugSections_mixedImage, List.forall_mem_cons, List.forall_mem_cons,
      List.forall_mem_singleton]
    refine ⟨.compressed 1 abbreviationStream ?_ ?_ ?_ ?_ ?_, .old infoStream ?_ ?_ ?_ ?_ ?_ ?_,
      .plain ?_ ?_ ?_⟩ <;> decide +kernel
  distinct := by
    rw [plainNames_mixedImage]
    decide +kernel
  missing := by
    intro name _ hname
    rw [plainNames_mixedImage] at hname
    unfold variableContent
    rw [if_neg, if_neg]
    · rintro rfl
      exact hname List.mem_cons_self
    · rintro rfl
      exact hname (List.mem_cons_of_mem _ List.mem_cons_self)
  others := by
    intro p hp hname
    have hother : p ∉ mixedImage.debugSections :=
      fun h => hname (List.contains_iff_mem.mp (List.mem_filter.mp h).2)
    rw [debugSections_mixedImage] at hother
    have hcode : p = codeSection := by
      change p ∈ [compressedAbbreviations, codeSection, oldInfo, blankFrame] at hp
      simp only [List.mem_cons, List.not_mem_nil, or_false, not_or] at hp hother
      simpa only [hother, false_or, or_false] using hp
    rw [hcode]
    exact ⟨by decide, fun h => absurd h (by decide)⟩

theorem storage_transparent_mixed :
    ∃ i i', ofBytes (mixedImage.encodeAs {}) .elf "mixed" = .ok i ∧
      ofBytes (plainImage.encodeAs {}) .elf "plain" = .ok i' ∧
      (∀ names : List Text, (∀ name ∈ names, name ∈ DebugInfo.sectionNames) →
        ((names.mapM load).run i).1 = names.map variableContent) ∧
      (extractSymbols.run i).1 = (extractSymbols.run i').1 ∧
      (extractSymbols.run i).1 = symbolsWith variableContent := by
  have hsmall : (mixedImage.encodeAs {}).length < 4096 ∧ (plainImage.encodeAs {}).length < 4096 := by
    decide +kernel
  have hmixed : mixedImage.FitsAs {} :=
    ⟨by decide, by decide, by decide, by decide, by decide, by decide, hsmall.1.trans (by decide),
      hsmall.1.trans (by decide), by decide +kernel, by decide +kernel⟩
  have hplain : plainImage.FitsAs {} :=
    ⟨by decide, by decide, by decide, by decide, by decide, by decide, hsmall.2.trans (by decide),
      hsmall.2.trans (by decide), by decide +kernel, by decide +kernel⟩
  have hassigns : plainImage.Assigns variableContent :=
    Image.assigns_plain (List.Perm.refl DebugInfo.sectionNames) rfl
  exact storage_transparent hmixed hplain assigns_mixedImage hassigns .elf .elf "mixed" "plain"

end Inspection

end ElfScope
