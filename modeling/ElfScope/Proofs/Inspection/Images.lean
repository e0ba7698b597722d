import Mathlib
import ElfScope.Proofs.Elf.ImageReading
import ElfScope.Proofs.Inspection.Loading

/-! # Inspecting images

The section table of an image is listed without any complaint, and a section is loaded by its name with
the content that it was given.
-/
namespace ElfScope
open Elf

/-! ### The section table -/

namespace SectionEntry

/-- The entries of sections that can all be read. -/
def ofSections (found : List Section) : List SectionEntry :=
  found.mapIdx fun i s => ⟨i, s.name, some s⟩

theorem getElem_ofSections {found : List Section} {i : Nat} (h : i < found.length)
    (h' : i < (ofSections found).length) :
    (ofSections found)[i] = ⟨i, found[i].name, some found[i]⟩ := by
  simp [ofSections]

/-- Nothing is reported where all sections can be read. -/
theorem readAll_of_sections {f : File} {found : List Section} {size : Nat} (hne : found ≠ [])
    (hcount : f.sectionCount? = some found.length) (hnames : nameTableSize f = (some size, []))
    (hfound : ∀ i s, found[i]? = some s → f.section? i = some s ∧ s.header.name < size) :
    readAll f = (ofSections found, []) := by
  have hentries : (List.range found.length).map (read f (some size)) = ofSections found := by
    refine List.ext_getElem (by simp [ofSections]) ?_
    intro i hi hi'
    have hlt : i < found.length := by simpa using hi
    obtain ⟨hsection, hname⟩ := hfound i found[i] (List.getElem?_eq_getElem hlt)
    rw [List.getElem_map, List.getElem_range, getElem_ofSections hlt hi']
    unfold read
    simp only [hsection, hname, if_true]
  have hunread : (ofSections found).filter (·.found.isNone) = [] := by
    refine List.filter_eq_nil_iff.mpr ?_
    intro e he
    obtain ⟨i, hi, rfl⟩ := List.mem_mapIdx.mp he
    exact Bool.false_ne_true
  unfold readAll
  rw [hcount]
  simp only [if_pos (List.length_pos_iff.mpr hne), hnames, hentries, hunread]
  rfl

variable {m : Image} {n : Numbering}

theorem nameTableSize_fileAs (hm : m.FitsAs n) (hs : m.sections ≠ []) (hr : m.Readable) :
    nameTableSize (m.fileAs n) = (some m.nameTable.content.length, []) := by
  obtain ⟨x, hx, hpart, hheader⟩ := Image.exists_nameTable m n
  rw [Image.headersAs_found, List.getElem?_map] at hheader
  obtain ⟨s, hs', hsize⟩ := Option.map_eq_some_iff.mp hheader
  have hsection := (Image.section?_fileAs hm hs hr hs').1
  have hfirst := (Image.section?_fileAs hm hs hr (i := 0) rfl).1
  have hbound := hm.nameTableIndex
  have hindex : (if (m.fileAs n).header.nameTableIndex = extendedIndex then
      ((m.fileAs n).section? 0).map (·.header.link)
      else some (m.fileAs n).header.nameTableIndex) = some (m.sections.length + 1) := by
    change (if (m.fileHeaderAs n).nameTableIndex = extendedIndex then _ else
      some (m.fileHeaderAs n).nameTableIndex) = _
    rw [Image.nameTableIndex_eq n hs, hfirst]
    by_cases hmoved : n.indexMoved
    · rw [if_pos hmoved, if_pos rfl]
      exact congrArg some (if_pos hmoved)
    · rw [if_neg hmoved] at hbound ⊢
      rw [if_neg hbound.ne]
  unfold nameTableSize
  rw [hindex]
  simp only [hsection, hsize, Placement.header, hpart]
  rfl

/-- The section table of an image. -/
theorem readAll_foundIn (hm : m.FitsAs n) (hs : m.sections ≠ []) (hr : m.Readable) :
    readAll (m.fileAs n) = (ofSections (m.foundIn n), []) := by
  have hlength : (m.foundIn n).length = m.sections.length + 2 := by
    rw [← Image.length_headersAs, Image.headersAs_found, List.length_map]
  refine readAll_of_sections (List.cons_ne_nil _ _) ?_ (nameTableSize_fileAs hm hs hr)
    fun i s hi => Image.section?_fileAs hm hs hr hi
  rw [hlength]
  exact Image.sectionCount?_fileAs hm hs

theorem readAll_fileAs (hm : m.FitsAs n) (hs : m.sections ≠ []) (hp : m.Plain) :
    readAll (m.fileAs n) = (ofSections (m.foundAs n), []) := by
  rw [← Image.foundIn_of_plain hp]
  exact readAll_foundIn hm hs hp.readable

theorem readAll_file (hm : m.Fits) (hs : m.sections ≠ []) (hp : m.Plain) :
    readAll m.file = (ofSections m.found, []) := by
  rw [← Image.fileAs_plain, ← Image.foundAs_plain]
  exact readAll_fileAs hm.plain hs hp

/-- The first section of a name, among sections that can all be read. -/
theorem findSome?_ofSections (found : List Section) (name : Text) :
    ((ofSections found).findSome? fun e =>
      if e.name = name then e.found.map fun s => (e.index, s) else none).map Prod.snd =
      found.find? (·.name = name) := by
  have hfrom (start : Nat) : ((found.zipIdx start).findSome? fun p =>
      if p.1.name = name then some (p.2, p.1) else none).map Prod.snd =
      found.find? (·.name = name) := by
    induction found generalizing start with
    | nil => rfl
    | cons s found ih =>
      rw [List.zipIdx_cons, List.findSome?_cons, List.find?_cons]
      by_cases hname : s.name = name
      · simp [hname]
      · simp only [hname, if_false, decide_false]
        exact ih (start + 1)
  rw [ofSections, List.mapIdx_eq_zipIdx_map, List.findSome?_map]
  exact hfrom 0

theorem map_name_ofSections (found : List Section) :
    (ofSections found).map (·.name) = found.map (·.name) := by
  refine List.ext_getElem (by simp [ofSections]) ?_
  intro i hi hi'
  rw [List.length_map] at hi hi'
  rw [List.getElem_map, List.getElem_map, getElem_ofSections hi' hi]

end SectionEntry

namespace Elf.Image
variable {m : Image} {n : Numbering}

theorem find?_foundIn (n : Numbering) {name : Text} (hname : name ≠ []) :
    (m.foundIn n).find? (·.name = name) =
      (m.placements.find? (·.part.name = name)).map (Placement.sectionIn m.layout) := by
  have hblank : decide (([] : Text) = name) = false := decide_eq_false fun h => hname h.symm
  rw [foundIn, List.find?_cons]
  simp only [hblank]
  rw [List.find?_map]
  rfl

theorem find?_parts (m : Image) (name : Text) :
    m.parts.find? (·.name = name) =
      (m.placements.find? (·.part.name = name)).map Placement.part := by
  rw [← map_part_place m.contentStart 1 m.parts, List.find?_map]
  rfl

theorem firstOf_fileAs (hm : m.FitsAs n) (hs : m.sections ≠ []) (hr : m.Readable) {name : Text}
    (hname : name ≠ []) :
    (Inspection.firstOf (m.fileAs n) name).map Prod.snd =
      (m.placements.find? (·.part.name = name)).map (Placement.sectionIn m.layout) := by
  unfold Inspection.firstOf Inspection.entriesOf
  rw [SectionEntry.readAll_foundIn hm hs hr, SectionEntry.findSome?_ofSections,
    find?_foundIn n hname]

theorem firstOf_file (hm : m.Fits) (hs : m.sections ≠ []) (hp : m.Plain) {name : Text}
    (hname : name ≠ []) :
    (Inspection.firstOf m.file name).map Prod.snd =
      (m.placements.find? (·.part.name = name)).map Placement.section := by
  rw [← fileAs_plain, firstOf_fileAs hm.plain hs hp.readable hname]
  apply Option.map_congr
  intro x hx
  exact Placement.sectionIn_of_plain m.layout
    (flags_parts hp (part_mem (List.mem_of_find?_eq_some hx)))

theorem storedOf_file (hm : m.Fits) (hs : m.sections ≠ []) {x : Placement} (hx : x ∈ m.placements) :
    Inspection.storedOf m.file x.section false = x.part.stored := by
  unfold Inspection.storedOf
  by_cases hroom : x.part.type = 8
  · have hbits : x.section.header.noBits = true := decide_eq_true hroom
    rw [if_pos hbits, ImageSection.stored, if_pos hroom]
  · have hbits : ¬x.section.header.noBits = true := by
      change ¬decide (x.part.type = 8) = true
      simpa using hroom
    rw [if_neg hbits, if_neg Bool.false_ne_true, content?_file hm hs hx hroom]
    rfl

/-- What is loaded under a name is stored under it, unless there is an old form. -/
theorem dataOf_file (hm : m.Fits) (hs : m.sections ≠ []) (hp : m.Plain) {name : Text}
    (hname : name ≠ []) (hold : m.parts.find? (·.name = DebugInfo.oldName name) = none) :
    Inspection.dataOf m.file name =
      ((m.parts.find? (·.name = name)).map ImageSection.stored).getD [] := by
  have hfirst := firstOf_file hm hs hp hname
  rw [find?_parts]
  unfold Inspection.dataOf
  cases hx : m.placements.find? (·.part.name = name) with
  | some x =>
    rw [hx] at hfirst
    obtain ⟨found, hfound, hsection⟩ := Option.map_eq_some_iff.mp hfirst
    rw [hfound]
    simp only [hsection]
    exact storedOf_file hm hs (List.mem_of_find?_eq_some hx)
  | none =>
    rw [hx] at hfirst
    have hnone : Inspection.firstOf m.file name = none := Option.map_eq_none_iff.mp hfirst
    have hfirstOld := @firstOf_file m hm hs hp (DebugInfo.oldName name) (List.cons_ne_nil _ _)
    rw [find?_parts] at hold
    rw [Option.map_eq_none_iff.mp hold] at hfirstOld
    rw [hnone, Option.map_eq_none_iff.mp hfirstOld]
    simp only [ite_self]
    rfl

/-- The facts of the file. -/
def facts (m : Image) : BinaryFacts where
  architecture := .ofMachine m.machine
  fileKind := .ofType m.type
  byteOrder := m.layout.order
  entryPoint := UInt64.ofNat m.entry
  sections := [] :: (m.sections.map (·.name) ++ [Text.ofString ".shstrtab"])

theorem map_name_foundAs (m : Image) (n : Numbering) : (m.foundAs n).map (·.name) =
    [] :: (m.sections.map (·.name) ++ [Text.ofString ".shstrtab"]) := by
  have hplaced : (m.placements.map fun x => x.part.name) = m.parts.map (·.name) := by
    rw [← map_part_place m.contentStart 1 m.parts, List.map_map]
    rfl
  have hparts : m.parts.map (·.name) =
      m.sections.map (·.name) ++ [Text.ofString ".shstrtab"] := by
    rw [parts, List.map_append]
    rfl
  rw [foundAs, List.map_cons, List.map_map, ← hparts, ← hplaced]
  rfl

theorem factsOf_file (hm : m.Fits) (hs : m.sections ≠ []) (hp : m.Plain) :
    Inspection.factsOf m.file = m.facts := by
  have hnames : (Inspection.entriesOf m.file).map (·.name) =
      [] :: (m.sections.map (·.name) ++ [Text.ofString ".shstrtab"]) := by
    unfold Inspection.entriesOf
    rw [SectionEntry.readAll_file hm hs hp, SectionEntry.map_name_ofSections, ← foundAs_plain,
      map_name_foundAs]
  unfold Inspection.factsOf facts
  rw [hnames]
  rfl

end Elf.Image

/-! ### Debug sections by name -/

namespace DebugInfo

/-- All names that debug sections are looked for under. -/
def knownNames : List Text := sectionNames ++ sectionNames.map oldName

theorem lookup_map {α : Type} (g : Text → α) {name : Text} {names : List Text} (h : name ∈ names) :
    (names.map fun n => (n, g n)).lookup name = some (g name) := by
  induction names with
  | nil => cases h
  | cons n names ih =>
    rw [List.map_cons, List.lookup_cons]
    by_cases hn : name = n
    · rw [hn, beq_self_eq_true]
    · rw [beq_false_of_ne hn]
      exact ih ((List.mem_cons.mp h).resolve_left hn)

theorem get?_eq_provided {f : File} {d : DebugInfo} (hd : Inspection.debugOf f = some d) {name : Text}
    (hname : name ∈ sectionNames) : d.get? name = provided name (Inspection.dataOf f name) := by
  unfold Inspection.debugOf at hd
  split_ifs at hd
  cases hd
  have hlookup := lookup_map (fun name => (Inspection.providedOf f name).2) hname
  change (List.lookup name (sectionNames.map fun n => (n, (Inspection.providedOf f n).2))).join = _
  rw [hlookup]
  rfl

/-- A section that is never missing holds what is loaded under its name. -/
theorem get?_sections {f : File} {d : DebugInfo} (hd : Inspection.debugOf f = some d) {name : Text}
    (hname : name ∈ sectionNames) (halways : name ∈ alwaysProvided) :
    (d.get? name).getD [] = Inspection.dataOf f name := by
  rw [get?_eq_provided hd hname, provided, if_neg fun h => h.2 halways]
  rfl

end DebugInfo

end ElfScope
