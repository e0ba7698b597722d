import Mathlib
import ElfScope.Proofs.Dwarf.TreeUnits
import ElfScope.Proofs.Inspection.Images

/-! # Analyzing written trees

Units that are written into a file are found again: the analysis of the file tells what the trees tell.
-/
namespace ElfScope
open Elf Dwarf

namespace Dwarf.UnitTree

/-- The debug sections of some units, before they have places. -/
def imageSections (units : List UnitTree) : List ImageSection :=
  (sections units).map fun p => { name := p.1, content := p.2 }

theorem imageSections_ne_nil (units : List UnitTree) : imageSections units ≠ [] :=
  List.cons_ne_nil _ _

/-- The names of debug sections of units. -/
def writtenNames : List Text := [".debug_info", ".debug_abbrev", ".debug_str"]

theorem name_mem_writtenNames {units : List UnitTree} {p : ImageSection}
    (hp : p ∈ imageSections units) : p.name ∈ writtenNames := by
  obtain ⟨q, hq, rfl⟩ := List.mem_map.mp hp
  unfold sections at hq
  simp only [List.mem_cons] at hq
  unfold writtenNames
  rcases hq with rfl | rfl | hq
  · exact List.mem_cons_self
  · exact List.mem_cons_of_mem _ List.mem_cons_self
  · split_ifs at hq
    · cases hq
    · cases List.mem_singleton.mp hq
      exact List.mem_cons_of_mem _ (List.mem_cons_of_mem _ List.mem_cons_self)

/-- The file of an image has debug sections only for some units, in any places among others. -/
def Within (units : List UnitTree) (m : Image) : Prop :=
  m.sections.filter (DebugInfo.knownNames.contains ·.name) = imageSections units

variable {units : List UnitTree} {m : Image}

theorem sections_ne_nil (h : Within units m) : m.sections ≠ [] := by
  intro hs
  have hempty : imageSections units = [] := by
    rw [← h, hs]
    rfl
  exact imageSections_ne_nil units hempty

theorem find?_within (h : Within units m) {name : Text} (hname : name ∈ DebugInfo.knownNames) :
    m.parts.find? (·.name = name) = (imageSections units).find? (·.name = name) := by
  have hlast : decide (m.nameTable.name = name) = false := by
    refine decide_eq_false ?_
    intro hlast
    have hknown : Text.ofString ".shstrtab" ∉ DebugInfo.knownNames := by decide
    rw [← hlast] at hname
    exact hknown hname
  have hsections : m.sections.find? (·.name = name) =
      (imageSections units).find? (·.name = name) := by
    rw [← h, List.find?_filter]
    apply congrArg (List.find? · m.sections)
    funext p
    by_cases hp : p.name = name
    · simpa [hp] using hname
    · simp [hp]
  rw [Image.parts, List.find?_append, hsections, List.find?_cons, hlast]
  simp

theorem dataOf_within (h : Within units m) (hm : m.Fits) (hp : m.Plain) {name : Text}
    (hname : name ∈ DebugInfo.sectionNames) :
    Inspection.dataOf m.file name =
      (((imageSections units).find? (·.name = name)).map (·.content)).getD [] := by
  have hs := sections_ne_nil h
  have hne : ∀ n ∈ DebugInfo.sectionNames, n ≠ [] := by decide
  have hknown : name ∈ DebugInfo.knownNames := List.mem_append_left _ hname
  have holdKnown : DebugInfo.oldName name ∈ DebugInfo.knownNames :=
    List.mem_append_right _ (List.mem_map_of_mem hname)
  have hold : (imageSections units).find? (·.name = DebugInfo.oldName name) = none := by
    refine List.find?_eq_none.mpr fun p hp => ?_
    have hwritten : ∀ n ∈ DebugInfo.sectionNames, DebugInfo.oldName n ∉ writtenNames := by decide
    have hpname := name_mem_writtenNames hp
    simp only [decide_eq_true_eq]
    intro heq
    exact hwritten name hname (heq ▸ hpname)
  rw [← find?_within h holdKnown] at hold
  rw [Image.dataOf_file hm hs hp (hne name hname) hold, find?_within h hknown]
  cases hfound : (imageSections units).find? (·.name = name) with
  | none => rfl
  | some p =>
    obtain ⟨q, -, rfl⟩ := List.mem_map.mp (List.mem_of_find?_eq_some hfound)
    rfl

theorem dataOf_info (h : Within units m) (hm : m.Fits) (hp : m.Plain) :
    Inspection.dataOf m.file ".debug_info" = units.flatMap (·.encode (tablesOf units)) := by
  rw [dataOf_within h hm hp (by decide)]
  rfl

theorem dataOf_abbreviations (h : Within units m) (hm : m.Fits) (hp : m.Plain) :
    Inspection.dataOf m.file ".debug_abbrev" = (tablesOf units).encodeShapes := by
  rw [dataOf_within h hm hp (by decide)]
  rfl

theorem dataOf_strings (h : Within units m) (hm : m.Fits) (hp : m.Plain) :
    Inspection.dataOf m.file ".debug_str" = Utf8.encodeTexts (tablesOf units).texts := by
  rw [dataOf_within h hm hp (by decide)]
  unfold imageSections sections
  dsimp only
  cases Utf8.encodeTexts (tablesOf units).texts with
  | nil => rfl
  | cons b bs => rfl

/-- The symbols of a file with some units are those of their trees. -/
theorem symbolsOf_within (hunits : ∀ u ∈ units, u.WellFormed) (hfit : Fit units)
    (h : Within units m) (hm : m.Fits) (hp : m.Plain) :
    Inspection.symbolsOf m.file = .ok (symbols units) := by
  have hinfo := dataOf_info h hm hp
  unfold Inspection.symbolsOf
  cases hdebug : Inspection.debugOf m.file with
  | none =>
    have hempty : units.flatMap (·.encode (tablesOf units)) = [] := by
      unfold Inspection.debugOf at hdebug
      split_ifs at hdebug with hsome
      rw [hinfo] at hsome
      simpa using hsome
    have hlength := @length_le_info (tablesOf units) units
    rw [hempty] at hlength
    cases List.eq_nil_of_length_eq_zero (Nat.le_zero.mp hlength)
    rfl
  | some d =>
    refine outcome_run hunits hfit ?_ ?_ ?_ rfl
    · exact (DebugInfo.get?_sections hdebug (by decide) (by decide)).trans hinfo
    · exact (DebugInfo.get?_sections hdebug (by decide) (by decide)).trans
        (dataOf_abbreviations h hm hp)
    · exact (DebugInfo.get?_sections hdebug (by decide) (by decide)).trans
        (dataOf_strings h hm hp)

end Dwarf.UnitTree

/-- An image with the debug sections of some units among its sections is analyzed to its facts and to
the records of the trees of the units. -/
theorem Analysis.elfInfo_within {units : List UnitTree} {m : Image}
    (hunits : ∀ u ∈ units, u.WellFormed) (hfit : UnitTree.Fit units)
    (h : UnitTree.Within units m) (hm : m.Fits) (hp : m.Plain) (source : Text) :
    (elfInfo m.encode true source).1 = .ok (.ofFacts m.facts (UnitTree.symbols units)) := by
  have hs := UnitTree.sections_ne_nil h
  rw [elfInfo_of_read (Image.read_encode hm hs) source,
    UnitTree.symbolsOf_within hunits hfit h hm hp, Image.factsOf_file hm hs hp]

namespace Analysis

/-- A unit of version 4 with a function, a variable within it and one out of it, and a unit of version
5 with a structure. -/
def counterUnits : List UnitTree :=
  [⟨4, 8, .node { tag := 0x11, attributes := [(0x03, .string "counter.c")] }
    [.node { tag := 0x2e, attributes := [(0x03, .strp "main"), (0x11, .addr 0x401000),
        (0x12, .data4 0x20), (0x49, .ref4 "int")] }
      [.node { tag := 0x05, attributes := [(0x03, .strp "argc"), (0x49, .ref4 "int")] } [],
        .node { tag := 0x34, attributes := [(0x03, .strp "main")] } []],
      .node { tag := 0x34, attributes := [(0x03, .string "counter"),
        (0x02, .exprloc [0x03, 0, 0x10, 0, 0, 0, 0, 0, 0])] } [],
      .node { tag := 0x24, attributes := [(0x0b, .implicitConst 4)], label := some "int" } []]⟩,
    ⟨5, 4, .node { tag := 0x13, attributes := [(0x03, .strp "point"), (0x0b, .udata 300)] }
      [.node { tag := 0x0d, attributes := [(0x03, .string "x"), (0x38, .sdata 296)] } []]⟩]

/-- A narrow file, highest byte first, with a section before and one after the debug sections. -/
def counterImage : Image where
  layout := ⟨false, .big⟩
  type := 2
  machine := 40
  entry := 0x401000
  sections := { name := ".text", content := [0xc3] } :: UnitTree.imageSections counterUnits ++
    [{ name := ".bss", content := [], type := 8, blankSize := 64 }]
  segments := [{ type := 4, content := some [1, 2, 3] }]

theorem elfInfo_within_counter :
    (∀ u ∈ counterUnits, u.WellFormed) ∧ UnitTree.Fit counterUnits ∧
      UnitTree.Within counterUnits counterImage ∧ counterImage.Fits ∧ counterImage.Plain ∧
      (elfInfo counterImage.encode true "counter").1 = .ok (.ofFacts counterImage.facts {
        functions := [{
          name := "main"
          address := 0x401000
          size := some 0x20
          parameters := [⟨"argc", none, none, .unresolved, .parameter⟩]
          returnType := some .returned }]
        globals := [⟨"counter", some 0x1000, none, .void, .global⟩]
        types := [.mk "point" (some 300) .struct [.mk "x" 296 .unresolved]] }) := by
  have hunits : ∀ u ∈ counterUnits, u.WellFormed := by decide +kernel
  have hfit : UnitTree.Fit counterUnits := ⟨by decide +kernel, by decide +kernel⟩
  have h : counterImage.sections.filter (DebugInfo.knownNames.contains ·.name) =
      UnitTree.imageSections counterUnits := by decide +kernel
  have hm : counterImage.Fits :=
    ⟨by decide, by decide, by decide, by decide, by decide +kernel, by decide +kernel,
      by decide +kernel, by decide +kernel, by decide +kernel⟩
  have hp : counterImage.Plain := ⟨by decide +kernel, by decide +kernel⟩
  exact ⟨hunits, hfit, h, hm, hp, elfInfo_within hunits hfit h hm hp "counter"⟩

end Analysis

end ElfScope
