import Mathlib
import ElfScope.Analysis.Bytes
import ElfScope.Proofs.Dwarf.Provenance
import ElfScope.Proofs.Record.RoundTrip

/-! # Documents of an analysis

Every text that an analysis gives was decoded from bytes of its input, or is a constant, so it holds
no surrogates. Results go through their documents unchanged.
-/
namespace ElfScope

/-- No text among those of a record holds a surrogate. -/
abbrev AllScalar (ts : List Text) : Prop := ∀ t ∈ ts, t.Scalar

/-! ### Texts of entries -/

namespace Dwarf

theorem Die.scalar_name (d : Die) {default : Text} (h : default.Scalar) :
    (d.name default).Scalar := by
  unfold Die.name
  split
  · split_ifs
    · exact Utf8.scalar_decodeLossy _
    · exact h
  · exact h

theorem FromMember.scalar {m : MemberInfo} (h : FromMember m) : AllScalar m.texts := by
  obtain ⟨d, h⟩ := h
  unfold Die.memberInfo at h
  cases hw : Check.wordOf "offset" d.memberOffset with
  | error e => rw [hw] at h; cases h
  | ok offset =>
    rw [hw] at h
    cases h
    simp only [MemberInfo.texts, TypeInfo.texts, TypeInfo.unresolved, membersTexts, AllScalar,
      List.forall_mem_cons]
    exact ⟨d.scalar_name (Text.scalar_ofString _), Text.scalar_ofString _, by simp⟩

theorem scalar_variableInfo (d : Die) (scope : Scope) : AllScalar (d.variableInfo scope).texts := by
  have htype : AllScalar (d.variableInfo scope).typeInfo.texts := by
    simp only [Die.variableInfo]
    split_ifs <;>
      exact List.forall_mem_cons.mpr ⟨Text.scalar_ofString _, by simp [membersTexts]⟩
  exact List.forall_mem_cons.mpr ⟨d.scalar_name (Text.scalar_ofString _), htype⟩

theorem FromParameter.scalar {x : VariableInfo} (h : FromParameter x) : AllScalar x.texts := by
  obtain ⟨d, rfl⟩ := h
  exact scalar_variableInfo d .parameter

theorem FromVariable.scalar {x : VariableInfo} (h : FromVariable x) : AllScalar x.texts := by
  obtain ⟨d, rfl⟩ := h
  exact scalar_variableInfo d .global

theorem FromSubprogram.scalar {f : FunctionInfo} (h : FromSubprogram f) : AllScalar f.texts := by
  obtain ⟨d, parameters, h, hp⟩ := h
  unfold Die.functionInfo at h
  cases ha : Check.wordOf "address" d.lowPc with
  | error e => rw [ha] at h; cases h
  | ok address =>
    cases hs : Die.sizeWord (d.codeSize? d.lowPc) with
    | error e => rw [ha, hs] at h; cases h
    | ok size =>
      rw [ha, hs] at h
      cases h
      refine List.forall_mem_cons.mpr ⟨d.scalar_name (Text.scalar_ofString _),
        List.forall_mem_append.mpr ⟨List.forall_mem_flatMap.mpr fun p h => (hp p h).scalar, ?_⟩⟩
      split_ifs
      · simp only [Option.toList_some, List.flatMap_cons, List.flatMap_nil, List.append_nil]
        exact List.forall_mem_cons.mpr ⟨Text.scalar_ofString _, by simp [membersTexts]⟩
      · simp

theorem scalar_membersTexts {ms : List MemberInfo} (h : ∀ m ∈ ms, FromMember m) :
    AllScalar (membersTexts ms) := by
  induction ms with
  | nil => simp [AllScalar, membersTexts]
  | cons m ms ih =>
    rw [List.forall_mem_cons] at h
    rw [membersTexts]
    exact List.forall_mem_append.mpr ⟨h.1.scalar, ih h.2⟩

theorem FromType.scalar {t : TypeInfo} (h : FromType t) : AllScalar t.texts := by
  obtain ⟨d, members, -, h, hm, -⟩ := h
  unfold Die.typeInfo at h
  cases hs : Die.sizeWord d.byteSize? with
  | error e => rw [hs] at h; cases h
  | ok size =>
    rw [hs] at h
    cases h
    exact List.forall_mem_cons.mpr ⟨d.scalar_name (Text.scalar_ofString _), scalar_membersTexts hm⟩

end Dwarf

/-! ### Names of sections -/

namespace Elf.File

theorem scalar_sectionName? {f : File} {h : SectionHeader} {name : Text}
    (hn : f.sectionName? h = some name) : name.Scalar := by
  unfold sectionName? at hn
  split at hn
  · cases hn
  · simp only at hn
    split_ifs at hn
    cases hn
    exact Utf8.scalar_decodeLossy _

theorem scalar_sectionFrom? {f : File} {fuel index : Nat} {s : Section}
    (h : f.sectionFrom? fuel index = some s) : s.name.Scalar := by
  cases fuel with
  | zero => cases h
  | succ fuel =>
    rw [sectionFrom?] at h
    obtain ⟨header, -, h⟩ := Option.bind_eq_some_iff.mp h
    obtain ⟨name, hn, h⟩ := Option.bind_eq_some_iff.mp h
    obtain ⟨compression, -, h⟩ := Option.bind_eq_some_iff.mp h
    simp only at h
    split_ifs at h
    cases h
    exact scalar_sectionName? hn

end Elf.File

namespace SectionEntry

theorem scalar_read (f : Elf.File) (names : Option Nat) (index : Nat) :
    (read f names index).name.Scalar := by
  unfold read
  split
  · next s size hs =>
    split_ifs
    · exact Elf.File.scalar_sectionFrom? hs
    · exact Text.scalar_ofString _
  · exact Text.scalar_ofString _

theorem scalar_readAll (f : Elf.File) : AllScalar ((readAll f).1.map (·.name)) := by
  unfold readAll
  split
  · simp [AllScalar]
  · refine List.forall_mem_map.mpr ?_
    intro e he
    obtain ⟨index, -, rfl⟩ := List.mem_map.mp he
    exact scalar_read f _ index

end SectionEntry

/-! ### Results -/

namespace Analysis

theorem scalar_facts {data : Bytes} {role : Role} {source : Text} {i : Inspection}
    (h : Inspection.ofBytes data role source = .ok i) :
    AllScalar (Inspection.facts.run i).1.sections := by
  unfold Inspection.ofBytes at h
  split at h
  · cases h
    exact SectionEntry.scalar_readAll _
  · cases h

theorem fromEntries_symbols {i : Inspection} {symbols : Symbols}
    (h : (Inspection.symbols.run i).1 = .ok symbols) : Dwarf.FromEntries symbols := by
  rcases hd : Inspection.debugInfo.run i with ⟨d, j⟩
  unfold Inspection.symbols at h
  rw [StateT.run_bind, hd] at h
  cases d with
  | none =>
    cases h
    exact Dwarf.fromEntries_empty
  | some d =>
    have hrun := Dwarf.Walk.run_fromEntries
      ((Inspection.debugInfo.run j).1.map DebugInfo.toSections) (Inspection.debugInfo.run j).2.desk
    change (Dwarf.outcome (Dwarf.Walk.run ((Inspection.debugInfo.run j).1.map
      DebugInfo.toSections)) (Inspection.debugInfo.run j).2.desk).1 = .ok symbols at h
    unfold Dwarf.outcome at h
    split at h
    · next hr =>
      rw [hr] at hrun
      cases h
      exact hrun
    · cases h

theorem fromEntries_extractSymbols {i : Inspection} {symbols : Symbols}
    (h : (Inspection.extractSymbols.run i).1 = .ok symbols) : Dwarf.FromEntries symbols :=
  @fromEntries_symbols { i with loaded := [], debug := none, desk := {} } symbols h

theorem scalar_ofFacts {facts : BinaryFacts} (hf : AllScalar facts.sections) {symbols : Symbols}
    (hs : Dwarf.FromEntries symbols) : AllScalar (ElfInfo.ofFacts facts symbols).texts := by
  simp only [AllScalar, ElfInfo.texts, ElfInfo.ofFacts, List.forall_mem_append,
    List.forall_mem_flatMap]
  exact ⟨⟨⟨hf, fun f h => (hs.functions f h).scalar⟩, fun x h => (hs.globals x h).scalar⟩,
    fun t h => (hs.types t h).scalar⟩

theorem scalar_elfInfo {data : Bytes} {withDwarf : Bool} {source : Text} {info : ElfInfo}
    (h : (elfInfo data withDwarf source).1 = .ok info) : AllScalar info.texts := by
  unfold elfInfo at h
  split at h
  · cases h
  · next i hi =>
    have hf := scalar_facts hi
    rcases hfacts : Inspection.facts.run i with ⟨facts, j⟩
    rw [hfacts] at hf h
    simp only at h
    split_ifs at h
    · cases h
      exact scalar_ofFacts hf Dwarf.fromEntries_empty
    · rcases hs : Inspection.extractSymbols.run j with ⟨outcome, k⟩
      rw [hs] at h
      cases outcome with
      | ok symbols =>
        cases h
        exact scalar_ofFacts hf (fromEntries_extractSymbols (congrArg Prod.fst hs))
      | error e =>
        cases e <;> cases h <;> exact scalar_ofFacts hf Dwarf.fromEntries_empty

/-- What is given where all goes well, and what was completed where not. -/
def Gives (outcome : Except AnalysisError AnalysisResult) (r : AnalysisResult) : Prop :=
  outcome = .ok r ∨ ∃ failures, outcome = .error (.inputs failures r)

theorem elfInfo_of_gives_combine {elf : Option (Except InputError ElfInfo)}
    {core : Option (Except InputError CoreInfo)} {r : AnalysisResult}
    (h : Gives (combine elf core) r) {info : ElfInfo} (hi : r.elfInfo = some info) :
    elf = some (.ok info) := by
  have hr : r.elfInfo = elf.bind Except.toOption := by
    rcases elf with _ | _ | _ <;> rcases core with _ | _ | _ <;> rcases h with h | ⟨failures, h⟩ <;>
      cases h <;> rfl
  rw [hr, Option.bind_eq_some_iff] at hi
  obtain ⟨outcome, rfl, ho⟩ := hi
  cases outcome with
  | ok info' => rw [Option.some.inj ho]
  | error e => cases ho

theorem scalar_of_gives {elfData coreData : Option Bytes} {withDwarf : Bool} {r : AnalysisResult}
    (h : Gives (ofBytes elfData coreData withDwarf).1 r) : AllScalar r.texts := by
  refine List.forall_mem_flatMap.mpr ?_
  intro info hi
  have helf := elfInfo_of_gives_combine h (Option.mem_toList.mp hi)
  rw [Option.map_map, Option.map_eq_some_iff] at helf
  obtain ⟨data, -, hdata⟩ := helf
  exact scalar_elfInfo hdata

/-- A result goes through its document unchanged, whatever the indent, as a text and as bytes; two
results have two documents. What an analysis gives holds no pair of surrogates. -/
theorem documents_read_back :
    (∀ (r : AnalysisResult) (indent : Option Nat), r.Portable →
      AnalysisResult.parse (r.render indent) = .ok r ∧
        AnalysisResult.parseBytes (Utf8.encode (r.render indent)) = .ok r) ∧
    (∀ (r r' : AnalysisResult) (indent indent' : Option Nat), r.Portable → r'.Portable →
      r.render indent = r'.render indent' → r = r') ∧
    (∀ (elfData coreData : Option Bytes) (withDwarf : Bool) (r : AnalysisResult),
      Gives (ofBytes elfData coreData withDwarf).1 r → ∀ t ∈ r.texts, t.Unpaired) := by
  refine ⟨fun r indent h => ⟨h.parse_render indent, h.parseBytes_render indent⟩,
    fun r r' indent indent' h h' he => ?_, fun elfData coreData withDwarf r h t ht => ?_⟩
  · have hr := h.parse_render indent
    rw [he, h'.parse_render indent'] at hr
    exact (Except.ok.inj hr).symm
  · exact (scalar_of_gives h t ht).unpaired

/-- A result with surrogates that make no pair, a member within a member, and absent parts. -/
def nestedResult : AnalysisResult where
  elfInfo := some {
    architecture := .riscv
    entryPoint := 0xffffffffffffffff
    sections := [[], [⟨0xdc00, by decide⟩, ⟨0xd800, by decide⟩]]
    fileType := .sharedObject
    byteOrder := .big
    functions := [⟨"f", 0, none, [⟨"x", none, some (-1), .unresolved, .parameter⟩], some .void⟩]
    types := [.mk "outer" (some 8) .struct
      [.mk "inner" 0 (.mk "\"\n" none .union [.mk "deep" 4 .unresolved])]] }
  coreInfo := some ⟨.unknown, ⟨0, [0x00, 0xff]⟩, [⟨7, []⟩]⟩

theorem documents_read_back_nested :
    nestedResult.Portable ∧
      (AnalysisResult.parse (nestedResult.render (some 2)) = .ok nestedResult ∧
        AnalysisResult.parseBytes (Utf8.encode (nestedResult.render (some 2))) =
          .ok nestedResult) ∧
      (nestedResult.render none = nestedResult.render none → nestedResult = nestedResult) ∧
      Gives (ofBytes (some []) none true).1 {} ∧
      ∀ t ∈ ({} : AnalysisResult).texts, t.Unpaired := by
  have hp : nestedResult.Portable := ⟨by decide +kernel, by decide +kernel, by decide +kernel⟩
  have hg : Gives (ofBytes (some []) none true).1 {} := .inr ⟨_, rfl⟩
  exact ⟨hp, documents_read_back.1 nestedResult (some 2) hp,
    documents_read_back.2.1 nestedResult nestedResult none none hp hp, hg,
    documents_read_back.2.2 (some []) none true {} hg⟩

end Analysis

end ElfScope
