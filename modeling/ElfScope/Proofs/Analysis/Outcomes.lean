import Mathlib
import ElfScope.Analysis.Bytes
import ElfScope.Proofs.Dwarf.Provenance

/-! # How an analysis ends

Whether an input is accepted is decided on opening it. From there on nothing in it can make the
analysis fail: the symbols are added to facts that stand without them.
-/
namespace ElfScope

namespace Inspection

theorem walking_run_error {i : Inspection} {e : Dwarf.Failure}
    (h : ((walking Dwarf.Walk.run).run i).1 = .error e) : e = .endless :=
  Dwarf.Walk.outcome_run_error ((debugInfo.run i).1.map DebugInfo.toSections)
    (debugInfo.run i).2.desk h

theorem symbols_error {i : Inspection} {e : Dwarf.Failure} (h : (symbols.run i).1 = .error e) :
    e = .endless := by
  rcases hd : debugInfo.run i with ⟨d, j⟩
  unfold symbols at h
  rw [StateT.run_bind, hd] at h
  cases d with
  | none => cases h
  | some d => exact walking_run_error h

/-- The symbols of an opened file can be told unless the walk has no end. -/
theorem extractSymbols_error {i : Inspection} {e : Dwarf.Failure}
    (h : (extractSymbols.run i).1 = .error e) : e = .endless :=
  symbols_error (i := { i with loaded := [], debug := none, desk := {} }) h

theorem ofBytes_of_read {data : Bytes} {file : Elf.File} (h : Elf.File.read data = .ok file)
    (role : Role) (source : Text) : ofBytes data role source = .ok { file, role, source } := by
  simp [ofBytes, h]

theorem ofBytes_of_rejected {data : Bytes} {cause : Elf.OpenError}
    (h : Elf.File.read data = .error cause) (role : Role) (source : Text) :
    ofBytes data role source = .error ⟨role, source, .notElf cause⟩ := by
  simp [ofBytes, h]

end Inspection

namespace Analysis
variable {data : Bytes} {source : Text} {i : Inspection}

theorem elfInfo_of_rejected {cause : Elf.OpenError} (h : Elf.File.read data = .error cause)
    (withDwarf : Bool) (source : Text) :
    (elfInfo data withDwarf source).1 = .error ⟨.elf, source, .notElf cause⟩ := by
  simp [elfInfo, Inspection.ofBytes_of_rejected h]

theorem elfInfo_bare (h : Inspection.ofBytes data .elf source = .ok i) :
    (elfInfo data false source).1 = .ok (.ofFacts (Inspection.facts.run i).1) := by
  simp only [elfInfo, h]
  rfl

theorem elfInfo_full (h : Inspection.ofBytes data .elf source = .ok i) :
    (elfInfo data true source).1 =
      match (Inspection.extractSymbols.run (Inspection.facts.run i).2).1 with
      | .ok symbols => .ok (.ofFacts (Inspection.facts.run i).1 symbols)
      | .error _ => .error ⟨.elf, source, .endless⟩ := by
  simp only [elfInfo, h]
  rcases Inspection.facts.run i with ⟨facts, j⟩
  rcases hs : Inspection.extractSymbols.run j with ⟨outcome, j'⟩
  cases outcome with
  | ok symbols => simp [hs]
  | error e =>
    have he : e = .endless := Inspection.extractSymbols_error (i := j) (by rw [hs])
    subst he
    simp [hs]

theorem coreInfo_of_rejected {cause : Elf.OpenError} (h : Elf.File.read data = .error cause)
    (source : Text) : (coreInfo data source).1 = .error ⟨.core, source, .notElf cause⟩ := by
  simp [coreInfo, Inspection.ofBytes_of_rejected h]

theorem coreInfo_of_read {file : Elf.File} (h : Elf.File.read data = .ok file) (source : Text) :
    (coreInfo data source).1 =
      if FileKind.ofType file.header.type = .coreDump then
        .ok (Inspection.coreInfo.run { file, role := .core, source }).1
      else .error ⟨.core, source, .notCoreDump (.ofType file.header.type)⟩ := by
  simp only [coreInfo, Inspection.ofBytes_of_read h, Inspection.requireCoreDump,
    Inspection.fileKind]
  by_cases hk : FileKind.ofType file.header.type = .coreDump
  · rcases hc : Inspection.coreInfo.run { file, role := .core, source } with ⟨info, j⟩
    simp [hk]
  · simp [hk]

/-! ### Outcomes of an analysis with symbols -/

theorem elfInfo_bare_error_iff {e : InputError} : (elfInfo data false source).1 = .error e ↔
    ∃ cause, Elf.File.read data = .error cause ∧ e = ⟨.elf, source, .notElf cause⟩ := by
  cases hread : Elf.File.read data with
  | error cause => simp [elfInfo_of_rejected hread false source, eq_comm]
  | ok file => simp [elfInfo_bare (Inspection.ofBytes_of_read hread .elf source)]

/-- The data are refused, or the symbols are told, or the walk has no end. -/
theorem elfInfo_full_cases (data : Bytes) (source : Text) :
    (∃ cause, Elf.File.read data = .error cause ∧
      (elfInfo data true source).1 = .error ⟨.elf, source, .notElf cause⟩) ∨
    ∃ i, Inspection.ofBytes data .elf source = .ok i ∧
      ((∃ symbols, (Inspection.extractSymbols.run (Inspection.facts.run i).2).1 = .ok symbols ∧
        (elfInfo data true source).1 = .ok (.ofFacts (Inspection.facts.run i).1 symbols)) ∨
      ((Inspection.extractSymbols.run (Inspection.facts.run i).2).1 = .error .endless ∧
        (elfInfo data true source).1 = .error ⟨.elf, source, .endless⟩)) := by
  cases hread : Elf.File.read data with
  | error cause => exact .inl ⟨cause, rfl, elfInfo_of_rejected hread true source⟩
  | ok file =>
    have hopen := Inspection.ofBytes_of_read hread .elf source
    have hfull := elfInfo_full hopen
    refine .inr ⟨_, hopen, ?_⟩
    cases hs : (Inspection.extractSymbols.run
        (Inspection.facts.run { file, role := .elf, source }).2).1 with
    | ok symbols => exact .inl ⟨symbols, rfl, by rw [hfull, hs]⟩
    | error e => exact .inr ⟨by rw [Inspection.extractSymbols_error hs], by rw [hfull, hs]⟩

theorem elfInfo_full_error_iff
    (h : (elfInfo data true source).1 ≠ .error ⟨.elf, source, .endless⟩) (e : InputError) :
    (elfInfo data true source).1 = .error e ↔ (elfInfo data false source).1 = .error e := by
  rcases elfInfo_full_cases data source with
    ⟨cause, hread, hfull⟩ | ⟨i, hopen, ⟨symbols, -, hfull⟩ | ⟨-, hfull⟩⟩
  · rw [hfull, elfInfo_of_rejected hread false source]
  · rw [hfull, elfInfo_bare hopen]
    exact ⟨fun h => (by cases h), fun h => (by cases h)⟩
  · exact absurd hfull h

theorem elfInfo_endless_iff :
    (elfInfo data true source).1 = .error ⟨.elf, source, .endless⟩ ↔
      ∃ i, Inspection.ofBytes data .elf source = .ok i ∧
        (Inspection.extractSymbols.run (Inspection.facts.run i).2).1 = .error .endless := by
  rcases elfInfo_full_cases data source with
    ⟨cause, hread, hfull⟩ | ⟨i, hopen, ⟨symbols, hs, hfull⟩ | ⟨hs, hfull⟩⟩
  · simp [hfull, Inspection.ofBytes_of_rejected hread]
  · simp [hfull, hopen, hs]
  · simp [hfull, hopen, hs]

/-- The facts are the same with the symbols and without them. -/
theorem facts_of_elfInfo {bare full : ElfInfo} (hb : (elfInfo data false source).1 = .ok bare)
    (hf : (elfInfo data true source).1 = .ok full) :
    full.architecture = bare.architecture ∧ full.entryPoint = bare.entryPoint ∧
      full.sections = bare.sections ∧ full.fileType = bare.fileType ∧
      full.byteOrder = bare.byteOrder := by
  rcases elfInfo_full_cases data source with
    ⟨cause, hread, hfull⟩ | ⟨i, hopen, ⟨symbols, -, hfull⟩ | ⟨-, hfull⟩⟩
  · rw [hfull] at hf
    cases hf
  · rw [hfull] at hf
    rw [elfInfo_bare hopen] at hb
    cases hb
    cases hf
    exact ⟨rfl, rfl, rfl, rfl, rfl⟩
  · rw [hfull] at hf
    cases hf

/-! ### Outcomes of the analysis of a core dump -/

/-- The data are refused, or the file is of another kind, or the threads are told. -/
theorem coreInfo_cases (data : Bytes) (source : Text) :
    (∃ cause, Elf.File.read data = .error cause ∧
      (coreInfo data source).1 = .error ⟨.core, source, .notElf cause⟩) ∨
    ∃ file, Elf.File.read data = .ok file ∧
      ((FileKind.ofType file.header.type ≠ .coreDump ∧ (coreInfo data source).1 =
        .error ⟨.core, source, .notCoreDump (.ofType file.header.type)⟩) ∨
      (FileKind.ofType file.header.type = .coreDump ∧
        ∃ info, (coreInfo data source).1 = .ok info)) := by
  cases hread : Elf.File.read data with
  | error cause => exact .inl ⟨cause, rfl, coreInfo_of_rejected hread source⟩
  | ok file =>
    have hcore := coreInfo_of_read hread source
    refine .inr ⟨file, rfl, ?_⟩
    by_cases hk : FileKind.ofType file.header.type = .coreDump
    · exact .inr ⟨hk, _, by rw [hcore, if_pos hk]⟩
    · exact .inl ⟨hk, by rw [hcore, if_neg hk]⟩

theorem coreInfo_notElf_iff (cause : Elf.OpenError) :
    (coreInfo data source).1 = .error ⟨.core, source, .notElf cause⟩ ↔
      Elf.File.read data = .error cause := by
  rcases coreInfo_cases data source with
    ⟨cause', hread, hcore⟩ | ⟨file, hread, ⟨-, hcore⟩ | ⟨-, info, hcore⟩⟩
  · simp [hcore, hread]
  · simp [hcore, hread]
  · simp [hcore, hread]

theorem coreInfo_notCoreDump_iff (kind : FileKind) :
    (coreInfo data source).1 = .error ⟨.core, source, .notCoreDump kind⟩ ↔
      ∃ file, Elf.File.read data = .ok file ∧ FileKind.ofType file.header.type = kind ∧
        kind ≠ .coreDump := by
  rcases coreInfo_cases data source with
    ⟨cause', hread, hcore⟩ | ⟨file, hread, ⟨hk, hcore⟩ | ⟨hk, info, hcore⟩⟩
  · simp [hcore, hread]
  · simp only [hcore, hread, Except.error.injEq, InputError.mk.injEq, InputFault.notCoreDump.injEq,
      Except.ok.injEq, true_and, exists_eq_left']
    exact ⟨fun h => ⟨h, h ▸ hk⟩, And.left⟩
  · simp only [hcore, hread, Except.ok.injEq, exists_eq_left', reduceCtorEq, false_iff, not_and,
      not_not]
    exact fun h => h ▸ hk

theorem coreInfo_ok_iff : (∃ info, (coreInfo data source).1 = .ok info) ↔
    ∃ file, Elf.File.read data = .ok file ∧ FileKind.ofType file.header.type = .coreDump := by
  rcases coreInfo_cases data source with
    ⟨cause', hread, hcore⟩ | ⟨file, hread, ⟨hk, hcore⟩ | ⟨hk, info, hcore⟩⟩
  · simp [hcore, hread]
  · simp [hcore, hread, hk]
  · simp [hcore, hread, hk]

/-- How the analyses of some data come out. -/
structure OutcomeLaws (data : Bytes) (source : Text) : Prop where
  /-- Without symbols an input is refused on opening it or not at all. -/
  refused : ∀ e, (elfInfo data false source).1 = .error e ↔
    ∃ cause, Elf.File.read data = .error cause ∧ e = ⟨.elf, source, .notElf cause⟩
  /-- Symbols do not change which inputs are refused, -/
  refusedAlike : (elfInfo data true source).1 ≠ .error ⟨.elf, source, .endless⟩ →
    ∀ e, (elfInfo data true source).1 = .error e ↔ (elfInfo data false source).1 = .error e
  /-- and only a walk without an end keeps them from being told. -/
  endless : (elfInfo data true source).1 = .error ⟨.elf, source, .endless⟩ ↔
    ∃ i, Inspection.ofBytes data .elf source = .ok i ∧
      (Inspection.extractSymbols.run (Inspection.facts.run i).2).1 = .error .endless
  factsAlike : ∀ bare full, (elfInfo data false source).1 = .ok bare →
    (elfInfo data true source).1 = .ok full →
    full.architecture = bare.architecture ∧ full.entryPoint = bare.entryPoint ∧
      full.sections = bare.sections ∧ full.fileType = bare.fileType ∧
      full.byteOrder = bare.byteOrder
  symbols : ∀ i : Inspection, (Inspection.extractSymbols.run i).1 ≠ .error .endless →
    ∃ symbols, (Inspection.extractSymbols.run i).1 = .ok symbols
  coreNotElf : ∀ cause, (coreInfo data source).1 = .error ⟨.core, source, .notElf cause⟩ ↔
    Elf.File.read data = .error cause
  coreNotCoreDump : ∀ kind, (coreInfo data source).1 = .error ⟨.core, source, .notCoreDump kind⟩ ↔
    ∃ file, Elf.File.read data = .ok file ∧ FileKind.ofType file.header.type = kind ∧
      kind ≠ .coreDump
  coreRead : (∃ info, (coreInfo data source).1 = .ok info) ↔
    ∃ file, Elf.File.read data = .ok file ∧ FileKind.ofType file.header.type = .coreDump

/-- An input is refused on opening it or not at all, a core dump also for its kind. Symbols change
neither that nor the facts, and only a walk without an end keeps them from being told. -/
theorem elfInfo_coreInfo_outcome (data : Bytes) (source : Text) : OutcomeLaws data source where
  refused _ := elfInfo_bare_error_iff
  refusedAlike := elfInfo_full_error_iff
  endless := elfInfo_endless_iff
  factsAlike _ _ hbare hfull := facts_of_elfInfo hbare hfull
  symbols i hi := by
    cases hs : (Inspection.extractSymbols.run i).1 with
    | ok symbols => exact ⟨symbols, rfl⟩
    | error e =>
      rw [hs, Inspection.extractSymbols_error hs] at hi
      exact absurd rfl hi
  coreNotElf := coreInfo_notElf_iff
  coreNotCoreDump := coreInfo_notCoreDump_iff
  coreRead := coreInfo_ok_iff

end Analysis

end ElfScope
