import Mathlib
import ElfScope.Proofs.Dwarf.Concatenation
import ElfScope.Proofs.Dwarf.Provenance

/-! # What a walk reports

The header of every unit that is walked has a supported version, so no walk ever tells of a version.
It tells of the entries of its units, of a header that cannot be decoded, and of what was found.
-/
namespace ElfScope.Dwarf

/-- What is told of a version that is not supported. -/
def versionReport (version : Int) : LogRecord :=
  ⟨.warning, Walk.walkerLogger,
    "DWARF format version " ++ Text.ofInt version ++ " is not supported, output may be incomplete"⟩

/-- What is told of a header that cannot be decoded. -/
def headerReport : LogRecord :=
  ⟨.warning, Walk.walkerLogger, "Cannot decode a compile unit header. Stopping the enumeration"⟩

theorem UnitReport.ne_versionReport {r : LogRecord} (h : UnitReport r) (version : Int) :
    r ≠ versionReport version := by
  intro heq
  have hmessage := congrArg (fun r => r.message.take 1) heq
  cases h with
  | entry message => cases congrArg LogRecord.level heq
  | skipped logger rest => cases hmessage
  | cutShort offset => cases hmessage

theorem UnitReport.ne_headerReport {r : LogRecord} (h : UnitReport r) : r ≠ headerReport := by
  intro heq
  have hmessage := congrArg (fun r => r.message.take 15) heq
  cases h with
  | entry message => cases congrArg LogRecord.level heq
  | skipped logger rest => cases hmessage
  | cutShort offset => cases hmessage

namespace Walk

/-- Nothing but units is told of so far. -/
def TellsOfUnits (desk : Desk) : Prop := ∀ r ∈ desk.log, UnitReport r

theorem unitInvariant_tellsOfUnits : UnitInvariant TellsOfUnits fun _ => True where
  remember h _ _ := h
  report h r hr := List.forall_mem_append.mpr ⟨h, by simpa using hr⟩
  made _ _ := trivial
  cached _ _ _ := trivial
  cache h _ _ _ := h
  addFunction h _ _ := h
  addGlobal h _ _ := h
  addType h _ _ := h

/-- A supported version is not told of. -/
theorem keeps_checkVersion {P : Desk → Prop} {E : Failure → Prop} {version : Int}
    (h : 2 ≤ version ∧ version ≤ 5) : Keeps P (checkVersion version) (fun _ => True) E :=
  keeps_get.bind fun _ _ => Keeps.ite (fun hc => absurd h hc.1) fun _ => keeps_pure trivial

/-- What is told of the symbols that were found. -/
def summaryReport (found : Symbols) : LogRecord :=
  ⟨.debug, walkerLogger, "Found " ++ Text.ofNat found.functions.length ++ " functions, " ++
    Text.ofNat found.globals.length ++ " variables and " ++ Text.ofNat found.types.length ++
      " types"⟩

/-- After the units a walk tells of a header that cannot be decoded, and of what was found. -/
theorem outcome_run_of_forM {s : DebugSections} {us : List CompileUnit} {broken : Bool} {desk : Desk}
    (hlist : CompileUnit.list s = (us, broken))
    (hrun : outcome (us.forM (walkUnit s)) {} = (.ok (), desk)) :
    outcome (run (some s)) {} = (.ok desk.found, { desk with
      log := desk.log ++ (if broken then [headerReport] else []) ++ [summaryReport desk.found] }) := by
  have hreset : outcome (run (some s)) {} = outcome (runUnits s) {} := rfl
  have hunits : runUnits s = us.forM (walkUnit s) >>= fun _ =>
      reportHeader broken >>= fun _ => summarize := by
    rw [runUnits, hlist]
  rw [hreset, hunits, outcome_bind, hrun]
  cases broken with
  | true => rfl
  | false =>
    rw [if_neg (by simp), List.append_nil]
    rfl

theorem outcome_run_of_forM_error {s : DebugSections} {us : List CompileUnit} {broken : Bool}
    {desk : Desk} {e : Failure} (hlist : CompileUnit.list s = (us, broken))
    (hrun : outcome (us.forM (walkUnit s)) {} = (.error e, desk)) :
    outcome (run (some s)) {} = (.error e, desk) := by
  have hreset : outcome (run (some s)) {} = outcome (runUnits s) {} := rfl
  rw [hreset, runUnits, hlist]
  simp only
  rw [outcome_bind, hrun]

theorem log_forM {s : DebugSections} {us : List CompileUnit}
    (hus : ∀ u ∈ us, 2 ≤ u.encoding.version ∧ u.encoding.version ≤ 5) :
    TellsOfUnits (outcome (us.forM (walkUnit s)) {}).2 := by
  have hversion (u : CompileUnit) (hu : u ∈ us) : 2 ≤ (u.encoding.version : Int) ∧
      (u.encoding.version : Int) ≤ 5 := by
    have h := hus u hu
    omega
  have hkeeps : Keeps TellsOfUnits (us.forM (walkUnit s)) (fun _ => True) (· = .endless) :=
    keeps_forM fun u hu =>
      keeps_walkUnit unitInvariant_tellsOfUnits s u (keeps_checkVersion (hversion u hu))
  exact hkeeps.stays {} (by simp [TellsOfUnits])

end Walk

end ElfScope.Dwarf
