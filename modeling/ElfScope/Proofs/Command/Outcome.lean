import Mathlib
import ElfScope.Proofs.Analysis.Inputs
import ElfScope.Proofs.Command.Jobs

/-! # The outcome of the analysis command

What is left behind by a run: its code, its text, its files, and the place that it started from.
-/
namespace ElfScope

open World Analysis

/-! ### What is given out -/

namespace World

/-- A text was given out, to a file if there is one and else printed. No other file was written but
the log. -/
structure Emits (log output : Option Path) (content : Text) (w w' : World) : Prop where
  printed : w'.output = if output.isNone then w.output ++ (content ++ "\n") else w.output
  written : ∀ p ∈ output, w'.tree.node? p = some (.file (Utf8.encode content))
  others : ∀ p, log ≠ some p → output ≠ some p → w'.tree.node? p = w.tree.node? p

namespace Emits
variable {log output : Option Path} {content : Text} {w w' last : World}

theorem after_quiet (h : Quiet log w w') (hlast : Emits log output content w' last) :
    Emits log output content w last where
  printed := by rw [hlast.printed, h.output]
  written := hlast.written
  others p hlog hout := (hlast.others p hlog hout).trans (h.tree.others p hlog)

theorem then_quiet (h : Emits log output content w w') (hne : ∀ p ∈ output, log ≠ some p)
    (hlast : Quiet log w' last) : Emits log output content w last where
  printed := hlast.output.trans h.printed
  written p hp := (hlast.tree.others p (hne p hp)).trans (h.written p hp)
  others p hlog hout := (hlast.tree.others p hlog).trans (h.others p hlog hout)

theorem put {name : Text} {p : Path} (log : Option Path) (content : Text)
    (h : w.tree.target w.here name = .ok p) :
    Emits log (some p) content w { w with tree := w.tree.put p (.file (Utf8.encode content)) } := by
  have hroot : p ≠ [] := by
    rintro rfl
    exact (FileTree.target_eq_ok.mp h).2.2 rfl
  constructor
  · rfl
  · rintro _ ⟨⟩
    rw [FileTree.node?_put, if_pos ⟨rfl, hroot⟩]
  · intro q _ hq
    rw [FileTree.node?_put, if_neg fun h => hq (congrArg some h.1.symm)]

end Emits

end World

/-- How an analysis ends, by what comes of its inputs: the code, and what is left behind. -/
structure Command.Ends (log output : Option Path) (E : Option (Except InputError ElfInfo))
    (C : Option (Except InputError CoreInfo)) (w : World) (code : Nat) (w' : World) : Prop where
  complete : E.isSome ∨ C.isSome → Succeeds E → Succeeds C → code = 0 ∧
    Emits log output (AnalysisResult.render ⟨achieved E, achieved C⟩) w w'
  incomplete : ¬(Succeeds E ∧ Succeeds C) → (achieved E).isSome ∨ (achieved C).isSome → code = 1 ∧
    Emits log output (AnalysisResult.render ⟨achieved E, achieved C⟩) w w'
  nothing : achieved E = none → achieved C = none → code = 1 ∧ Quiet log w w'

namespace Command.Ends
variable {log output : Option Path} {E : Option (Except InputError ElfInfo)}
  {C : Option (Except InputError CoreInfo)} {w w' last : World} {code : Nat}

theorem after_quiet (h : Quiet log w w') (hlast : Ends log output E C w' code last) :
    Ends log output E C w code last where
  complete hsome hE hC := (hlast.complete hsome hE hC).imp_right (.after_quiet h)
  incomplete hne hsome := (hlast.incomplete hne hsome).imp_right (.after_quiet h)
  nothing hE hC := (hlast.nothing hE hC).imp_right h.trans

theorem then_quiet (h : Ends log output E C w code w') (hne : ∀ p ∈ output, log ≠ some p)
    (hlast : Quiet log w' last) : Ends log output E C w code last where
  complete hsome hE hC := (h.complete hsome hE hC).imp_right (·.then_quiet hne hlast)
  incomplete hfail hsome := (h.incomplete hfail hsome).imp_right (·.then_quiet hne hlast)
  nothing hE hC := (h.nothing hE hC).imp_right (·.trans hlast)

end Command.Ends

namespace Command
open Program (Job orFail run_bind_of_ok run_bind_of_error run_lift run_orFail_of_ok)
variable {r : Reporter (StateM World)} {a : Arguments} {w : World} {output : Option Path}

/-- A file that could be written can be written after reports. -/
theorem target_of_reported {log : Option Path} {name : Option Text} {w w' : World}
    (h : Reported log w w') (hout : name.map (w.tree.target w.here) = output.map .ok) :
    name.map (w'.tree.target w'.here) = output.map .ok := by
  rw [h.here]
  exact h.tree.map_target hout

theorem run_writeOutput (content : Text) {name : Option Text} (hlog : Loggable r.sink w)
    (hout : name.map (w.tree.target w.here) = output.map .ok) :
    ∃ w', (writeOutput r content name).run w = (.ok (), w') ∧ Emits r.sink output content w w' := by
  cases name with
  | none =>
    cases output with
    | some p => cases hout
    | none =>
      have hemits : Emits r.sink none content w { w with output := w.output ++ (content ++ "\n") } :=
        ⟨rfl, nofun, fun _ _ _ => rfl⟩
      exact ⟨_, rfl, hemits⟩
  | some name =>
    cases output with
    | none => cases hout
    | some p =>
      have htarget := Option.some.inj hout
      have htarget' {w' : World} (h : Reported r.sink w w') : w'.tree.target w'.here name = .ok p := by
        rw [h.here]
        exact h.tree.target htarget
      have hwrite {w' : World} (h : Reported r.sink w w') : (orFail name
          (Host.writeFile name (Utf8.encode content) : StateM World _)).run w' = (.ok (), { w' with
            tree := w'.tree.put p (.file (Utf8.encode content)) }) :=
        run_orFail_of_ok name (run_writeFile _ (htarget' h))
      have hisFile : (Host.isFile name : Job (StateM World) Bool).run w =
          (.ok (w.tree.readFile w.here name).toBool, w) := rfl
      unfold writeOutput
      simp only
      rw [run_bind_of_ok hisFile]
      cases (w.tree.readFile w.here name).toBool with
      | false =>
        exact ⟨_, hwrite (.refl _ w), .put _ _ htarget⟩
      | true =>
        have htell := Reporter.reported_tell [⟨.warning, logger, existsMessage name⟩] hlog
        have hemits := Emits.put r.sink content (htarget' htell)
        exact ⟨_, (run_bind_of_ok (run_lift _)).trans (hwrite htell),
          hemits.after_quiet htell.toQuiet⟩

/-- The code that a job comes to where errors are logged. An error leaves the log as one that can
be written. -/
def Settles (log : Option Path) (code : Nat) (outcome : Except Interruption Nat × World) : Prop :=
  outcome.1 = .ok code ∨
    code = 1 ∧ (∃ e, outcome.1 = .error (.failed e)) ∧ Loggable log outcome.2

theorem run_analyzeFiles_of_none (helf : a.value? elfOption = none)
    (hcore : a.value? coreOption = none) :
    (analyzeFiles r a).run w = (.error (.failed .nothingToAnalyze), w) := by
  unfold analyzeFiles
  simp only [helf, hcore, Option.isNone_none, Bool.and_self, if_true]
  exact run_bind_of_error rfl

section Given
variable (hgiven : ¬((a.value? elfOption).isNone && (a.value? coreOption).isNone) = true)
include hgiven

theorem run_analyzeFiles_of_ok {result : AnalysisResult} {w' : World}
    (h : ofFiles r.tell (a.value? elfOption) (a.value? coreOption) (!a.isOn noDwarfOption) w =
      (.ok result, w')) (hlog : Loggable r.sink w')
    (hout : (a.value? outputOption).map (w'.tree.target w'.here) = output.map .ok) :
    ∃ last, (analyzeFiles r a).run w = (.ok 0, last) ∧ Emits r.sink output result.render w' last := by
  obtain ⟨last, hrun, hemits⟩ := run_writeOutput result.render hlog hout
  have hrest : (analyzeFiles r a).run w = (.ok 0, last) := by
    unfold analyzeFiles
    simp only [if_neg hgiven]
    rw [run_bind_of_ok (run_lift _), h]
    exact run_bind_of_ok hrun
  exact ⟨last, hrest, hemits⟩

theorem run_analyzeFiles_of_inputs {failures : List InputError} {completed : AnalysisResult}
    {w' : World} (h : ofFiles r.tell (a.value? elfOption) (a.value? coreOption)
      (!a.isOn noDwarfOption) w = (.error (.inputs failures completed), w'))
    (hlog : Loggable r.sink w')
    (hout : (a.value? outputOption).map (w'.tree.target w'.here) = output.map .ok) :
    ∃ last, (analyzeFiles r a).run w = (.ok 1, last) ∧ (completed = {} → Quiet r.sink w' last) ∧
      (completed ≠ {} → Emits r.sink output completed.render w' last) := by
  have htell := Reporter.reported_tell (failures.map fun e => ⟨.error, logger, e.message⟩) hlog
  by_cases hcompleted : completed = {}
  · refine ⟨_, ?_, fun _ => htell.toQuiet, fun hne => absurd hcompleted hne⟩
    unfold analyzeFiles
    simp only [if_neg hgiven]
    rw [run_bind_of_ok (run_lift _), h]
    simp only [hcompleted, ne_eq, not_true_eq_false, if_false]
    exact run_bind_of_ok (run_lift _)
  · have hout' : (a.value? outputOption).map
        ((r.tell (failures.map fun e => ⟨.error, logger, e.message⟩) w').2.tree.target
          (r.tell (failures.map fun e => ⟨.error, logger, e.message⟩) w').2.here) =
        output.map .ok := target_of_reported htell hout
    obtain ⟨last, hrun, hemits⟩ := run_writeOutput completed.render
      (htell.toQuiet.loggable hlog) hout'
    refine ⟨last, ?_, fun he => absurd he hcompleted, fun _ => .after_quiet htell.toQuiet hemits⟩
    unfold analyzeFiles
    simp only [if_neg hgiven]
    rw [run_bind_of_ok (run_lift _), h]
    simp only [hcompleted, ne_eq, not_false_eq_true, if_true]
    rw [run_bind_of_ok (run_lift _)]
    exact run_bind_of_ok hrun

theorem run_analyzeFiles_of_name {e : FileError} {w' : World}
    (h : ofFiles r.tell (a.value? elfOption) (a.value? coreOption) (!a.isOn noDwarfOption) w =
      (.error (.name e), w')) :
    (analyzeFiles r a).run w = (.error (.failed (.file [] e)), w') := by
  unfold analyzeFiles
  simp only [if_neg hgiven]
  rw [run_bind_of_ok (run_lift _), h]
  rfl

end Given

/-! ### The analysis -/

theorem isSome_achieved {α : Type} {outcome : Option (Except InputError α)} (h : Succeeds outcome) :
    (achieved outcome).isSome = outcome.isSome := by
  rcases outcome with _ | e | a
  · rfl
  · exact absurd rfl (h e)
  · rfl

theorem completed_ne {elf : Option ElfInfo} {core : Option CoreInfo}
    (h : elf.isSome ∨ core.isSome) : (⟨elf, core⟩ : AnalysisResult) ≠ {} := by
  intro he
  cases he
  rcases h with h | h <;> cases h

/-- What is left behind once the inputs came to `E` and `C`. -/
theorem ends_analyzeFiles {E : Option (Except InputError ElfInfo)}
    {C : Option (Except InputError CoreInfo)} {w' : World}
    (hgiven : ¬((a.value? elfOption).isNone && (a.value? coreOption).isNone) = true)
    (hsome : E.isSome ∨ C.isSome) (hw : Reported r.sink w w')
    (hrun : ofFiles r.tell (a.value? elfOption) (a.value? coreOption) (!a.isOn noDwarfOption) w =
      (combine E C, w'))
    (hlog : Loggable r.sink w)
    (hout : (a.value? outputOption).map (w.tree.target w.here) = output.map .ok) :
    ∃ code, Settles r.sink code ((analyzeFiles r a).run w) ∧
      Ends r.sink output E C w code ((analyzeFiles r a).run w).2 := by
  have hlog' := hw.toQuiet.loggable hlog
  have hout' := target_of_reported hw hout
  have htogether := together_combine E C
  by_cases hs : Succeeds E ∧ Succeeds C
  · rw [htogether.success hs.1 hs.2] at hrun
    obtain ⟨last, hlast, hemits⟩ := run_analyzeFiles_of_ok hgiven hrun hlog' hout'
    rw [hlast]
    refine ⟨0, .inl rfl, ?_, ?_, ?_⟩
    · exact fun _ _ _ => ⟨rfl, hemits.after_quiet hw.toQuiet⟩
    · exact fun hfail => absurd hs hfail
    · intro hE hC
      rw [← isSome_achieved hs.1, ← isSome_achieved hs.2, hE, hC] at hsome
      rcases hsome with h | h <;> cases h
  · -- What could be analyzed is given out only if there is any.
    rw [htogether.failure hs] at hrun
    obtain ⟨last, hlast, hquiet, hemits⟩ := run_analyzeFiles_of_inputs hgiven hrun hlog' hout'
    rw [hlast]
    refine ⟨1, .inl rfl, ?_, ?_, ?_⟩
    · exact fun _ hE hC => absurd ⟨hE, hC⟩ hs
    · exact fun _ hsome => ⟨rfl, .after_quiet hw.toQuiet (hemits (completed_ne hsome))⟩
    · intro hE hC
      rw [hE, hC] at hquiet
      exact ⟨rfl, hw.toQuiet.trans (hquiet rfl)⟩

/-- What comes of the inputs that arguments name, by what is found at each name. -/
def elfOf (a : Arguments) (look : Text → Except FileError Bytes) :
    Option (Except InputError ElfInfo) :=
  (a.value? elfOption).map fun p => elfOutcome (!a.isOn noDwarfOption) p (look p)

def coreOf (a : Arguments) (look : Text → Except FileError Bytes) :
    Option (Except InputError CoreInfo) :=
  (a.value? coreOption).map fun p => coreOutcome p (look p)

theorem not_refused_of_checkName {t : FileTree} {here : Path} {path : Option Text}
    (h : ∀ p ∈ path, Path.checkName p = .ok ()) :
    ∀ p ∈ path, ∀ e, ¬Refused (t.readFile here p) e := by
  rintro p hp e ⟨he, hsystem⟩
  have hsome := FileTree.isSome_system?_of_readFile (h p hp) he
  rw [hsystem] at hsome
  cases hsome

/-- The steps of an analysis of files, in the worlds that they go through. -/
theorem run_ofFiles_reported (r : Reporter (StateM World)) (elf core : Option Text) (withDwarf : Bool)
    (hlog : Loggable r.sink w) :
    ∃ w₁ w₂, Reported r.sink w w₁ ∧ Reported r.sink w w₂ ∧
      ((∀ p ∈ elf, Path.checkName p = .ok ()) → (∀ p ∈ core, Path.checkName p = .ok ()) →
        ofFiles r.tell elf core withDwarf w =
          (combine (elf.map fun p => elfOutcome withDwarf p (w.tree.readFile w.here p))
            (core.map fun p => coreOutcome p (w₁.tree.readFile w.here p)), w₂)) ∧
      ∀ p, p ∈ elf ∨ p ∈ core → ∀ e, Path.checkName p = .error e →
        ∃ e', (ofFiles r.tell elf core withDwarf w).1 = .error (.name e') ∧
          Reported r.sink w (ofFiles r.tell elf core withDwarf w).2 := by
  have hread (name : Text) (st : World) : (Host.readFile name : StateM World _) st =
      (st.tree.readFile st.here name, st) := rfl
  obtain ⟨w₁, w₂, h₁, h₂, hrun, hrefused, hrefused'⟩ := run_ofFiles_steps
    (R := fun st st' => Loggable r.sink st → Reported r.sink st st') hread
    (fun log _ h => Reporter.reported_tell log h) (fun st _ => .refl _ st) elf core withDwarf w
  have hfirst := h₁ hlog
  have hsecond := hfirst.trans (h₂ (hfirst.toQuiet.loggable hlog))
  refine ⟨w₁, w₂, hfirst, hsecond, ?_, ?_⟩
  · intro helf hcore
    have h := hrun (not_refused_of_checkName helf) (not_refused_of_checkName hcore)
    rwa [hfirst.here] at h
  · intro p hp e he
    -- The first input decides, as the second one is not looked at after it was refused.
    by_cases helf : ∃ q ∈ elf, ∃ e, Path.checkName q = .error e
    · obtain ⟨q, hq, e', he'⟩ := helf
      rw [hrefused q hq e' (FileTree.readFile_of_checkName he')]
      exact ⟨e', rfl, hfirst⟩
    · have hnamed : ∀ q ∈ elf, Path.checkName q = .ok () := by
        intro q hq
        cases hname : Path.checkName q with
        | ok _ => rfl
        | error e' => exact absurd ⟨q, hq, e', hname⟩ helf
      have hcore : p ∈ core := hp.resolve_left fun h => helf ⟨p, h, e, he⟩
      rw [hrefused' (not_refused_of_checkName hnamed) p hcore e (FileTree.readFile_of_checkName he)]
      exact ⟨e, rfl, hsecond⟩

theorem run_analyzeFiles (hlog : Loggable r.sink w)
    (hout : (a.value? outputOption).map (w.tree.target w.here) = output.map .ok)
    (helf : ∀ p ∈ a.value? elfOption, Path.checkName p = .ok ())
    (hcore : ∀ p ∈ a.value? coreOption, Path.checkName p = .ok ()) :
    ∃ t code, w.tree.Grows r.sink t ∧ Settles r.sink code ((analyzeFiles r a).run w) ∧
      Ends r.sink output (elfOf a (w.tree.readFile w.here)) (coreOf a (t.readFile w.here)) w code
        ((analyzeFiles r a).run w).2 := by
  by_cases hgiven : ((a.value? elfOption).isNone && (a.value? coreOption).isNone) = true
  · rw [Bool.and_eq_true, Option.isNone_iff_eq_none, Option.isNone_iff_eq_none] at hgiven
    rw [run_analyzeFiles_of_none hgiven.1 hgiven.2]
    unfold elfOf coreOf
    rw [hgiven.1, hgiven.2]
    refine ⟨w.tree, 1, .refl _ _, .inr ⟨rfl, ⟨_, rfl⟩, hlog⟩, ?_, ?_, ?_⟩
    · rintro (h | h) <;> cases h
    · exact fun h => absurd ⟨nofun, nofun⟩ h
    · exact fun _ _ => ⟨rfl, .refl _ _⟩
  · obtain ⟨w₁, w₂, h₁, h₂, hrun, -⟩ := run_ofFiles_reported r (a.value? elfOption)
      (a.value? coreOption) (!a.isOn noDwarfOption) hlog
    have hsome : (elfOf a (w.tree.readFile w.here)).isSome ∨
        (coreOf a (w₁.tree.readFile w.here)).isSome := by
      unfold elfOf coreOf
      rw [Option.isSome_map, Option.isSome_map, ← Bool.or_eq_true, ← Option.not_isNone,
        ← Option.not_isNone, ← Bool.not_and, Bool.not_eq_true']
      exact Bool.eq_false_of_not_eq_true hgiven
    obtain ⟨code, hcode⟩ := ends_analyzeFiles hgiven hsome h₂ (hrun helf hcore) hlog hout
    exact ⟨w₁.tree, code, h₁.tree, hcode⟩

/-- A name that is none leaves nothing behind, whatever comes of the other input. -/
theorem run_analyzeFiles_refused {p : Text} {e : FileError} (hlog : Loggable r.sink w)
    (hp : p ∈ a.value? elfOption ∨ p ∈ a.value? coreOption) (he : Path.checkName p = .error e) :
    Settles r.sink 1 ((analyzeFiles r a).run w) ∧ Quiet r.sink w ((analyzeFiles r a).run w).2 := by
  have hgiven : ¬((a.value? elfOption).isNone && (a.value? coreOption).isNone) = true := by
    intro h
    rw [Bool.and_eq_true, Option.isNone_iff_eq_none, Option.isNone_iff_eq_none] at h
    rw [h.1, h.2] at hp
    rcases hp with hp | hp <;> cases hp
  obtain ⟨w₁, w₂, -, -, -, hrefused⟩ := run_ofFiles_reported r (a.value? elfOption)
    (a.value? coreOption) (!a.isOn noDwarfOption) hlog
  obtain ⟨e', he', hquiet⟩ := hrefused p hp e he
  rw [run_analyzeFiles_of_name hgiven (Prod.ext he' rfl)]
  exact ⟨.inr ⟨rfl, ⟨_, rfl⟩, hquiet.toQuiet.loggable hlog⟩, hquiet.toQuiet⟩

end Command

end ElfScope
