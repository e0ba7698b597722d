import Mathlib
import ElfScope.Proofs.Command.Outcome

/-! # Calls of the program

A call of the analysis ends as its inputs do, and any call ends where it started.
-/
namespace ElfScope

open World

/-! ### Words -/

namespace CommandForm
variable {f : CommandForm} {a b : Arguments} {t : Text}

theorem word_give {o : OptionForm} {choices : List Text} {value : Text}
    (h : give a o choices value = .ok b) : b.word = a.word := by
  unfold give at h
  split_ifs at h
  cases h
  rfl

theorem word_collect_give {o : OptionForm} {choices : List Text} {value : Text} {tokens : List Token}
    (ih : ∀ c, f.collect tokens c = .ok b → c.word = some t → b.word = some t)
    (h : (give a o choices value >>= f.collect tokens) = .ok b) (ha : a.word = some t) :
    b.word = some t := by
  cases hgive : give a o choices value with
  | error e =>
    rw [hgive] at h
    cases h
  | ok c =>
    rw [hgive] at h
    exact ih c h ((word_give hgive).trans ha)

/-- Once the word that is wanted was found, it stays. -/
theorem word_collect {tokens : List Token} (h : f.collect tokens a = .ok b) (ha : a.word = some t) :
    b.word = some t := by
  have hwants {c : Arguments} (hc : c.word = some t) : ¬f.wants c = true := by
    simp [wants, hc]
  -- No later word is wanted, so the cases that take one as the word do not arise.
  fun_induction collect f tokens a with
  | case1 =>
    cases h
    exact ha
  | case2 _ _ _ hw | case5 _ _ _ hw => exact absurd hw (hwants ha)
  | case3 _ _ _ _ ih | case6 _ _ _ _ ih | case7 _ _ _ ih | case8 _ _ _ ih | case11 _ _ _ ih =>
    exact ih h ha
  | case4 _ _ _ _ ih =>
    rw [if_neg (hwants ha)] at h ih
    exact ih h ha
  | case13 _ _ _ _ _ ih | case14 _ _ _ _ _ ih => exact word_collect_give ih h ha
  | case9 | case10 | case12 | case15 => cases h

theorem word_collect_first {tokens : List Token} (hwants : f.wants a = true)
    (h : f.collect (.word t :: tokens) a = .ok b) : b.word = some t := by
  by_cases hseparator : ∃ rest, tokens = .separator :: rest
  · obtain ⟨rest, rfl⟩ := hseparator
    rw [collect, if_pos hwants] at h
    exact word_collect h rfl
  · rw [collect, if_pos hwants] at h
    · exact word_collect h rfl
    · exact fun rest hrest => hseparator ⟨rest, hrest⟩

/-- A word in front is the word that is wanted. -/
theorem word_parseKnown {arguments : List Text} (hword : f.word.isSome)
    (ht : t.head? ≠ some dash) (h : f.parseKnown (t :: arguments) = .ok b) : b.word = some t := by
  have hseparator : t ≠ separator := by
    rintro rfl
    exact ht rfl
  have htokens : f.tokens (t :: arguments) = (f.tokens arguments).map (.word t :: ·) := by
    rw [tokens, if_neg hseparator, classify, if_pos ht]
    cases f.tokens arguments <;> rfl
  have hwants : f.wants {} = true := by
    rw [wants, hword]
    rfl
  unfold parseKnown at h
  rw [htokens] at h
  cases hrest : f.tokens arguments with
  | error e =>
    rw [hrest] at h
    cases h
  | ok rest =>
    rw [hrest] at h
    cases hcollect : f.collect (.word t :: rest) {} with
    | error e =>
      simp only [Except.map, Except.mapError, bind, Except.bind, hcollect] at h
      cases h
    | ok c =>
      have hc := word_collect_first hwants hcollect
      obtain ⟨wanted, hwanted⟩ := Option.isSome_iff_exists.mp hword
      simp only [Except.map, Except.mapError, bind, Except.bind, hcollect, hwanted, hc] at h
      cases h
      exact hc

end CommandForm

/-! ### Places -/

namespace Program
variable {s : Settings} {c : Command} {a : Arguments} {arguments : List Text} {w w' : World}
  {r : Reporter (StateM World)}

/-- The level that is asked for, or else the one of the settings. -/
def levelOf (s : Settings) (a : Arguments) : Text :=
  ((a.value? levelOption).filter (!·.isEmpty)).getD s.level

/-- A command in the working directory. -/
def working (s : Settings) (c : Command) (r : Reporter (StateM World)) (rest : List Text) :
    Job (StateM World) Nat := do
  orFail s.workingDirectory (Host.enter s.workingDirectory : StateM World _)
  c.carryOut r rest

/-- The rest of a call once its log is there or could not be set up. -/
def afterOpening (s : Settings) (c : Command) (a : Arguments) (arguments : List Text) (before : Path) :
    Except Interruption (Reporter (StateM World)) → StateM World Ending
  | .error e => runCommand.finish s arguments before none e
  | .ok r => do
    match ← (working s c r a.rest).run with
    | .error e => runCommand.finish s arguments before (some r) e
    | .ok code =>
      Host.goBack (m := StateM World) before
      return ⟨.ok code, true⟩

theorem runCommand_eq : (runCommand s c a arguments : StateM World Ending) w =
    afterOpening s c a arguments w.here
      ((openReporter (levelOf s a) a : Job (StateM World) _).run w).1
      ((openReporter (levelOf s a) a : Job (StateM World) _).run w).2 := by
  have hplace : (Host.place : StateM World _) w = (w.here, w) := rfl
  unfold runCommand levelOf
  rw [Analysis.run_bind, hplace]
  -- An empty name of a level counts as none.
  generalize a.value? levelOption = level
  rcases level with _ | _ | ⟨first, level⟩
  · simp only [Option.filter_none, Option.getD_none]
    rw [Analysis.run_bind]
    cases ((openReporter s.level a : Job (StateM World) _).run w).1 <;> rfl
  · simp only [Option.filter_some, List.isEmpty_nil, Bool.not_true, Bool.false_eq_true, if_false,
      Option.getD_none]
    rw [Analysis.run_bind]
    cases ((openReporter s.level a : Job (StateM World) _).run w).1 <;> rfl
  · simp only [Option.filter_some, List.isEmpty_cons, Bool.not_false, if_true, Option.getD_some]
    rw [Analysis.run_bind]
    cases ((openReporter (first :: level) a : Job (StateM World) _).run w).1 <;> rfl

theorem here_finish (before : Path) (r : Option (Reporter (StateM World))) (e : Interruption) :
    ((runCommand.finish s arguments before r e : StateM World Ending) w).2.here = before := by
  unfold runCommand.finish
  cases e with
  | exit code => rfl
  | failed cause =>
    simp only
    split_ifs <;> rfl

theorem here_afterOpening (before : Path) (opened : Except Interruption (Reporter (StateM World))) :
    (afterOpening s c a arguments before opened w).2.here = before := by
  cases opened with
  | error e => exact here_finish before none e
  | ok r =>
    unfold afterOpening
    simp only
    rw [Analysis.run_bind]
    cases ((working s c r a.rest).run w).1 with
    | error e => exact here_finish before (some r) e
    | ok code => rfl

/-- What comes of a call in a world. -/
def inWorld (s : Settings) (arguments : List Text) (w : World) : Ending × World :=
  (run s arguments : StateM World Ending) w

/-- Every call ends where it started. -/
theorem here_inWorld (s : Settings) (arguments : List Text) (w : World) :
    (inWorld s arguments w).2.here = w.here := by
  unfold inWorld run
  by_cases hhelp : arguments.head? = some (Text.ofString "-h") ∨
      arguments.head? = some (Text.ofString "--help")
  · rw [if_pos hhelp]
    rfl
  · rw [if_neg hhelp, Analysis.run_bind]
    have hunderstand : ((understand form usage help (form.parseKnown arguments) :
        Job (StateM World) _).run w).2.here = w.here := here_understand
    cases ((understand form usage help (form.parseKnown arguments) :
        Job (StateM World) _).run w).1 with
    | error e => exact hunderstand
    | ok a =>
      simp only
      cases Command.ofName? (a.word.getD []) with
      | some c =>
        simp only
        rw [runCommand_eq, here_afterOpening]
        exact hunderstand
      | none =>
        simp only
        split_ifs
        · exact hunderstand
        · exact hunderstand

/-! ### Calls of the analysis -/

/-- A call of the analysis that is understood. Its working directory is there, and its log and its
output can be written and are not the same file. -/
structure AnalysisCall (s : Settings) (rest : List Text) (w : World) where
  outer : Arguments
  inner : Arguments
  settings : LogSettings
  directory : Path
  log : Option Path
  output : Option Path
  outer_parsed : form.parseKnown (Command.analyze.name :: rest) = .ok outer
  inner_parsed : Command.analyze.form.parse outer.rest = .ok inner
  level_known :
    LogSettings.configure? (levelOf s outer) (outer.value? disableOption) = some settings
  directory_there : w.tree.directory w.here s.workingDirectory = .ok directory
  log_writable : (logName outer).map (fun name => w.tree.target w.here (Path.absolute w.here name)) =
    log.map .ok
  output_writable : (inner.value? Command.outputOption).map (w.tree.target directory) =
    output.map .ok
  apart : ∀ p ∈ output, log ≠ some p

theorem reported_reportError (arguments : List Text) (e : CommandError) (h : Loggable r.sink w) :
    Reported r.sink w ((reportError (some r) arguments e : StateM World Unit) w).2 :=
  Reporter.reported_tell _ h

theorem afterOpening_of_settles {code : Nat} {before : Path} (hstrict : s.strict = false)
    (h : Command.Settles r.sink code ((working s c r a.rest).run w)) :
    (afterOpening s c a arguments before (.ok r) w).1.result = .ok code ∧
      Quiet r.sink ((working s c r a.rest).run w).2
        (afterOpening s c a arguments before (.ok r) w).2 := by
  unfold afterOpening
  simp only
  rw [Analysis.run_bind]
  generalize (working s c r a.rest).run w = outcome at h ⊢
  obtain ⟨result, last⟩ := outcome
  rcases h with h | ⟨rfl, ⟨e, h⟩, hlog⟩
  · simp only at h
    rw [h]
    exact ⟨rfl, .refl _ _, rfl⟩
  · simp only at h
    rw [h]
    unfold runCommand.finish
    simp only [hstrict, Bool.false_eq_true, if_false]
    have hreport := reported_reportError arguments e hlog
    exact ⟨rfl, hreport.tree, hreport.output⟩

namespace AnalysisCall
variable {rest : List Text} (call : AnalysisCall s rest w)

def reporter : Reporter (StateM World) := ⟨call.settings, call.log⟩

theorem inWorld_eq : inWorld s (Command.analyze.name :: rest) w =
    (runCommand s .analyze call.outer (Command.analyze.name :: rest) : StateM World Ending) w := by
  have hword : call.outer.word = some Command.analyze.name :=
    CommandForm.word_parseKnown rfl (by decide +kernel) call.outer_parsed
  have hname : Command.ofName? Command.analyze.name = some .analyze := by decide +kernel
  have hunderstand : ((understand form usage help
      (form.parseKnown (Command.analyze.name :: rest)) : Job (StateM World) _).run) w =
        (.ok call.outer, w) := by
    rw [call.outer_parsed]
    rfl
  have hhelp : ¬((Command.analyze.name :: rest).head? = some (Text.ofString "-h") ∨
      (Command.analyze.name :: rest).head? = some (Text.ofString "--help")) := by
    rw [List.head?_cons]
    decide +kernel
  unfold inWorld run
  rw [if_neg hhelp, Analysis.run_bind, hunderstand]
  simp only [hword, Option.getD_some, hname]

/-- In the working directory the inputs are analyzed. -/
theorem run_working (h : Reported call.log w w') :
    (working s .analyze call.reporter call.outer.rest).run w' =
      (Command.analyzeFiles call.reporter call.inner).run { w' with here := call.directory } := by
  have hdirectory : w'.tree.directory w'.here s.workingDirectory = .ok call.directory := by
    rw [h.here]
    exact h.tree.directory call.directory_there
  unfold working
  rw [run_bind_of_ok (run_orFail_of_ok _ (run_enter hdirectory))]
  unfold Command.carryOut
  rw [call.inner_parsed]
  exact run_bind_of_ok rfl

/-- Once the log is there, the inputs are analyzed in the working directory, and what they come to is
what the call comes to. -/
theorem exists_entered (hstrict : s.strict = false) :
    ∃ entered, Quiet call.log w entered ∧ entered.here = call.directory ∧
      Loggable call.log entered ∧ ∀ code,
        Command.Settles call.log code ((Command.analyzeFiles call.reporter call.inner).run entered) →
          (inWorld s (Command.analyze.name :: rest) w).1.result = .ok code ∧
          Quiet call.log ((Command.analyzeFiles call.reporter call.inner).run entered).2
            (inWorld s (Command.analyze.name :: rest) w).2 := by
  obtain ⟨opened, hopen, hreported, hlog⟩ := run_openReporter call.level_known call.log_writable
  refine ⟨{ opened with here := call.directory }, ⟨hreported.tree, hreported.output⟩, rfl, hlog, ?_⟩
  intro code hcode
  rw [call.inWorld_eq, runCommand_eq, hopen]
  rw [← call.run_working hreported] at hcode ⊢
  exact afterOpening_of_settles hstrict hcode

/-- The inputs decide on the code, and on what is given out. -/
theorem run_of_named (hstrict : s.strict = false)
    (helf : ∀ p ∈ call.inner.value? Command.elfOption, Path.checkName p = .ok ())
    (hcore : ∀ p ∈ call.inner.value? Command.coreOption, Path.checkName p = .ok ()) :
    ∃ tE tC code, w.tree.Grows call.log tE ∧ tE.Grows call.log tC ∧
      (inWorld s (Command.analyze.name :: rest) w).1.result = .ok code ∧
      Command.Ends call.log call.output (Command.elfOf call.inner (tE.readFile call.directory))
        (Command.coreOf call.inner (tC.readFile call.directory)) w code
        (inWorld s (Command.analyze.name :: rest) w).2 := by
  obtain ⟨entered, hquiet, hhere, hlog, hsettles⟩ := call.exists_entered hstrict
  have hout : (call.inner.value? Command.outputOption).map (entered.tree.target entered.here) =
      call.output.map .ok := by
    rw [hhere]
    exact hquiet.tree.map_target call.output_writable
  obtain ⟨tC, code, hgrows, hcode, hends⟩ :=
    Command.run_analyzeFiles (r := call.reporter) hlog hout helf hcore
  obtain ⟨hresult, hlast⟩ := hsettles code hcode
  rw [hhere] at hends
  exact ⟨entered.tree, tC, code, hquiet.tree, hgrows, hresult,
    (hends.after_quiet hquiet).then_quiet call.apart hlast⟩

/-- A name that is none ends the analysis of the other input with its own. -/
theorem run_of_refused (hstrict : s.strict = false) {p : Text} {e : FileError}
    (hp : p ∈ call.inner.value? Command.elfOption ∨ p ∈ call.inner.value? Command.coreOption)
    (he : Path.checkName p = .error e) :
    (inWorld s (Command.analyze.name :: rest) w).1.result = .ok 1 ∧
      Quiet call.log w (inWorld s (Command.analyze.name :: rest) w).2 := by
  obtain ⟨entered, hquiet, -, hlog, hsettles⟩ := call.exists_entered hstrict
  obtain ⟨hcode, hanalysis⟩ :=
    Command.run_analyzeFiles_refused (r := call.reporter) hlog hp he
  obtain ⟨hresult, hlast⟩ := hsettles 1 hcode
  exact ⟨hresult, hquiet.trans (hanalysis.trans hlast)⟩

end AnalysisCall

/-- A call of the analysis ends as its inputs do. They are read once the log is there, and nothing but
the log was written by then. Names that are none end it with an error and leave nothing behind. Any call
at all ends where it started. -/
theorem analysis_outcome (s : Settings) (w : World) :
    (∀ arguments, (inWorld s arguments w).2.here = w.here) ∧
      ∀ rest (call : AnalysisCall s rest w), s.strict = false →
        ((∀ p ∈ call.inner.value? Command.elfOption, Path.checkName p = .ok ()) →
          (∀ p ∈ call.inner.value? Command.coreOption, Path.checkName p = .ok ()) →
          ∃ tE tC code, w.tree.Grows call.log tE ∧ tE.Grows call.log tC ∧
            (∀ name p, w.tree.resolve call.directory name = .ok p → call.log ≠ some p →
              tE.readFile call.directory name = w.tree.readFile call.directory name ∧
              tC.readFile call.directory name = w.tree.readFile call.directory name) ∧
            (inWorld s (Command.analyze.name :: rest) w).1.result = .ok code ∧
            Command.Ends call.log call.output
              (Command.elfOf call.inner (tE.readFile call.directory))
              (Command.coreOf call.inner (tC.readFile call.directory)) w code
              (inWorld s (Command.analyze.name :: rest) w).2) ∧
        ∀ p e, p ∈ call.inner.value? Command.elfOption ∨ p ∈ call.inner.value? Command.coreOption →
          Path.checkName p = .error e →
            (inWorld s (Command.analyze.name :: rest) w).1.result = .ok 1 ∧
            Quiet call.log w (inWorld s (Command.analyze.name :: rest) w).2 := by
  constructor
  · exact fun arguments => here_inWorld s arguments w
  · intro rest call hstrict
    constructor
    · intro helf hcore
      obtain ⟨tE, tC, code, hE, hC, hends⟩ := call.run_of_named hstrict helf hcore
      refine ⟨tE, tC, code, hE, hC, ?_, hends⟩
      intro name p hp hlog
      exact ⟨hE.readFile hp hlog, (hE.trans hC).readFile hp hlog⟩
    · exact fun p e => call.run_of_refused hstrict

/-- One input is not there. The other one is written to a file, and the log is kept. -/
def partialArguments : List Text :=
  ["--elf", "b", "--core", "a.core", "--output", "o.json", "--logfile", "x.log"]

def partialCall : AnalysisCall {} partialArguments Analysis.bareWorld where
  outer :=
    { values := [("--logfile", "x.log")]
      word := some "analyze"
      rest := ["--elf", "b", "--core", "a.core", "--output", "o.json"] }
  inner := { values := [("--output", "o.json"), ("--core", "a.core"), ("--elf", "b")] }
  settings := ⟨.warning, []⟩
  directory := []
  log := some ["x.log"]
  output := some ["o.json"]
  outer_parsed := by decide +kernel
  inner_parsed := by decide +kernel
  level_known := by decide +kernel
  directory_there := by decide +kernel
  log_writable := by decide +kernel
  output_writable := by decide +kernel
  apart := by decide +kernel

theorem analysis_outcome_partial :
    (inWorld {} (Command.analyze.name :: partialArguments) Analysis.bareWorld).1.result = .ok 1 ∧
      Emits (some ["x.log"]) (some ["o.json"]) (AnalysisResult.render ⟨none, some Analysis.bareInfo⟩)
        Analysis.bareWorld
        (inWorld {} (Command.analyze.name :: partialArguments) Analysis.bareWorld).2 := by
  have helf : partialCall.inner.value? Command.elfOption = some (Text.ofString "b") := by
    decide +kernel
  have hcore : partialCall.inner.value? Command.coreOption = some (Text.ofString "a.core") := by
    decide +kernel
  obtain ⟨tE, tC, code, -, -, hread, hresult, hends⟩ :=
    ((analysis_outcome {} Analysis.bareWorld).2 partialArguments partialCall rfl).1
      (by
        rw [helf]
        rintro _ ⟨⟩
        decide +kernel)
      (by
        rw [hcore]
        rintro _ ⟨⟩
        decide +kernel)
  have hmissing : tE.readFile partialCall.directory "b" = .error .noSuchFile := by
    rw [(hread "b" ["b"] (by decide +kernel) (by decide +kernel)).1]
    decide +kernel
  have hfound : tC.readFile partialCall.directory "a.core" =
      Analysis.bareWorld.tree.readFile [] "a.core" :=
    (hread "a.core" ["a.core"] (by decide +kernel) (by decide +kernel)).2
  have hE : Command.elfOf partialCall.inner (tE.readFile partialCall.directory) =
      some (.error ⟨.elf, "b", .unreadable "No such file or directory"⟩) := by
    rw [Command.elfOf, helf, Option.map_some, hmissing]
    rfl
  have hC : Command.coreOf partialCall.inner (tC.readFile partialCall.directory) =
      some (.ok Analysis.bareInfo) := by
    rw [Command.coreOf, hcore, Option.map_some, hfound, Analysis.coreOutcome_bare]
  rw [hE, hC] at hends
  obtain ⟨rfl, hemits⟩ := hends.incomplete (fun h => h.1 _ rfl) (.inr rfl)
  exact ⟨hresult, hemits⟩

/-- A name that is none takes the threads of the core dump with it. -/
def surrogateArguments : List Text := ["--elf", [CodePoint.ofNat 0xd800], "--core", "a.core"]

def surrogateCall : AnalysisCall {} surrogateArguments Analysis.bareWorld where
  outer := { word := some "analyze", rest := surrogateArguments }
  inner := { values := [("--core", "a.core"), ("--elf", [CodePoint.ofNat 0xd800])] }
  settings := ⟨.warning, []⟩
  directory := []
  log := none
  output := none
  outer_parsed := by decide +kernel
  inner_parsed := by decide +kernel
  level_known := by decide +kernel
  directory_there := by decide +kernel
  log_writable := by decide +kernel
  output_writable := by decide +kernel
  apart := nofun

theorem surrogate_name_emits_nothing :
    Analysis.coreOutcome "a.core" (Analysis.bareWorld.tree.readFile [] "a.core") =
        .ok Analysis.bareInfo ∧
      (inWorld {} (Command.analyze.name :: surrogateArguments) Analysis.bareWorld).1.result = .ok 1 ∧
      ¬Emits none none (AnalysisResult.render ⟨none, some Analysis.bareInfo⟩) Analysis.bareWorld
        (inWorld {} (Command.analyze.name :: surrogateArguments) Analysis.bareWorld).2 := by
  have hname : Path.checkName [CodePoint.ofNat 0xd800] =
      .error (.unencodable 0 0 (CodePoint.ofNat 0xd800)) := by decide +kernel
  have helf : [CodePoint.ofNat 0xd800] ∈ surrogateCall.inner.value? Command.elfOption := by
    decide +kernel
  obtain ⟨hresult, hquiet⟩ := surrogateCall.run_of_refused rfl (.inl helf) hname
  refine ⟨Analysis.coreOutcome_bare, hresult, fun hemits => ?_⟩
  have hprinted := hemits.printed
  rw [hquiet.output, Option.isNone_none, if_pos rfl] at hprinted
  have hnewline := (List.append_eq_nil_iff.mp (List.self_eq_append_right.mp hprinted)).2
  cases hnewline

end Program

end ElfScope
