import Mathlib
import ElfScope.Analysis.Files
import ElfScope.Proofs.Inspection.Threads

/-! # Inputs are analyzed on their own

The outcome of an analysis is put together from those of its inputs, whether they are given as data or
as names of files. Only a name that is no name ends the analysis of the other input with its own.
Debug information without an end counts as an input that fails.
-/
namespace ElfScope

/-! ### Sources -/

/-- The same error of an input with another source. -/
def InputError.renamed (source : Text) (e : InputError) : InputError := { e with source }

def AnalysisError.renamed (source : Text) : AnalysisError → AnalysisError
  | .inputs failures completed => .inputs (failures.map (·.renamed source)) completed
  | .name e => .name e

namespace Analysis

/-- Of an opened file the facts are told, with its symbols if they are wanted. -/
theorem elfInfo_eq {data : Bytes} {f : Elf.File} (h : Elf.File.read data = .ok f) (withDwarf : Bool)
    (source : Text) :
    (elfInfo data withDwarf source).1 =
      match (if withDwarf then Inspection.symbolsOf f else .ok {}) with
      | .ok symbols => .ok (.ofFacts (Inspection.factsOf f) symbols)
      | .error _ => .error ⟨.elf, source, .endless⟩ := by
  cases withDwarf with
  | true => exact elfInfo_of_read h source
  | false =>
    rw [elfInfo_bare (Inspection.ofBytes_of_read h .elf source)]
    rw [(Inspection.answers_facts f _ (Inspection.agrees_new f .elf source)).1]
    rfl

theorem elfInfo_renamed (data : Bytes) (withDwarf : Bool) (source source' : Text) :
    (elfInfo data withDwarf source).1.mapError (·.renamed source') =
      (elfInfo data withDwarf source').1 := by
  cases hread : Elf.File.read data with
  | error cause =>
    rw [elfInfo_of_rejected hread, elfInfo_of_rejected hread]
    rfl
  | ok f =>
    rw [elfInfo_eq hread, elfInfo_eq hread]
    cases (if withDwarf then Inspection.symbolsOf f else .ok {} : Except Dwarf.Failure Symbols) <;> rfl

theorem coreInfo_renamed (data : Bytes) (source source' : Text) :
    (coreInfo data source).1.mapError (·.renamed source') = (coreInfo data source').1 := by
  cases hread : Elf.File.read data with
  | error cause =>
    rw [coreInfo_of_rejected hread, coreInfo_of_rejected hread]
    rfl
  | ok f =>
    rw [coreInfo_of_core hread, coreInfo_of_core hread]
    split_ifs <;> rfl

/-- An error tells of the role and the source of its input. -/
theorem elfInfo_error {data : Bytes} {withDwarf : Bool} {source : Text} {e : InputError}
    (h : (elfInfo data withDwarf source).1 = .error e) : e.role = .elf ∧ e.source = source := by
  cases hread : Elf.File.read data with
  | error cause =>
    rw [elfInfo_of_rejected hread] at h
    cases h
    exact ⟨rfl, rfl⟩
  | ok f =>
    rw [elfInfo_eq hread] at h
    split at h
    · cases h
    · cases h
      exact ⟨rfl, rfl⟩

theorem coreInfo_error {data : Bytes} {source : Text} {e : InputError}
    (h : (coreInfo data source).1 = .error e) : e.role = .core ∧ e.source = source := by
  cases hread : Elf.File.read data with
  | error cause =>
    rw [coreInfo_of_rejected hread] at h
    cases h
    exact ⟨rfl, rfl⟩
  | ok f =>
    rw [coreInfo_of_core hread] at h
    split_ifs at h
    cases h
    exact ⟨rfl, rfl⟩

/-! ### Outcomes put together -/

section Together
variable {α : Type}

/-- The input did not fail, if it was given. -/
def Succeeds (outcome : Option (Except InputError α)) : Prop := ∀ e, outcome ≠ some (.error e)

def failed : Option (Except InputError α) → List InputError
  | some (.error e) => [e]
  | _ => []

def achieved : Option (Except InputError α) → Option α
  | some (.ok a) => some a
  | _ => none

/-- What comes of two inputs that may each be missing: their values if none failed, and else all
failures in order, with the values that there are. -/
structure Together (E : Option (Except InputError ElfInfo)) (C : Option (Except InputError CoreInfo))
    (r : Except AnalysisError AnalysisResult) : Prop where
  success : Succeeds E → Succeeds C → r = .ok ⟨achieved E, achieved C⟩
  failure : ¬(Succeeds E ∧ Succeeds C) →
    r = .error (.inputs (failed E ++ failed C) ⟨achieved E, achieved C⟩)

theorem together_combine (E : Option (Except InputError ElfInfo))
    (C : Option (Except InputError CoreInfo)) : Together E C (combine E C) := by
  constructor
  · intro hE hC
    rcases E with _ | e | a
    · rcases C with _ | e | c
      · rfl
      · exact absurd rfl (hC e)
      · rfl
    · exact absurd rfl (hE e)
    · rcases C with _ | e | c
      · rfl
      · exact absurd rfl (hC e)
      · rfl
  · intro h
    rcases E with _ | e | a <;> rcases C with _ | e' | c <;>
      first
        | rfl
        | exact absurd ⟨nofun, nofun⟩ h

end Together

/-! ### Files -/

section Files
variable {α σ : Type} [Host (StateM σ)]

/-- Reading a file tells what is there and changes nothing, and reporting changes no file. -/
structure Files (look : σ → Text → Except FileError Bytes) (tell : Log → StateM σ Unit) : Prop where
  read : ∀ name st, (Host.readFile name : StateM σ (Except FileError Bytes)) st = (look st name, st)
  tell : ∀ log st name, look (tell log st).2 name = look st name

/-- The outcome for the data of a file, or for the reason why there are none. -/
def fileOutcome (role : Role) (analyze : Bytes → Except InputError α) (path : Text) :
    Except FileError Bytes → Except InputError α
  | .ok data => analyze data
  | .error e => .error ⟨role, path, .unreadable ((e.system?.map Prod.snd).getD [])⟩

/-- The system was not asked, as the name is none. -/
def Refused (found : Except FileError Bytes) (e : FileError) : Prop :=
  found = .error e ∧ e.system? = none

/-- One input of an analysis of files. -/
def told (tell : Log → StateM σ Unit) (act : StateM σ (Outcome α)) :
    StateM σ (Except FileError (Except InputError α)) := do
  let (outcome, log) ← act
  tell log
  return outcome

variable {look : σ → Text → Except FileError Bytes} {tell : Log → StateM σ Unit}

omit [Host (StateM σ)] in
theorem run_bind {β γ : Type} (act : StateM σ β) (next : β → StateM σ γ) (st : σ) :
    (act >>= next) st = next (act st).1 (act st).2 := rfl

section Told
variable {R : σ → σ → Prop}
  (hread : ∀ name st, (Host.readFile name : StateM σ (Except FileError Bytes)) st = (look st name, st))
  (htell : ∀ log st, R st (tell log st).2)
include hread htell

theorem run_told (role : Role) (analyze : Bytes → Except InputError α × Log)
    (path : Text) (st : σ) :
    ∃ st', R st st' ∧
      ((∀ e, ¬Refused (look st path) e) → told tell (ofFile role analyze path) st =
        (.ok (fileOutcome role (fun data => (analyze data).1) path (look st path)), st')) ∧
      ∀ e, Refused (look st path) e →
        told tell (ofFile role analyze path) st = (.error e, st') := by
  unfold told ofFile
  rw [run_bind, run_bind, hread]
  cases look st path with
  | ok data =>
    refine ⟨_, htell (analyze data).2 st, fun _ => rfl, ?_⟩
    rintro e ⟨he, -⟩
    cases he
  | error e =>
    refine ⟨_, htell [] st, ?_, ?_⟩
    · intro hname
      cases hsystem : e.system? with
      | none => exact absurd ⟨rfl, hsystem⟩ (hname e)
      | some reason =>
        simp only [hsystem, fileOutcome]
        rfl
    · rintro e' ⟨he, hsystem⟩
      cases he
      simp only [hsystem]
      rfl

/-- One input, which may be missing. -/
theorem run_mapM_told (hrefl : ∀ st, R st st) (role : Role)
    (analyze : Text → Bytes → Except InputError α × Log) (path : Option Text) (st : σ) :
    ∃ st', R st st' ∧
      ((∀ p ∈ path, ∀ e, ¬Refused (look st p) e) →
        path.mapM (fun p => told tell (ofFile role (analyze p) p)) st = (path.map fun p =>
          .ok (fileOutcome role (fun data => (analyze p data).1) p (look st p)), st')) ∧
      ∀ p ∈ path, ∀ e, Refused (look st p) e →
        path.mapM (fun p => told tell (ofFile role (analyze p) p)) st = (some (.error e), st') := by
  cases path with
  | none => exact ⟨st, hrefl st, fun _ => rfl, nofun⟩
  | some p =>
    obtain ⟨st', hst', hname, hrefused⟩ := run_told hread htell role (analyze p) p st
    have hmap : (some p).mapM (fun p => told tell (ofFile role (analyze p) p)) st =
        (some (told tell (ofFile role (analyze p) p) st).1,
          (told tell (ofFile role (analyze p) p) st).2) := rfl
    refine ⟨st', hst', ?_, ?_⟩
    · intro hp
      rw [hmap, hname (hp p rfl)]
      rfl
    · rintro _ ⟨⟩ e he
      rw [hmap, hrefused e he]

end Told

def elfOutcome (withDwarf : Bool) (path : Text) : Except FileError Bytes → Except InputError ElfInfo :=
  fileOutcome .elf (fun data => (elfInfo data withDwarf path).1) path

def coreOutcome (path : Text) : Except FileError Bytes → Except InputError CoreInfo :=
  fileOutcome .core (fun data => (coreInfo data path).1) path

variable {elfPath corePath : Option Text} {withDwarf : Bool} {st : σ}

theorem ofFiles_eq : ofFiles tell elfPath corePath withDwarf = (do
    let elf ← elfPath.mapM fun p => told tell (ofFile .elf (fun data => elfInfo data withDwarf p) p)
    if let some (.error e) := elf then return .error (.name e)
    let core ← corePath.mapM fun p => told tell (ofFile .core (fun data => coreInfo data p) p)
    if let some (.error e) := core then return .error (.name e)
    return combine (elf.bind (·.toOption)) (core.bind (·.toOption))) := rfl

/-- The second input is read after what the first one came to was reported. The first name that is none
ends the analysis, whatever comes of the other input. -/
theorem run_ofFiles_steps {R : σ → σ → Prop}
    (hread : ∀ name st,
      (Host.readFile name : StateM σ (Except FileError Bytes)) st = (look st name, st))
    (htell : ∀ log st, R st (tell log st).2) (hrefl : ∀ st, R st st)
    (elfPath corePath : Option Text) (withDwarf : Bool) (st : σ) :
    ∃ st₁ st₂, R st st₁ ∧ R st₁ st₂ ∧
      ((∀ p ∈ elfPath, ∀ e, ¬Refused (look st p) e) →
        (∀ p ∈ corePath, ∀ e, ¬Refused (look st₁ p) e) →
        ofFiles tell elfPath corePath withDwarf st =
          (combine (elfPath.map fun p => elfOutcome withDwarf p (look st p))
            (corePath.map fun p => coreOutcome p (look st₁ p)), st₂)) ∧
      (∀ p ∈ elfPath, ∀ e, Refused (look st p) e →
        ofFiles tell elfPath corePath withDwarf st = (.error (.name e), st₁)) ∧
      ((∀ p ∈ elfPath, ∀ e, ¬Refused (look st p) e) → ∀ p ∈ corePath, ∀ e, Refused (look st₁ p) e →
        ofFiles tell elfPath corePath withDwarf st = (.error (.name e), st₂)) := by
  obtain ⟨st₁, hst₁, hname, hrefused⟩ := run_mapM_told hread htell hrefl .elf
    (fun p data => elfInfo data withDwarf p) elfPath st
  obtain ⟨st₂, hst₂, hname', hrefused'⟩ := run_mapM_told hread htell hrefl .core
    (fun p data => coreInfo data p) corePath st₁
  refine ⟨st₁, st₂, hst₁, hst₂, ?_, ?_, ?_⟩ <;> rw [ofFiles_eq, run_bind]
  · intro helf hcore
    rw [hname helf]
    cases elfPath with
    | none =>
      simp only [Option.map_none]
      rw [run_bind, hname' hcore]
      cases corePath <;> rfl
    | some p =>
      simp only [Option.map_some]
      rw [run_bind, hname' hcore]
      cases corePath <;> rfl
  · intro p hp e he
    rw [hrefused p hp e he]
    rfl
  · intro helf p hp e he
    rw [hname helf]
    cases elfPath with
    | none =>
      simp only [Option.map_none]
      rw [run_bind, hrefused' p hp e he]
      rfl
    | some q =>
      simp only [Option.map_some]
      rw [run_bind, hrefused' p hp e he]
      rfl

theorem run_ofFiles (h : Files look tell) (helf : ∀ p ∈ elfPath, ∀ e, ¬Refused (look st p) e)
    (hcore : ∀ p ∈ corePath, ∀ e, ¬Refused (look st p) e) :
    (ofFiles tell elfPath corePath withDwarf st).1 =
      combine (elfPath.map fun p => elfOutcome withDwarf p (look st p))
        (corePath.map fun p => coreOutcome p (look st p)) := by
  obtain ⟨st₁, st₂, hlook, -, hrun, -⟩ := run_ofFiles_steps
    (R := fun st st' => ∀ name, look st' name = look st name) h.read h.tell (fun _ _ => rfl)
    elfPath corePath withDwarf st
  simp only [hlook] at hrun
  rw [hrun helf hcore]

/-- The first name that is none ends the analysis, whatever comes of the other input. -/
theorem run_ofFiles_refused (h : Files look tell) {p : Text} {e : FileError}
    (hp : (p ∈ elfPath ∧ Refused (look st p) e) ∨
      ((∀ p ∈ elfPath, ∀ e, ¬Refused (look st p) e) ∧ p ∈ corePath ∧ Refused (look st p) e)) :
    (ofFiles tell elfPath corePath withDwarf st).1 = .error (.name e) := by
  obtain ⟨st₁, st₂, hlook, -, -, hrefused, hrefused'⟩ := run_ofFiles_steps
    (R := fun st st' => ∀ name, look st' name = look st name) h.read h.tell (fun _ _ => rfl)
    elfPath corePath withDwarf st
  simp only [hlook] at hrefused'
  rcases hp with ⟨hp, he⟩ | ⟨helf, hp, he⟩
  · rw [hrefused p hp e he]
  · rw [hrefused' helf p hp e he]

omit [Host (StateM σ)] in
theorem combine_renamed (source : Text) (E : Option (Except InputError ElfInfo))
    (C : Option (Except InputError CoreInfo)) :
    combine (E.map (·.mapError (·.renamed source))) (C.map (·.mapError (·.renamed source))) =
      (combine E C).mapError (·.renamed source) := by
  rcases E with _ | _ | _ <;> rcases C with _ | _ | _ <;> rfl

omit [Host (StateM σ)] in
/-- A file that can be read comes to what its data come to. -/
theorem renamed_fileOutcome (role : Role) {analyze : Text → Bytes → Except InputError α}
    {path : Option Text} {data : Option Bytes} {source : Text}
    (hpath : path.map (look st) = data.map .ok)
    (hrenamed : ∀ p d, (analyze p d).mapError (·.renamed source) = analyze source d) :
    ((path.map fun p => fileOutcome role (analyze p) p (look st p)).map
      (·.mapError (·.renamed source))) = data.map (analyze source) := by
  cases path with
  | none =>
    cases data with
    | none => rfl
    | some d => cases hpath
  | some p =>
    cases data with
    | none => cases hpath
    | some d =>
      have hlook : look st p = .ok d := Option.some.inj hpath
      simp only [Option.map_some, hlook, fileOutcome, hrenamed]

omit [Host (StateM σ)] in
theorem not_refused_of_readable {path : Option Text} {data : Option Bytes}
    (h : path.map (look st) = data.map .ok) : ∀ p ∈ path, ∀ e, ¬Refused (look st p) e := by
  rintro p hp e ⟨he, -⟩
  cases hp
  cases data with
  | none => cases h
  | some d =>
    rw [Option.map_some, Option.map_some, he] at h
    cases Option.some.inj h

theorem ofFiles_renamed (h : Files look tell) {elfData coreData : Option Bytes}
    (helf : elfPath.map (look st) = elfData.map .ok)
    (hcore : corePath.map (look st) = coreData.map .ok) :
    (ofFiles tell elfPath corePath withDwarf st).1.mapError (·.renamed bytesSource) =
      (ofBytes elfData coreData withDwarf).1 := by
  have hE := renamed_fileOutcome .elf helf fun p d => elfInfo_renamed d withDwarf p bytesSource
  have hC := renamed_fileOutcome .core hcore fun p d => coreInfo_renamed d p bytesSource
  rw [run_ofFiles h (not_refused_of_readable helf) (not_refused_of_readable hcore),
    ← combine_renamed]
  unfold elfOutcome coreOutcome
  rw [hE, hC]
  cases elfData <;> cases coreData <;> rfl

end Files

/-- Inputs are analyzed on their own, from data and from files alike, and what is in a file decides as
data do. The one exception is a name that the system refuses, which leaves nothing of the other
input. -/
theorem inputs_independent {σ : Type} [Host (StateM σ)] {look : σ → Text → Except FileError Bytes}
    {tell : Log → StateM σ Unit} (h : Files look tell) (withDwarf : Bool) :
    (∀ elfData coreData,
      Together (elfData.map fun data => (elfInfo data withDwarf bytesSource).1)
        (coreData.map fun data => (coreInfo data bytesSource).1)
        (ofBytes elfData coreData withDwarf).1) ∧
    (∀ elfPath corePath st, (∀ p ∈ elfPath, ∀ e, ¬Refused (look st p) e) →
      (∀ p ∈ corePath, ∀ e, ¬Refused (look st p) e) →
      Together (elfPath.map fun p => elfOutcome withDwarf p (look st p))
        (corePath.map fun p => coreOutcome p (look st p))
        (ofFiles tell elfPath corePath withDwarf st).1) ∧
    (∀ elfPath corePath st p e, ((p ∈ elfPath ∧ Refused (look st p) e) ∨
        ((∀ p ∈ elfPath, ∀ e, ¬Refused (look st p) e) ∧ p ∈ corePath ∧ Refused (look st p) e)) →
      (ofFiles tell elfPath corePath withDwarf st).1 = .error (.name e)) ∧
    (∀ elfPath corePath elfData coreData st, elfPath.map (look st) = elfData.map .ok →
      corePath.map (look st) = coreData.map .ok →
      (ofFiles tell elfPath corePath withDwarf st).1.mapError (·.renamed bytesSource) =
        (ofBytes elfData coreData withDwarf).1) ∧
    (∀ path found e, elfOutcome withDwarf path found = .error e → e.role = .elf ∧ e.source = path) ∧
    ∀ path found e, coreOutcome path found = .error e → e.role = .core ∧ e.source = path := by
  refine ⟨?_, ?_, ?_, ?_, ?_, ?_⟩
  · intro elfData coreData
    have hbytes : (ofBytes elfData coreData withDwarf).1 =
        combine (elfData.map fun data => (elfInfo data withDwarf bytesSource).1)
          (coreData.map fun data => (coreInfo data bytesSource).1) := by
      cases elfData <;> cases coreData <;> rfl
    rw [hbytes]
    exact together_combine _ _
  · intro elfPath corePath st helf hcore
    rw [run_ofFiles h helf hcore]
    exact together_combine _ _
  · intro elfPath corePath st p e hp
    exact run_ofFiles_refused h hp
  · intro elfPath corePath elfData coreData st helf hcore
    exact ofFiles_renamed h helf hcore
  · intro path found e he
    cases found with
    | ok data => exact elfInfo_error he
    | error _ =>
      cases he
      exact ⟨rfl, rfl⟩
  · intro path found e he
    cases found with
    | ok data => exact coreInfo_error he
    | error _ =>
      cases he
      exact ⟨rfl, rfl⟩

theorem files_world :
    Files (fun (w : World) name => w.tree.readFile w.here name) fun _ => pure () := by
  constructor
  · intro name w
    rfl
  · intro log w name
    rfl

/-- What comes of files of a world, with no account of what was reported. -/
def inWorld (elfPath corePath : Option Text) (w : World) : Except AnalysisError AnalysisResult :=
  ((ofFiles (fun _ => pure ()) elfPath corePath true : StateM World _) w).1

/-- A core dump with no segments, so that no note tells of a thread. -/
def bareCore : Bytes :=
  [0x7f, 0x45, 0x4c, 0x46, 2, 1, 1, 0, 0, 0, 0, 0, 0, 0, 0, 0, 4, 0, 62, 0, 1, 0, 0, 0] ++
    List.replicate 24 0 ++ [0, 0, 0, 0, 64, 0, 56, 0, 0, 0, 0, 0, 0, 0, 0, 0]

def bareInfo : CoreInfo where
  architecture := .x86_64
  first := ⟨0, Inspection.blankRegisters⟩
  others := []

def bareWorld : World where
  tree := ({} : FileTree).plant ["a.core"] (.file bareCore)

theorem coreOutcome_bare :
    coreOutcome "a.core" (bareWorld.tree.readFile [] "a.core") = .ok bareInfo := by
  decide +kernel

theorem inputs_independent_missing :
    inWorld (some "b") (some "a.core") bareWorld =
      .error (.inputs [⟨.elf, "b", .unreadable "No such file or directory"⟩] ⟨none, some bareInfo⟩) := by
  have helf : bareWorld.tree.readFile [] "b" = .error .noSuchFile := by decide +kernel
  have hcore : ∃ data, bareWorld.tree.readFile [] "a.core" = .ok data :=
    ⟨bareCore, by decide +kernel⟩
  have htogether := (inputs_independent files_world true).2.1 (some "b") (some "a.core") bareWorld
    (by
      rintro _ ⟨⟩ e ⟨he, hname⟩
      cases helf.symm.trans he
      cases hname)
    (by
      rintro _ ⟨⟩ e ⟨he, -⟩
      obtain ⟨data, hdata⟩ := hcore
      cases hdata.symm.trans he)
  have hfailed : elfOutcome true "b" (bareWorld.tree.readFile [] "b") =
      .error ⟨.elf, "b", .unreadable "No such file or directory"⟩ := by
    rw [helf]
    rfl
  simp only [Option.map_some] at htogether
  rw [show bareWorld.here = [] from rfl, hfailed, coreOutcome_bare] at htogether
  apply htogether.failure
  rintro ⟨hE, -⟩
  exact hE _ rfl

/-- A name with a NUL in it takes the threads of the core dump with it. -/
def nulName : Text := ['a', CodePoint.ofNat 0, 'b']

theorem nulName_hides_core :
    coreOutcome "a.core" (bareWorld.tree.readFile [] "a.core") = .ok bareInfo ∧
      inWorld (some nulName) (some "a.core") bareWorld =
        .error (.name .embeddedNul) ∧
      ¬∃ fault, inWorld (some nulName) (some "a.core") bareWorld =
        .error (.inputs [⟨.elf, nulName, fault⟩] ⟨none, some bareInfo⟩) := by
  have hname : inWorld (some nulName) (some "a.core") bareWorld =
      .error (.name .embeddedNul) := rfl
  refine ⟨coreOutcome_bare, hname, ?_⟩
  rintro ⟨fault, hfault⟩
  cases hname.symm.trans hfault

end Analysis

end ElfScope
