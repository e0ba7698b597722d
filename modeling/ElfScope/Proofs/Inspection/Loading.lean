import Mathlib
import ElfScope.Analysis.Bytes
import ElfScope.Proofs.Analysis.Outcomes

/-! # What an inspection tells of its file

An inspection keeps what it has decoded. What it keeps agrees with the file, so its answers depend on
the file alone and not on what was asked before.
-/
namespace ElfScope
open Elf

/-! ### Names of sections -/

/-- What is kept under a name is what was kept there, or else the first section of the name. -/
theorem SectionEntry.lookup_foldl_keepFirst (name : Text) (entries : List SectionEntry)
    (named : List (Text × Nat × Section)) :
    (entries.foldl keepFirst named).lookup name = (named.lookup name).or
      (entries.findSome? fun e =>
        if e.name = name then e.found.map fun s => (e.index, s) else none) := by
  induction entries generalizing named with
  | nil => exact Option.or_none.symm
  | cons e entries ih =>
    rw [List.foldl_cons, ih, List.findSome?_cons]
    unfold keepFirst
    cases hfound : e.found with
    | none => simp
    | some s =>
      by_cases hname : e.name = name
      · subst hname
        cases hkept : named.lookup e.name with
        | some kept => simp [hkept]
        | none => simp
      · have hother : (name == e.name) = false := beq_false_of_ne fun h => hname h.symm
        rw [if_neg hname]
        split_ifs
        · rfl
        · rw [List.lookup_cons, hother]

theorem SectionEntry.lookup_byName (name : Text) (entries : List SectionEntry) :
    (byName entries).lookup name = entries.findSome? fun e =>
      if e.name = name then e.found.map fun s => (e.index, s) else none := by
  unfold byName
  rw [lookup_foldl_keepFirst]
  exact Option.none_or

namespace Inspection

/-! ### Answers of a file -/

def entriesOf (f : File) : List SectionEntry := (SectionEntry.readAll f).1

def firstOf (f : File) (name : Text) : Option (Nat × Section) :=
  (entriesOf f).findSome? fun e => if e.name = name then e.found.map fun s => (e.index, s) else none

/-- The content of a section, stored as it is or in the old compressed form. -/
def storedOf (f : File) (s : Section) (old : Bool) : Bytes :=
  if s.header.noBits then []
  else (if old then (f.content? s).bind DebugInfo.inflateOld? else f.content? s).getD []

/-- What is loaded under a name. The old form is looked for where there is no section of the name. -/
def dataOf (f : File) (name : Text) : Bytes :=
  match firstOf f name with
  | some found => storedOf f found.2 false
  | none =>
    if name.startsWith ".debug_" then
      match firstOf f (DebugInfo.oldName name) with
      | some found => storedOf f found.2 true
      | none => []
    else []

def providedOf (f : File) (name : Text) : Text × Option Bytes :=
  (name, DebugInfo.provided name (dataOf f name))

def debugOf (f : File) : Option DebugInfo :=
  if !(dataOf f ".debug_info").isEmpty then
    some { addressSize := f.layout.addressSize,
           sections := DebugInfo.sectionNames.map (providedOf f) }
  else none

def factsOf (f : File) : BinaryFacts where
  architecture := .ofMachine f.header.machine
  fileKind := .ofType f.header.type
  byteOrder := f.layout.order
  entryPoint := UInt64.ofNat f.header.entry
  sections := (entriesOf f).map (·.name)

def symbolsOf (f : File) : Except Dwarf.Failure Symbols :=
  match debugOf f with
  | none => .ok {}
  | some d => (Dwarf.outcome (Dwarf.Walk.run (some d.toSections)) {}).1

/-! ### Agreement -/

/-- What an inspection keeps is what its file answers. -/
structure Agrees (f : File) (i : Inspection) : Prop where
  file : i.file = f
  table : ∀ entries, i.table = some entries → entries = entriesOf f
  named : i.table ≠ none → i.named = SectionEntry.byName (entriesOf f)
  loaded : ∀ name data, i.loaded.lookup name = some data → data = dataOf f name
  debug : ∀ d, i.debug = some d → d = debugOf f

/-- In agreement with a file an action gives a value, stays in agreement, and leaves the desk. -/
def Answers {α : Type} (f : File) (act : Inspecting α) (a : α) : Prop :=
  ∀ i, Agrees f i →
    (act.run i).1 = a ∧ Agrees f (act.run i).2 ∧ (act.run i).2.desk = i.desk

section
variable {α β : Type} {f : File} {i : Inspection}

theorem answers_pure (a : α) : Answers f (pure a) a := fun _ h => ⟨rfl, h, rfl⟩

theorem Answers.bind {act : Inspecting α} {next : α → Inspecting β} {a : α} {b : β}
    (ha : Answers f act a) (hb : Answers f (next a) b) : Answers f (act >>= next) b := by
  intro i hi
  obtain ⟨hvalue, hagrees, hdesk⟩ := ha i hi
  rw [StateT.run_bind]
  change ((next (act.run i).1).run (act.run i).2).1 = b ∧ _
  rw [hvalue]
  obtain ⟨hvalue', hagrees', hdesk'⟩ := hb _ hagrees
  refine ⟨hvalue', ?_, ?_⟩
  · change Agrees f ((next (act.run i).1).run (act.run i).2).2
    rw [hvalue]
    exact hagrees'
  · change ((next (act.run i).1).run (act.run i).2).2.desk = i.desk
    rw [hvalue, hdesk', hdesk]

theorem answers_get {next : Inspection → Inspecting α} {a : α}
    (h : ∀ i, Agrees f i → Answers f (next i) a) : Answers f (get >>= next) a :=
  fun i hi => h i hi i hi

theorem answers_modify {change : Inspection → Inspection}
    (h : ∀ i, Agrees f i → Agrees f (change i) ∧ (change i).desk = i.desk) :
    Answers f (modify change) () :=
  fun i hi => ⟨rfl, h i hi⟩

theorem answers_report (level : Level) (logger message : Text) :
    Answers f (report level logger message) () :=
  answers_modify fun _ h => ⟨⟨h.file, h.table, h.named, h.loaded, h.debug⟩, rfl⟩

theorem answers_mapM {act : α → Inspecting β} {g : α → β} (as : List α)
    (h : ∀ a ∈ as, Answers f (act a) (g a)) : Answers f (as.mapM act) (as.map g) := by
  induction as with
  | nil => exact answers_pure []
  | cons a as ih =>
    obtain ⟨ha, has⟩ := List.forall_mem_cons.mp h
    rw [List.mapM_cons]
    exact ha.bind ((ih has).bind (answers_pure _))

/-- A new inspection keeps nothing. -/
theorem agrees_new (f : File) (role : Role) (source : Text) :
    Agrees f { file := f, role, source } := by
  constructor
  · rfl
  all_goals
    intros
    contradiction

end

/-! ### Sections -/

/-- A table that was decoded, with its reports. -/
def withTable (i : Inspection) (read : List SectionEntry × Log) : Inspection :=
  { i with table := some read.1, named := SectionEntry.byName read.1, log := i.log ++ read.2 }

theorem run_sections_of_some {i : Inspection} {entries : List SectionEntry}
    (h : i.table = some entries) : sections.run i = (entries, i) := by
  cases i
  cases h
  rfl

theorem run_sections_of_none {i : Inspection} (h : i.table = none) :
    sections.run i = (entriesOf i.file, i.withTable (SectionEntry.readAll i.file)) := by
  cases i
  cases h
  rfl

/-- Whether the table is there or not, a section is looked up under the names that are kept. -/
theorem run_section? (name : Text) (i : Inspection) :
    (section? name).run i = ((sections.run i).2.named.lookup name, (sections.run i).2) := by
  unfold section?
  rw [StateT.run_bind, StateT.run_get]
  change StateT.run (if i.table.isNone then _ else _ : Inspecting _) i = _
  cases htable : i.table with
  | some entries =>
    rw [run_sections_of_some htable]
    rfl
  | none => rfl

variable (f : File)

theorem answers_sections : Answers f sections (entriesOf f) := by
  refine answers_get ?_
  intro i hi
  cases htable : i.table with
  | some entries =>
    rw [hi.table entries htable]
    exact answers_pure (entriesOf f)
  | none =>
    refine answers_get ?_
    intro i hi
    rw [hi.file]
    refine Answers.bind (answers_modify fun i hi => ?_) (answers_pure (entriesOf f))
    exact ⟨⟨hi.file, fun entries h => (Option.some.inj h).symm, fun _ => rfl, hi.loaded, hi.debug⟩,
      rfl⟩

/-- After the first request there is a table. -/
theorem table_sections {i : Inspection} (hi : Agrees f i) :
    (sections.run i).2.table = some (entriesOf f) := by
  cases htable : i.table with
  | some entries => rw [run_sections_of_some htable, htable, hi.table entries htable]
  | none =>
    rw [run_sections_of_none htable, ← hi.file]
    rfl

theorem answers_section? (name : Text) : Answers f (section? name) (firstOf f name) := by
  intro i hi
  obtain ⟨-, hagrees, hdesk⟩ := answers_sections f i hi
  have htable := table_sections f hi
  rw [run_section?, hagrees.named (by rw [htable]; exact Option.some_ne_none _),
    SectionEntry.lookup_byName]
  exact ⟨rfl, hagrees, hdesk⟩

theorem answers_sectionNames : Answers f sectionNames ((entriesOf f).map (·.name)) :=
  (answers_sections f).bind (answers_pure _)

theorem answers_facts : Answers f facts (factsOf f) := by
  refine (answers_sectionNames f).bind (answers_get fun i hi => ?_)
  have hfacts : BinaryFacts.mk i.architecture i.fileKind i.byteOrder (UInt64.ofNat i.entryPoint)
      ((entriesOf f).map (·.name)) = factsOf f := by
    unfold architecture fileKind byteOrder entryPoint factsOf
    rw [hi.file]
  simp only [hfacts]
  exact (answers_report _ _ _).bind (answers_pure (factsOf f))

/-! ### Debug sections -/

theorem answers_contentOf (s : Section) (name : Text) (old : Bool) :
    Answers f (contentOf s name old) (storedOf f s old) := by
  unfold contentOf storedOf
  by_cases hbits : s.header.noBits
  · rw [if_pos hbits, if_pos hbits]
    exact (answers_report _ _ _).bind (answers_pure [])
  · rw [if_neg hbits, if_neg hbits]
    refine answers_get ?_
    intro i hi
    rw [hi.file]
    dsimp only
    cases hdata : if old then (f.content? s).bind DebugInfo.inflateOld? else f.content? s with
    | some data => exact answers_pure data
    | none => exact (answers_report _ _ _).bind (answers_pure [])

theorem answers_loadNew (name : Text) : Answers f (loadNew name) (dataOf f name) := by
  unfold loadNew dataOf
  refine (answers_section? f name).bind ?_
  cases firstOf f name with
  | some found => exact answers_contentOf f found.2 name false
  | none =>
    simp only
    by_cases hdebug : name.startsWith ".debug_"
    · rw [if_pos hdebug, if_pos hdebug]
      refine (answers_section? f (DebugInfo.oldName name)).bind ?_
      cases firstOf f (DebugInfo.oldName name) with
      | some found => exact answers_contentOf f found.2 (DebugInfo.oldName name) true
      | none => exact answers_pure []
    · rw [if_neg hdebug, if_neg hdebug]
      exact answers_pure []

theorem answers_load (name : Text) : Answers f (load name) (dataOf f name) := by
  refine answers_get ?_
  intro i hi
  cases hloaded : i.loaded.lookup name with
  | some data =>
    rw [hi.loaded name data hloaded]
    exact answers_pure (dataOf f name)
  | none =>
    refine (answers_loadNew f name).bind (Answers.bind (answers_modify fun i hi => ?_)
      (answers_pure (dataOf f name)))
    refine ⟨⟨hi.file, hi.table, hi.named, fun name' data h => ?_, hi.debug⟩, rfl⟩
    rw [List.lookup_cons] at h
    by_cases hname : name' = name
    · subst hname
      rw [beq_self_eq_true] at h
      exact (Option.some.inj h).symm
    · rw [beq_false_of_ne hname] at h
      exact hi.loaded name' data h

theorem answers_hasDebugInfo :
    Answers f hasDebugInfo (!(dataOf f ".debug_info").isEmpty) :=
  (answers_load f ".debug_info").bind (answers_pure _)

theorem answers_provided (name : Text) : Answers f (do
    let data ← load name
    return (name, DebugInfo.provided name data)) (providedOf f name) :=
  (answers_load f name).bind (answers_pure (providedOf f name))

theorem answers_loadDebugInfo : Answers f loadDebugInfo (debugOf f) := by
  unfold loadDebugInfo debugOf
  refine (answers_hasDebugInfo f).bind ?_
  by_cases hinfo : (!(dataOf f ".debug_info").isEmpty) = true
  · rw [if_pos hinfo, if_pos hinfo]
    have hsections := answers_mapM DebugInfo.sectionNames fun name _ => answers_provided f name
    refine hsections.bind (answers_get fun i hi => ?_)
    unfold addressSize
    rw [hi.file]
    exact answers_pure _
  · rw [if_neg hinfo, if_neg hinfo]
    exact answers_pure none

theorem answers_debugInfo : Answers f debugInfo (debugOf f) := by
  refine answers_get ?_
  intro i hi
  cases hdebug : i.debug with
  | some d =>
    rw [hi.debug d hdebug]
    exact answers_pure (debugOf f)
  | none =>
    refine (answers_loadDebugInfo f).bind (Answers.bind (answers_modify fun i hi => ?_)
      (answers_pure (debugOf f)))
    exact ⟨⟨hi.file, hi.table, hi.named, hi.loaded, fun d h => (Option.some.inj h).symm⟩, rfl⟩

/-! ### Symbols -/

variable {f}

theorem run_walking {i : Inspection} (hi : Agrees f i) {d : DebugInfo} (hd : debugOf f = some d) :
    ((walking Dwarf.Walk.run).run i).1 =
      (Dwarf.outcome (Dwarf.Walk.run (some d.toSections)) i.desk).1 := by
  obtain ⟨hvalue, -, hdesk⟩ := answers_debugInfo f i hi
  unfold walking
  rw [StateT.run_bind]
  change (Dwarf.outcome (Dwarf.Walk.run ((debugInfo.run i).1.map DebugInfo.toSections))
    (debugInfo.run i).2.desk).1 = _
  rw [hvalue, hdesk, hd]
  rfl

/-- The symbols depend on the file alone. -/
theorem run_extractSymbols {i : Inspection} (hi : Agrees f i) :
    (extractSymbols.run i).1 = symbolsOf f := by
  have hagrees : Agrees f { i with loaded := [], debug := none, desk := {} } :=
    { agrees_new f .elf i.source with file := hi.file, table := hi.table, named := hi.named }
  change (symbols.run { i with loaded := [], debug := none, desk := {} }).1 = _
  obtain ⟨hvalue, hkept, hdesk⟩ := answers_debugInfo f _ hagrees
  unfold symbols symbolsOf
  rw [StateT.run_bind]
  cases hdebug : debugOf f with
  | none =>
    rw [hdebug] at hvalue
    change ((if (debugInfo.run _).1.isNone then _ else _ : Inspecting _).run _).1 = _
    rw [hvalue]
    rfl
  | some d =>
    rw [hdebug] at hvalue
    change ((if (debugInfo.run _).1.isNone then _ else _ : Inspecting _).run _).1 = _
    rw [hvalue]
    change ((walking Dwarf.Walk.run).run _).1 = _
    rw [run_walking hkept hdebug, hdesk]

end Inspection

/-- The whole analysis of a file that can be opened depends on the file alone. -/
theorem Analysis.elfInfo_of_read {data : Bytes} {f : File} (h : File.read data = .ok f)
    (source : Text) :
    (elfInfo data true source).1 = match Inspection.symbolsOf f with
      | .ok symbols => .ok (.ofFacts (Inspection.factsOf f) symbols)
      | .error _ => .error ⟨.elf, source, .endless⟩ := by
  have hopen := Inspection.ofBytes_of_read h .elf source
  obtain ⟨hfacts, hagrees, -⟩ :=
    Inspection.answers_facts f _ (Inspection.agrees_new f .elf source)
  have hfull := elfInfo_full hopen
  rw [hfacts, Inspection.run_extractSymbols hagrees] at hfull
  exact hfull

end ElfScope
