import Mathlib
import ElfScope.Proofs.Dwarf.Records

/-! # Walks without memory

A walk finds what its units give one by one, each on its own: in every unit the symbols of the entries
in pre-order, up to an entry that cannot be decoded.
-/
namespace ElfScope

namespace Symbols

instance : Append Symbols :=
  ⟨fun a b => ⟨a.functions ++ b.functions, a.globals ++ b.globals, a.types ++ b.types⟩⟩

theorem append_def (a b : Symbols) :
    a ++ b = ⟨a.functions ++ b.functions, a.globals ++ b.globals, a.types ++ b.types⟩ := rfl

@[simp] theorem append_empty (a : Symbols) : a ++ ({} : Symbols) = a := by simp [append_def]

@[simp] theorem empty_append (a : Symbols) : ({} : Symbols) ++ a = a := by simp [append_def]

theorem append_assoc (a b c : Symbols) : a ++ b ++ c = a ++ (b ++ c) := by simp [append_def]

/-- The symbols of some lists of symbols, one list after the other. -/
def concat (all : List Symbols) : Symbols :=
  ⟨all.flatMap (·.functions), all.flatMap (·.globals), all.flatMap (·.types)⟩

@[simp] theorem concat_nil : concat [] = {} := rfl

@[simp] theorem concat_cons (a : Symbols) (all : List Symbols) : concat (a :: all) = a ++ concat all :=
  rfl

end Symbols

namespace Dwarf

namespace CompileUnit
variable (s : DebugSections) (u : CompileUnit) (t : Die)

/-- The symbols that are made of an entry. -/
def symbolsOf (v : Preorder.Visit Die) : Plain Symbols :=
  if v.node.tag = some Tag.subprogram then do
    let f ← functionOf s u t v.node
    return { functions := [f] }
  else if v.node.tag = some Tag.variableEntry then
    return if v.inside then {} else { globals := [v.node.variableInfo .global] }
  else if v.node.tag = some Tag.structureType ∨ v.node.tag = some Tag.unionType ∨
      v.node.tag = some Tag.enumerationType then do
    let info ← typeOf s u t v.node
    return { types := [info] }
  else return {}

/-- What an entry adds to the symbols: nothing if its record cannot be made. -/
def addedBy (v : Preorder.Visit Die) : Plain Symbols := (·.getD {}) <$> (symbolsOf s u t v).attempt

def nextVisit (levels : List (Preorder.Level Cursor)) :
    Plain (Option (Preorder.Visit Die × List (Preorder.Level Cursor))) :=
  Preorder.next (nextAt s u t) Die.children? Die.isSubprogram levels

/-- The entries that are left, up to one that cannot be decoded, and whether there is such a one. -/
def visitsFrom : Nat → List (Preorder.Level Cursor) → Plain (List (Preorder.Visit Die) × Bool)
  | 0, _ => throw .endless
  | fuel + 1, levels => do
    match ← (nextVisit s u t levels).attempt with
    | none => return ([], true)
    | some none => return ([], false)
    | some (some (v, levels)) =>
      let (rest, stopped) ← visitsFrom fuel levels
      return (v :: rest, stopped)

/-- What the entries that are left add to the symbols, and whether they end at one that cannot be
decoded. -/
def addedFrom : Nat → List (Preorder.Level Cursor) → Plain (Symbols × Bool)
  | 0, _ => throw .endless
  | fuel + 1, levels => do
    match ← (nextVisit s u t levels).attempt with
    | none => return ({}, true)
    | some none => return ({}, false)
    | some (some (v, levels)) =>
      let added ← addedBy s u t v
      let (rest, stopped) ← addedFrom fuel levels
      return (added ++ rest, stopped)

/-- The visit of the first entry of a unit. -/
def topVisit : Preorder.Visit Die := ⟨t, 0, false⟩

/-- The levels that a traversal of a unit starts with. -/
def firstLevels : List (Preorder.Level Cursor) :=
  Preorder.below Die.children? Die.isSubprogram (topVisit t)

/-- What the entries of a unit with a given first one add to the symbols. -/
def addedFromTop : Plain (Symbols × Bool) := do
  let first ← addedBy s u t (topVisit t)
  let (rest, stopped) ← addedFrom s u t (visitLimit s) (firstLevels t)
  return (first ++ rest, stopped)

/-- What a unit adds to the symbols. -/
def addedByUnit : Plain Symbols :=
  match top? s u with
  | none => return {}
  | some t => Prod.fst <$> addedFromTop s u t

variable {s u t}

theorem run_addedFrom_succ (fuel : Nat) (levels : List (Preorder.Level Cursor)) :
    (addedFrom s u t (fuel + 1) levels).run = match (nextVisit s u t levels).run with
      | none => none
      | some (.error .endless) => some (.error .endless)
      | some (.error _) => some (.ok ({}, true))
      | some (.ok none) => some (.ok ({}, false))
      | some (.ok (some (v, levels))) => ExceptT.run (do
        let added ← addedBy s u t v
        let (rest, stopped) ← addedFrom s u t fuel levels
        return (added ++ rest, stopped)) := by
  rw [addedFrom, ExceptT.run_bind]
  change Option.bind (Option.map _ (nextVisit s u t levels).run) _ = _
  rcases (nextVisit s u t levels).run with _ | (_ | _ | _) | _ | ⟨v, levels⟩ <;> rfl

theorem endless_of_addedBy {v : Preorder.Visit Die} {e : Failure}
    (h : (addedBy s u t v).run = some (.error e)) : e = .endless := by
  rw [addedBy, Plain.run_getD_attempt] at h
  split at h <;> cases h
  rfl

theorem genuine_of_nextVisit (ht : top? s u = some t) {levels levels' : List (Preorder.Level Cursor)}
    {v : Preorder.Visit Die} (h : (nextVisit s u t levels).Gives (some (v, levels'))) :
    Genuine s u t v.node := by
  induction levels with
  | nil => cases Plain.gives_pure.mp h
  | cons level rest ih =>
    obtain ⟨o, ho, h⟩ := Plain.gives_bind.mp h
    cases o with
    | none => exact ih h
    | some p =>
      cases Plain.gives_pure.mp h
      exact genuine_of_nextAt ht ho

end CompileUnit

/-! ### One unit -/

namespace Desk
variable {u : CompileUnit} {desk : Desk}

/-- The desks differ in what has been reported only. -/
structure Alike (desk desk' : Desk) : Prop where
  memories : desk'.memories = desk.memories
  types : desk'.types = desk.types
  found : desk'.found = desk.found

theorem Apart.alike {base desk' : Desk} (h : Apart u base desk) (ha : Alike desk desk') :
    Apart u base desk' :=
  ⟨ha.memories ▸ h.memories, ha.types ▸ h.types⟩

theorem Alike.memory {desk' : Desk} (h : Alike desk desk') (u : CompileUnit) :
    desk'.memory u = desk.memory u := by
  rw [Desk.memory, Desk.memory, h.memories]

theorem Spoilt.alike {base desk' : Desk} (h : Spoilt u base desk) (ha : Alike desk desk') :
    Spoilt u base desk' :=
  ⟨h.apart.alike ha, ha.memory u ▸ h.stray⟩

theorem Sound.alike {s : DebugSections} {t : Die} {base desk' : Desk} {found : Symbols}
    (h : Sound s u t base found desk) (ha : Alike desk desk') : Sound s u t base found desk' :=
  ⟨h.apart.alike ha, ha.memory u ▸ h.memory, ha.types ▸ h.types, ha.found.trans h.found⟩

/-- Nothing is kept of a unit yet. -/
structure Fresh (u : CompileUnit) (desk : Desk) : Prop where
  memories : desk.memories.lookup u.offset = none
  types : ∀ p ∈ desk.types, p.1.1 ≠ u.offset

theorem Fresh.memory (h : Fresh u desk) : desk.memory u = {} := by
  rw [Desk.memory, h.memories]
  rfl

theorem Fresh.sound (h : Fresh u desk) (s : DebugSections) (t : Die) :
    Sound s u t desk desk.found desk :=
  ⟨.refl u desk, .inl h.memory, fun p hp hu => absurd hu (h.types p hp), rfl⟩

/-- Nothing is kept of a unit while another one is walked. -/
theorem Fresh.apart {u' : CompileUnit} {desk' : Desk} (h : Fresh u' desk) (ha : Apart u desk desk')
    (hu : u.offset ≠ u'.offset) : Fresh u' desk' := by
  refine ⟨(ha.memories _ hu.symm).trans h.memories, fun p hp he => ?_⟩
  rcases ha.types p hp with hp | hp
  · exact h.types p hp he
  · exact hu (hp.symm.trans he)

end Desk

namespace Walk
variable {s : DebugSections} {u : CompileUnit} {t : Die} {base : Desk} {found : Symbols}
variable {α : Type}

/-- From a sound desk an action adds to the symbols what a plain reading gives. -/
def Adds (s : DebugSections) (u : CompileUnit) (t : Die) (base : Desk) (act : Walk Unit)
    (p : Plain Symbols) : Prop :=
  ∀ found desk, Desk.Sound s u t base found desk → match p.run with
    | none => Desk.Spoilt u base (outcome act desk).2
    | some (.error e) =>
      (outcome act desk).1 = .error e ∧ Desk.Sound s u t base found (outcome act desk).2
    | some (.ok added) =>
      (outcome act desk).1 = .ok () ∧ Desk.Sound s u t base (found ++ added) (outcome act desk).2

theorem adds_nothing : Adds s u t base (pure ()) (pure {}) :=
  fun found desk h => ⟨rfl, by rw [Symbols.append_empty]; exact h⟩

theorem stays_modify_found (change : Symbols → Symbols) :
    Stays (Desk.Spoilt u base) (modify fun desk => { desk with found := change desk.found }) :=
  fun _ h => ⟨⟨h.apart.memories, h.apart.types⟩, h.stray⟩

theorem adds_modify_found {change : Symbols → Symbols} {added : Symbols}
    (h : ∀ found, change found = found ++ added) :
    Adds s u t base (modify fun desk => { desk with found := change desk.found }) (pure added) := by
  refine fun found desk hs => ⟨rfl, ⟨hs.apart.memories, hs.apart.types⟩, hs.memory, hs.types, ?_⟩
  rw [← hs.found]
  exact h desk.found

theorem Adds.ite {c : Prop} [Decidable c] {act act' : Walk Unit} {p p' : Plain Symbols}
    (h : c → Adds s u t base act p) (h' : ¬c → Adds s u t base act' p') :
    Adds s u t base (if c then act else act') (if c then p else p') := by
  by_cases hc : c
  · rw [if_pos hc, if_pos hc]
    exact h hc
  · rw [if_neg hc, if_neg hc]
    exact h' hc

/-- An addition after an action that adds nothing. -/
theorem adds_bind {act : Walk α} {p : Plain α} {f : α → Walk Unit} {g : α → Plain Symbols}
    (ha : ∀ found, Follows s u t base found act p) (hs : ∀ a, Stays (Desk.Spoilt u base) (f a))
    (hf : ∀ a, Adds s u t base (f a) (g a)) : Adds s u t base (act >>= f) (p >>= g) := by
  intro found desk h
  rw [ExceptT.run_bind]
  rcases (ha found).sound desk h with ⟨hp, hd⟩ | ⟨hp, hd⟩
  · rw [hp]
    exact Stays.after hs hd
  · rw [hp, outcome_bind]
    rcases hr : outcome act desk with ⟨r, desk'⟩
    rw [hr] at hd
    cases r with
    | ok a => exact hf a found desk' hd
    | error e => exact ⟨rfl, hd⟩

theorem adds_recordOf (ht : u.top? s = some t) {v : Preorder.Visit Die}
    (hv : u.Genuine s t v.node) : Adds s u t base (recordOf s u v) (u.symbolsOf s t v) := by
  refine Adds.ite (fun _ => ?_) fun _ => Adds.ite (fun _ => ?_) fun _ => Adds.ite (fun _ => ?_)
    fun _ => adds_nothing
  · refine adds_bind (fun found => follows_extractFunction ht v.node)
      (fun f => stays_modify_found fun found => { found with functions := found.functions ++ [f] })
      fun f => ?_
    exact @adds_modify_found s u t base (fun found => { found with
      functions := found.functions ++ [f] }) _ fun found => by simp [Symbols.append_def]
  · cases v.inside with
    | true => exact adds_nothing
    | false =>
      exact @adds_modify_found s u t base (fun found => { found with
        globals := found.globals ++ [v.node.variableInfo .global] }) _
        fun found => by simp [Symbols.append_def]
  · refine adds_bind (fun found => follows_extractType ht hv)
      (fun info => stays_modify_found fun found => { found with types := found.types ++ [info] })
      fun info => ?_
    exact @adds_modify_found s u t base (fun found => { found with types := found.types ++ [info] }) _
      fun found => by simp [Symbols.append_def]

/-- A spoilt desk stays so, also with entries that the unit does not have. -/
theorem stays_recordOf (ht : u.top? s = some t) (v : Preorder.Visit Die) :
    Stays (Desk.Spoilt u base) (recordOf s u v) := by
  unfold recordOf
  simp only
  split_ifs
  · exact (@follows_extractFunction s u t base {} ht v.node).spoilt.bind fun f =>
      stays_modify_found fun found => { found with functions := found.functions ++ [f] }
  · exact stays_modify_found fun found => { found with
      globals := found.globals ++ [v.node.variableInfo .global] }
  · exact fun _ h => h
  · exact (stays_extractType ht v.node).bind fun info =>
      stays_modify_found fun found => { found with types := found.types ++ [info] }
  · exact fun _ h => h

theorem outcome_orReport (act : Walk Unit) (level : Level) (logger message : Text) (desk : Desk) :
    ∃ desk', outcome (do if (← attempt act).isNone then report level logger message) desk =
      (match (outcome act desk).1 with
        | .error .endless => .error .endless
        | _ => .ok (), desk') ∧ Desk.Alike (outcome act desk).2 desk' := by
  rw [outcome_bind, outcome_attempt]
  rcases outcome act desk with ⟨(_ | _ | _) | a, desk⟩ <;> exact ⟨_, rfl, rfl, rfl, rfl⟩

/-- What fails is reported and adds nothing. -/
theorem adds_orReport {act : Walk Unit} {p : Plain Symbols} (h : Adds s u t base act p)
    (level : Level) (logger message : Text) :
    Adds s u t base (do if (← attempt act).isNone then report level logger message)
      ((·.getD {}) <$> p.attempt) := by
  intro found desk hd
  have h := h found desk hd
  obtain ⟨desk', hrun, hlike⟩ := outcome_orReport act level logger message desk
  rw [hrun, Plain.run_getD_attempt]
  rcases hp : p.run with _ | (_ | e | _) | added <;> rw [hp] at h
  · exact h.alike hlike
  · rw [h.1]
    exact ⟨rfl, (Symbols.append_empty found).symm ▸ h.2.alike hlike⟩
  · rw [h.1]
    exact ⟨rfl, (Symbols.append_empty found).symm ▸ h.2.alike hlike⟩
  · rw [h.1]
    exact ⟨rfl, h.2.alike hlike⟩
  · rw [h.1]
    exact ⟨rfl, h.2.alike hlike⟩

theorem stays_report (level : Level) (logger message : Text) :
    Stays (Desk.Spoilt u base) (report level logger message) :=
  fun _ h => ⟨⟨h.apart.memories, h.apart.types⟩, h.stray⟩

theorem stays_orReport {act : Walk Unit} (h : Stays (Desk.Spoilt u base) act) (level : Level)
    (logger message : Text) : Stays (Desk.Spoilt u base)
      (do if (← attempt act).isNone then report level logger message) := by
  refine (stays_attempt h).bind ?_
  intro o
  split_ifs
  · exact stays_report level logger message
  · exact fun _ h => h

theorem stays_processEntry (ht : u.top? s = some t) (v : Preorder.Visit Die) :
    Stays (Desk.Spoilt u base) (processEntry s u v) :=
  (stays_report _ _ _).bind fun _ => stays_orReport (stays_recordOf ht v) _ _ _

theorem adds_processEntry (ht : u.top? s = some t) {v : Preorder.Visit Die}
    (hv : u.Genuine s t v.node) : Adds s u t base (processEntry s u v) (u.addedBy s t v) := by
  have h := adds_bind (fun found => @follows_report s u t base found .dumpData walkerLogger
    ((List.replicate v.depth (Text.ofString "|  ")).flatten ++ "|--" ++ v.node.label))
    (fun _ => stays_orReport (stays_recordOf ht v) _ _ _)
    fun _ => adds_orReport (adds_recordOf ht hv) .warning walkerLogger ("Skipping " ++ v.node.label)
  rw [pure_bind] at h
  exact h

theorem follows_next (ht : u.top? s = some t) (levels : List (Preorder.Level Cursor)) :
    Follows s u t base found
      (Preorder.next (fun c => inUnit u (u.advance s c)) Die.children? Die.isSubprogram levels)
      (u.nextVisit s t levels) := by
  induction levels with
  | nil => exact .pure none
  | cons level rest ih =>
    refine (follows_inUnit (CompileUnit.simulates_advance ht level.cursor)).bind ?_
    intro o
    cases o with
    | none => exact ih
    | some p => exact .pure _

theorem follows_entriesFrom (ht : u.top? s = some t) (fuel : Nat)
    (levels : List (Preorder.Level Cursor)) :
    Follows s u t base found (entriesFrom s u fuel levels) (u.visitsFrom s t fuel levels) := by
  induction fuel generalizing levels with
  | zero => exact .throw .endless
  | succ fuel ih =>
    refine (follows_attempt (follows_next ht levels)).bind ?_
    intro o
    rcases o with _ | _ | ⟨v, levels⟩
    · exact .pure ([], true)
    · exact .pure ([], false)
    · exact (ih levels).bind fun p => .pure (v :: p.1, p.2)

/-- Entries are handled up to one that cannot be decoded. -/
abbrev forLevels (s : DebugSections) (u : CompileUnit) (fuel : Nat)
    (levels : List (Preorder.Level Cursor)) : Walk Unit :=
  Preorder.forEach (fun c => inUnit u (u.advance s c)) Die.children? Die.isSubprogram
    (processEntry s u) (throw .endless) fuel levels

theorem forLevels_succ (fuel : Nat) (levels : List (Preorder.Level Cursor)) :
    forLevels s u (fuel + 1) levels =
      Preorder.next (fun c => inUnit u (u.advance s c)) Die.children? Die.isSubprogram levels >>=
        fun o => match o with
          | none => pure ()
          | some (v, levels) => processEntry s u v >>= fun _ => forLevels s u fuel levels := by
  rw [forLevels, Preorder.forEach]
  congr 1
  funext o
  rcases o with _ | ⟨v, levels⟩ <;> rfl

/-- How the entries that are left are handled: the desk is spoilt, or there is no end, or what they
add is found, with a failure if they end at one that cannot be decoded. -/
def Handled (s : DebugSections) (u : CompileUnit) (t : Die) (base : Desk) (found : Symbols)
    (p : Plain (Symbols × Bool)) (run : Except Failure Unit × Desk) : Prop :=
  (p.run = none ∧ Desk.Spoilt u base run.2) ∨
    (p.run = some (.error .endless) ∧ run.1 = .error .endless) ∨
    ∃ added stopped, p.run = some (.ok (added, stopped)) ∧
      Desk.Sound s u t base (found ++ added) run.2 ∧
      if stopped then ∃ e, e ≠ .endless ∧ run.1 = .error e else run.1 = .ok ()

theorem stays_forLevels (ht : u.top? s = some t) (fuel : Nat)
    (levels : List (Preorder.Level Cursor)) :
    Stays (Desk.Spoilt u base) (forLevels s u fuel levels) := by
  induction fuel generalizing levels with
  | zero => exact fun _ h => h
  | succ fuel ih =>
    refine (@follows_next s u t base {} ht levels).spoilt.bind ?_
    intro o
    cases o with
    | none => exact fun _ h => h
    | some p => exact (stays_processEntry ht p.1).bind fun _ => ih p.2

/-- One entry is handled, and then those after it. -/
theorem Handled.entry (ht : u.top? s = some t) {v : Preorder.Visit Die} (hv : u.Genuine s t v.node)
    {desk : Desk} (h : Desk.Sound s u t base found desk) {rest : Walk Unit}
    {p : Plain (Symbols × Bool)} (hs : Stays (Desk.Spoilt u base) rest)
    (hrest : ∀ found desk, Desk.Sound s u t base found desk →
      Handled s u t base found p (outcome rest desk)) :
    Handled s u t base found (do
      let added ← u.addedBy s t v
      let (more, stopped) ← p
      return (added ++ more, stopped)) (outcome (processEntry s u v >>= fun _ => rest) desk) := by
  have hentry := @adds_processEntry s u t base ht v hv found desk h
  unfold Handled
  rw [ExceptT.run_bind]
  rcases ha : (u.addedBy s t v).run with _ | e | added <;> rw [ha] at hentry
  · exact .inl ⟨rfl, Stays.after (fun _ => hs) hentry⟩
  · cases CompileUnit.endless_of_addedBy ha
    rw [outcome_bind]
    rcases hr : outcome (processEntry s u v) desk with ⟨r, desk'⟩
    rw [hr] at hentry
    obtain ⟨rfl, -⟩ := hentry
    exact .inr (.inl ⟨rfl, rfl⟩)
  · rw [outcome_bind]
    rcases hr : outcome (processEntry s u v) desk with ⟨r, desk'⟩
    rw [hr] at hentry
    obtain ⟨rfl, hd⟩ := hentry
    change (ExceptT.run (p >>= _) = none ∧ _) ∨ (ExceptT.run (p >>= _) = _ ∧ _) ∨
      ∃ _ _, ExceptT.run (p >>= _) = _ ∧ _
    rw [ExceptT.run_bind]
    rcases hrest _ desk' hd with ⟨hp, hs⟩ | ⟨hp, hr⟩ | ⟨more, stopped, hp, hd, hr⟩
    · rw [hp]
      exact .inl ⟨rfl, hs⟩
    · rw [hp]
      exact .inr (.inl ⟨rfl, hr⟩)
    · rw [hp]
      rw [Symbols.append_assoc] at hd
      exact .inr (.inr ⟨added ++ more, stopped, rfl, hd, hr⟩)

theorem handled_forLevels (ht : u.top? s = some t) (fuel : Nat)
    (levels : List (Preorder.Level Cursor)) {desk : Desk} (h : Desk.Sound s u t base found desk) :
    Handled s u t base found (u.addedFrom s t fuel levels)
      (outcome (forLevels s u fuel levels) desk) := by
  induction fuel generalizing levels desk found with
  | zero => exact .inr (.inl ⟨rfl, rfl⟩)
  | succ fuel ih =>
    have hempty {desk : Desk} (h : Desk.Sound s u t base found desk) :
        Desk.Sound s u t base (found ++ {}) desk := by
      rw [Symbols.append_empty]
      exact h
    have hrun := @CompileUnit.run_addedFrom_succ s u t fuel levels
    rw [forLevels_succ]
    rcases (follows_next ht levels).sound desk h with ⟨hp, hs⟩ | ⟨hp, hs⟩
    · rw [hp] at hrun
      refine .inl ⟨hrun, Stays.after (fun o => ?_) hs⟩
      cases o with
      | none => exact fun _ h => h
      | some p => exact (stays_processEntry ht p.1).bind fun _ => stays_forLevels ht fuel p.2
    · rw [hp] at hrun
      rw [outcome_bind]
      rcases hr : outcome (Preorder.next (fun c => inUnit u (u.advance s c)) Die.children?
        Die.isSubprogram levels) desk with ⟨(_ | _ | _) | _ | ⟨v, levels'⟩, desk'⟩ <;>
        rw [hr] at hp hs hrun
      · exact .inr (.inr ⟨{}, true, hrun, hempty hs, .undecodable, by simp, rfl⟩)
      · exact .inr (.inr ⟨{}, true, hrun, hempty hs, .invalid _, by simp, rfl⟩)
      · exact .inr (.inl ⟨hrun, rfl⟩)
      · exact .inr (.inr ⟨{}, false, hrun, hempty hs, rfl⟩)
      · have hv := CompileUnit.genuine_of_nextVisit ht hp
        have hentry := Handled.entry ht hv hs (stays_forLevels ht fuel levels')
          fun found desk hd => ih levels' hd
        unfold Handled
        rw [hrun]
        exact hentry

theorem handled_forEntries (ht : u.top? s = some t) {desk : Desk}
    (h : Desk.Sound s u t base found desk) :
    Handled s u t base found (u.addedFromTop s t)
      (outcome (forEntries s u (processEntry s u)) desk) := by
  have htop := @follows_inUnit s u t base found _ _ _ (CompileUnit.simulates_topDie ht)
  unfold forEntries
  rw [outcome_bind]
  rcases htop.sound desk h with ⟨hp, -⟩ | ⟨hp, hs⟩
  · cases hp
  · rcases hr : outcome (inUnit u (u.topDie s)) desk with ⟨r, desk'⟩
    rw [hr] at hp hs
    cases hp
    exact Handled.entry ht (CompileUnit.genuine_top ht) hs (stays_forLevels ht _ _)
      fun found desk hd => handled_forLevels ht _ _ hd

theorem outcome_checkVersion (version : Int) (desk : Desk) :
    ∃ desk', outcome (checkVersion version) desk = (.ok (), desk') ∧ Desk.Alike desk desk' := by
  have hget : outcome (get : Walk Desk) desk = (.ok desk, desk) := rfl
  unfold checkVersion
  rw [outcome_bind, hget]
  simp only
  split_ifs
  · exact ⟨_, rfl, rfl, rfl, rfl⟩
  · exact ⟨_, rfl, rfl, rfl, rfl⟩

/-- Without a first entry no entry is handled. -/
theorem outcome_forEntries_of_top?_none (ht : u.top? s = none) {desk : Desk}
    (hm : desk.memory u = {}) (handle : Preorder.Visit Die → Walk Unit) :
    ∃ m, outcome (forEntries s u handle) desk = (.error .undecodable, desk.remember u m) := by
  have htop := outcome_inUnit (u := u) (u.topDie s) desk
  rw [hm, CompileUnit.outcome_topDie_of_top?_none ht] at htop
  refine ⟨(outcome (u.topDie s) {}).2, ?_⟩
  unfold forEntries
  rw [outcome_bind, htop]

/-- How a unit is walked: the desk is spoilt, or there is no end, or what the unit adds is found. -/
def Walked (s : DebugSections) (u : CompileUnit) (desk : Desk)
    (run : Except Failure Unit × Desk) : Prop :=
  ((u.addedByUnit s).run = none ∧ Desk.Spoilt u desk run.2) ∨
    ((u.addedByUnit s).run = some (.error .endless) ∧ run.1 = .error .endless) ∨
    ∃ added, (u.addedByUnit s).Gives added ∧ run.1 = .ok () ∧ Desk.Apart u desk run.2 ∧
      run.2.found = desk.found ++ added

theorem walked_walkUnit {desk : Desk} (h : desk.Fresh u) :
    Walked s u desk (outcome (walkUnit s u) desk) := by
  obtain ⟨desk₁, hv, hlike⟩ := outcome_checkVersion u.encoding.version desk
  obtain ⟨desk₂, hw, hlike'⟩ := outcome_orReport (forEntries s u (processEntry s u)) .warning
    walkerLogger ("Cannot decode the compile unit at offset 0x" ++ Text.hex u.offset ++
      ". Skipping the rest of it") desk₁
  unfold walkUnit
  rw [outcome_bind, hv]
  simp only
  rw [hw]
  unfold Walked CompileUnit.addedByUnit
  cases ht : u.top? s with
  | none =>
    obtain ⟨m, hrun⟩ := outcome_forEntries_of_top?_none ht ((hlike.memory u).trans h.memory)
      (processEntry s u)
    rw [hrun] at hlike' ⊢
    refine .inr (.inr ⟨{}, rfl, rfl, ?_, ?_⟩)
    · exact (((Desk.Apart.refl u desk).alike hlike).remember m).alike hlike'
    · rw [Symbols.append_empty]
      exact hlike'.found.trans hlike.found
  | some t =>
    have hplain (r : Option (Except Failure (Symbols × Bool)))
        (hr : (u.addedFromTop s t).run = r) :
        ExceptT.run (Prod.fst <$> u.addedFromTop s t) = r.map (Except.map Prod.fst) := by
      rw [ExceptT.run_map, hr]
      rfl
    rcases handled_forEntries ht ((h.sound s t).alike hlike) with
      ⟨hp, hs⟩ | ⟨hp, hr⟩ | ⟨added, stopped, hp, hs, hr⟩
    · exact .inl ⟨hplain _ hp, hs.alike hlike'⟩
    · rw [hr]
      exact .inr (.inl ⟨hplain _ hp, rfl⟩)
    · refine .inr (.inr ⟨added, hplain _ hp, ?_, hs.apart.alike hlike', hlike'.found.trans hs.found⟩)
      cases stopped with
      | true =>
        obtain ⟨e, he, hr⟩ := hr
        rw [hr]
        cases e with
        | endless => exact absurd rfl he
        | undecodable => rfl
        | invalid e => rfl
      | false =>
        rw [show (outcome (forEntries s u (processEntry s u)) desk₁).1 = .ok () from hr]

/-! ### All units -/

theorem Walked.apart {desk : Desk} {run : Except Failure Unit × Desk} (h : Walked s u desk run)
    (hr : run.1 = .ok ()) : Desk.Apart u desk run.2 := by
  rcases h with ⟨-, h⟩ | ⟨-, h⟩ | ⟨-, -, -, h, -⟩
  · exact h.apart
  · rw [hr] at h
    cases h
  · exact h

theorem outcome_forM_cons (u : CompileUnit) (us : List CompileUnit) (desk : Desk) :
    outcome ((u :: us).forM (walkUnit s)) desk = match outcome (walkUnit s u) desk with
      | (.ok _, desk) => outcome (us.forM (walkUnit s)) desk
      | (.error e, desk) => (.error e, desk) := by
  change outcome (walkUnit s u >>= fun _ => us.forM (walkUnit s)) desk = _
  rw [outcome_bind]
  rcases outcome (walkUnit s u) desk with ⟨_ | _, _⟩ <;> rfl

/-- What is remembered of other units stays. -/
theorem lookup_forM_walkUnit {us : List CompileUnit} {desk : Desk}
    (hd : us.Pairwise (·.offset ≠ ·.offset)) (hf : ∀ u ∈ us, desk.Fresh u)
    (hr : (outcome (us.forM (walkUnit s)) desk).1 = .ok ()) {o : Nat}
    (ho : ∀ u ∈ us, u.offset ≠ o) :
    (outcome (us.forM (walkUnit s)) desk).2.memories.lookup o = desk.memories.lookup o := by
  induction us generalizing desk with
  | nil => rfl
  | cons u us ih =>
    rw [List.pairwise_cons] at hd
    rw [List.forall_mem_cons] at hf ho
    have hw := @walked_walkUnit s u desk hf.1
    rw [outcome_forM_cons] at hr ⊢
    rcases hrun : outcome (walkUnit s u) desk with ⟨e | _, desk'⟩ <;> rw [hrun] at hw hr
    · cases hr
    · have ha := hw.apart rfl
      exact (ih hd.2 (fun u' h => (hf.2 u' h).apart ha (hd.1 u' h)) hr ho.2).trans
        (ha.memories o ho.1.symm)

/-- How units are walked one after the other. -/
theorem walked_forM {us : List CompileUnit} {desk : Desk}
    (hd : us.Pairwise (·.offset ≠ ·.offset)) (hf : ∀ u ∈ us, desk.Fresh u) :
    (∃ u ∈ us, (u.addedByUnit s).run = none ∧
      ((outcome (us.forM (walkUnit s)) desk).1 = .ok () →
        ((outcome (us.forM (walkUnit s)) desk).2.memory u).Stray u)) ∨
    ((∃ u ∈ us, (u.addedByUnit s).run = some (.error .endless)) ∧
      (outcome (us.forM (walkUnit s)) desk).1 = .error .endless) ∨
    ∃ added, List.Forall₂ (fun u a => (u.addedByUnit s).Gives a) us added ∧
      (outcome (us.forM (walkUnit s)) desk).1 = .ok () ∧
      (outcome (us.forM (walkUnit s)) desk).2.found = desk.found ++ Symbols.concat added := by
  induction us generalizing desk with
  | nil => exact .inr (.inr ⟨[], .nil, rfl, (Symbols.append_empty _).symm⟩)
  | cons u us ih =>
    rw [List.pairwise_cons] at hd
    rw [List.forall_mem_cons] at hf
    have hw := @walked_walkUnit s u desk hf.1
    rw [outcome_forM_cons]
    rcases hrun : outcome (walkUnit s u) desk with ⟨e | _, desk'⟩ <;> rw [hrun] at hw
    · rcases hw with ⟨hp, -⟩ | ⟨hp, he⟩ | ⟨-, -, he, -⟩
      · exact .inl ⟨u, List.mem_cons_self, hp, fun h => by cases h⟩
      · exact .inr (.inl ⟨⟨u, List.mem_cons_self, hp⟩, he⟩)
      · cases he
    · have hfresh (u' : CompileUnit) (h : u' ∈ us) : desk'.Fresh u' :=
        (hf.2 u' h).apart (hw.apart rfl) (hd.1 u' h)
      rcases hw with ⟨hp, hs⟩ | ⟨-, he⟩ | ⟨a, ha, -, -, hfound⟩
      · refine .inl ⟨u, List.mem_cons_self, hp, fun h => ?_⟩
        have hl := lookup_forM_walkUnit hd.2 hfresh h fun u' hu' => (hd.1 u' hu').symm
        rw [Desk.memory, hl]
        exact hs.stray
      · cases he
      · rcases ih hd.2 hfresh with ⟨u', hu', h⟩ | ⟨⟨u', hu', h⟩, he⟩ | ⟨added, hadded, hr, hrest⟩
        · exact .inl ⟨u', List.mem_cons_of_mem _ hu', h⟩
        · exact .inr (.inl ⟨⟨u', List.mem_cons_of_mem _ hu', h⟩, he⟩)
        · refine .inr (.inr ⟨a :: added, .cons ha hadded, hr, ?_⟩)
          rw [hrest, hfound, Symbols.append_assoc]
          rfl

end Walk

namespace CompileUnit

theorem at?_offset {s : DebugSections} {offset : Nat} {u : CompileUnit}
    (h : at? s offset = some u) : u.offset = offset := by
  unfold at? at h
  split at h
  · cases h
  · cases h
    rfl

/-- Each unit starts after the one before it. -/
theorem pairwise_listFrom (s : DebugSections) (fuel offset : Nat) :
    (∀ u ∈ (listFrom s fuel offset).1, offset ≤ u.offset) ∧
      (listFrom s fuel offset).1.Pairwise (·.offset ≠ ·.offset) := by
  induction fuel generalizing offset with
  | zero => exact ⟨by simp [listFrom], by simp [listFrom]⟩
  | succ fuel ih =>
    rw [listFrom]
    split_ifs
    · exact ⟨by simp, by simp⟩
    · cases hu : at? s offset with
      | none => exact ⟨by simp, by simp⟩
      | some u =>
        have ho := at?_offset hu
        have hnext : offset < u.next := by
          unfold next
          split_ifs <;> omega
        obtain ⟨hle, hpair⟩ := ih u.next
        refine ⟨List.forall_mem_cons.mpr ⟨ho.ge, fun u' h => ?_⟩, List.pairwise_cons.mpr
          ⟨fun u' h => ?_, hpair⟩⟩
        · exact hnext.le.trans (hle u' h)
        · have := hle u' h
          omega

/-- The units of the debug information, up to a header that cannot be decoded. -/
abbrev units (s : DebugSections) : List CompileUnit := (list s).1

end CompileUnit

namespace Walk
variable {s : DebugSections} {desk : Desk}

theorem runUnits_eq (s : DebugSections) : runUnits s =
    (CompileUnit.units s).forM (walkUnit s) >>= fun _ =>
      reportHeader (CompileUnit.list s).2 >>= fun _ => summarize := rfl

theorem outcome_runUnits (s : DebugSections) (desk : Desk) :
    ∃ desk', Desk.Alike (outcome ((CompileUnit.units s).forM (walkUnit s)) desk).2 desk' ∧
      outcome (runUnits s) desk =
        (match (outcome ((CompileUnit.units s).forM (walkUnit s)) desk).1 with
          | .ok _ => .ok (outcome ((CompileUnit.units s).forM (walkUnit s)) desk).2.found
          | .error e => .error e, desk') := by
  rw [runUnits_eq, outcome_bind]
  rcases outcome ((CompileUnit.units s).forM (walkUnit s)) desk with ⟨e | _, desk'⟩
  · exact ⟨desk', ⟨rfl, rfl, rfl⟩, rfl⟩
  · simp only
    cases (CompileUnit.list s).2 with
    | true =>
      refine ⟨_, ?_, rfl⟩
      exact ⟨rfl, rfl, rfl⟩
    | false =>
      refine ⟨_, ?_, rfl⟩
      exact ⟨rfl, rfl, rfl⟩

/-- Only memories and reports are kept from before a walk. -/
theorem outcome_run_reset (s : DebugSections) (desk : Desk) :
    outcome (run (some s)) desk = outcome (runUnits s)
      { desk with types := [], found := {}, versionReported := false } := by
  change outcome (_ >>= _) desk = _
  rw [outcome_bind]
  rfl

/-- How a walk ends that starts with no memory: a unit is spoilt, or there is no end, or what the
units add is found. -/
theorem outcome_run (s : DebugSections) {desk : Desk} (hm : desk.memories = []) :
    (∃ u ∈ CompileUnit.units s, (u.addedByUnit s).run = none ∧
      ∀ symbols, (outcome (run (some s)) desk).1 = .ok symbols →
        ((outcome (run (some s)) desk).2.memory u).Stray u) ∨
    ((∃ u ∈ CompileUnit.units s, (u.addedByUnit s).run = some (.error .endless)) ∧
      (outcome (run (some s)) desk).1 = .error .endless) ∨
    ∃ added, List.Forall₂ (fun u a => (u.addedByUnit s).Gives a) (CompileUnit.units s) added ∧
      (outcome (run (some s)) desk).1 = .ok (Symbols.concat added) := by
  have hfresh (u : CompileUnit) (_ : u ∈ CompileUnit.units s) :
      Desk.Fresh u { desk with types := [], found := {}, versionReported := false } :=
    ⟨by simp [hm], by simp⟩
  obtain ⟨desk', hlike, hrun⟩ := outcome_runUnits s
    { desk with types := [], found := {}, versionReported := false }
  rw [outcome_run_reset, hrun]
  rcases walked_forM (CompileUnit.pairwise_listFrom s _ 0).2 hfresh with
    ⟨u, hu, hp, hs⟩ | ⟨hp, he⟩ | ⟨added, hadded, hr, hfound⟩
  · refine .inl ⟨u, hu, hp, fun symbols h => ?_⟩
    rw [hlike.memory]
    apply hs
    split at h
    · next hok => exact hok
    · cases h
  · rw [show (outcome ((CompileUnit.units s).forM (walkUnit s)) _).1 = .error .endless from he]
    exact .inr (.inl ⟨hp, rfl⟩)
  · refine .inr (.inr ⟨added, hadded, ?_⟩)
    rw [show (outcome ((CompileUnit.units s).forM (walkUnit s)) _).1 = .ok () from hr]
    exact congrArg Except.ok (hfound.trans (Symbols.empty_append _))

end Walk

end Dwarf

end ElfScope
