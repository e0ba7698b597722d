import Mathlib
import ElfScope.Proofs.Dwarf.Provenance
import ElfScope.Proofs.Dwarf.UnitWalk

/-! # Containment of faults

A walk lists the records that the entries of each unit give on their own, up to the first entry of
the unit that cannot be decoded: an entry that fails loses its own record only, and an entry that
cannot be decoded loses those after it in its unit. A reference to before the first entry of a unit
can break this, since the entry there takes the place of the first one.
-/
namespace ElfScope.Dwarf

/-! ### Records and visits -/

namespace CompileUnit
variable {s : DebugSections} {u : CompileUnit} {t : Die}

/-- What the entries that are left add is what each of them adds. -/
theorem addedFrom_gives {fuel : Nat} {levels : List (Preorder.Level Cursor)} {a : Symbols}
    {stopped : Bool} : (addedFrom s u t fuel levels).Gives (a, stopped) ↔
      ∃ vs added, (visitsFrom s u t fuel levels).Gives (vs, stopped) ∧
        List.Forall₂ (fun v b => (addedBy s u t v).Gives b) vs added ∧ a = Symbols.concat added := by
  induction fuel generalizing levels a with
  | zero => simp [addedFrom, visitsFrom, Plain.not_gives_throw]
  | succ fuel ih =>
    rw [addedFrom, visitsFrom]
    simp only [Plain.gives_bind]
    constructor
    · rintro ⟨_ | _ | ⟨v, levels⟩, ho, h⟩
      · cases Plain.gives_pure.mp h
        exact ⟨[], [], ⟨none, ho, Plain.gives_pure.mpr rfl⟩, .nil, rfl⟩
      · cases Plain.gives_pure.mp h
        exact ⟨[], [], ⟨some none, ho, Plain.gives_pure.mpr rfl⟩, .nil, rfl⟩
      · obtain ⟨b, hb, h⟩ := Plain.gives_bind.mp h
        obtain ⟨⟨rest, stopped'⟩, hrest, h⟩ := Plain.gives_bind.mp h
        cases Plain.gives_pure.mp h
        obtain ⟨vs, added, hvs, hadded, rfl⟩ := ih.mp hrest
        exact ⟨v :: vs, b :: added, ⟨some (some (v, levels)), ho, Plain.gives_bind.mpr
          ⟨_, hvs, Plain.gives_pure.mpr rfl⟩⟩, .cons hb hadded, rfl⟩
    · rintro ⟨vs, added, ⟨_ | _ | ⟨v, levels⟩, ho, h⟩, hadded, rfl⟩
      · cases Plain.gives_pure.mp h
        cases hadded
        exact ⟨none, ho, Plain.gives_pure.mpr rfl⟩
      · cases Plain.gives_pure.mp h
        cases hadded
        exact ⟨some none, ho, Plain.gives_pure.mpr rfl⟩
      · obtain ⟨⟨rest, stopped'⟩, hrest, h⟩ := Plain.gives_bind.mp h
        cases Plain.gives_pure.mp h
        cases hadded with
        | cons hb hadded =>
          exact ⟨some (some (v, levels)), ho, Plain.gives_bind.mpr ⟨_, hb, Plain.gives_bind.mpr
            ⟨_, ih.mpr ⟨_, _, hrest, hadded, rfl⟩, Plain.gives_pure.mpr rfl⟩⟩⟩

theorem genuine_of_visitsFrom (ht : top? s u = some t) {fuel : Nat}
    {levels : List (Preorder.Level Cursor)} {vs : List (Preorder.Visit Die)} {stopped : Bool}
    (h : (visitsFrom s u t fuel levels).Gives (vs, stopped)) :
    ∀ v ∈ vs, Genuine s u t v.node := by
  induction fuel generalizing levels vs with
  | zero => cases Plain.not_gives_throw h
  | succ fuel ih =>
    obtain ⟨_ | _ | ⟨v, levels⟩, ho, h⟩ := Plain.gives_bind.mp h
    · cases Plain.gives_pure.mp h
      simp
    · cases Plain.gives_pure.mp h
      simp
    · obtain ⟨⟨rest, stopped'⟩, hrest, h⟩ := Plain.gives_bind.mp h
      cases Plain.gives_pure.mp h
      exact List.forall_mem_cons.mpr
        ⟨genuine_of_nextVisit ht (Plain.gives_attempt_some.mp ho), ih hrest⟩

variable (s u t)

/-- The entries of a unit with a given first one. -/
def visitsFromTop : Plain (List (Preorder.Visit Die) × Bool) := do
  let (rest, stopped) ← visitsFrom s u t (visitLimit s) (firstLevels t)
  return (topVisit t :: rest, stopped)

variable {s u t}

theorem addedFromTop_gives {a : Symbols} {stopped : Bool} :
    (addedFromTop s u t).Gives (a, stopped) ↔ ∃ vs added,
      (visitsFromTop s u t).Gives (vs, stopped) ∧
        List.Forall₂ (fun v b => (addedBy s u t v).Gives b) vs added ∧ a = Symbols.concat added := by
  unfold addedFromTop visitsFromTop
  simp only [Plain.gives_bind]
  constructor
  · rintro ⟨b, hb, ⟨rest, stopped'⟩, hrest, h⟩
    cases Plain.gives_pure.mp h
    obtain ⟨vs, added, hvs, hadded, rfl⟩ := addedFrom_gives.mp hrest
    exact ⟨_, _, ⟨_, hvs, Plain.gives_pure.mpr rfl⟩, .cons hb hadded, rfl⟩
  · rintro ⟨vs, added, ⟨⟨rest, stopped'⟩, hrest, h⟩, hadded, rfl⟩
    cases Plain.gives_pure.mp h
    cases hadded with
    | cons hb hadded =>
      exact ⟨_, hb, _, addedFrom_gives.mpr ⟨_, _, hrest, hadded, rfl⟩, Plain.gives_pure.mpr rfl⟩

end CompileUnit

/-! ### What an entry gives on its own -/

namespace Walk
variable (s : DebugSections) (u : CompileUnit)

/-- What an action gives with nothing kept from others, if it does not fail. -/
def alone {α : Type} (act : Walk α) : Option α := (outcome act {}).1.toOption

/-- The entries that a traversal of a unit alone reaches before one that cannot be decoded. -/
def reached : List (Preorder.Visit Die) := ((alone (entries s u)).map Prod.fst).getD []

def functionAlone (v : Preorder.Visit Die) : Option FunctionInfo :=
  if v.node.tag = some Tag.subprogram then alone (extractFunction s u v.node) else none

/-- Variables within a subprogram have no record. -/
def globalAlone (v : Preorder.Visit Die) : Option VariableInfo :=
  if v.node.tag = some Tag.variableEntry ∧ v.inside = false then
    alone (extractVariable v.node .global)
  else none

def typeAlone (v : Preorder.Visit Die) : Option TypeInfo :=
  if v.node.tag = some Tag.structureType ∨ v.node.tag = some Tag.unionType ∨
      v.node.tag = some Tag.enumerationType then
    alone (extractType s u v.node)
  else none

variable {s u} {t : Die} {base : Desk} {found : Symbols}

theorem fresh_empty (u : CompileUnit) : Desk.Fresh u {} := ⟨rfl, by simp⟩

/-- Alone an action does what a plain reading gives. -/
theorem Follows.alone {α : Type} {act : Walk α} {p : Plain α} (h : Follows s u t {} {} act p)
    {r : Except Failure α} (hp : p.run = some r) : Walk.alone act = r.toOption := by
  rcases h.sound {} ((fresh_empty u).sound s t) with ⟨hn, -⟩ | ⟨hr, -⟩
  · rw [hp] at hn
    cases hn
  · rw [hp] at hr
    rw [Walk.alone, ← Option.some.inj hr]

theorem follows_entries (ht : u.top? s = some t) :
    Follows s u t base found (entries s u) (u.visitsFromTop s t) := by
  have htop := follows_attempt (@follows_inUnit s u t base found _ _ _
    (CompileUnit.simulates_topDie ht))
  rw [Plain.attempt_pure] at htop
  have hfrom (top : Die) := @follows_entriesFrom s u t base found ht (CompileUnit.visitLimit s)
    (CompileUnit.firstLevels top)
  refine htop.bind_of_pure (fun o => ?_) ((hfrom t).bind fun p => .pure _)
  cases o with
  | none => exact fun _ h => h
  | some top => exact ((hfrom top).bind fun p => .pure (CompileUnit.topVisit top :: p.1, p.2)).spoilt

/-- A record that is made on its own, or none where that fails. -/
theorem eq_of_record {α : Type} {act : Walk α} {p : Plain α} (hf : Follows s u t {} {} act p)
    (make : α → Symbols) {a : Symbols} (h : ((·.getD {}) <$>
      (p >>= fun x => pure (make x) : Plain Symbols).attempt).Gives a) :
    a = ((alone act).map make).getD {} := by
  unfold Plain.Gives at h
  rw [Plain.run_getD_attempt, ← map_eq_pure_bind, ExceptT.run_map] at h
  rcases hp : p.run with _ | (e | x) <;> rw [hp] at h
  · cases h
  · rw [hf.alone hp]
    cases e <;> cases h <;> rfl
  · rw [hf.alone hp]
    cases h
    rfl

/-- What an entry adds to the symbols is what it gives on its own. -/
theorem eq_of_addedBy (ht : u.top? s = some t) {v : Preorder.Visit Die}
    (hv : u.Genuine s t v.node) {a : Symbols} (h : (u.addedBy s t v).Gives a) :
    a = ⟨(functionAlone s u v).toList, (globalAlone v).toList, (typeAlone s u v).toList⟩ := by
  unfold CompileUnit.addedBy CompileUnit.symbolsOf at h
  unfold functionAlone globalAlone typeAlone
  by_cases hs : v.node.tag = some Tag.subprogram
  · rw [if_pos hs] at h
    rw [eq_of_record (follows_extractFunction ht v.node) (fun f => { functions := [f] }) h]
    simp only [hs, Tag.subprogram, Tag.variableEntry, Tag.structureType, Tag.unionType,
      Tag.enumerationType]
    cases alone (extractFunction s u v.node) <;> rfl
  · rw [if_neg hs] at h
    by_cases hx : v.node.tag = some Tag.variableEntry
    · rw [if_pos hx] at h
      have hg : a = if v.inside then {} else { globals := [v.node.variableInfo .global] } :=
        (Plain.gives_pure.mp h).symm
      have hty : ¬(v.node.tag = some Tag.structureType ∨ v.node.tag = some Tag.unionType ∨
          v.node.tag = some Tag.enumerationType) := by
        rw [hx]
        decide
      rw [hg, if_neg hs, if_neg hty]
      cases hi : v.inside with
      | true =>
        rw [if_pos rfl, if_neg (by simp)]
        rfl
      | false =>
        rw [if_neg (by simp), if_pos ⟨hx, rfl⟩]
        rfl
    · rw [if_neg hx] at h
      by_cases hty : v.node.tag = some Tag.structureType ∨ v.node.tag = some Tag.unionType ∨
          v.node.tag = some Tag.enumerationType
      · rw [if_pos hty] at h
        rw [eq_of_record (follows_extractType ht hv) (fun info => { types := [info] }) h,
          if_neg hs, if_neg fun hg => hx hg.1, if_pos hty]
        cases alone (extractType s u v.node) <;> rfl
      · rw [if_neg hty] at h
        rw [if_neg hs, if_neg fun hg => hx hg.1, if_neg hty]
        exact (Plain.gives_pure.mp h).symm

/-! ### Whole walks -/

/-- What the entries that a unit alone reaches give on their own. -/
def unitAlone (s : DebugSections) (u : CompileUnit) : Symbols :=
  ⟨(reached s u).filterMap (functionAlone s u), (reached s u).filterMap globalAlone,
    (reached s u).filterMap (typeAlone s u)⟩

theorem concat_eq_filterMap (ht : u.top? s = some t) {vs : List (Preorder.Visit Die)}
    (hvs : ∀ v ∈ vs, u.Genuine s t v.node) {added : List Symbols}
    (h : List.Forall₂ (fun v b => (u.addedBy s t v).Gives b) vs added) :
    Symbols.concat added = ⟨vs.filterMap (functionAlone s u), vs.filterMap globalAlone,
      vs.filterMap (typeAlone s u)⟩ := by
  induction h with
  | nil => rfl
  | @cons v b vs added hb _ ih =>
    obtain ⟨hv, hvs⟩ := List.forall_mem_cons.mp hvs
    rw [Symbols.concat_cons, ih hvs, eq_of_addedBy ht hv hb, Symbols.append_def]
    simp only [List.filterMap_cons]
    cases functionAlone s u v <;> cases globalAlone v <;> cases typeAlone s u v <;> rfl

theorem outcome_entries_of_top?_none (ht : u.top? s = none) :
    (outcome (entries s u) {}).1 = .ok ([], true) := by
  unfold entries
  rw [outcome_bind, outcome_attempt, outcome_inUnit]
  have hmem : Desk.memory {} u = {} := rfl
  rcases hr : outcome (u.topDie s) (Desk.memory {} u) with ⟨r, m⟩
  have htop := CompileUnit.outcome_topDie_of_top?_none ht
  rw [← hmem, hr] at htop
  cases htop
  rfl

/-- A unit that is walked to an end adds what its entries give on their own. -/
theorem addedByUnit_gives {a : Symbols} (h : (u.addedByUnit s).Gives a) :
    (∃ stopped, (outcome (entries s u) {}).1 = .ok (reached s u, stopped)) ∧ a = unitAlone s u := by
  unfold CompileUnit.addedByUnit at h
  have hreached {vs : List (Preorder.Visit Die)} {stopped : Bool}
      (he : (outcome (entries s u) {}).1 = .ok (vs, stopped)) : reached s u = vs := by
    rw [reached, alone, he]
    rfl
  cases ht : u.top? s with
  | none =>
    rw [ht] at h
    have he := outcome_entries_of_top?_none ht
    unfold unitAlone
    rw [hreached he]
    exact ⟨⟨true, he⟩, (Plain.gives_pure.mp h).symm⟩
  | some t =>
    rw [ht] at h
    obtain ⟨⟨b, stopped⟩, hb, rfl⟩ := Plain.gives_map.mp h
    obtain ⟨vs, added, hvs, hadded, rfl⟩ := CompileUnit.addedFromTop_gives.mp hb
    have he : (outcome (entries s u) {}).1 = .ok (vs, stopped) := by
      rcases (follows_entries ht).sound {} ((fresh_empty u).sound s t) with ⟨hn, -⟩ | ⟨hr, -⟩
      · rw [hvs] at hn
        cases hn
      · rw [hvs] at hr
        exact (Option.some.inj hr).symm
    have hgenuine : ∀ v ∈ vs, u.Genuine s t v.node := by
      obtain ⟨⟨rest, stopped'⟩, hrest, hp⟩ := Plain.gives_bind.mp hvs
      cases Plain.gives_pure.mp hp
      exact List.forall_mem_cons.mpr
        ⟨CompileUnit.genuine_top ht, CompileUnit.genuine_of_visitsFrom ht hrest⟩
    unfold unitAlone
    rw [hreached he]
    exact ⟨⟨stopped, he⟩, concat_eq_filterMap ht hgenuine hadded⟩

theorem outcome_units (s : DebugSections) :
    (outcome (units s) {}).1 = .ok (CompileUnit.units s) := by
  have hunits : units s = reportHeader (CompileUnit.list s).2 >>= fun _ =>
      pure (CompileUnit.units s) := rfl
  rw [hunits, outcome_bind]
  cases (CompileUnit.list s).2 <;> rfl

/-- A walk that ends, and in which no entry before the first one of its unit has been decoded, lists
what the entries of the units give on their own, unit by unit, each unit up to an entry that cannot
be decoded. -/
theorem run_eq_flatMap_unitAlone (s : DebugSections)
    (hend : (outcome (run (some s)) {}).1 ≠ .error .endless)
    (hfirst : ∀ u ∈ CompileUnit.units s, ∀ d ∈ ((outcome (run (some s)) {}).2.memory u).entries,
      u.start ≤ d.offset) :
    (outcome (units s) {}).1 = .ok (CompileUnit.units s) ∧
    (∀ u ∈ CompileUnit.units s,
      ∃ stopped, (outcome (entries s u) {}).1 = .ok (reached s u, stopped)) ∧
    (outcome (run (some s)) {}).1 = .ok
      ⟨(CompileUnit.units s).flatMap fun u => (reached s u).filterMap (functionAlone s u),
        (CompileUnit.units s).flatMap fun u => (reached s u).filterMap globalAlone,
        (CompileUnit.units s).flatMap fun u => (reached s u).filterMap (typeAlone s u)⟩ := by
  refine ⟨outcome_units s, ?_⟩
  rcases @outcome_run s {} rfl with ⟨u, hu, -, hstray⟩ | ⟨-, he⟩ | ⟨added, hadded, hrun⟩
  · cases hr : (outcome (run (some s)) {}).1 with
    | error e => exact absurd (hr.trans (congrArg _ (outcome_run_error (some s) {} hr))) hend
    | ok symbols =>
      obtain ⟨d, hd, hlt⟩ := hstray symbols hr
      exact absurd (hfirst u hu d hd) (by omega)
  · exact absurd he hend
  · have hall : (∀ u ∈ CompileUnit.units s,
        ∃ stopped, (outcome (entries s u) {}).1 = .ok (reached s u, stopped)) ∧
        added = (CompileUnit.units s).map (unitAlone s) := by
      clear hrun hfirst
      generalize CompileUnit.units s = us at hadded ⊢
      induction hadded with
      | nil => exact ⟨by simp, rfl⟩
      | cons h _ ih =>
        obtain ⟨he, rfl⟩ := addedByUnit_gives h
        exact ⟨List.forall_mem_cons.mpr ⟨he, ih.1⟩, congrArg _ ih.2⟩
    refine ⟨hall.1, ?_⟩
    rw [hrun, hall.2, Symbols.concat]
    simp only [List.flatMap_map]
    rfl

/-- A unit with a block in a block, and after these a type whose member has an indexed name. The inner
block has a sibling reference. -/
def nestedBlocks (sibling : UInt8) : DebugSections where
  info := [32, 0, 0, 0, 5, 0, 1, 8, 0, 0, 0, 0, 1, 0, 0, 0, 0, 2, 29, 0, 0, 0, 2, sibling, 0, 0, 0,
    0, 0, 3, 84, 0, 4, 0, 0, 0]
  abbreviations := [1, 17, 1, 114, 23, 0, 0, 2, 11, 1, 1, 19, 0, 0, 3, 19, 1, 3, 8, 0, 0, 4, 13, 0,
    3, 37, 0, 0, 0]
  strings := [109, 0]
  stringOffsets := some [0, 0, 0, 0]

theorem run_nestedBlocks :
    (outcome (run (some (nestedBlocks 28))) {}).1 = .ok
      ⟨(CompileUnit.units (nestedBlocks 28)).flatMap fun u =>
          (reached (nestedBlocks 28) u).filterMap (functionAlone (nestedBlocks 28) u),
        (CompileUnit.units (nestedBlocks 28)).flatMap fun u =>
          (reached (nestedBlocks 28) u).filterMap globalAlone,
        (CompileUnit.units (nestedBlocks 28)).flatMap fun u =>
          (reached (nestedBlocks 28) u).filterMap (typeAlone (nestedBlocks 28) u)⟩ ∧
    (outcome (run (some (nestedBlocks 28))) {}).1 = .ok
      { types := [.mk "T" none .struct [.mk "m" 0 .unresolved]] } := by
  have hrun : (outcome (run (some (nestedBlocks 28))) {}).1 = .ok
      { types := [.mk "T" none .struct [.mk "m" 0 .unresolved]] } := by cbv
  refine ⟨(run_eq_flatMap_unitAlone _ ?_ ?_).2.2, hrun⟩
  · rw [hrun]
    simp
  · decide +kernel

/-- With a sibling reference to the header of the unit, the name of the member is looked up as if
there were no base for it, and the type is lost. On its own the type has its record. -/
theorem run_nestedBlocks_header :
    (outcome (run (some (nestedBlocks 3))) {}).1 = .ok {} ∧
    ((CompileUnit.units (nestedBlocks 3)).flatMap fun u =>
        (reached (nestedBlocks 3) u).filterMap (typeAlone (nestedBlocks 3) u)) =
      [.mk "T" none .struct [.mk "m" 0 .unresolved]] :=
  ⟨by cbv, by decide +kernel⟩

end Walk

end ElfScope.Dwarf
