import Mathlib
import ElfScope.Dwarf.Walk
import ElfScope.Proofs.Dwarf.Plain

/-! # Where the records of a walk come from

What a walk lists was made of entries and of nothing else, for any bytes in the debug sections. A
walk fails in one way only: by having no end. What holds of the desk all along is told step by step:
what is remembered, reported, cached and added.
-/
namespace ElfScope.Dwarf

/-- A member that was made of an entry. -/
def FromMember (m : MemberInfo) : Prop := ∃ d : Die, d.memberInfo = .ok m

/-- A parameter that was made of an entry. -/
def FromParameter (x : VariableInfo) : Prop := ∃ d : Die, x = d.variableInfo .parameter

def FromSubprogram (f : FunctionInfo) : Prop :=
  ∃ (d : Die) (parameters : List VariableInfo),
    d.functionInfo parameters = .ok f ∧ ∀ x ∈ parameters, FromParameter x

def FromVariable (x : VariableInfo) : Prop := ∃ d : Die, x = d.variableInfo .global

/-- The entries that types are listed for. -/
def Die.IsType (d : Die) : Prop :=
  d.tag = some Tag.structureType ∨ d.tag = some Tag.unionType ∨ d.tag = some Tag.enumerationType

/-- Only structures and unions have members. -/
def FromType (t : TypeInfo) : Prop :=
  ∃ (d : Die) (members : List MemberInfo), d.IsType ∧ d.typeInfo members = .ok t ∧
    (∀ m ∈ members, FromMember m) ∧ (d.tag = some Tag.enumerationType → members = [])

/-- Every record was made of an entry of its kind. -/
structure FromEntries (s : Symbols) : Prop where
  functions : ∀ f ∈ s.functions, FromSubprogram f
  globals : ∀ x ∈ s.globals, FromVariable x
  types : ∀ t ∈ s.types, FromType t

theorem fromEntries_empty : FromEntries {} := ⟨by simp, by simp, by simp⟩

/-- What is told of a unit with a supported version: of its entries, of those that no record can be
made of, and of an entry that cannot be decoded. -/
inductive UnitReport : LogRecord → Prop where
  | entry (message : Text) : UnitReport ⟨.dumpData, Walk.walkerLogger, message⟩
  | skipped (logger rest : Text) : UnitReport ⟨.warning, logger, "Skipping " ++ rest⟩
  | cutShort (offset : Nat) : UnitReport ⟨.warning, Walk.walkerLogger,
      "Cannot decode the compile unit at offset 0x" ++ Text.hex offset ++
        ". Skipping the rest of it"⟩

/-- What a desk holds between the steps of a walk. -/
structure Desk.FromEntries (desk : Desk) : Prop where
  found : Dwarf.FromEntries desk.found
  types : ∀ p ∈ desk.types, FromType p.2

namespace Walk
variable {α β κ : Type} {P : Desk → Prop} {Q : α → Prop} {R : β → Prop} {E F : Failure → Prop}

/-- An action keeps a property of the desk, and gives values and failures of certain kinds. -/
def Keeps (P : Desk → Prop) (act : Walk α) (Q : α → Prop) (E : Failure → Prop) : Prop :=
  ∀ desk, P desk → match act desk with
    | .ok a desk' => P desk' ∧ Q a
    | .error e desk' => P desk' ∧ E e

theorem Keeps.stays {act : Walk α} (ha : Keeps P act Q E) : Stays P act := by
  intro desk hp
  have h := ha desk hp
  unfold outcome
  cases hr : act desk with
  | ok a desk' =>
    rw [hr] at h
    exact h.1
  | error e desk' =>
    rw [hr] at h
    exact h.1

theorem keeps_pure {a : α} (h : Q a) : Keeps P (pure a) Q E := fun _ hp => ⟨hp, h⟩

theorem keeps_throw {e : Failure} (h : E e) : Keeps P (throw e : Walk α) Q E := fun _ hp => ⟨hp, h⟩

theorem keeps_get : Keeps P get P E := fun _ hp => ⟨hp, hp⟩

theorem keeps_modify {f : Desk → Desk} (h : ∀ desk, P desk → P (f desk)) :
    Keeps P (modify f) (fun _ => True) E := fun desk hp => ⟨h desk hp, trivial⟩

theorem Keeps.bind {act : Walk α} {f : α → Walk β} (ha : Keeps P act Q E)
    (hf : ∀ a, Q a → Keeps P (f a) R E) : Keeps P (act >>= f) R E := by
  intro desk hp
  have h := ha desk hp
  change match EStateM.bind act f desk with
    | .ok a desk' => P desk' ∧ R a
    | .error e desk' => P desk' ∧ E e
  unfold EStateM.bind
  cases hr : act desk with
  | ok a desk' =>
    rw [hr] at h
    exact hf a h.2 desk' h.1
  | error e desk' =>
    rw [hr] at h
    exact h

theorem Keeps.mono {act : Walk α} {Q' : α → Prop} (ha : Keeps P act Q E) (hq : ∀ a, Q a → Q' a)
    (he : ∀ e, E e → F e) : Keeps P act Q' F := by
  intro desk hp
  have h := ha desk hp
  cases hr : act desk with
  | ok a desk' =>
    rw [hr] at h
    exact ⟨h.1, hq a h.2⟩
  | error e desk' =>
    rw [hr] at h
    exact ⟨h.1, he e h.2⟩

theorem Keeps.ite {c : Prop} [Decidable c] {act act' : Walk α} (h : c → Keeps P act Q E)
    (h' : ¬c → Keeps P act' Q E) : Keeps P (if c then act else act') Q E := by
  by_cases hc : c
  · rw [if_pos hc]
    exact h hc
  · rw [if_neg hc]
    exact h' hc

/-- What is attempted fails by having no end, or not at all. -/
theorem Keeps.attempt {act : Walk α} (ha : Keeps P act Q E) :
    Keeps P (attempt act) (fun o => ∀ a, o = some a → Q a) (· = .endless) := by
  intro desk hp
  have h := ha desk hp
  unfold Walk.attempt
  cases hr : act desk with
  | ok a desk' =>
    rw [hr] at h
    exact ⟨h.1, fun b hb => Option.some.inj hb ▸ h.2⟩
  | error e desk' =>
    rw [hr] at h
    cases e with
    | endless => exact ⟨h.1, rfl⟩
    | undecodable => exact ⟨h.1, by simp⟩
    | invalid e => exact ⟨h.1, by simp⟩

theorem keeps_ofRecord {r : Except RecordError α} :
    Keeps P (ofRecord r) (fun a => r = .ok a) (fun _ => True) := by
  intro desk hp
  cases r with
  | ok a => exact ⟨hp, rfl⟩
  | error e => exact ⟨hp, trivial⟩

theorem keeps_forM {xs : List β} {act : β → Walk Unit}
    (h : ∀ x ∈ xs, Keeps P (act x) (fun _ => True) E) :
    Keeps P (xs.forM act) (fun _ => True) E := by
  induction xs with
  | nil => exact keeps_pure trivial
  | cons x xs ih =>
    exact (h x List.mem_cons_self).bind fun _ _ =>
      ih fun y hy => h y (List.mem_cons_of_mem _ hy)

section Traversal
variable {advance : κ → Walk (Option (α × κ))} {children : α → Option κ} {marked : α → Bool}

theorem keeps_next (ha : ∀ c, Keeps P (advance c) (fun _ => True) E)
    (levels : List (Preorder.Level κ)) :
    Keeps P (Preorder.next advance children marked levels) (fun _ => True) E := by
  induction levels with
  | nil => exact keeps_pure trivial
  | cons level rest ih =>
    refine (ha level.cursor).bind ?_
    intro o _
    cases o with
    | none => exact ih
    | some p => exact keeps_pure trivial

theorem keeps_forEach {handle : Preorder.Visit α → Walk Unit} {outOfFuel : Walk Unit}
    (ha : ∀ c, Keeps P (advance c) (fun _ => True) E)
    (hh : ∀ v, Keeps P (handle v) (fun _ => True) E)
    (ho : Keeps P outOfFuel (fun _ => True) E) (fuel : Nat) (levels : List (Preorder.Level κ)) :
    Keeps P (Preorder.forEach advance children marked handle outOfFuel fuel levels)
      (fun _ => True) E := by
  induction fuel generalizing levels with
  | zero => exact ho
  | succ fuel ih =>
    refine (keeps_next ha levels).bind ?_
    intro o _
    cases o with
    | none => exact keeps_pure trivial
    | some p => exact (hh p.1).bind fun _ _ => ih p.2

end Traversal

/-- A property of the desk that holds through every extraction. The types that are cached are of a
kind that those are of that are made. -/
structure ExtractionInvariant (P : Desk → Prop) (K : TypeInfo → Prop) : Prop where
  remember : ∀ {desk}, P desk → ∀ u m, P (desk.remember u m)
  report : ∀ {desk}, P desk → ∀ r, UnitReport r → P { desk with log := desk.log ++ [r] }
  made : ∀ t, FromType t → K t
  cached : ∀ {desk}, P desk → ∀ p ∈ desk.types, K p.2
  cache : ∀ {desk}, P desk → ∀ key t, FromType t →
    P { desk with types := desk.types ++ [(key, t)] }

/-- A property of the desk that also holds through what is added to the symbols. -/
structure UnitInvariant (P : Desk → Prop) (K : TypeInfo → Prop) : Prop
    extends ExtractionInvariant P K where
  addFunction : ∀ {desk}, P desk → ∀ f, FromSubprogram f →
    P { desk with found.functions := desk.found.functions ++ [f] }
  addGlobal : ∀ {desk}, P desk → ∀ x, FromVariable x →
    P { desk with found.globals := desk.found.globals ++ [x] }
  addType : ∀ {desk}, P desk → ∀ t, K t → P { desk with found.types := desk.found.types ++ [t] }

/-! ### Extractions -/

section Extraction
variable {K : TypeInfo → Prop} (hP : ExtractionInvariant P K) (s : DebugSections) (u : CompileUnit)
include hP

theorem keeps_report {level : Level} {logger message : Text}
    (h : UnitReport ⟨level, logger, message⟩) :
    Keeps P (report level logger message) (fun _ => True) E :=
  keeps_modify fun _ hp => hP.report hp _ h

theorem keeps_inUnit (act : Reading α) :
    Keeps P (inUnit u act) (fun _ => True) (fun _ => True) := by
  intro desk hp
  unfold inUnit
  cases act (desk.memory u) with
  | ok a m => exact ⟨hP.remember hp u m, trivial⟩
  | error e m => exact ⟨hP.remember hp u m, trivial⟩

theorem keeps_collectFrom {make : Die → Walk (Option α)}
    (h : ∀ d, Keeps P (make d) (fun o => ∀ a, o = some a → Q a) (fun _ => True))
    (fuel : Nat) (c : Cursor) :
    Keeps P (collectFrom s u make fuel c) (fun as => ∀ a ∈ as, Q a) (fun _ => True) := by
  induction fuel generalizing c with
  | zero => exact keeps_throw trivial
  | succ fuel ih =>
    refine (keeps_inUnit hP u _).bind ?_
    intro o _
    cases o with
    | none => exact keeps_pure (by simp)
    | some p =>
      refine (h p.1).bind fun made hm => (ih p.2).bind fun rest hr => keeps_pure ?_
      intro a ha
      rcases List.mem_append.mp ha with ha | ha
      · exact hm a (Option.mem_toList.mp ha)
      · exact hr a ha

theorem keeps_collectChildren {make : Die → Walk (Option α)}
    (h : ∀ d, Keeps P (make d) (fun o => ∀ a, o = some a → Q a) (fun _ => True))
    (d : Die) (tag : Nat) :
    Keeps P (collectChildren s u d tag make) (fun as => ∀ a ∈ as, Q a) (fun _ => True) := by
  unfold collectChildren
  cases d.children? with
  | none => exact keeps_pure (by simp)
  | some c =>
    exact keeps_collectFrom hP s u (fun d =>
      Keeps.ite (fun _ => h d) fun _ => keeps_pure (by simp)) _ c

theorem keeps_orSkip {act : Walk α} (h : Keeps P act Q E) (child : Die) (part : Text) :
    Keeps P (orSkip child part act) (fun o => ∀ a, o = some a → Q a) (fun _ => True) := by
  refine (h.attempt.mono (fun _ => id) fun _ _ => trivial).bind fun o ho => ?_
  cases o with
  | none =>
    have hskip : UnitReport ⟨.warning, extractorLogger, "Skipping " ++ part ++ " " ++ child.label⟩ := by
      rw [List.append_assoc, List.append_assoc]
      exact .skipped _ _
    exact (keeps_report hP hskip).bind fun _ _ => keeps_pure (by simp)
  | some a => exact keeps_pure ho

theorem keeps_extractFunction (d : Die) :
    Keeps P (extractFunction s u d) FromSubprogram (fun _ => True) := by
  have hp (c : Die) : Keeps (E := fun _ => True) P (extractVariable c .parameter) FromParameter :=
    keeps_pure ⟨c, rfl⟩
  have hchildren := keeps_collectChildren hP s u (fun c => keeps_orSkip hP (hp c) c "parameter") d
    Tag.formalParameter
  refine hchildren.bind fun ps hps => ?_
  exact keeps_ofRecord.mono (fun f hf => ⟨d, ps, hf, hps⟩) fun _ => id

theorem keeps_extractMembers (d : Die) :
    Keeps P (extractMembers s u d)
      (fun ms => (∀ m ∈ ms, FromMember m) ∧ (d.tag = some Tag.enumerationType → ms = []))
      (fun _ => True) := by
  have hm (c : Die) : Keeps P (extractMember c) FromMember (fun _ => True) :=
    keeps_ofRecord.mono (fun m h => ⟨c, h⟩) fun _ => id
  refine Keeps.ite (fun hk => ?_) fun _ => keeps_pure (by simp)
  refine (keeps_collectChildren hP s u (fun c => keeps_orSkip hP (hm c) c _) d _).mono
    (fun ms h => ⟨h, fun he => ?_⟩) fun _ => id
  simp [Die.typeKind, he, Tag.enumerationType, Tag.structureType, Tag.unionType] at hk

theorem keeps_extractType {d : Die} (hd : d.IsType) :
    Keeps P (extractType s u d) K (fun _ => True) := by
  refine keeps_get.bind ?_
  intro desk hdesk
  cases hl : desk.types.lookup (u.offset, d.unitOffset u) with
  | some t =>
    obtain ⟨before, after, h, -⟩ := List.lookup_eq_some_iff.mp hl
    exact keeps_pure (hP.cached hdesk ((u.offset, d.unitOffset u), t) (by rw [h]; simp))
  | none =>
    have hmake : Keeps P (makeType s u d) FromType (fun _ => True) :=
      (keeps_extractMembers hP s u d).bind fun ms hms =>
        keeps_ofRecord.mono (fun t ht => ⟨d, ms, hd, ht, hms⟩) fun _ => id
    refine hmake.bind ?_
    intro t ht
    exact (keeps_modify fun desk hp => hP.cache hp _ t ht).bind fun _ _ => keeps_pure (hP.made t ht)

end Extraction

/-! ### Units -/

section Units
variable {K : TypeInfo → Prop} (hP : UnitInvariant P K) (s : DebugSections) (u : CompileUnit)
include hP

theorem keeps_recordOf (v : Preorder.Visit Die) :
    Keeps P (recordOf s u v) (fun _ => True) (fun _ => True) := by
  have hE := hP.toExtractionInvariant
  refine Keeps.ite (fun _ => ?_) fun _ => Keeps.ite (fun _ => Keeps.ite (fun _ => ?_) fun _ => ?_)
    fun _ => Keeps.ite (fun ht => ?_) fun _ => keeps_pure trivial
  · exact (keeps_extractFunction hE s u v.node).bind fun f hf =>
      keeps_modify fun _ hp => hP.addFunction hp f hf
  · exact keeps_modify fun _ hp => hP.addGlobal hp _ ⟨v.node, rfl⟩
  · exact keeps_pure trivial
  · exact (keeps_extractType hE s u ht).bind fun t hk =>
      keeps_modify fun _ hp => hP.addType hp t hk

theorem keeps_processEntry (v : Preorder.Visit Die) :
    Keeps P (processEntry s u v) (fun _ => True) (· = .endless) := by
  have hE := hP.toExtractionInvariant
  refine (keeps_report hE (.entry _)).bind ?_
  intro _ _
  refine (keeps_recordOf hP s u v).attempt.bind ?_
  intro o _
  exact Keeps.ite (fun _ => keeps_report hE (.skipped _ _)) fun _ => keeps_pure trivial

/-- Whether the version of the unit is told is not asked here. -/
theorem keeps_walkUnit
    (hversion : Keeps P (checkVersion u.encoding.version) (fun _ => True) (· = .endless)) :
    Keeps P (walkUnit s u) (fun _ => True) (· = .endless) := by
  have hE := hP.toExtractionInvariant
  have hentries : Keeps P (forEntries s u (processEntry s u)) (fun _ => True) (fun _ => True) := by
    have hh (v : Preorder.Visit Die) := (keeps_processEntry hP s u v).mono (F := fun _ => True)
      (fun _ => id) fun _ _ => trivial
    refine (keeps_inUnit hE u _).bind fun top _ => (hh _).bind fun _ _ => ?_
    exact keeps_forEach (fun c => keeps_inUnit hE u _) hh (keeps_throw trivial) _ _
  refine hversion.bind fun _ _ => hentries.attempt.bind fun o _ => ?_
  exact Keeps.ite (fun _ => keeps_report hE (.cutShort u.offset)) fun _ => keeps_pure trivial

end Units

/-! ### Symbols -/

theorem unitInvariant_fromEntries : UnitInvariant Desk.FromEntries FromType where
  remember h _ _ := ⟨h.found, h.types⟩
  report h _ _ := ⟨h.found, h.types⟩
  made _ := id
  cached h := h.types
  cache h _ t ht := by
    refine ⟨h.found, List.forall_mem_append.mpr ⟨h.types, ?_⟩⟩
    simpa using ht
  addFunction h f hf := by
    refine ⟨⟨List.forall_mem_append.mpr ⟨h.found.functions, ?_⟩, h.found.globals, h.found.types⟩,
      h.types⟩
    simpa using hf
  addGlobal h x hx := by
    refine ⟨⟨h.found.functions, List.forall_mem_append.mpr ⟨h.found.globals, ?_⟩, h.found.types⟩,
      h.types⟩
    simpa using hx
  addType h t ht := by
    refine ⟨⟨h.found.functions, h.found.globals, List.forall_mem_append.mpr ⟨h.found.types, ?_⟩⟩,
      h.types⟩
    simpa using ht

theorem keeps_runUnits (s : DebugSections) :
    Keeps Desk.FromEntries (runUnits s) Dwarf.FromEntries (· = .endless) := by
  have hreport (level : Level) (logger message : Text) : Keeps (E := (· = .endless))
      Desk.FromEntries (report level logger message) (fun _ => True) :=
    keeps_modify fun _ h => ⟨h.found, h.types⟩
  have hversion (version : Int) : Keeps (E := (· = .endless)) Desk.FromEntries
      (checkVersion version) (fun _ => True) := by
    refine keeps_get.bind fun desk _ => Keeps.ite (fun _ => ?_) fun _ => keeps_pure trivial
    exact (keeps_modify fun _ h => ⟨h.found, h.types⟩).bind fun _ _ => hreport _ _ _
  have hheader (broken : Bool) : Keeps (E := (· = .endless)) Desk.FromEntries
      (reportHeader broken) (fun _ => True) :=
    Keeps.ite (fun _ => hreport _ _ _) fun _ => keeps_pure trivial
  refine (keeps_forM fun u _ => keeps_walkUnit unitInvariant_fromEntries s u (hversion _)).bind
    fun _ _ => (hheader _).bind fun _ _ => ?_
  exact keeps_get.bind fun desk hdesk => (hreport _ _ _).bind fun _ _ => keeps_pure hdesk.found

/-- What a walk gives was made of entries, and it fails by having no end or not at all. -/
theorem run_fromEntries (sections : Option DebugSections) (desk : Desk) :
    match run sections desk with
    | .ok symbols _ => Dwarf.FromEntries symbols
    | .error e _ => e = .endless := by
  have hempty : Desk.FromEntries { desk with types := [], found := {}, versionReported := false } :=
    ⟨fromEntries_empty, by simp⟩
  cases sections with
  | none => exact fromEntries_empty
  | some s =>
    have h := keeps_runUnits s _ hempty
    change match runUnits s { desk with types := [], found := {}, versionReported := false } with
      | .ok symbols _ => Dwarf.FromEntries symbols
      | .error e _ => e = .endless
    cases hr : runUnits s { desk with types := [], found := {}, versionReported := false } with
    | ok symbols desk' => rw [hr] at h; exact h.2
    | error e desk' => rw [hr] at h; exact h.2

theorem outcome_run_error (sections : Option DebugSections) (desk : Desk) {e : Failure}
    (h : (outcome (run sections) desk).1 = .error e) : e = .endless := by
  have hrun := run_fromEntries sections desk
  unfold outcome at h
  cases hr : run sections desk with
  | ok symbols desk' =>
    rw [hr] at h
    cases h
  | error e' desk' =>
    rw [hr] at h hrun
    cases h
    exact hrun

end Walk

end ElfScope.Dwarf
