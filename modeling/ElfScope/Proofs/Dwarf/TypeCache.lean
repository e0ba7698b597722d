import Mathlib
import ElfScope.Proofs.Dwarf.Recall
import ElfScope.Proofs.Dwarf.Repetition

/-! # The cache of types

However extractions and walks follow each other, the cache holds the types that were made since the
last walk began, each by the place of its entry. A type that is taken from it is the one that would be
made again.
-/
namespace ElfScope.Dwarf

/-- A type that was made of an entry. -/
structure Made where
  unit : CompileUnit
  die : Die
  info : TypeInfo

def Made.key (m : Made) : Nat × Int := (m.unit.offset, m.die.unitOffset m.unit)

instance : DecidablePred Die.IsType := fun _ => inferInstanceAs (Decidable (_ ∨ _ ∨ _))

/-! ### What is made in a walk -/

namespace Walk

/-- The types that are made from a desk on. -/
abbrev Trace := Desk → List Made

namespace Trace

def nothing : Trace := fun _ => []

/-- What an action makes, and what is made after it where it does not fail. -/
def andThen {α : Type} (act : Walk α) (made : Trace) (next : α → Trace) : Trace := fun desk =>
  made desk ++ match outcome act desk with
    | (.ok a, desk) => next a desk
    | (.error _, _) => []

end Trace

variable (s : DebugSections) (u : CompileUnit)

/-- What an extraction of an entry makes. -/
def madeBy (d : Die) : Trace := fun desk =>
  match (outcome (extractType s u d) desk).1 with
  | .ok info => [⟨u, d, info⟩]
  | .error _ => []

def madeByVisit (v : Preorder.Visit Die) : Trace :=
  if v.node.IsType then madeBy s u v.node else .nothing

def madeFrom : Nat → List (Preorder.Level Cursor) → Trace
  | 0, _ => .nothing
  | fuel + 1, levels =>
    let next := Preorder.next (fun c => inUnit u (u.advance s c)) Die.children? Die.isSubprogram
    .andThen (next levels) .nothing fun
      | none => .nothing
      | some (v, levels) =>
        .andThen (processEntry s u v) (madeByVisit s u v) fun _ => madeFrom fuel levels

def madeByEntries : Trace :=
  .andThen (inUnit u (u.topDie s)) .nothing fun top =>
    .andThen (processEntry s u (CompileUnit.topVisit top)) (madeByVisit s u (CompileUnit.topVisit top))
      fun _ => madeFrom s u (CompileUnit.visitLimit s) (CompileUnit.firstLevels top)

def madeByUnit : Trace :=
  .andThen (checkVersion u.encoding.version) .nothing fun _ => madeByEntries s u

def madeByUnits : List CompileUnit → Trace
  | [] => .nothing
  | u :: us => .andThen (walkUnit s u) (madeByUnit s u) fun _ => madeByUnits us

/-- What a walk makes of the entries of all units. -/
def madeByRun : Trace := fun desk =>
  madeByUnits s (CompileUnit.units s) { desk with types := [], found := {}, versionReported := false }

end Walk

/-! ### What the cache holds -/

/-- The cache holds what was made of entries that are known, and what is made again. -/
structure Coherent (s : DebugSections) (desk : Desk) (made : List Made) : Prop where
  known : ∀ m ∈ made, m.unit ∈ CompileUnit.units s ∧ desk.Knows m.unit m.die
  again : ∀ m ∈ made, ∀ desk' : Desk, (∀ u d, desk.Knows u d → desk'.Knows u d) →
    (outcome (Walk.makeType s m.unit m.die) desk').1 = .ok m.info
  cached : ∀ key info, desk.types.lookup key = some info ↔ ∃ m ∈ made, m.key = key ∧ m.info = info
  keys : (desk.types.map Prod.fst).Nodup

/-- Entries that are known of units have places of their own. -/
theorem Desk.Knows.eq_of_key {s : DebugSections} {desk : Desk} {u w : CompileUnit} {d e : Die}
    (hu : u ∈ CompileUnit.units s) (hw : w ∈ CompileUnit.units s) (hd : desk.Knows u d)
    (he : desk.Knows w e) (h : (u.offset, d.unitOffset u) = (w.offset, e.unitOffset w)) :
    u = w ∧ d = e := by
  obtain ⟨hunit, hplace⟩ := Prod.mk.inj h
  obtain rfl := CompileUnit.eq_of_mem_units hw hu hunit
  refine ⟨rfl, hd.eq_of_offset he ?_⟩
  unfold Die.unitOffset at hplace
  omega

namespace Coherent
variable {s : DebugSections} {u : CompileUnit} {desk desk' : Desk} {made : List Made} {d : Die}

theorem empty (s : DebugSections) {desk : Desk} (h : desk.types = []) : Coherent s desk [] :=
  ⟨by simp, by simp, by simp [h], by simp [h]⟩

/-- What is found does not matter. -/
theorem of_types (h : Coherent s desk made) (hknown : ∀ u d, desk.Knows u d → desk'.Knows u d)
    (htypes : desk'.types = desk.types) : Coherent s desk' made := by
  refine ⟨fun m hm => ?_, fun m hm desk'' hk => ?_, ?_, ?_⟩
  · obtain ⟨hunit, hm⟩ := h.known m hm
    exact ⟨hunit, hknown _ _ hm⟩
  · exact h.again m hm desk'' fun u d hd => hk u d (hknown u d hd)
  · rw [htypes]
    exact h.cached
  · rw [htypes]
    exact h.keys

theorem recalls (h : Coherent s desk made) (hle : desk.Recalls desk') : Coherent s desk' made :=
  h.of_types hle.known hle.types

/-- What is taken from the cache was made of the same entry. -/
theorem mem_of_lookup (h : Coherent s desk made) (hu : u ∈ CompileUnit.units s) (hd : desk.Knows u d)
    {info : TypeInfo} (hl : desk.types.lookup (u.offset, d.unitOffset u) = some info) :
    ⟨u, d, info⟩ ∈ made := by
  obtain ⟨⟨w, e, info'⟩, hm, hkey, rfl⟩ := (h.cached _ _).mp hl
  obtain ⟨hw, he⟩ := h.known _ hm
  obtain ⟨rfl, rfl⟩ := Desk.Knows.eq_of_key hw hu he hd hkey
  exact hm

/-- It does not matter how often something was made. -/
theorem of_mem_iff {made' : List Made} (h : Coherent s desk made) (hmem : ∀ m, m ∈ made' ↔ m ∈ made) :
    Coherent s desk made' := by
  refine ⟨fun m hm => h.known m ((hmem m).mp hm), fun m hm => h.again m ((hmem m).mp hm), ?_, h.keys⟩
  simp only [hmem]
  exact h.cached

end Coherent

namespace Walk
variable {s : DebugSections} {u : CompileUnit} {desk desk' : Desk} {made : List Made} {d : Die}

/-- A type that was made is made again where the same entries are known. -/
theorem makeType_again {info : TypeInfo} (h : (outcome (makeType s u d) desk).1 = .ok info)
    (hk : ∀ w e, (outcome (makeType s u d) desk).2.Knows w e → desk'.Knows w e) :
    (outcome (makeType s u d) desk').1 = .ok info := by
  -- What is made depends on the memories only, so what else is on the desk is put back.
  let before := (outcome (makeType s u d) desk).2
  let again : Desk := { desk' with types := before.types, found := before.found }
  have hsame : (outcome (makeType s u d) desk').1 = (outcome (makeType s u d) again).1 :=
    (@outcome_makeType s u d again desk' rfl).trans (@outcome_makeType s u d again again rfl).symm
  rw [hsame]
  exact (settles_makeType d).again desk info h again ⟨hk, rfl, rfl⟩

/-- How a type is extracted: it is in the cache, or it cannot be made, or it is made and cached. -/
theorem extractType_cases (s : DebugSections) (u : CompileUnit) (d : Die) (desk : Desk) :
    (∃ info, desk.types.lookup (u.offset, d.unitOffset u) = some info ∧
      outcome (extractType s u d) desk = (.ok info, desk)) ∨
    desk.types.lookup (u.offset, d.unitOffset u) = none ∧
      ((∃ e, (outcome (makeType s u d) desk).1 = .error e ∧
        outcome (extractType s u d) desk = (.error e, (outcome (makeType s u d) desk).2)) ∨
      ∃ info, (outcome (makeType s u d) desk).1 = .ok info ∧
        outcome (extractType s u d) desk = (.ok info, { (outcome (makeType s u d) desk).2 with
          types := desk.types ++ [((u.offset, d.unitOffset u), info)] })) := by
  have htypes := ((settles_makeType (s := s) (u := u) d).grows desk).types
  rw [outcome_extractType]
  cases desk.types.lookup (u.offset, d.unitOffset u) with
  | some info => exact .inl ⟨info, rfl, rfl⟩
  | none =>
    refine .inr ⟨rfl, ?_⟩
    dsimp only
    rw [outcome_bind]
    rcases hr : outcome (makeType s u d) desk with ⟨e | info, mid⟩ <;> rw [hr] at htypes
    · exact .inl ⟨e, rfl, rfl⟩
    · refine .inr ⟨info, rfl, ?_⟩
      rw [← htypes]
      rfl

/-- An extraction finds nothing by itself. -/
theorem extractType_keeps (s : DebugSections) (u : CompileUnit) (d : Die) (desk : Desk) :
    (∀ w e, desk.Knows w e → (outcome (extractType s u d) desk).2.Knows w e) ∧
      (outcome (extractType s u d) desk).2.found.types = desk.found.types := by
  have hle := (settles_makeType (s := s) (u := u) d).grows desk
  rcases extractType_cases s u d desk with
    ⟨info, -, hrun⟩ | ⟨-, ⟨e, -, hrun⟩ | ⟨info, -, hrun⟩⟩ <;> rw [hrun]
  · exact ⟨fun _ _ h => h, rfl⟩
  · exact ⟨hle.known, hle.found⟩
  · exact ⟨hle.known, hle.found⟩

/-- The answer depends on the memories, and on the place of the entry in the cache. -/
theorem outcome_extractType_congr (hm : desk'.memories = desk.memories)
    (hl : desk'.types.lookup (u.offset, d.unitOffset u) =
      desk.types.lookup (u.offset, d.unitOffset u)) :
    (outcome (extractType s u d) desk').1 = (outcome (extractType s u d) desk).1 := by
  cases hcached : desk.types.lookup (u.offset, d.unitOffset u) with
  | some info => rw [outcome_extractType, outcome_extractType, hl, hcached]
  | none =>
    rw [outcome_extractType_of_none d (hl.trans hcached), outcome_extractType_of_none d hcached,
      outcome_makeType d hm, outcome_makeType d rfl]

theorem madeBy_of_ok {info : TypeInfo} (h : (outcome (extractType s u d) desk).1 = .ok info) :
    madeBy s u d desk = [⟨u, d, info⟩] := by
  rw [madeBy, h]

theorem madeBy_of_error {e : Failure} (h : (outcome (extractType s u d) desk).1 = .error e) :
    madeBy s u d desk = [] := by
  rw [madeBy, h]

end Walk

namespace Coherent
variable {s : DebugSections} {u : CompileUnit} {desk : Desk} {made : List Made} {d : Die}

/-- A type that was not in the cache is added to it. -/
theorem cache (h : Coherent s desk made) (hu : u ∈ CompileUnit.units s) (hd : desk.Knows u d)
    {info : TypeInfo} (hnew : desk.types.lookup (u.offset, d.unitOffset u) = none)
    (hagain : ∀ desk' : Desk, (∀ w e, desk.Knows w e → desk'.Knows w e) →
      (outcome (Walk.makeType s u d) desk').1 = .ok info) :
    Coherent s { desk with types := desk.types ++ [((u.offset, d.unitOffset u), info)] }
      (made ++ [⟨u, d, info⟩]) := by
  refine ⟨?_, ?_, fun key info' => ?_, ?_⟩
  · simp only [List.mem_append, List.mem_singleton]
    rintro m (hm | rfl)
    · exact h.known m hm
    · exact ⟨hu, hd⟩
  · simp only [List.mem_append, List.mem_singleton]
    rintro m (hm | rfl)
    · exact h.again m hm
    · exact hagain
  · have hmem : (∃ m ∈ made ++ [⟨u, d, info⟩], m.key = key ∧ m.info = info') ↔
        (∃ m ∈ made, m.key = key ∧ m.info = info') ∨
          (u.offset, d.unitOffset u) = key ∧ info = info' := by
      simp [or_and_right, exists_or, Made.key]
    rw [hmem, ← h.cached, List.lookup_append]
    by_cases hkey : (u.offset, d.unitOffset u) = key
    · subst hkey
      simp [hnew]
    · have hother : (key == (u.offset, d.unitOffset u)) = false := by simpa using Ne.symm hkey
      simp [List.lookup_cons, hother, hkey]
  · have hfresh : (u.offset, d.unitOffset u) ∉ desk.types.map Prod.fst := by
      intro hkey
      obtain ⟨p, hp, hkey⟩ := List.mem_map.mp hkey
      have hne := List.lookup_eq_none_iff.mp hnew p hp
      simp [hkey] at hne
    rw [List.map_append, List.map_singleton, List.nodup_append_comm]
    exact List.nodup_cons.mpr ⟨hfresh, h.keys⟩

theorem extractType (h : Coherent s desk made) (hu : u ∈ CompileUnit.units s) (hd : desk.Knows u d) :
    Coherent s (outcome (Walk.extractType s u d) desk).2 (made ++ Walk.madeBy s u d desk) := by
  have hle := (Walk.settles_makeType (s := s) (u := u) d).grows desk
  rcases Walk.extractType_cases s u d desk with
    ⟨info, hl, hrun⟩ | ⟨hnew, ⟨e, -, hrun⟩ | ⟨info, hmake, hrun⟩⟩
  · rw [Walk.madeBy_of_ok (congrArg Prod.fst hrun), hrun]
    refine h.of_mem_iff fun m => ?_
    have hmem := h.mem_of_lookup hu hd hl
    simp only [List.mem_append, List.mem_singleton, or_iff_left_iff_imp]
    rintro rfl
    exact hmem
  · rw [Walk.madeBy_of_error (congrArg Prod.fst hrun), hrun, List.append_nil]
    exact h.recalls hle
  · rw [Walk.madeBy_of_ok (congrArg Prod.fst hrun), hrun, ← hle.types]
    refine (h.recalls hle).cache hu (hle.known u d hd) (hle.types ▸ hnew) fun desk' hk => ?_
    exact Walk.makeType_again hmake hk

end Coherent

/-! ### Filling the cache in a walk -/

/-- From one desk to a later one types were made, and all of them were found. -/
structure Filled (s : DebugSections) (desk : Desk) (made more : List Made) (desk' : Desk) : Prop where
  coherent : Coherent s desk' (made ++ more)
  known : ∀ u d, desk.Knows u d → desk'.Knows u d
  found : desk'.found.types = desk.found.types ++ more.map Made.info

namespace Filled
variable {s : DebugSections} {desk desk' desk'' : Desk} {made more more' : List Made}

theorem of_recalls (h : Coherent s desk made) (hle : desk.Recalls desk') :
    Filled s desk made [] desk' := by
  refine ⟨?_, hle.known, ?_⟩
  · rw [List.append_nil]
    exact h.recalls hle
  · rw [List.map_nil, List.append_nil]
    exact hle.found

theorem trans (h : Filled s desk made more desk') (h' : Filled s desk' (made ++ more) more' desk'') :
    Filled s desk made (more ++ more') desk'' := by
  refine ⟨?_, fun u d hd => h'.known u d (h.known u d hd), ?_⟩
  · rw [← List.append_assoc]
    exact h'.coherent
  · rw [h'.found, h.found, List.map_append, List.append_assoc]

theorem after (h : Filled s desk' made more desk'') (hle : desk.Recalls desk') :
    Filled s desk made more desk'' :=
  ⟨h.coherent, fun u d hd => h.known u d (hle.known u d hd), hle.found ▸ h.found⟩

theorem recalls (h : Filled s desk made more desk') (hle : desk'.Recalls desk'') :
    Filled s desk made more desk'' := by
  have hboth := h.trans (of_recalls h.coherent hle)
  rwa [List.append_nil] at hboth

end Filled

namespace Walk
variable {α β : Type} {s : DebugSections} {u : CompileUnit} {P : Desk → Prop} {Q : α → Desk → Prop}

/-- From a coherent desk an action adds to the cache what it makes. -/
def Fills (s : DebugSections) (P : Desk → Prop) (act : Walk α) (made : Trace) : Prop :=
  ∀ desk before, Coherent s desk before → P desk →
    Filled s desk before (made desk) (outcome act desk).2

theorem fills_nothing {act : Walk α} (h : Growth.recallAll.Grows act) : Fills s P act .nothing :=
  fun desk _ hc _ => .of_recalls hc (h desk)

/-- What is told of the first value is known when the second one is made. -/
theorem Fills.andThen {act : Walk α} {made : Trace} {f : α → Walk β} {next : α → Trace}
    (ha : Fills s P act made)
    (hQ : ∀ desk, P desk → ∀ a, (outcome act desk).1 = .ok a → Q a (outcome act desk).2)
    (hf : ∀ a, Fills s (Q a) (f a) (next a)) : Fills s P (act >>= f) (.andThen act made next) := by
  intro desk before hc hp
  have hact := ha desk before hc hp
  have hq := hQ desk hp
  unfold Trace.andThen
  rw [outcome_bind]
  rcases hr : outcome act desk with ⟨e | a, desk'⟩ <;> rw [hr] at hact hq
  · rw [List.append_nil]
    exact hact
  · exact hact.trans (hf a desk' _ hact.coherent (hq a rfl))

/-- Nothing has to be known of the first value. -/
theorem Fills.followed {act : Walk α} {made : Trace} {f : α → Walk β} {next : α → Trace}
    (ha : Fills s P act made) (hf : ∀ a, Fills s (fun _ => True) (f a) (next a)) :
    Fills s P (act >>= f) (.andThen act made next) :=
  ha.andThen (fun _ _ _ _ => trivial) hf

/-- What fails is reported, and what it has made is kept. -/
theorem Fills.orReport {act : Walk Unit} {made : Trace} (h : Fills s P act made) (level : Level)
    (logger message : Text) :
    Fills s P (do if (← attempt act).isNone then report level logger message) made := by
  intro desk before hc hp
  obtain ⟨desk', hrun, hlike⟩ := outcome_orReport act level logger message desk
  rw [hrun]
  exact (h desk before hc hp).recalls hlike.recalls

/-- Functions and variables are found without a type. -/
theorem grows_modify_found {change : Symbols → Symbols}
    (h : ∀ found, (change found).types = found.types) : Growth.recallAll.Grows
      (modify fun desk => { desk with found := change desk.found } : Walk Unit) :=
  fun desk => ⟨fun _ _ h => h, rfl, h desk.found⟩

theorem recordOf_of_isType {v : Preorder.Visit Die} (h : v.node.IsType) :
    recordOf s u v = extractType s u v.node >>= fun t =>
      modify fun desk => { desk with found.types := desk.found.types ++ [t] } := by
  have hfunction : v.node.tag ≠ some Tag.subprogram := by
    rcases h with h | h | h <;> rw [h] <;> decide
  have hvariable : v.node.tag ≠ some Tag.variableEntry := by
    rcases h with h | h | h <;> rw [h] <;> decide
  unfold recordOf
  dsimp only
  rw [if_neg hfunction, if_neg hvariable]
  exact if_pos h

theorem grows_recordOf {v : Preorder.Visit Die} (h : ¬v.node.IsType) :
    Growth.recallAll.Grows (recordOf s u v) := by
  refine Growth.Grows.ite (fun _ => ?_) fun _ => Growth.Grows.ite (fun _ => Growth.Grows.ite
    (fun _ => ?_) fun _ => Growth.grows_pure _) fun _ => Growth.Grows.ite (fun ht => absurd ht h)
    fun _ => Growth.grows_pure _
  · exact (settles_extractFunction v.node).grows.bind fun f =>
      @grows_modify_found (fun found => { found with functions := found.functions ++ [f] })
        fun _ => rfl
  · exact @grows_modify_found (fun found => { found with
      globals := found.globals ++ [v.node.variableInfo .global] }) fun _ => rfl

/-- What is made of an entry is found. -/
theorem fills_recordOf (hu : u ∈ CompileUnit.units s) (v : Preorder.Visit Die) :
    Fills s (·.Knows u v.node) (recordOf s u v) (madeByVisit s u v) := by
  unfold madeByVisit
  by_cases htype : v.node.IsType
  · rw [if_pos htype, recordOf_of_isType htype]
    intro desk before hc hd
    have hmade := hc.extractType hu hd
    obtain ⟨hknown, hfound⟩ := extractType_keeps s u v.node desk
    rw [outcome_bind]
    rcases hr : outcome (extractType s u v.node) desk with ⟨e | t, desk'⟩ <;>
      rw [hr] at hmade hknown hfound
    · rw [madeBy_of_error (congrArg Prod.fst hr)] at hmade ⊢
      refine ⟨hmade, hknown, ?_⟩
      rw [hfound, List.map_nil, List.append_nil]
    · rw [madeBy_of_ok (congrArg Prod.fst hr)] at hmade ⊢
      exact ⟨hmade.of_types (fun _ _ h => h) rfl, hknown, congrArg (· ++ [t]) hfound⟩
  · rw [if_neg htype]
    exact fills_nothing (grows_recordOf htype)

/-- What was reported does not show in what is made. -/
theorem madeByVisit_alike (h : desk.Alike desk') (v : Preorder.Visit Die) :
    madeByVisit s u v desk' = madeByVisit s u v desk := by
  unfold madeByVisit
  split_ifs
  · unfold madeBy
    rw [outcome_extractType_congr h.memories (by rw [h.types])]
  · rfl

theorem fills_processEntry (hu : u ∈ CompileUnit.units s) (v : Preorder.Visit Die) :
    Fills s (·.Knows u v.node) (processEntry s u v) (madeByVisit s u v) := by
  intro desk before hc hd
  obtain ⟨desk₁, hreport, hlike⟩ : ∃ desk₁, outcome (report .dumpData walkerLogger
      ((List.replicate v.depth (Text.ofString "|  ")).flatten ++ "|--" ++ v.node.label)) desk =
        (.ok (), desk₁) ∧ desk.Alike desk₁ := ⟨_, rfl, rfl, rfl, rfl⟩
  have hle := hlike.recalls
  have hrecord := (fills_recordOf hu v).orReport .warning walkerLogger ("Skipping " ++ v.node.label)
    desk₁ before (hc.recalls hle) (hle.known u _ hd)
  rw [madeByVisit_alike hlike] at hrecord
  unfold processEntry
  rw [outcome_bind_of_ok hreport]
  exact hrecord.after hle

/-- The entries that are left are handled. The invariant is that the cache is coherent; nothing has to
be known of the cursors. -/
theorem fills_forLevels (hu : u ∈ CompileUnit.units s) (fuel : Nat)
    (levels : List (Preorder.Level Cursor)) :
    Fills s (fun _ => True) (forLevels s u fuel levels) (madeFrom s u fuel levels) := by
  induction fuel generalizing levels with
  | zero => exact fills_nothing (Growth.grows_throw _)
  | succ fuel ih =>
    rw [forLevels_succ]
    refine Fills.andThen (fills_nothing (settles_next levels).grows) (fun desk _ o ho => ?_)
      (Q := fun o desk => ∀ v levels', o = some (v, levels') → desk.Knows u v.node) fun o => ?_
    · rintro v levels' rfl
      exact knows_of_next (Prod.ext ho rfl)
    · rcases o with _ | ⟨v, levels'⟩
      · exact fills_nothing (Growth.grows_pure ())
      · intro desk before hc hv
        exact (fills_processEntry hu v).followed (fun _ => ih levels') desk before hc (hv v levels' rfl)

theorem fills_forEntries (hu : u ∈ CompileUnit.units s) :
    Fills s (fun _ => True) (forEntries s u (processEntry s u)) (madeByEntries s u) := by
  refine Fills.andThen (fills_nothing (grows_inUnit CompileUnit.grows_topDie))
    (fun desk _ t ht => ?_) (Q := fun t desk => desk.Knows u t) fun t => ?_
  · rw [outcome_inUnit] at ht
    exact knows_of_inUnit (CompileUnit.knows_of_topDie ht)
  · exact (fills_processEntry hu (CompileUnit.topVisit t)).followed fun _ => fills_forLevels hu _ _

theorem fills_walkUnit (hu : u ∈ CompileUnit.units s) :
    Fills s (fun _ => True) (walkUnit s u) (madeByUnit s u) := by
  have hversion : Growth.recallAll.Grows (checkVersion u.encoding.version) := by
    intro desk
    obtain ⟨desk', hrun, hlike⟩ := outcome_checkVersion u.encoding.version desk
    rw [hrun]
    exact hlike.recalls
  exact (fills_nothing hversion).followed fun _ => (fills_forEntries hu).orReport _ _ _

theorem fills_forM {us : List CompileUnit} (hus : ∀ u ∈ us, u ∈ CompileUnit.units s) :
    Fills s (fun _ => True) (us.forM (walkUnit s)) (madeByUnits s us) := by
  induction us with
  | nil => exact fills_nothing (Growth.grows_pure ())
  | cons u us ih =>
    rw [List.forall_mem_cons] at hus
    exact (fills_walkUnit hus.1).followed fun _ => ih hus.2

/-- A walk leaves nothing in the cache but what it has made, and gives all of it. -/
theorem filled_run (s : DebugSections) (desk : Desk) :
    Coherent s (outcome (run (some s)) desk).2 (madeByRun s desk) ∧
    (∀ u d, desk.Knows u d → (outcome (run (some s)) desk).2.Knows u d) ∧
    ∀ symbols, (outcome (run (some s)) desk).1 = .ok symbols →
      symbols.types = (madeByRun s desk).map Made.info := by
  let start : Desk := { desk with types := [], found := {}, versionReported := false }
  have hfilled : Filled s start [] (madeByRun s desk)
      (outcome ((CompileUnit.units s).forM (walkUnit s)) start).2 :=
    fills_forM (fun _ h => h) start [] (Coherent.empty s rfl) trivial
  obtain ⟨desk', hlike, hrun⟩ := outcome_runUnits s start
  rw [outcome_run_reset, hrun]
  refine ⟨hfilled.coherent.recalls hlike.recalls, fun u d hd => ?_, fun symbols hok => ?_⟩
  · exact hlike.recalls.known u d (hfilled.known u d hd)
  · rcases hend : (outcome ((CompileUnit.units s).forM (walkUnit s)) start).1 with e | _ <;>
      rw [hend] at hok <;> cases hok
    exact hfilled.found

end Walk

/-! ### Any steps -/

namespace Walk
variable {s : DebugSections}

/-- What can be done with one extractor, and what has been made since the last walk began. -/
inductive Step (s : DebugSections) : Desk × List Made → Desk × List Made → Prop
  | look (desk : Desk) (made : List Made) (u : CompileUnit) (hu : u ∈ CompileUnit.units s)
      (look : Look) : Step s (desk, made) ((outcome (inUnit u (look.read s u)) desk).2, made)
  | extractType (desk : Desk) (made : List Made) (u : CompileUnit) (d : Die)
      (hu : u ∈ CompileUnit.units s) (hd : desk.Knows u d) :
      Step s (desk, made) ((outcome (extractType s u d) desk).2, made ++ madeBy s u d desk)
  | extractFunction (desk : Desk) (made : List Made) (u : CompileUnit) (d : Die) :
      Step s (desk, made) ((outcome (extractFunction s u d) desk).2, made)
  | extractVariable (desk : Desk) (made : List Made) (d : Die) (scope : Scope) :
      Step s (desk, made) ((outcome (extractVariable d scope) desk).2, made)
  | walk (desk : Desk) (made : List Made) :
      Step s (desk, made) ((outcome (run (some s)) desk).2, madeByRun s desk)

def Reached (s : DebugSections) : Desk × List Made → Prop := Relation.ReflTransGen (Step s) ({}, [])

/-- A step keeps the cache coherent, and what is known. -/
theorem coherent_of_step {before after : Desk × List Made} (h : Step s before after)
    (hc : Coherent s before.1 before.2) : Coherent s after.1 after.2 ∧
      ∀ u d, before.1.Knows u d → after.1.Knows u d := by
  cases h with
  | look desk made u hu look =>
    have hle := grows_inUnit (u := u) (@Look.grows_read s u look) desk
    exact ⟨hc.recalls hle, hle.known⟩
  | extractType desk made u d hu hd =>
    exact ⟨hc.extractType hu hd, (extractType_keeps s u d desk).1⟩
  | extractFunction desk made u d =>
    have hle := (@settles_extractFunction s u d).grows desk
    exact ⟨hc.recalls hle, hle.known⟩
  | extractVariable desk made d scope => exact ⟨hc, fun _ _ h => h⟩
  | walk desk made =>
    obtain ⟨hafter, hknown, -⟩ := filled_run s desk
    exact ⟨hafter, hknown⟩

theorem coherent_of_reached {held : Desk × List Made} (h : Reached s held) :
    Coherent s held.1 held.2 := by
  induction h with
  | refl => exact Coherent.empty s rfl
  | tail _ hstep ih => exact (coherent_of_step hstep ih).1

end Walk

/-- The desk of a new extractor for the same units. -/
def Desk.afresh (desk : Desk) : Desk := { desk with types := [] }

namespace Walk
variable {s : DebugSections} {u : CompileUnit} {desk : Desk} {made : List Made} {d : Die}

theorem outcome_extractType_afresh (d : Die) (desk : Desk) :
    (outcome (extractType s u d) desk.afresh).1 = (outcome (makeType s u d) desk.afresh).1 :=
  outcome_extractType_of_none d rfl

/-- The cache does not show in the types that are given. -/
theorem extractType_eq_afresh (h : Coherent s desk made) (hu : u ∈ CompileUnit.units s)
    (hd : desk.Knows u d) :
    (outcome (extractType s u d) desk).1 = (outcome (extractType s u d) desk.afresh).1 := by
  rcases extractType_cases s u d desk with ⟨info, hl, hrun⟩ | ⟨hnew, -⟩
  · rw [hrun, outcome_extractType_afresh]
    exact (h.again _ (h.mem_of_lookup hu hd hl) desk.afresh fun _ _ h => h).symm
  · exact outcome_extractType_congr rfl hnew

/-- What holds of a desk on which `made` lists the types since the last walk began. -/
structure CacheLaws (s : DebugSections) (desk : Desk) (made : List Made) : Prop where
  /-- A type that is extracted is the one that a new extractor makes. -/
  fresh : ∀ u ∈ CompileUnit.units s, ∀ d, desk.Knows u d →
    (outcome (extractType s u d) desk).1 = (outcome (extractType s u d) desk.afresh).1
  cached : ∀ key info, desk.types.lookup key = some info ↔ ∃ m ∈ made, m.key = key ∧ m.info = info
  keys : (desk.types.map Prod.fst).Nodup
  /-- What was made before would be made again. -/
  again : ∀ m ∈ made, m.unit ∈ CompileUnit.units s ∧ desk.Knows m.unit m.die ∧
    (outcome (extractType s m.unit m.die) desk.afresh).1 = .ok m.info
  /-- Entries do not share a place. -/
  places : ∀ u ∈ CompileUnit.units s, ∀ w ∈ CompileUnit.units s, ∀ d e, desk.Knows u d →
    desk.Knows w e → (u.offset, d.unitOffset u) = (w.offset, e.unitOffset w) → u = w ∧ d = e
  functionsKeep : ∀ u d, (outcome (extractFunction s u d) desk).2.types = desk.types
  variablesKeep : ∀ d scope, (outcome (extractVariable d scope) desk).2.types = desk.types
  /-- An extraction that fails leaves the cache as it was. -/
  failuresKeep : ∀ u d e, (outcome (extractType s u d) desk).1 = .error e →
    (outcome (extractType s u d) desk).2.types = desk.types
  /-- A walk gives what it has made. -/
  walked : ∀ symbols, (outcome (run (some s)) desk).1 = .ok symbols →
    symbols.types = (madeByRun s desk).map Made.info
  /-- Every entry of a unit is known once it was looked for. -/
  looked : ∀ u (look : Look) d, (outcome (inUnit u (look.read s u)) desk).1 = .ok (some d) →
    (outcome (inUnit u (look.read s u)) desk).2.Knows u d
  remembered : ∀ after, Step s (desk, made) after → ∀ u d, desk.Knows u d → after.1.Knows u d

/-- After any steps the cache has the types that were made since the last walk began, by the places of
their entries. -/
theorem cache_coherent (h : Reached s (desk, made)) : CacheLaws s desk made := by
  have hc : Coherent s desk made := coherent_of_reached h
  constructor
  case fresh => exact fun u hu d hd => extractType_eq_afresh hc hu hd
  case cached => exact hc.cached
  case keys => exact hc.keys
  case again =>
    intro m hm
    obtain ⟨hunit, hknown⟩ := hc.known m hm
    refine ⟨hunit, hknown, ?_⟩
    rw [outcome_extractType_afresh]
    exact hc.again m hm desk.afresh fun _ _ h => h
  case places => exact fun u hu w hw d e hd he => hd.eq_of_key hu hw he
  case functionsKeep => exact fun u d => ((settles_extractFunction d).grows desk).types
  case variablesKeep => exact fun d scope => rfl
  case failuresKeep =>
    intro u d e he
    rcases extractType_cases s u d desk with
      ⟨info, -, hrun⟩ | ⟨-, ⟨e', -, hrun⟩ | ⟨info, -, hrun⟩⟩ <;> rw [hrun] at he ⊢
    · exact ((settles_makeType d).grows desk).types
    · cases he
  case walked => exact (filled_run s desk).2.2
  case looked =>
    intro u look d hd
    rw [outcome_inUnit] at hd
    exact knows_of_inUnit (Look.knows_of_read hd)
  case remembered => exact fun after hstep => (coherent_of_step hstep hc).2

/-- The unit of `typedUnit`, and its structure. -/
def soleUnit : CompileUnit where
  offset := 0
  header := ⟨21, ⟨4, false, 8⟩, 0⟩
  start := 11
  table := Abbreviation.table? typedUnit.abbreviations 0

def soleStructure : Die :=
  ⟨12, 4, some 19, true, [⟨3, .string, .text [83]⟩, ⟨11, .data1, .number 4⟩]⟩

def soleType : TypeInfo := .mk "S" (some 4) .struct [.mk "m" 0 .unresolved]

/-- The structure has been looked for. -/
def structureSeen : Desk :=
  (outcome (inUnit soleUnit (Look.read typedUnit soleUnit (.entry 12))) {}).2

/-- Its type has been extracted too. -/
def structureKept : Desk := (outcome (extractType typedUnit soleUnit soleStructure) structureSeen).2

/-- The type of the structure is made and kept in its place. -/
theorem cache_coherent_typedUnit :
    Reached typedUnit (structureKept, [⟨soleUnit, soleStructure, soleType⟩]) ∧
      structureKept.types.lookup (0, 12) = some soleType ∧
      (outcome (extractType typedUnit soleUnit soleStructure) structureKept.afresh).1 =
        .ok soleType := by
  have hunits : CompileUnit.units typedUnit = [soleUnit] := by cbv
  have hu : soleUnit ∈ CompileUnit.units typedUnit := by
    rw [hunits]
    exact List.mem_singleton_self soleUnit
  have hseen : Reached typedUnit (structureSeen, []) :=
    Relation.ReflTransGen.single (.look {} [] soleUnit hu (.entry 12))
  have hknown : structureSeen.Knows soleUnit soleStructure := ⟨by decide +kernel, by cbv⟩
  have hmade : madeBy typedUnit soleUnit soleStructure structureSeen =
      [⟨soleUnit, soleStructure, soleType⟩] := madeBy_of_ok (by cbv)
  have hreached : Reached typedUnit (structureKept, [⟨soleUnit, soleStructure, soleType⟩]) := by
    have hstep := Step.extractType structureSeen [] soleUnit soleStructure hu hknown
    rw [hmade] at hstep
    exact hseen.tail hstep
  have hlaws := cache_coherent hreached
  exact ⟨hreached, (hlaws.cached (0, 12) soleType).mpr ⟨_, List.mem_singleton_self _, rfl, rfl⟩,
    (hlaws.again _ (List.mem_singleton_self _)).2.2⟩

end Walk

end ElfScope.Dwarf
