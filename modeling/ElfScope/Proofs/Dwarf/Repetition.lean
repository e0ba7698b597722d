import Mathlib
import ElfScope.Proofs.Dwarf.SideBySide
import ElfScope.Proofs.Dwarf.Traversal

/-! # Repeated walks

Units remember their entries, so what is done before a walk could show in it. It does not where every
unit takes its own first entry for its top, with all of its indices resolved: then what is remembered of
a unit is what is decoded again.
-/
namespace ElfScope.Dwarf

open CompileUnit

/-! ### Uses -/

/-- A traversal of a unit. It has levels once its first entry was asked for. -/
structure Traversal (s : DebugSections) where
  unit : {u // u ∈ units s}
  levels : Option (List (Preorder.Level Cursor)) := none

/-- What can be done with the units of a section, and with any entries in them. -/
inductive Use (s : DebugSections) where
  | listUnits
  | traverse (u : {u // u ∈ units s})
  /-- Asks a traversal for its next entry. -/
  | next (i : Nat)
  | extractFunction (u : {u // u ∈ units s}) (d : Die)
  | extractVariable (d : Die) (scope : Scope)
  | extractType (u : {u // u ∈ units s}) (d : Die)
  | walk

namespace Walk
variable (s : DebugSections)

/-- The levels after the next entry. -/
def nextLevels (u : CompileUnit) :
    Option (List (Preorder.Level Cursor)) → Walk (List (Preorder.Level Cursor))
  | none => firstLevels <$> inUnit u (u.topDie s)
  | some levels => (fun visited => (visited.map Prod.snd).getD []) <$>
    Preorder.next (fun c => inUnit u (u.advance s c)) Die.children? Die.isSubprogram levels

/-- A traversal that fails is over. -/
def resume (t : Traversal s) : Walk (Traversal s) := do
  let left ← attempt (nextLevels s t.unit t.levels)
  return { t with levels := some (left.getD []) }

def resumeAt (underway : List (Traversal s)) (i : Nat) : Walk (List (Traversal s)) :=
  match underway[i]? with
  | none => return underway
  | some t => do
    let t ← resume s t
    return underway.set i t

/-- What is under way after a use. What fails is given up. -/
def perform (underway : List (Traversal s)) : Use s → Walk (List (Traversal s))
  | .listUnits => do
    let _ ← Walk.units s
    return underway
  | .traverse u => return underway ++ [{ unit := u }]
  | .next i => resumeAt s underway i
  | .extractFunction u d => do
    let _ ← attempt (extractFunction s u d)
    return underway
  | .extractVariable d scope => do
    let _ ← extractVariable d scope
    return underway
  | .extractType u d => do
    let _ ← attempt (extractType s u d)
    return underway
  | .walk => do
    let _ ← run (some s)
    return underway

def performAll (uses : List (Use s)) : Walk (List (Traversal s)) := uses.foldlM (perform s) []

/-- What is kept after some uses. -/
def deskAfter (uses : List (Use s)) : Desk := (outcome (performAll s uses) {}).2

end Walk

/-- The first entry of a unit can be decoded, but not all of its indices can be resolved. -/
def CompileUnit.HalfDecoded (s : DebugSections) (u : CompileUnit) : Prop :=
  die? s u none u.start ≠ none ∧ top? s u = none

instance (s : DebugSections) (u : CompileUnit) : Decidable (u.HalfDecoded s) :=
  inferInstanceAs (Decidable (_ ∧ _))

instance (u : CompileUnit) (m : Memory) : Decidable (m.Stray u) :=
  inferInstanceAs (Decidable (∃ d ∈ m.entries, d.offset < u.start))

/-- No unit takes anything for its top but its own first entry, with all indices resolved. -/
structure Desk.Faithful (s : DebugSections) (desk : Desk) : Prop where
  first : ∀ u ∈ units s, ¬(desk.memory u).Stray u
  whole : ∀ u ∈ units s, u.HalfDecoded s → desk.memory u = {}

/-! ### A unit that stands where it is -/

theorem Cursor.shift_zero (c : Cursor) : c.shift 0 = c := by
  cases c <;> rfl

namespace Pairing

theorem shiftNext_zero : shiftNext 0 = id := by
  funext r
  rcases r with _ | ⟨d, c⟩
  · rfl
  · change some (d, c.shift 0) = _
    rw [c.shift_zero]
    rfl

theorem map_shiftLevel_zero (levels : List (Preorder.Level Cursor)) :
    levels.map (shiftLevel 0) = levels := by
  have hid : shiftLevel 0 = id := by
    funext level
    unfold shiftLevel
    rw [level.cursor.shift_zero]
    rfl
  rw [hid, List.map_id]

/-! ### The memory of a unit -/

section
variable {s : DebugSections} {u : CompileUnit}

/-- Memories of a unit that give the same entries: both sound, or both untouched by a failure. -/
def ofUnit (s : DebugSections) (u : CompileUnit) : Pairing Memory where
  clean m := ¬m.Stray u
  like m m' := (∃ t, top? s u = some t ∧ m.Sound s u t ∧ m'.Sound s u t) ∨
    (top? s u = none ∧ m' = m ∧ (die? s u none u.start = none → m = {}))

/-- What only decodes entries gives the same from memories that give the same entries. -/
theorem agrees_reading {α : Type} {act : Reading α} (hstray : Stays (Memory.Stray u) act)
    (hempty : die? s u none u.start = none → Stays (· = {}) act)
    (h : ∀ t, top? s u = some t → ∃ p, Simulates (Memory.Sound s u t) (Memory.Stray u) act p) :
    (ofUnit s u).Agrees True act act id fun _ => True := by
  refine ⟨fun m hc hs => hc (hstray m hs), fun _ m m' hl hc _ => ?_⟩
  rw [Except.map_id]
  rcases hl with ⟨t, ht, hm, hm'⟩ | ⟨ht, rfl, hdie⟩
  · obtain ⟨p, hp⟩ := h t ht
    rcases hp.sound m hm with ⟨-, hs⟩ | ⟨hrun, hsound⟩
    · exact absurd hs hc
    · rcases hp.sound m' hm' with ⟨hnone, -⟩ | ⟨hrun', hsound'⟩
      · cases hrun.symm.trans hnone
      · have hsame := Option.some.inj (hrun.symm.trans hrun')
        exact ⟨(outcome act m').2, Prod.ext hsame.symm rfl, .inl ⟨t, ht, hsound, hsound'⟩,
          fun _ _ => trivial⟩
  · exact ⟨_, rfl, .inr ⟨ht, rfl, fun hd => hempty hd _ (hdie hd)⟩, fun _ _ => trivial⟩

theorem stays_empty_topDie (h : die? s u none u.start = none) : Stays (· = {}) (u.topDie s) := by
  rintro m rfl
  rw [outcome_topDie_none, h]

theorem stays_empty_dieAt (h : die? s u none u.start = none) (offset : Nat) :
    Stays (· = {}) (u.dieAt s offset) := by
  rintro m rfl
  rw [outcome_dieAt, outcome_topDie_none, h]

theorem agrees_topDie_again :
    (ofUnit s u).Agrees True (u.topDie s) (u.topDie s) id fun _ => True :=
  agrees_reading (fun _ => stray_topDie) stays_empty_topDie fun _ ht => ⟨_, simulates_topDie ht⟩

theorem agrees_advance_again (c : Cursor) :
    (ofUnit s u).Agrees True (u.advance s c) (u.advance s c) id fun _ => True :=
  agrees_reading (stays_advance (fun o m h => @stray_dieAt s u m h o) c)
    (fun hd => stays_advance (stays_empty_dieAt hd) c) fun _ ht => ⟨_, simulates_advance ht c⟩

end

end Pairing

/-! ### The desk of a walk -/

/-- Desks with the same symbols and types, whose memories give the same entries. -/
structure Desk.Again (s : DebugSections) (desk desk' : Desk) : Prop where
  memory : ∀ u ∈ units s, (Pairing.ofUnit s u).like (desk.memory u) (desk'.memory u)
  types : desk'.types = desk.types
  found : desk'.found = desk.found

namespace Desk.Again
variable {s : DebugSections} {desk desk' desk₁ desk₁' : Desk}

theorem alike (h : desk.Again s desk') (ha : Alike desk desk₁) (ha' : Alike desk' desk₁') :
    desk₁.Again s desk₁' := by
  refine ⟨fun u hu => ?_, ?_, ?_⟩
  · rw [ha.memory, ha'.memory]
    exact h.memory u hu
  · rw [ha.types, ha'.types]
    exact h.types
  · rw [ha.found, ha'.found]
    exact h.found

theorem remember (h : desk.Again s desk') {u : CompileUnit} (hu : u ∈ units s) {m m' : Memory}
    (hm : (Pairing.ofUnit s u).like m m') : (desk.remember u m).Again s (desk'.remember u m') := by
  refine ⟨fun w hw => ?_, h.types, h.found⟩
  by_cases hsame : w.offset = u.offset
  · cases eq_of_mem_units hu hw hsame
    rw [Growth.memory_remember_of_eq rfl, Growth.memory_remember_of_eq rfl]
    exact hm
  · rw [Growth.memory_remember_of_ne hsame, Growth.memory_remember_of_ne hsame]
    exact h.memory w hw

/-- A desk without anything on it is like itself. -/
theorem empty (s : DebugSections) : Again s {} {} := by
  refine ⟨fun u _ => ?_, rfl, rfl⟩
  cases ht : top? s u with
  | some t => exact .inl ⟨t, ht, .inl rfl, .inl rfl⟩
  | none => exact .inr ⟨ht, rfl, fun _ => rfl⟩

/-- What is kept between walks does not show in the next one, once the records are forgotten. -/
theorem of_faithful (h : desk.Again s desk) (hf : desk.Faithful s) :
    Again s {} { desk with types := [], found := {}, versionReported := false } := by
  refine ⟨fun u hu => ?_, rfl, rfl⟩
  rcases h.memory u hu with ⟨t, ht, hm, -⟩ | ⟨ht, -, hempty⟩
  · exact .inl ⟨t, ht, .inl rfl, hm⟩
  · refine .inr ⟨ht, ?_, fun _ => rfl⟩
    by_cases hd : die? s u none u.start = none
    · exact hempty hd
    · exact hf.whole u hu ⟨hd, ht⟩

end Desk.Again

namespace Pairing
variable {s : DebugSections}

def ofUnits (s : DebugSections) : Pairing Desk where
  clean desk := ∀ u ∈ units s, ¬(desk.memory u).Stray u
  like := Desk.Again s

theorem aligned_ofUnits : (ofUnits s).Aligned 0 where
  clean hc hsame u hu := by
    have hmemory := hc u hu
    rwa [Desk.memory, hsame] at hmemory
  alike := Desk.Again.alike
  add hl more := ⟨hl.memory, hl.types, congrArg (· ++ more) hl.found⟩
  lookup hl o j := congrArg (List.lookup (o, j)) hl.types
  cache hl o j info := ⟨hl.memory, congrArg (· ++ [((o, j), info)]) hl.types, hl.found⟩

theorem agrees_inUnit {u : CompileUnit} (hu : u ∈ units s) {α : Type} {act : Reading α}
    (h : (ofUnit s u).Agrees True act act id fun _ => True) :
    (ofUnits s).Agrees True (Walk.inUnit u act) (Walk.inUnit u act) id fun _ => True := by
  constructor
  · intro desk hc
    exact @forall_memory_of_inUnit s u (fun w m => ¬m.Stray w) hu _ _ h.clean desk hc
  · intro _ desk desk' hl hc hne
    have hmemory := hc u hu
    rw [Walk.outcome_inUnit] at hne ⊢
    rw [Walk.outcome_inUnit, Desk.memory_remember] at hmemory
    obtain ⟨m', hrun, hm', -⟩ := h.agrees trivial _ _ (hl.memory u hu) hmemory hne
    rw [Walk.outcome_inUnit, hrun]
    exact ⟨_, rfl, hl.remember hu hm', fun _ _ => trivial⟩

/-- Nothing has to be known of a cursor where the section stays the same. -/
theorem decodes_again {u : CompileUnit} (hu : u ∈ units s) :
    (ofUnits s).Decodes 0 s s u fun _ => True where
  toAligned := aligned_ofUnits
  limit := le_rfl
  first _ := trivial
  topDie := agrees_inUnit hu agrees_topDie_again
  advance c := by
    rw [shiftNext_zero, c.shift_zero]
    exact (agrees_inUnit hu (agrees_advance_again c)).mono id fun _ _ _ _ => trivial

/-! ### What is done twice -/

theorem agrees_reportHeader (broken : Bool) : (ofUnits s).Agrees True (Walk.reportHeader broken)
    (Walk.reportHeader broken) id fun _ => True :=
  Agrees.ite (fun _ => agrees_report aligned_ofUnits _ _ _ _) fun _ =>
    agrees_pure rfl fun _ => trivial

theorem agrees_summarize : (ofUnits s).Agrees True Walk.summarize Walk.summarize id
    fun _ => True := by
  refine ⟨fun _ hc => aligned_ofUnits.clean hc rfl, fun _ desk desk' hl _ _ => ?_⟩
  refine ⟨_, congrArg₂ _ (congrArg Except.ok hl.found) rfl, ?_, fun _ _ => trivial⟩
  exact ⟨hl.memory, hl.types, hl.found⟩

theorem agrees_runUnits : (ofUnits s).Agrees True (Walk.runUnits s) (Walk.runUnits s) id
    fun _ => True := by
  have hforM : (ofUnits s).Agrees True ((units s).forM (Walk.walkUnit s))
      (((units s).map (·.shift 0)).forM (Walk.walkUnit s)) id fun _ => True :=
    agrees_forM fun u hu => agrees_walkUnit (decodes_again hu)
  have hsame : (units s).map (·.shift 0) = units s := List.map_id _
  rw [hsame] at hforM
  rw [Walk.runUnits_eq]
  exact hforM.andThen fun _ => (agrees_reportHeader _).andThen fun _ => agrees_summarize

theorem agrees_run : (ofUnits s).Agrees True (Walk.run (some s)) (Walk.run (some s)) id
    fun _ => True := by
  have hreset : (ofUnits s).Agrees True Walk.reset Walk.reset id fun _ => True :=
    agrees_modify (fun _ hc => aligned_ofUnits.clean hc rfl) fun _ _ hl => ⟨hl.memory, rfl, rfl⟩
  exact hreset.andThen fun _ => agrees_runUnits

theorem agrees_nextLevels {u : CompileUnit} (hu : u ∈ units s)
    (levels : Option (List (Preorder.Level Cursor))) :
    (ofUnits s).Agrees True (Walk.nextLevels s u levels) (Walk.nextLevels s u levels) id
      fun _ => True := by
  have hmap {α β : Type} (act : Walk α) (f : α → β) : f <$> act = act >>= fun a => pure (f a) := rfl
  cases levels with
  | none =>
    rw [Walk.nextLevels, hmap]
    exact (decodes_again hu).topDie.andThen fun _ => agrees_pure rfl fun _ => trivial
  | some levels =>
    have hnext := agrees_next (decodes_again hu) levels
    rw [map_shiftLevel_zero] at hnext
    rw [Walk.nextLevels, hmap]
    refine (hnext.mono (fun _ _ _ => trivial) fun _ => id).andThen fun r => ?_
    refine agrees_pure ?_ fun _ => trivial
    cases r with
    | none => rfl
    | some x => exact (map_shiftLevel_zero x.2).symm

theorem agrees_resume (t : Traversal s) :
    (ofUnits s).Agrees True (Walk.resume s t) (Walk.resume s t) id fun _ => True := by
  unfold Walk.resume
  refine (agrees_nextLevels t.unit.2 t.levels).attempt.andThen fun left => ?_
  rw [Option.map_id]
  exact agrees_pure rfl fun _ => trivial

theorem agrees_resumeAt (underway : List (Traversal s)) (i : Nat) :
    (ofUnits s).Agrees True (Walk.resumeAt s underway i) (Walk.resumeAt s underway i) id
      fun _ => True := by
  unfold Walk.resumeAt
  cases underway[i]? with
  | none => exact agrees_pure rfl fun _ => trivial
  | some t => exact (agrees_resume t).andThen fun _ => agrees_pure rfl fun _ => trivial

/-- A use does the same on desks that are alike, and leaves them so. -/
theorem agrees_perform (underway : List (Traversal s)) (use : Use s) :
    (ofUnits s).Agrees True (Walk.perform s underway use) (Walk.perform s underway use) id
      fun _ => True := by
  have hdone (all : List (Traversal s)) : (ofUnits s).Agrees True (pure all) (pure all) id
      fun _ => True := agrees_pure rfl fun _ => trivial
  cases use with
  | listUnits =>
    have hunits : (ofUnits s).Agrees True (Walk.units s) (Walk.units s) id fun _ => True :=
      (agrees_reportHeader (CompileUnit.list s).2).andThen fun _ => agrees_pure rfl fun _ => trivial
    exact hunits.andThen fun _ => hdone _
  | traverse u => exact hdone _
  | next i => exact agrees_resumeAt underway i
  | extractFunction u d =>
    exact (agrees_extractFunction (decodes_again u.2) d).attempt.andThen fun _ => hdone _
  | extractVariable d scope => exact hdone _
  | extractType u d =>
    exact (agrees_extractType (decodes_again u.2) d).attempt.andThen fun _ => hdone _
  | walk => exact agrees_run.andThen fun _ => hdone _

end Pairing

namespace Walk
variable {s : DebugSections} {uses : List (Use s)}

/-- What is left after some uses is like itself: it is all sound. -/
theorem again_deskAfter (hends : (outcome (performAll s uses) {}).1 ≠ .error .endless)
    (h : (deskAfter s uses).Faithful s) : (deskAfter s uses).Again s (deskAfter s uses) := by
  have hagrees := @Pairing.agrees_foldlM _ _ _ _ uses _ Pairing.agrees_perform []
  obtain ⟨desk, hrun, hlike, -⟩ := hagrees.agrees trivial {} {} (Desk.Again.empty s) h.first hends
  have hdesk : deskAfter s uses = desk := congrArg Prod.snd hrun
  rw [← hdesk] at hlike
  exact hlike

/-- A walk that ends, and decodes no entry before the first one of its unit, gives the same symbols and
leaves the same types after any uses that end, as long as no unit takes anything for its top but its
own first entry, with all indices resolved. -/
theorem run_repeats (s : DebugSections) (uses : List (Use s))
    (hends : (outcome (performAll s uses) {}).1 ≠ .error .endless)
    (hfaithful : (deskAfter s uses).Faithful s) {symbols : Symbols}
    (hrun : (outcome (run (some s)) {}).1 = .ok symbols)
    (hfirst : ∀ u ∈ CompileUnit.units s, ¬((outcome (run (some s)) {}).2.memory u).Stray u) :
    (outcome (run (some s)) (deskAfter s uses)).1 = .ok symbols ∧
      (outcome (run (some s)) (deskAfter s uses)).2.types = (outcome (run (some s)) {}).2.types := by
  have hlike := (again_deskAfter hends hfaithful).of_faithful hfaithful
  rw [outcome_run_reset] at hrun hfirst
  have hagrees := Pairing.agrees_runUnits.agrees trivial _ _ hlike hfirst
  rw [hrun] at hagrees
  obtain ⟨again, hagain, hlast, -⟩ := hagrees (by simp)
  rw [outcome_run_reset, hagain, outcome_run_reset]
  exact ⟨rfl, hlast.types⟩

/-- A unit with a structure of one member, and a variable. -/
def typedUnit : DebugSections where
  info := [21, 0, 0, 0, 4, 0, 0, 0, 0, 0, 8, 1, 2, 83, 0, 4, 3, 109, 0, 0, 0, 4, 120, 0, 0]
  abbreviations := [1, 17, 1, 0, 0, 2, 19, 1, 3, 8, 11, 11, 0, 0, 3, 13, 0, 3, 8, 56, 11, 0, 0,
    4, 52, 0, 3, 8, 0, 0, 0]

/-- A traversal is left before the structure is met. A type without a name is cached in the place of the
structure, and one walk is made already. -/
def typedUnitUses : List (Use typedUnit) :=
  (CompileUnit.units typedUnit).attach.flatMap fun u =>
    [.traverse u, .next 0, .extractType u ⟨12, 4, some 19, false, []⟩, .listUnits, .walk, .next 0,
      .extractFunction u ⟨16, 4, some 13, true, []⟩]

theorem typedUnit_repeats :
    (outcome (run (some typedUnit)) (deskAfter typedUnit typedUnitUses)).1 = .ok
      { globals := [⟨"x", none, none, .void, .global⟩],
        types := [.mk "S" (some 4) .struct [.mk "m" 0 .unresolved]] } ∧
    (outcome (run (some typedUnit)) (deskAfter typedUnit typedUnitUses)).2.types =
      [((0, 12), .mk "S" (some 4) .struct [.mk "m" 0 .unresolved])] := by
  have hends : (outcome (performAll typedUnit typedUnitUses) {}).1 ≠ .error .endless := by
    have hok : (outcome (performAll typedUnit typedUnitUses) {}).1.isOk := by decide +kernel
    intro he
    rw [he] at hok
    cases hok
  have hfaithful : (deskAfter typedUnit typedUnitUses).Faithful typedUnit :=
    ⟨by decide +kernel, by decide +kernel⟩
  have hfirst : ∀ u ∈ CompileUnit.units typedUnit,
      ¬((outcome (run (some typedUnit)) {}).2.memory u).Stray u := by decide +kernel
  have htypes : (outcome (run (some typedUnit)) {}).2.types =
      [((0, 12), .mk "S" (some 4) .struct [.mk "m" 0 .unresolved])] := by cbv
  obtain ⟨hsymbols, hsame⟩ :=
    run_repeats typedUnit typedUnitUses hends hfaithful (by cbv) hfirst
  exact ⟨hsymbols, hsame.trans htypes⟩

/-- A unit whose first entry has the index of a string, but nothing that tells where strings are. -/
def unresolvedTop : DebugSections where
  info := [14, 0, 0, 0, 5, 0, 1, 8, 0, 0, 0, 0, 1, 0, 2, 120, 0, 0]
  abbreviations := [1, 17, 1, 3, 37, 0, 0, 2, 52, 0, 3, 8, 0, 0, 0]

/-- A unit with a variable, and a block whose sibling reference leads back to the header. The first byte
of the header is the code of a variable. -/
def backwardBlock : DebugSections where
  info := [17, 0, 0, 0, 4, 0, 0, 0, 0, 0, 8, 1, 3, 120, 0, 2, 0, 0, 0, 0, 0]
  abbreviations := [1, 17, 1, 0, 0, 2, 11, 1, 1, 19, 0, 0, 3, 52, 0, 3, 8, 0, 0, 17, 52, 0, 0, 0, 0]

/-- The first walk gives a unit up whose first entry cannot be resolved, and the second one walks it with
the indices as they are. An entry in the header is the first one of its unit for the second walk. -/
theorem second_walk_differs :
    (outcome (run (some unresolvedTop)) {}).1 = .ok {} ∧
    (outcome (run (some unresolvedTop)) (deskAfter unresolvedTop [.walk])).1 =
      .ok { globals := [⟨"x", none, none, .void, .global⟩] } ∧
    (outcome (run (some backwardBlock)) {}).1 = .ok
      { globals := [⟨"x", none, none, .void, .global⟩, ⟨"<unknown>", none, none, .void, .global⟩] } ∧
    (outcome (run (some backwardBlock)) (deskAfter backwardBlock [.walk])).1 =
      .ok { globals := [⟨"<unknown>", none, none, .void, .global⟩] } :=
  ⟨by cbv, by cbv, by cbv, by cbv⟩

end Walk

end ElfScope.Dwarf
