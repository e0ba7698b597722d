import Mathlib
import ElfScope.Proofs.Dwarf.Shifted

/-! # Walks side by side

Where the entries of a unit are decoded alike on two desks, all that a walk makes of the unit is alike:
the records, the types that are cached and the symbols that are added. The unit may stand so many bytes
further on for the second desk.
-/
namespace ElfScope.Dwarf

open CompileUnit

def shiftLevel (k : Nat) (level : Preorder.Level Cursor) : Preorder.Level Cursor :=
  { level with cursor := level.cursor.shift k }

def shiftVisit (k : Nat) (v : Preorder.Visit Die) : Preorder.Visit Die :=
  { v with node := v.node.shift k }

namespace Pairing

/-- Desks stay alike where the same symbols or types are added to both, whatever is reported. Whether a
desk is clean depends on the memories alone. -/
structure Aligned (g : Pairing Desk) (k : Nat) : Prop where
  clean : ∀ {desk desk'}, g.clean desk' → desk'.memories = desk.memories → g.clean desk
  alike : ∀ {desk desk' desk₁ desk₁'}, g.like desk desk' → Desk.Alike desk desk₁ →
    Desk.Alike desk' desk₁' → g.like desk₁ desk₁'
  add : ∀ {desk desk'}, g.like desk desk' → ∀ more, g.like { desk with found := desk.found ++ more }
    { desk' with found := desk'.found ++ more }
  lookup : ∀ {desk desk'}, g.like desk desk' → ∀ o j,
    desk'.types.lookup (o + k, j) = desk.types.lookup (o, j)
  cache : ∀ {desk desk'}, g.like desk desk' → ∀ o j info,
    g.like { desk with types := desk.types ++ [((o, j), info)] }
      { desk' with types := desk'.types ++ [((o + k, j), info)] }

/-- The entries of a unit are decoded alike, from cursors that are ready. -/
structure Decodes (g : Pairing Desk) (k : Nat) (s s' : DebugSections) (u : CompileUnit)
    (ready : Cursor → Prop) : Prop extends g.Aligned k where
  limit : pathLimit s ≤ pathLimit s'
  first : ∀ p, ready (.at p)
  topDie : g.Agrees True (Walk.inUnit u (u.topDie s))
    (Walk.inUnit (u.shift k) ((u.shift k).topDie s')) (·.shift k) fun _ => True
  advance : ∀ c, g.Agrees (ready c) (Walk.inUnit u (u.advance s c))
    (Walk.inUnit (u.shift k) ((u.shift k).advance s' (c.shift k))) (shiftNext k)
    fun r => ∀ x ∈ r, ready x.2

/-- What holds of the memories of all units after an action of one held before, if the action gives it
to no memory. -/
theorem forall_memory_of_inUnit {s : DebugSections} {u : CompileUnit}
    {C : CompileUnit → Memory → Prop} (hu : u ∈ units s) {α : Type} {act : Reading α}
    (h : ∀ m, C u (outcome act m).2 → C u m) {desk : Desk}
    (hc : ∀ w ∈ units s, C w ((outcome (Walk.inUnit u act) desk).2.memory w)) :
    ∀ w ∈ units s, C w (desk.memory w) := by
  intro w hw
  have hmemory := hc w hw
  rw [Walk.outcome_inUnit] at hmemory
  by_cases hsame : w.offset = u.offset
  · cases eq_of_mem_units hu hw hsame
    rw [Desk.memory_remember] at hmemory
    exact h _ hmemory
  · rwa [Growth.memory_remember_of_ne hsame] at hmemory

section
variable {g : Pairing Desk} {p : Prop} {α α' : Type} {f : α → α'} {Q : α → Prop}

theorem agrees_ofRecord (r : Except RecordError α) :
    g.Agrees p (Walk.ofRecord r) (Walk.ofRecord r) id fun _ => True := by
  cases r with
  | ok a => exact agrees_pure rfl fun _ => trivial
  | error e => exact agrees_throw _

theorem Agrees.attempt {act : Walk α} {act' : Walk α'} (h : g.Agrees p act act' f Q) :
    g.Agrees p (Walk.attempt act) (Walk.attempt act') (Option.map f) fun o => ∀ a ∈ o, Q a := by
  constructor
  · intro desk hc
    rw [Walk.outcome_attempt_state] at hc
    exact h.clean desk hc
  · intro hp desk desk' hl hc hne
    rw [Walk.outcome_attempt_state] at hc
    have hact := h.agrees hp desk desk' hl hc
    rw [Walk.outcome_attempt] at hne
    rw [Walk.outcome_attempt, Walk.outcome_attempt]
    rcases hr : outcome act desk with ⟨(_ | _ | _) | b, desk₁⟩ <;> rw [hr] at hact hne
    case error.endless => exact absurd rfl hne
    all_goals
      obtain ⟨desk₁', hrun, hl', hgives⟩ := hact (by simp)
      rw [hrun]
      refine ⟨desk₁', rfl, hl', fun o ho a ha => ?_⟩
      cases ho
      cases ha
    exact hgives b rfl

end

section
variable {g : Pairing Desk} {k : Nat} {p : Prop} {α α' : Type}
variable (hg : g.Aligned k)
include hg

/-- What is reported may differ. -/
theorem agrees_report (level : Level) (logger message message' : Text) :
    g.Agrees p (Walk.report level logger message) (Walk.report level logger message') id
      fun _ => True :=
  agrees_modify (fun _ h => hg.clean h rfl) fun _ _ h => hg.alike h ⟨rfl, rfl, rfl⟩ ⟨rfl, rfl, rfl⟩

theorem agrees_found {change : Symbols → Symbols} {more : Symbols}
    (h : ∀ found, change found = found ++ more) :
    g.Agrees p (modify fun desk => { desk with found := change desk.found })
      (modify fun desk => { desk with found := change desk.found }) id fun _ => True := by
  refine agrees_modify (fun _ hc => hg.clean hc rfl) fun desk desk' hl => ?_
  rw [h, h]
  exact hg.add hl more

theorem agrees_orSkip {child child' : Die} {part : Text} {act act' : Walk α}
    (h : g.Agrees True act act' id fun _ => True) :
    g.Agrees True (Walk.orSkip child part act) (Walk.orSkip child' part act') id fun _ => True := by
  unfold Walk.orSkip
  refine h.attempt.bind fun o => ?_
  cases o with
  | some made => exact agrees_pure rfl fun _ => trivial
  | none => exact (agrees_report hg _ _ _ _).bind fun _ => agrees_pure rfl fun _ => trivial

theorem agrees_checkVersion (version : Int) :
    g.Agrees True (Walk.checkVersion version) (Walk.checkVersion version) id fun _ => True := by
  constructor
  · intro desk hc
    obtain ⟨desk₁, hrun, hlike⟩ := Walk.outcome_checkVersion version desk
    rw [hrun] at hc
    exact hg.clean hc hlike.memories
  · intro _ desk desk' hl _ _
    obtain ⟨desk₁, hrun, hlike⟩ := Walk.outcome_checkVersion version desk
    obtain ⟨desk₁', hrun', hlike'⟩ := Walk.outcome_checkVersion version desk'
    rw [hrun]
    exact ⟨desk₁', hrun', hg.alike hl hlike hlike', fun _ _ => trivial⟩

end

/-! ### Records -/

section
variable {g : Pairing Desk} {k : Nat} {s s' : DebugSections} {u : CompileUnit}
  {ready : Cursor → Prop} {α : Type}
variable (hg : g.Decodes k s s' u ready)
include hg

theorem agrees_collectFrom {make make' : Die → Walk (Option α)}
    (hmake : ∀ d, g.Agrees True (make d) (make' (d.shift k)) id fun _ => True)
    {fuel fuel' : Nat} (hle : fuel ≤ fuel') (c : Cursor) :
    g.Agrees (ready c) (Walk.collectFrom s u make fuel c)
      (Walk.collectFrom s' (u.shift k) make' fuel' (c.shift k)) id fun _ => True := by
  induction fuel generalizing fuel' c with
  | zero => exact agrees_endless
  | succ fuel ih =>
    obtain ⟨fuel', rfl⟩ : ∃ n, fuel' = n + 1 := ⟨fuel' - 1, by omega⟩
    rw [Walk.collectFrom, Walk.collectFrom]
    refine (hg.advance c).bind fun r => ?_
    rcases r with _ | ⟨d, c'⟩
    · exact agrees_pure rfl fun _ => trivial
    · refine (hmake d).always.bind fun made => ?_
      refine ((ih (by omega) c').mono (fun h => h.1.2 _ rfl) fun _ => id).bind fun rest => ?_
      exact agrees_pure rfl fun _ => trivial

theorem agrees_collectChildren (d : Die) (tag : Nat) {make make' : Die → Walk (Option α)}
    (hmake : ∀ d, g.Agrees True (make d) (make' (d.shift k)) id fun _ => True) :
    g.Agrees True (Walk.collectChildren s u d tag make)
      (Walk.collectChildren s' (u.shift k) (d.shift k) tag make') id fun _ => True := by
  have hchoose (child : Die) : g.Agrees True
      (if child.tag = some tag then make child else return none)
      (if (child.shift k).tag = some tag then make' (child.shift k) else return none) id
      fun _ => True :=
    Agrees.ite (fun _ => hmake child) fun _ => agrees_pure rfl fun _ => trivial
  unfold Walk.collectChildren
  rw [children?_shift]
  unfold Die.children?
  by_cases hc : d.hasChildren
  · simp only [if_pos hc]
    exact (agrees_collectFrom hg hchoose hg.limit _).mono (fun _ => hg.first _) fun _ => id
  · simp only [if_neg hc]
    exact agrees_pure rfl fun _ => trivial

theorem agrees_extractFunction (d : Die) :
    g.Agrees True (Walk.extractFunction s u d) (Walk.extractFunction s' (u.shift k) (d.shift k)) id
      fun _ => True := by
  unfold Walk.extractFunction
  refine (agrees_collectChildren hg d _ fun child =>
    agrees_orSkip hg.toAligned ?_).bind fun ps => ?_
  · exact agrees_pure rfl fun _ => trivial
  · exact agrees_ofRecord _

theorem agrees_makeType (d : Die) :
    g.Agrees True (Walk.makeType s u d) (Walk.makeType s' (u.shift k) (d.shift k)) id
      fun _ => True := by
  have hmembers : g.Agrees True (Walk.extractMembers s u d)
      (Walk.extractMembers s' (u.shift k) (d.shift k)) id fun _ => True := by
    unfold Walk.extractMembers
    refine Agrees.ite (fun _ => ?_) fun _ => agrees_pure rfl fun _ => trivial
    exact agrees_collectChildren hg d _ fun child =>
      agrees_orSkip hg.toAligned (agrees_ofRecord _)
  unfold Walk.makeType
  exact hmembers.bind fun members => agrees_ofRecord _

/-- The types of a unit are cached with the unit, at an offset within it. -/
theorem agrees_extractType (d : Die) :
    g.Agrees True (Walk.extractType s u d) (Walk.extractType s' (u.shift k) (d.shift k)) id
      fun _ => True := by
  have hkey : (d.shift k).unitOffset (u.shift k) = d.unitOffset u := by
    unfold Die.unitOffset Die.shift CompileUnit.shift
    push_cast
    omega
  have hmake : g.Agrees True (Walk.makeType s u d >>= Walk.cacheType u d)
      (Walk.makeType s' (u.shift k) (d.shift k) >>= Walk.cacheType (u.shift k) (d.shift k)) id
      fun _ => True := by
    refine (agrees_makeType hg d).bind fun info => ?_
    unfold Walk.cacheType
    rw [hkey]
    refine Agrees.bind (agrees_modify (fun _ hc => hg.clean hc rfl) fun desk desk' hl => ?_)
      fun _ => agrees_pure rfl fun _ => trivial
    exact hg.cache hl u.offset (d.unitOffset u) info
  constructor
  · intro desk hc
    rw [Walk.outcome_extractType] at hc
    cases hcached : desk.types.lookup (u.offset, d.unitOffset u) <;> rw [hcached] at hc
    · exact hmake.clean desk hc
    · exact hc
  · intro _ desk desk' hl hc hne
    have hlookup := hg.lookup hl u.offset (d.unitOffset u)
    have hoffset : (u.shift k).offset = u.offset + k := rfl
    rw [Walk.outcome_extractType] at hc hne
    rw [Walk.outcome_extractType, Walk.outcome_extractType, hkey, hoffset, hlookup]
    cases hcached : desk.types.lookup (u.offset, d.unitOffset u) <;> rw [hcached] at hc hne
    · exact hmake.agrees trivial desk desk' hl hc hne
    · exact ⟨desk', rfl, hl, fun _ _ => trivial⟩

theorem agrees_processEntry (v : Preorder.Visit Die) :
    g.Agrees True (Walk.processEntry s u v) (Walk.processEntry s' (u.shift k) (shiftVisit k v)) id
      fun _ => True := by
  have hrecord : g.Agrees True (Walk.recordOf s u v)
      (Walk.recordOf s' (u.shift k) (shiftVisit k v)) id fun _ => True := by
    unfold Walk.recordOf
    refine Agrees.ite (fun _ => ?_) fun _ => Agrees.ite (fun _ => Agrees.ite (fun _ => ?_) fun _ => ?_)
      fun _ => Agrees.ite (fun _ => ?_) fun _ => ?_
    · refine (agrees_extractFunction hg v.node).bind fun info => ?_
      exact @agrees_found g k _ hg.toAligned (fun found => { found with
        functions := found.functions ++ [info] }) { functions := [info] } fun found => by
        simp [Symbols.append_def]
    · exact @agrees_found g k _ hg.toAligned (fun found => { found with
        globals := found.globals ++ [v.node.variableInfo .global] })
        { globals := [v.node.variableInfo .global] } fun found => by simp [Symbols.append_def]
    · exact agrees_pure rfl fun _ => trivial
    · refine (agrees_extractType hg v.node).bind fun info => ?_
      exact @agrees_found g k _ hg.toAligned (fun found => { found with
        types := found.types ++ [info] }) { types := [info] } fun found => by
        simp [Symbols.append_def]
    · exact agrees_pure rfl fun _ => trivial
  unfold Walk.processEntry
  refine (agrees_report hg.toAligned _ _ _ _).andThen fun _ => ?_
  refine hrecord.attempt.andThen fun o => ?_
  rw [Option.map_id]
  exact Agrees.ite (fun _ => agrees_report hg.toAligned _ _ _ _) fun _ =>
    agrees_pure rfl fun _ => trivial

/-! ### Traversals -/

omit hg in
/-- The next entry, with the levels after it. -/
def shiftVisited (k : Nat) :
    Option (Preorder.Visit Die × List (Preorder.Level Cursor)) →
      Option (Preorder.Visit Die × List (Preorder.Level Cursor)) :=
  Option.map (Prod.map (shiftVisit k) (List.map (shiftLevel k)))

omit hg in
theorem below_shift (k : Nat) (v : Preorder.Visit Die) :
    Preorder.below Die.children? Die.isSubprogram (shiftVisit k v) =
      (Preorder.below Die.children? Die.isSubprogram v).map (shiftLevel k) := by
  unfold Preorder.below shiftVisit
  simp only [children?_shift]
  cases v.node.children? <;> rfl

theorem ready_below {v : Preorder.Visit Die} :
    ∀ level ∈ Preorder.below Die.children? Die.isSubprogram v, ready level.cursor := by
  unfold Preorder.below Die.children?
  by_cases hc : v.node.hasChildren
  · simp only [if_pos hc]
    intro level hl
    cases List.mem_singleton.mp hl
    exact hg.first _
  · simp [hc]

theorem agrees_next (levels : List (Preorder.Level Cursor)) :
    g.Agrees (∀ level ∈ levels, ready level.cursor)
      (Preorder.next (fun c => Walk.inUnit u (u.advance s c)) Die.children? Die.isSubprogram levels)
      (Preorder.next (fun c => Walk.inUnit (u.shift k) ((u.shift k).advance s' c)) Die.children?
        Die.isSubprogram (levels.map (shiftLevel k))) (shiftVisited k)
      fun r => ∀ x ∈ r, ∀ level ∈ x.2, ready level.cursor := by
  induction levels with
  | nil => exact agrees_pure rfl fun _ x hx => by cases hx
  | cons level rest ih =>
    rw [List.map_cons, Preorder.next, Preorder.next]
    refine ((hg.advance level.cursor).mono (fun h => h _ List.mem_cons_self) fun _ => id).bind
      fun r => ?_
    rcases r with _ | ⟨d, c⟩
    · exact ih.mono (fun h l hl => h.1 l (List.mem_cons_of_mem _ hl)) fun _ => id
    · refine agrees_pure ?_ fun h x hx => ?_
      · have hbelow := below_shift k ⟨d, level.depth, level.inside⟩
        change some (_, List.map _ _) = some (_, Preorder.below Die.children? Die.isSubprogram
          (shiftVisit k ⟨d, level.depth, level.inside⟩) ++ _)
        rw [hbelow, List.map_append]
        rfl
      · obtain rfl := Option.some.inj hx
        refine List.forall_mem_append.mpr ⟨ready_below hg, List.forall_mem_cons.mpr ⟨h.2 _ rfl, ?_⟩⟩
        exact fun l hl => h.1 l (List.mem_cons_of_mem _ hl)

theorem agrees_forLevels {fuel fuel' : Nat} (hle : fuel ≤ fuel')
    (levels : List (Preorder.Level Cursor)) :
    g.Agrees (∀ level ∈ levels, ready level.cursor) (Walk.forLevels s u fuel levels)
      (Walk.forLevels s' (u.shift k) fuel' (levels.map (shiftLevel k))) id fun _ => True := by
  induction fuel generalizing fuel' levels with
  | zero => exact agrees_endless
  | succ fuel ih =>
    obtain ⟨fuel', rfl⟩ : ∃ n, fuel' = n + 1 := ⟨fuel' - 1, by omega⟩
    rw [Walk.forLevels_succ, Walk.forLevels_succ]
    refine (agrees_next hg levels).bind fun r => ?_
    rcases r with _ | ⟨v, left⟩
    · exact agrees_pure rfl fun _ => trivial
    · refine (agrees_processEntry hg v).always.bind fun _ => ?_
      exact (ih (by omega) left).mono (fun h => h.1.2 _ rfl) fun _ => id

/-- A unit adds the same symbols on both desks. -/
theorem agrees_walkUnit :
    g.Agrees True (Walk.walkUnit s u) (Walk.walkUnit s' (u.shift k)) id fun _ => True := by
  have hlimit : visitLimit s ≤ visitLimit s' := by
    unfold visitLimit
    rw [Nat.one_shiftLeft, Nat.one_shiftLeft]
    exact Nat.pow_le_pow_right (by omega) hg.limit
  have hentries : g.Agrees True (Walk.forEntries s u (Walk.processEntry s u))
      (Walk.forEntries s' (u.shift k) (Walk.processEntry s' (u.shift k))) id fun _ => True := by
    unfold Walk.forEntries Preorder.walk
    refine hg.topDie.bind fun top => ?_
    refine (agrees_processEntry hg ⟨top, 0, false⟩).always.bind fun _ => ?_
    have hbelow := below_shift k ⟨top, 0, false⟩
    change g.Agrees _ (Walk.forLevels s u _ _) (Walk.forLevels s' (u.shift k) _
      (Preorder.below Die.children? Die.isSubprogram (shiftVisit k ⟨top, 0, false⟩))) _ _
    rw [hbelow]
    exact (agrees_forLevels hg hlimit _).mono (fun _ => ready_below hg) fun _ => id
  unfold Walk.walkUnit
  refine (agrees_checkVersion hg.toAligned _).andThen fun _ => ?_
  refine hentries.attempt.andThen fun o => ?_
  rw [Option.map_id]
  exact Agrees.ite (fun _ => agrees_report hg.toAligned _ _ _ _) fun _ =>
    agrees_pure rfl fun _ => trivial

end

end Pairing

end ElfScope.Dwarf
