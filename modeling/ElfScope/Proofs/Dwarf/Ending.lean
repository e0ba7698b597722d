import Mathlib
import ElfScope.Proofs.Dwarf.Containment
import ElfScope.Proofs.Dwarf.Course

/-! # Walks that end

As long as the sibling references lead forward, each step of a traversal makes the way that is left
shorter, so a walk ends. Where they also lead past the subtree that they skip, no entry is met twice.
-/
namespace ElfScope.Dwarf

open CompileUnit

/-! ### The way that is left -/

namespace Cursor

/-- A bound for the entries that can still be met from a cursor on: every one of them may open a list
of its own. -/
def weight (bound : Nat) (c : Cursor) : Nat := 2 ^ (bound - c.position) - 1

/-- The same for a stack of cursors. -/
def weights (bound : Nat) (cs : List Cursor) : Nat := (cs.map (·.weight bound)).sum

theorem weights_append (bound : Nat) (cs cs' : List Cursor) :
    weights bound (cs ++ cs') = weights bound cs + weights bound cs' := by
  simp [weights]

theorem weight_le (bound : Nat) {c : Cursor} {o : Nat} (h : o ≤ c.position) :
    c.weight bound ≤ 2 ^ (bound - o) - 1 :=
  Nat.sub_le_sub_right (Nat.pow_le_pow_right (by omega) (by omega)) 1

/-- An entry with what follows it, and what is below it, leaves less than the way up to it. -/
theorem weights_entry_lt (bound : Nat) {c : Cursor} {d : Die} (hc : c.position ≤ d.offset)
    (hpos : 0 < d.size) (hbound : d.offset < bound) :
    weights bound (d.children?.toList ++ [.after d]) < c.weight bound := by
  have hpow : 2 ^ (bound - d.offset) = 2 * 2 ^ (bound - (d.offset + 1)) := by
    rw [← pow_succ']
    congr 1
    omega
  have hle : 2 ^ (bound - d.offset) ≤ 2 ^ (bound - c.position) :=
    Nat.pow_le_pow_right (by omega) (by omega)
  have hone : 0 < 2 ^ (bound - (d.offset + 1)) := Nat.two_pow_pos _
  have hafter : weight bound (.after d) = 2 ^ (bound - (d.offset + 1)) - 1 := rfl
  have hchildren : weights bound d.children?.toList ≤ 2 ^ (bound - (d.offset + 1)) - 1 := by
    unfold Die.children?
    split_ifs
    · have hat := weight_le (o := d.offset + 1) bound
        (c := .at (d.offset + d.size)) (by change _ ≤ d.offset + d.size; omega)
      simpa [weights] using hat
    · exact Nat.zero_le _
  rw [weights_append]
  change _ + (weight bound (.after d) + 0) < 2 ^ (bound - c.position) - 1
  omega

end Cursor

def cursors (levels : List (Preorder.Level Cursor)) : List Cursor := levels.map (·.cursor)

theorem cursors_below (v : Preorder.Visit Die) :
    cursors (Preorder.below Die.children? Die.isSubprogram v) = v.node.children?.toList := by
  unfold Preorder.below
  cases v.node.children? <;> rfl

theorem cursors_append (levels levels' : List (Preorder.Level Cursor)) :
    cursors (levels ++ levels') = cursors levels ++ cursors levels' :=
  List.map_append

namespace Growth
variable {s : DebugSections} {u : CompileUnit} {B : CompileUnit → Nat → Prop}

/-- The children of an entry start at a known offset. -/
def Opens (B : Nat → Prop) (d : Die) : Prop := d.hasChildren = true → B (d.offset + d.size)

/-- The cursors of a stack are known. -/
def Known (B : CompileUnit → Nat → Prop) (u : CompileUnit) (cs : List Cursor) (desk : Desk) : Prop :=
  ∀ c ∈ cs, c.Known (B u) (desk.memory u)

/-- A sibling reference of the unit leads back. -/
def LeadsBack (u : CompileUnit) (desk : Desk) : Prop := (desk.memory u).LeadsBack u

theorem lasting_known_all (cs : List Cursor) : (ofDesk s B).Lasting (Known B u cs) :=
  fun _ _ hle h c hc => lasting_known (s := s) (u := u) c _ _ (hle.memory u) (h c hc)

theorem opens_of_tracked (hB : Covers s u (B u)) {m : Memory} (hm : m.Tracked s u (B u)) {d : Die}
    (hd : d ∈ m.entries) : Opens (B u) d := by
  obtain ⟨hx, ho⟩ := hm d hd
  exact hB.child _ _ ho hx

theorem known_children {desk : Desk} {d : Die} (h : Opens (B u) d) :
    Known B u d.children?.toList desk := by
  unfold Die.children?
  split_ifs with hchildren
  · intro c hc
    cases List.mem_singleton.mp hc
    exact h hchildren
  · intro c hc
    cases hc

variable (hB : Covers s u (B u)) (hu : CompileUnit.at? s u.offset = some u)
include hB hu

/-! ### Records -/

theorem runs_advance_inUnit (c : Cursor) :
    (ofDesk s B).Runs (fun desk => c.Known (B u) (desk.memory u))
      (Walk.inUnit u (u.advance s c)) (fun r desk => Advanced s u (B u) c r (desk.memory u))
      (LeadsBack u) :=
  runs_inUnit hu (runs_advance hB c)

variable {α : Type}

theorem runs_collectFrom {make : Die → Walk (Option α)}
    (hmake : ∀ d, (ofDesk s B).Runs (fun _ => True) (make d) (fun _ _ => True) (LeadsBack u))
    (fuel : Nat) (c : Cursor) :
    (ofDesk s B).Runs (fun desk => c.Known (B u) (desk.memory u))
      (Walk.collectFrom s u make fuel c) (fun _ _ => True)
      fun desk => LeadsBack u desk ∨ fuel = 0 ∨ c.position + fuel ≤ s.info.length + 1 := by
  induction fuel generalizing c with
  | zero => exact runs_throw fun _ _ _ _ => .inr (.inl rfl)
  | succ fuel ih =>
    have hknown := (lasting_known (s := s) (u := u) (B := B u) c).ofDesk
    rw [Walk.collectFrom]
    refine Runs.bind hknown ((runs_advance_inUnit hB hu c).mono (fun _ _ => id)
      (fun _ _ _ => id) fun _ _ => .inl) fun r => ?_
    rcases r with _ | ⟨d, c'⟩
    · exact runs_pure fun _ _ _ => trivial
    · refine Runs.assume (fun desk hd h => h.2.1) fun hc' => ?_
      subst hc'
      refine Runs.assume (fun desk hd h => outline?_size (hd u hu d h.2.2.1.1).1) fun hsize => ?_
      rw [outline_size] at hsize
      refine Runs.mono (P := fun desk => Cursor.Known (B u) (desk.memory u) (.after d) ∧
        (LeadsBack u desk ∨ c.position ≤ d.offset)) ?_
        (fun desk hd h => ⟨h.2.2.1, h.2.2.2.2.2⟩) (fun _ _ _ => id) fun _ _ => id
      have hafter := (lasting_known (s := s) (u := u) (B := B u) (.after d)).ofDesk
      have hback := (lasting_leadsBack (s := s) (u := u) (B := B u)).ofDesk
      have hlasting := hafter.and (hback.or (lasting_const (c.position ≤ d.offset)))
      refine Runs.andThen hlasting ((hmake d).always.mono (fun _ _ => id) (fun _ _ _ => id)
        fun _ _ => .inl) fun made => ?_
      have hrest := ((ih (.after d)).mono (fun _ _ h => h.1) (fun _ _ _ => id)
        fun _ _ => id).keep hlasting
      refine Runs.andThen hlasting (hrest.mono (fun _ _ => id) (fun _ _ _ => id)
        fun desk hd h => ?_) fun rest => runs_pure fun _ _ _ => trivial
      rcases h.1.2, h.2 with ⟨hback | hle, hback' | hzero | hend⟩
      · exact .inl hback
      · exact .inl hback
      · exact .inl hback
      · exact .inl hback'
      · exact .inr (.inr (by omega))
      · change d.offset + 1 + fuel ≤ _ at hend
        exact .inr (.inr (by omega))

/-- All children are met where sibling references lead forward: a list is shorter than the section. -/
theorem runs_collectChildren {d : Die} (hd : Opens (B u) d) (tag : Nat)
    {make : Die → Walk (Option α)}
    (hmake : ∀ d, (ofDesk s B).Runs (fun _ => True) (make d) (fun _ _ => True) (LeadsBack u)) :
    (ofDesk s B).Runs (fun _ => True) (Walk.collectChildren s u d tag make) (fun _ _ => True)
      (LeadsBack u) := by
  unfold Walk.collectChildren
  cases hc : d.children? with
  | none => exact runs_pure fun _ _ _ => trivial
  | some c =>
    have hchoose (child : Die) : (ofDesk s B).Runs (fun _ => True)
        (if child.tag = some tag then make child else return none) (fun _ _ => True)
        (LeadsBack u) :=
      Runs.ite (fun _ => hmake child) fun _ => runs_pure fun _ _ _ => trivial
    have hknown (desk : Desk) : c.Known (B u) (desk.memory u) :=
      known_children hd c (by simp [hc])
    refine (runs_collectFrom hB hu hchoose (pathLimit s) c).mono (fun desk _ _ => hknown desk)
      (fun _ _ _ => id) fun desk hd h => h.resolve_right ?_
    rw [pathLimit]
    omega

omit hB hu in
theorem runs_orSkip {N : Desk → Prop} {child : Die} {part : Text} {act : Walk α}
    (h : (ofDesk s B).Runs (fun _ => True) act (fun _ _ => True) N) :
    (ofDesk s B).Runs (fun _ => True) (Walk.orSkip child part act) (fun _ _ => True) N := by
  unfold Walk.orSkip
  refine (runs_attempt h).andThen (lasting_const _) fun o => ?_
  cases o with
  | some a => exact runs_pure fun _ _ _ => trivial
  | none => exact (runs_report _ _ _).andThen (lasting_const _) fun _ => runs_pure fun _ _ _ => trivial

theorem runs_extractFunction {d : Die} (hd : Opens (B u) d) :
    (ofDesk s B).Runs (fun _ => True) (Walk.extractFunction s u d) (fun _ _ => True)
      (LeadsBack u) := by
  unfold Walk.extractFunction
  refine (runs_collectChildren hB hu hd _ fun child => runs_orSkip ?_).andThen (lasting_const _)
    fun ps => runs_ofRecord _
  exact runs_pure fun _ _ _ => trivial

theorem runs_extractType {d : Die} (hd : Opens (B u) d) :
    (ofDesk s B).Runs (fun _ => True) (Walk.extractType s u d) (fun _ _ => True)
      (LeadsBack u) := by
  have hmembers : (ofDesk s B).Runs (fun _ => True) (Walk.extractMembers s u d) (fun _ _ => True)
      (LeadsBack u) := by
    unfold Walk.extractMembers
    refine Runs.ite (fun _ => ?_) fun _ => runs_pure fun _ _ _ => trivial
    exact runs_collectChildren hB hu hd _ fun child => runs_orSkip (runs_ofRecord _)
  have hmake : (ofDesk s B).Runs (fun _ => True) (Walk.makeType s u d) (fun _ _ => True)
      (LeadsBack u) := by
    unfold Walk.makeType
    exact hmembers.andThen (lasting_const _) fun members => runs_ofRecord _
  unfold Walk.extractType
  refine runs_get.andThen (lasting_const _) fun desk => ?_
  cases desk.types.lookup (u.offset, d.unitOffset u) with
  | some info => exact runs_pure fun _ _ _ => trivial
  | none =>
    refine hmake.andThen (lasting_const _) fun info => ?_
    unfold Walk.cacheType
    refine Runs.andThen (Q := fun _ _ => True) (lasting_const _) ?_
      fun _ => runs_pure fun _ _ _ => trivial
    exact runs_modify (fun _ => rfl) fun _ => rfl

theorem runs_processEntry {v : Preorder.Visit Die} (hv : Opens (B u) v.node) :
    (ofDesk s B).Runs (fun _ => True) (Walk.processEntry s u v) (fun _ _ => True)
      (LeadsBack u) := by
  have hrecord : (ofDesk s B).Runs (fun _ => True) (Walk.recordOf s u v) (fun _ _ => True)
      (LeadsBack u) := by
    unfold Walk.recordOf
    refine Runs.ite (fun _ => ?_) fun _ => Runs.ite (fun _ => Runs.ite (fun _ => ?_) fun _ => ?_)
      fun _ => Runs.ite (fun _ => ?_) fun _ => ?_
    · refine (runs_extractFunction hB hu hv).andThen (lasting_const _) fun f => ?_
      exact runs_add (fun _ => rfl) fun desk => ⟨{ functions := [f] }, by simp [Symbols.append_def]⟩
    · exact runs_add (fun _ => rfl) fun desk =>
        ⟨{ globals := [v.node.variableInfo .global] }, by simp [Symbols.append_def]⟩
    · exact runs_pure fun _ _ _ => trivial
    · refine (runs_extractType hB hu hv).andThen (lasting_const _) fun t => ?_
      exact runs_add (fun _ => rfl) fun desk => ⟨{ types := [t] }, by simp [Symbols.append_def]⟩
    · exact runs_pure fun _ _ _ => trivial
  unfold Walk.processEntry
  refine (runs_report _ _ _).andThen (lasting_const _) fun _ => ?_
  refine (runs_attempt hrecord).andThen (lasting_const _) fun o => ?_
  exact Runs.ite (fun _ => runs_report _ _ _) fun _ => runs_pure fun _ _ _ => trivial

/-! ### Traversals -/

omit hB hu in
/-- What is known of an entry that is met, and of the way that is left after it. -/
structure Visited (s : DebugSections) (B : CompileUnit → Nat → Prop) (u : CompileUnit)
    (levels : List (Preorder.Level Cursor)) (v : Preorder.Visit Die)
    (left : List (Preorder.Level Cursor)) (desk : Desk) : Prop where
  mem : v.node ∈ (desk.memory u).entries
  listed : B u v.node.offset
  opens : Opens (B u) v.node
  known : Known B u (cursors left) desk
  shorter : LeadsBack u desk ∨ Cursor.weights (s.info.length + 1) (cursors left) <
    Cursor.weights (s.info.length + 1) (cursors levels)
  ahead : u.LeadsPast s v.node → ∀ f, Ahead s u f (cursors levels) →
    f ≤ v.node.offset ∧ Ahead s u (v.node.offset + v.node.size) (cursors left)

omit hB hu in
theorem lasting_visited (levels : List (Preorder.Level Cursor)) (v : Preorder.Visit Die)
    (left : List (Preorder.Level Cursor)) :
    (ofDesk s B).Lasting (Visited s B u levels v left) := by
  intro desk desk' hle h
  refine ⟨hle.memory u _ h.mem, h.listed, h.opens, lasting_known_all _ _ _ hle h.known, ?_, h.ahead⟩
  exact h.shorter.imp (lasting_leadsBack (s := s) (u := u) (B := B u) _ _ (hle.memory u)) id

/-- The first cursor comes to an entry. Its children are next, and then what follows it. -/
theorem visited_of_known {level : Preorder.Level Cursor} {rest : List (Preorder.Level Cursor)}
    {d : Die} {desk : Desk} (hd : (ofDesk s B).sound desk)
    (hknown : Known B u (cursors (level :: rest)) desk)
    (h : Cursor.Known (B u) (desk.memory u) (.after d))
    (hplaced : Placed s u (B u) level.cursor d.offset (desk.memory u)) :
    Visited s B u (level :: rest) ⟨d, level.depth, level.inside⟩
      (Preorder.below Die.children? Die.isSubprogram ⟨d, level.depth, level.inside⟩ ++
        { level with cursor := .after d } :: rest) desk := by
  obtain ⟨hmem, hoffset, htag⟩ := h
  obtain ⟨-, hplace, hup⟩ := hplaced
  have hopens := opens_of_tracked hB (hd u hu) hmem
  obtain ⟨hx, -⟩ := hd u hu d hmem
  obtain ⟨hpos, hle⟩ := outline?_size hx
  rw [outline_size] at hpos hle
  have hleft : cursors (Preorder.below Die.children? Die.isSubprogram
      ⟨d, level.depth, level.inside⟩ ++ { level with cursor := .after d } :: rest) =
      (d.children?.toList ++ [.after d]) ++ cursors rest := by
    rw [cursors_append, cursors_below, List.append_assoc]
    rfl
  refine ⟨hmem, hoffset, hopens, ?_, ?_, fun hpast f hf => ?_⟩
  · rw [hleft]
    intro c hc
    rcases List.mem_append.mp hc with hc | hc
    · rcases List.mem_append.mp hc with hc | hc
      · exact known_children hopens c hc
      · cases List.mem_singleton.mp hc
        exact ⟨hmem, hoffset, htag⟩
    · exact hknown c (List.mem_cons_of_mem _ hc)
  · refine hup.imp id fun hup => ?_
    have hlt := Cursor.weights_entry_lt (s.info.length + 1) hup hpos (by omega)
    rw [hleft, Cursor.weights_append]
    exact Nat.add_lt_add_right hlt _
  · rw [hleft, List.append_assoc]
    exact Ahead.entry hf hplace hx htag hpast

/-- What is known of the next entry, if there is one. -/
def VisitedNext (s : DebugSections) (B : CompileUnit → Nat → Prop) (u : CompileUnit)
    (levels : List (Preorder.Level Cursor)) :
    Option (Preorder.Visit Die × List (Preorder.Level Cursor)) → Desk → Prop
  | none, _ => True
  | some (v, left), desk => Visited s B u levels v left desk

theorem runs_next (levels : List (Preorder.Level Cursor)) :
    (ofDesk s B).Runs (Known B u (cursors levels))
      (Preorder.next (fun c => Walk.inUnit u (u.advance s c)) Die.children? Die.isSubprogram levels)
      (VisitedNext s B u levels) (LeadsBack u) := by
  induction levels with
  | nil => exact runs_pure fun _ _ _ => trivial
  | cons level rest ih =>
    have hlasting := lasting_known_all (s := s) (B := B) (u := u) (cursors (level :: rest))
    rw [Preorder.next]
    refine Runs.bind hlasting ((runs_advance_inUnit hB hu level.cursor).mono
      (fun desk _ h => h _ List.mem_cons_self) (fun _ _ _ => id) fun _ _ => id) fun r => ?_
    rcases r with _ | ⟨d, c'⟩
    · refine Runs.assume (fun desk hd h => h.2) ?_
      rintro ⟨o, x, hplace, hx, hnull⟩
      refine ih.mono (fun desk hd h c hc => h.1 c (List.mem_cons_of_mem _ hc))
        (fun r desk hd h => ?_) fun _ _ => id
      rcases r with _ | ⟨v, left⟩
      · trivial
      · refine ⟨h.mem, h.listed, h.opens, h.known, h.shorter.imp id fun hlt => ?_, fun hpast f hf => ?_⟩
        · exact hlt.trans_le (Nat.le_add_left _ _)
        · obtain ⟨hle, hrest⟩ := Ahead.null hf hplace hx hnull
          obtain ⟨hle', hleft⟩ := h.ahead hpast _ hrest
          exact ⟨by omega, hleft⟩
    · refine runs_pure fun desk hd h => ?_
      obtain ⟨hknown, rfl, hafter, hplaced⟩ := h
      exact visited_of_known hB hu hd hknown hafter hplaced

/-- One that comes after the other, without overlap. -/
def Before (v w : Preorder.Visit Die) : Prop := v.node.offset + v.node.size ≤ w.node.offset

/-- What is known of the entries that are left. -/
structure Listed (s : DebugSections) (B : CompileUnit → Nat → Prop) (u : CompileUnit)
    (cs : List Cursor) (vs : List (Preorder.Visit Die)) (desk : Desk) : Prop where
  mem : ∀ v ∈ vs, v.node ∈ (desk.memory u).entries
  listed : ∀ v ∈ vs, B u v.node.offset
  ordered : (∀ v ∈ vs, u.LeadsPast s v.node) → ∀ f, Ahead s u f cs →
    vs.Pairwise Before ∧ ∀ v ∈ vs, f ≤ v.node.offset

theorem runs_entriesFrom (fuel : Nat) (levels : List (Preorder.Level Cursor)) :
    (ofDesk s B).Runs (Known B u (cursors levels)) (Walk.entriesFrom s u fuel levels)
      (fun r desk => Listed s B u (cursors levels) r.1 desk)
      fun desk => LeadsBack u desk ∨
        fuel ≤ Cursor.weights (s.info.length + 1) (cursors levels) := by
  have hnone {levels : List (Preorder.Level Cursor)} {desk : Desk} :
      Listed s B u (cursors levels) [] desk :=
    ⟨by simp, by simp, fun _ _ _ => ⟨.nil, by simp⟩⟩
  induction fuel generalizing levels with
  | zero => exact runs_throw fun _ _ _ _ => .inr (Nat.zero_le _)
  | succ fuel ih =>
    have hlasting := lasting_known_all (s := s) (B := B) (u := u) (cursors levels)
    rw [Walk.entriesFrom]
    refine Runs.bind hlasting ((runs_attempt (runs_next hB hu levels)).mono (fun _ _ => id)
      (fun _ _ _ => id) fun _ _ => .inl) fun o => ?_
    rcases o with _ | _ | ⟨v, left⟩
    · exact runs_pure fun _ _ _ => hnone
    · exact runs_pure fun _ _ _ => hnone
    · have hvisited := lasting_visited (s := s) (B := B) (u := u) levels v left
      refine Runs.mono (P := Visited s B u levels v left) ?_ (fun desk hd h => h.2 _ rfl)
        (fun _ _ _ => id) fun _ _ => id
      have hrest := ((ih left).mono (fun desk hd h => Visited.known h) (fun _ _ _ => id)
        fun _ _ => id).keep hvisited
      refine Runs.bind hvisited (hrest.mono (fun _ _ => id) (fun _ _ _ => id) fun desk hd h => ?_)
        fun r => runs_pure fun desk hd h => ?_
      · rcases h.1.shorter, h.2 with ⟨hback | hlt, hback' | hle⟩
        · exact .inl hback
        · exact .inl hback
        · exact .inl hback'
        · exact .inr (by omega)
      · obtain ⟨hv, -, hlisted⟩ := h
        refine ⟨List.forall_mem_cons.mpr ⟨hv.mem, hlisted.mem⟩,
          List.forall_mem_cons.mpr ⟨hv.listed, hlisted.listed⟩, fun hpast f hf => ?_⟩
        obtain ⟨hfirst, hothers⟩ := List.forall_mem_cons.mp hpast
        obtain ⟨hle, hleft⟩ := hv.ahead hfirst f hf
        obtain ⟨hpairwise, hafter⟩ := hlisted.ordered hothers _ hleft
        refine ⟨List.pairwise_cons.mpr ⟨hafter, hpairwise⟩,
          List.forall_mem_cons.mpr ⟨hle, fun w hw => ?_⟩⟩
        have hw := hafter w hw
        omega

theorem runs_forLevels (fuel : Nat) (levels : List (Preorder.Level Cursor)) :
    (ofDesk s B).Runs (Known B u (cursors levels)) (Walk.forLevels s u fuel levels)
      (fun _ _ => True)
      fun desk => LeadsBack u desk ∨
        fuel ≤ Cursor.weights (s.info.length + 1) (cursors levels) := by
  induction fuel generalizing levels with
  | zero => exact runs_throw fun _ _ _ _ => .inr (Nat.zero_le _)
  | succ fuel ih =>
    have hlasting := lasting_known_all (s := s) (B := B) (u := u) (cursors levels)
    rw [Walk.forLevels_succ]
    refine Runs.bind hlasting ((runs_next hB hu levels).mono (fun _ _ => id)
      (fun _ _ _ => id) fun _ _ => .inl) fun o => ?_
    rcases o with _ | ⟨v, left⟩
    · exact runs_pure fun _ _ _ => trivial
    · have hvisited := lasting_visited (s := s) (B := B) (u := u) levels v left
      refine Runs.mono (P := Visited s B u levels v left) ?_ (fun desk hd h => h.2)
        (fun _ _ _ => id) fun _ _ => id
      refine Runs.assume (fun desk hd h => h.opens) fun hopens => ?_
      refine Runs.andThen hvisited ((runs_processEntry hB hu hopens).always.mono (fun _ _ => id)
        (fun _ _ _ => id) fun _ _ => .inl) fun _ => ?_
      have hrest := ((ih left).mono (fun desk hd h => Visited.known h) (fun _ _ _ => id)
        fun _ _ => id).keep hvisited
      refine hrest.mono (fun _ _ => id) (fun _ _ _ _ => trivial) fun desk hd h => ?_
      rcases h.1.shorter, h.2 with ⟨hback | hlt, hback' | hle⟩
      · exact .inl hback
      · exact .inl hback
      · exact .inl hback'
      · exact .inr (by omega)

omit hB hu in
/-- The limit of a traversal is above the way that is left below its first entry. -/
theorem weights_children_lt (s : DebugSections) (d : Die) :
    Cursor.weights (s.info.length + 1) d.children?.toList < visitLimit s := by
  have hpow : visitLimit s = 2 * 2 ^ (s.info.length + 1) := by
    rw [visitLimit, pathLimit, Nat.one_shiftLeft, pow_succ']
  have hone := Nat.two_pow_pos (s.info.length + 1)
  unfold Die.children?
  split_ifs
  · have hat := Cursor.weight_le (o := 0) (s.info.length + 1) (c := .at (d.offset + d.size))
      (Nat.zero_le _)
    have hsum : Cursor.weights (s.info.length + 1) [.at (d.offset + d.size)] =
        Cursor.weight (s.info.length + 1) (.at (d.offset + d.size)) := by simp [Cursor.weights]
    change Cursor.weights _ [.at (d.offset + d.size)] < _
    rw [Nat.sub_zero] at hat
    rw [hsum]
    omega
  · change 0 < _
    omega

theorem runs_topDie_inUnit :
    (ofDesk s B).Runs (fun _ => True) (Walk.inUnit u (u.topDie s))
      (fun d desk => d ∈ (desk.memory u).entries ∧ Opens (B u) d) (LeadsBack u) := by
  have htop := runs_inUnit (B := B) (P := fun _ => True) (N := Memory.LeadsBack u) hu runs_topDie
  refine htop.mono (fun _ _ => id) (fun d desk hd h => ⟨h, ?_⟩) fun _ _ => id
  exact opens_of_tracked hB (hd u hu) h

theorem runs_forEntries :
    (ofDesk s B).Runs (fun _ => True) (Walk.forEntries s u (Walk.processEntry s u))
      (fun _ _ => True) (LeadsBack u) := by
  unfold Walk.forEntries Preorder.walk
  refine (runs_topDie_inUnit hB hu).bind (lasting_const _) fun d => ?_
  refine Runs.assume (fun desk hd h => h.2.2) fun hopens => ?_
  refine Runs.always (Runs.andThen (lasting_const _) (runs_processEntry hB hu hopens) fun _ => ?_)
  refine (runs_forLevels hB hu (visitLimit s) _).mono (fun desk _ _ => ?_) (fun _ _ _ => id)
    fun desk hd h => h.resolve_right ?_
  · rw [cursors_below]
    exact known_children hopens
  · rw [cursors_below]
    exact (weights_children_lt s d).not_ge

omit hB hu in
theorem runs_checkVersion (version : Int) {N : Desk → Prop} :
    (ofDesk s B).Runs (fun _ => True) (Walk.checkVersion version) (fun _ _ => True) N := by
  unfold Walk.checkVersion
  refine runs_get.andThen (lasting_const _) fun desk => Runs.ite (fun _ => ?_) fun _ => ?_
  · refine Runs.andThen (Q := fun _ _ => True) (lasting_const _) ?_ fun _ => runs_report _ _ _
    exact runs_modify (fun _ => rfl) fun _ => rfl
  · exact runs_pure fun _ _ _ => trivial

theorem runs_walkUnit :
    (ofDesk s B).Runs (fun _ => True) (Walk.walkUnit s u) (fun _ _ => True) (LeadsBack u) := by
  unfold Walk.walkUnit
  refine (runs_checkVersion _).andThen (lasting_const _) fun _ => ?_
  refine (runs_attempt (runs_forEntries hB hu)).andThen (lasting_const _) fun o => ?_
  exact Runs.ite (fun _ => runs_report _ _ _) fun _ => runs_pure fun _ _ _ => trivial

theorem runs_entries :
    (ofDesk s B).Runs (fun _ => True) (Walk.entries s u)
      (fun r desk => (∀ v ∈ r.1, v.node ∈ (desk.memory u).entries) ∧
        (∀ v ∈ r.1.tail, B u v.node.offset) ∧ ((∀ v ∈ r.1.tail, u.LeadsPast s v.node) →
          r.1.Pairwise Before)) (LeadsBack u) := by
  unfold Walk.entries
  refine (runs_attempt (runs_topDie_inUnit hB hu)).bind (lasting_const _) fun o => ?_
  cases o with
  | none => exact runs_pure fun _ _ _ => ⟨by simp, by simp, fun _ => .nil⟩
  | some d =>
    refine Runs.assume (fun desk hd h => (h.2 d rfl).2) fun hopens => ?_
    refine Runs.mono (P := fun desk => d ∈ (desk.memory u).entries) ?_
      (fun desk hd h => (h.2 d rfl).1) (fun _ _ _ => id) fun _ _ => id
    have hmem := (lasting_mem (s := s) (u := u) (B := B u) d).ofDesk
    have hcursors := cursors_below ⟨d, 0, false⟩
    refine Runs.bind hmem ((runs_entriesFrom hB hu (visitLimit s) _).mono (fun desk _ _ => ?_)
      (fun _ _ _ => id) fun desk hd h => h.resolve_right ?_) fun r => runs_pure fun desk hd h => ?_
    · rw [hcursors]
      exact known_children hopens
    · rw [hcursors]
      exact (weights_children_lt s d).not_ge
    · obtain ⟨hd, hlisted⟩ := h
      rw [hcursors] at hlisted
      refine ⟨List.forall_mem_cons.mpr ⟨hd, hlisted.mem⟩, hlisted.listed, fun hpast => ?_⟩
      obtain ⟨hpairwise, hafter⟩ := hlisted.ordered hpast _ (ahead_start s u d)
      exact List.pairwise_cons.mpr ⟨hafter, hpairwise⟩

omit hB hu in
/-- A walk of units without an end has met a sibling reference that leads back. -/
theorem runs_forM_walkUnit (hB : ∀ u, Covers s u (B u)) {us : List CompileUnit}
    (hus : us ⊆ CompileUnit.units s) :
    (ofDesk s B).Runs (fun _ => True) (us.forM (Walk.walkUnit s)) (fun _ _ => True)
      fun desk => ∃ u ∈ CompileUnit.units s, LeadsBack u desk := by
  refine runs_forM (lasting_const _) fun u hu => ?_
  exact (runs_walkUnit (hB u) (at?_of_mem_units (hus hu))).mono (fun _ _ => id) (fun _ _ _ => id)
    fun desk hd h => ⟨u, hus hu, h⟩

omit hB hu in
theorem runs_runUnits (hB : ∀ u, Covers s u (B u)) :
    (ofDesk s B).Runs (fun _ => True) (Walk.runUnits s) (fun _ _ => True)
      fun desk => ∃ u ∈ CompileUnit.units s, LeadsBack u desk := by
  rw [Walk.runUnits_eq]
  refine (runs_forM_walkUnit hB (List.Subset.refl _)).andThen (lasting_const _) fun _ => ?_
  unfold Walk.reportHeader
  refine Runs.andThen (Q := fun _ _ => True) (lasting_const _)
    (Runs.ite (fun _ => runs_report _ _ _) fun _ => runs_pure fun _ _ _ => trivial) fun _ => ?_
  unfold Walk.summarize
  refine runs_get.andThen (lasting_const _) fun desk => ?_
  exact (runs_report _ _ _).andThen (lasting_const _) fun _ => runs_pure fun _ _ _ => trivial

end Growth

/-! ### Ends -/

namespace Walk
variable {s : DebugSections} {u : CompileUnit} {α : Type}

open Growth

/-- Nothing that a unit decodes leads back. -/
def GoesForward (u : CompileUnit) (desk : Desk) : Prop :=
  ∀ d ∈ (desk.memory u).entries, u.LeadsForward d

instance (u : CompileUnit) (desk : Desk) : Decidable (GoesForward u desk) :=
  inferInstanceAs (Decidable (∀ d ∈ (desk.memory u).entries, u.LeadsForward d))

theorem not_endless {act : Walk α} {Q : α → Desk → Prop}
    (h : (ofDesk s fun _ _ => True).Runs (fun _ => True) act Q (LeadsBack u))
    (hforward : GoesForward u (outcome act {}).2) : (outcome act {}).1 ≠ .error .endless := by
  intro he
  obtain ⟨d, hd, hback⟩ := h.endless {} sound_empty trivial he
  exact hback (hforward d hd)

theorem entries_settle (s : DebugSections) (u : CompileUnit) :
    Keeps (fun _ => True) (entries s u) (fun _ => True) (· = .endless) := by
  have hany {α : Type} (act : Walk α) : Keeps (fun _ => True) act (fun _ => True) fun _ => True := by
    intro desk _
    cases act desk <;> exact ⟨trivial, trivial⟩
  have hfrom (fuel : Nat) (levels : List (Preorder.Level Cursor)) :
      Keeps (fun _ => True) (entriesFrom s u fuel levels) (fun _ => True) (· = .endless) := by
    induction fuel generalizing levels with
    | zero => exact keeps_throw rfl
    | succ fuel ih =>
      refine (hany _).attempt.bind fun o _ => ?_
      rcases o with _ | _ | ⟨v, left⟩
      · exact keeps_pure trivial
      · exact keeps_pure trivial
      · exact (ih left).bind fun _ _ => keeps_pure trivial
  refine (hany _).attempt.bind fun o _ => ?_
  cases o with
  | none => exact keeps_pure trivial
  | some top => exact (hfrom _ _).bind fun _ _ => keeps_pure trivial

/-- Entries of a section that come after one another are not more than it has bytes. -/
theorem nodup_of_before {vs : List (Preorder.Visit Die)} {limit : Nat}
    (hbefore : vs.Pairwise Before)
    (hsize : ∀ v ∈ vs, 0 < v.node.size ∧ v.node.offset + v.node.size ≤ limit) :
    (vs.map (·.node.offset)).Nodup ∧ vs.length ≤ limit := by
  have hnodup : (vs.map (·.node.offset)).Nodup := by
    refine List.pairwise_map.mpr (hbefore.imp_of_mem fun {v w} hv _ h => ?_)
    have hpos := (hsize v hv).1
    have hle : v.node.offset + v.node.size ≤ w.node.offset := h
    omega
  refine ⟨hnodup, ?_⟩
  have hlt : ∀ o ∈ vs.map (·.node.offset), o < limit := by
    intro o ho
    obtain ⟨v, hv, rfl⟩ := List.mem_map.mp ho
    have h := hsize v hv
    omega
  have hle := length_le_of_nodup hnodup hlt
  rw [List.length_map] at hle
  exact hle

/-- Where no sibling reference of the entries that are decoded leads back, walks and traversals end, and
so do the lists of children that records are made of. Where none of the entries that are met leads to
before the end of its own subtree, no offset is met twice. -/
theorem run_ends_and_entries_distinct (s : DebugSections) :
    ((∀ u ∈ CompileUnit.units s, GoesForward u (outcome (run (some s)) {}).2) →
      ∃ symbols, (outcome (run (some s)) {}).1 = .ok symbols) ∧
    ∀ u ∈ CompileUnit.units s,
      (GoesForward u (outcome (entries s u) {}).2 →
        ∃ vs stopped, (outcome (entries s u) {}).1 = .ok (vs, stopped) ∧
          ((∀ v ∈ vs, u.LeadsPast s v.node) →
            (vs.map (·.node.offset)).Nodup ∧ vs.length ≤ s.info.length)) ∧
      ∀ d,
        (GoesForward u (outcome (extractFunction s u d) {}).2 →
          (outcome (extractFunction s u d) {}).1 ≠ .error .endless) ∧
        (GoesForward u (outcome (extractType s u d) {}).2 →
          (outcome (extractType s u d) {}).1 ≠ .error .endless) := by
  have hall (u : CompileUnit) : Covers s u fun _ => True := covers_all s u
  refine ⟨fun hforward => ?_, fun u hu => ?_⟩
  · cases hr : (outcome (run (some s)) {}).1 with
    | ok symbols => exact ⟨symbols, rfl⟩
    | error e =>
      cases outcome_run_error (some s) {} hr
      obtain ⟨u, hu, d, hd, hback⟩ := (runs_runUnits hall).endless {} sound_empty trivial hr
      exact absurd (hforward u hu d hd) hback
  · have hat := at?_of_mem_units hu
    refine ⟨fun hforward => ?_, fun d => ⟨?_, ?_⟩⟩
    · have hruns := runs_entries (B := fun _ _ => True) (hall u) hat
      have hsettle := entries_settle s u {} trivial
      have hends := not_endless hruns hforward
      have hsound := hruns.sound {} sound_empty trivial u hat
      have hgives := hruns.gives {} sound_empty trivial
      unfold outcome at hends hsound hgives ⊢
      cases hr : entries s u {} with
      | error e desk =>
        rw [hr] at hsettle hends
        exact absurd (congrArg Except.error hsettle.2) hends
      | ok r desk =>
        rw [hr] at hsound hgives
        obtain ⟨hmem, -, hbefore⟩ := hgives r rfl
        refine ⟨r.1, r.2, rfl, fun hpast => nodup_of_before (hbefore fun v hv => ?_) fun v hv => ?_⟩
        · exact hpast v (List.mem_of_mem_tail hv)
        · exact outline?_size (hsound v.node (hmem v hv)).1
    · exact not_endless (runs_extractFunction (hall u) hat fun _ => trivial)
    · exact not_endless (runs_extractType (hall u) hat fun _ => trivial)

/-- An entry, with a block that holds a variable and has a sibling reference. -/
def linkedBlock (tag sibling : UInt8) : DebugSections where
  info := [18, 0, 0, 0, 4, 0, 0, 0, 0, 0, 8, 1, 2, sibling, 0, 0, 0, 3, 120, 0, 0, 0]
  abbreviations := [1, tag, 1, 0, 0, 2, 11, 1, 1, 19, 0, 0, 3, 52, 0, 3, 8, 0, 0, 0]

theorem linkedBlock_ends :
    (∃ symbols, (outcome (run (some (linkedBlock 17 21))) {}).1 = .ok symbols) ∧
    ∀ u ∈ CompileUnit.units (linkedBlock 17 21), ∃ vs stopped,
      (outcome (entries (linkedBlock 17 21) u) {}).1 = .ok (vs, stopped) ∧
        (vs.map (·.node.offset)).Nodup ∧ vs.length ≤ 22 := by
  obtain ⟨hrun, hunits⟩ := run_ends_and_entries_distinct (linkedBlock 17 21)
  refine ⟨hrun (by decide +kernel), fun u hu => ?_⟩
  have hforward : ∀ u ∈ CompileUnit.units (linkedBlock 17 21),
      GoesForward u (outcome (entries (linkedBlock 17 21) u) {}).2 := by decide +kernel
  have hvariable : ∀ u ∈ CompileUnit.units (linkedBlock 17 21),
      u.outline? (linkedBlock 17 21) 17 = some ⟨3, some 52, false, none⟩ ∧
        u.outline? (linkedBlock 17 21) 20 = some ⟨1, none, false, none⟩ := by decide +kernel
  have hlinks : ∀ u ∈ CompileUnit.units (linkedBlock 17 21),
      ∀ v ∈ reached (linkedBlock 17 21) u, ∀ t ∈ u.sibling? v.node,
        v.node.offset + v.node.size = 17 ∧ t = 21 := by decide +kernel
  obtain ⟨vs, stopped, hvs, hdistinct⟩ := (hunits u hu).1 (hforward u hu)
  refine ⟨vs, stopped, hvs, hdistinct fun v hv t ht e he => ?_⟩
  have hreached : reached (linkedBlock 17 21) u = vs := by
    rw [reached, alone, hvs]
    rfl
  obtain ⟨hbelow, rfl⟩ := hlinks u hu v (hreached ▸ hv) t ht
  have hend : ListEnd (linkedBlock 17 21) u 17 21 :=
    .leaf (hvariable u hu).1 (by simp) rfl (.null (hvariable u hu).2 rfl)
  rw [hbelow] at he
  exact (he.unique hend).le

/-- A block that leads into its own subtree has its variable met twice. A structure with a block that
leads back to itself has no end. -/
theorem linkedBlock_met_twice :
    ((CompileUnit.units (linkedBlock 17 17)).map fun u =>
        (reached (linkedBlock 17 17) u).map (·.node.offset)) = [[11, 12, 17, 17]] ∧
    (outcome (run (some (linkedBlock 17 17))) {}).1 = .ok
      { globals := List.replicate 2 ⟨"x", none, none, .void, .global⟩ } ∧
    (outcome (run (some (linkedBlock 19 12))) {}).1 = .error .endless :=
  ⟨by decide +kernel, by cbv, by cbv⟩

end Walk

end ElfScope.Dwarf
