import Mathlib
import ElfScope.Proofs.Dwarf.TreeReading

/-! # Walking written trees

Below the first entry of a unit a walk comes from entry to entry by the sizes of what was written. The
forest that a cursor leads to tells all that the walk finds from there on.
-/
namespace ElfScope.Dwarf

namespace CompileUnit
variable {s : DebugSections} {u : CompileUnit} {c : Context} {top : Die}

/-- A forest is written at an offset after the first entry, with a null entry after it. -/
structure Stands (s : DebugSections) (u : CompileUnit) (c : Context) (offset : Nat) (ts : Forest) :
    Prop where
  after : u.start < offset
  held : s.info.Holds offset (Forest.encode c ts ++ [0])
  legible : ∀ t ∈ Forest.nodes ts, Legible c t

theorem encode_cons (e : Entry) (cs ts : Forest) : Forest.encode c (.node e cs :: ts) =
    (Tree.node e cs).encode c ++ Forest.encode c ts := rfl

theorem encode_node (e : Entry) (cs : Forest) : (Tree.node e cs).encode c =
    (Tree.node e cs).head c ++ if cs.isEmpty then [] else Forest.encode c cs ++ [0] := rfl

theorem length_head_pos (t : Tree) : 0 < (t.head c).length :=
  List.length_pos_iff.mpr (List.append_ne_nil_of_left_ne_nil (Tables.encode_ne_nil _) _)

namespace Stands
variable {offset : Nat} {e : Entry} {cs ts : Forest}

theorem head (h : Stands s u c offset (.node e cs :: ts)) :
    s.info.Holds offset ((Tree.node e cs).head c) ∧ Legible c (.node e cs) := by
  have hheld := h.held
  rw [encode_cons, encode_node, List.append_assoc, List.append_assoc] at hheld
  exact ⟨hheld.left, h.legible _ (by simp)⟩

theorem children (h : Stands s u c offset (.node e cs :: ts)) (hcs : cs ≠ []) :
    Stands s u c (offset + ((Tree.node e cs).head c).length) cs := by
  have hheld := h.held
  have hempty : cs.isEmpty = false := by simpa using hcs
  rw [encode_cons, encode_node, hempty, List.append_assoc, List.append_assoc] at hheld
  refine ⟨h.after.trans_le (Nat.le_add_right _ _), hheld.right.left, fun t ht => h.legible t ?_⟩
  simp [ht]

theorem rest (h : Stands s u c offset (.node e cs :: ts)) :
    Stands s u c (offset + ((Tree.node e cs).encode c).length) ts := by
  have hheld := h.held
  rw [encode_cons, List.append_assoc] at hheld
  refine ⟨h.after.trans_le (Nat.le_add_right _ _), hheld.right, fun t ht => h.legible t ?_⟩
  simp [ht]

theorem length_lt (h : Stands s u c offset ts) : (Forest.encode c ts).length < pathLimit s := by
  have hle := h.held.le_length (by simp)
  rw [List.length_append] at hle
  unfold pathLimit
  omega

end Stands

/-! ### Ways through a forest -/

theorem gives_entryAt_head (hs : Written s u c) {offset : Nat} {e : Entry} {cs ts : Forest}
    (h : Stands s u c offset (.node e cs :: ts)) :
    (entryAt s u top offset).Gives ((Tree.node e cs).die c offset) := by
  obtain ⟨hheld, hlegible⟩ := h.head
  have hafter := h.after
  unfold entryAt
  rw [if_neg (by omega), die?_head hs hlegible hheld]
  simp only
  rw [if_neg (by omega)]
  exact Plain.gives_pure.mpr rfl

theorem gives_entryAt_null {offset : Nat} (h : Stands s u c offset []) :
    (entryAt s u top offset).Gives (nullDie offset) := by
  have hafter := h.after
  unfold entryAt
  rw [if_neg (by omega), die?_null h.held]
  simp only
  rw [if_neg (by omega)]
  exact Plain.gives_pure.mpr rfl

/-- No entry has a sibling reference. -/
theorem attribute?_sibling {t : Tree} (h : Legible c t) (offset : Nat) :
    (t.die c offset).attribute? AttributeCode.sibling = none := by
  rw [Tree.attribute?_die]
  cases hd : t.entry.get? AttributeCode.sibling with
  | none => rfl
  | some d =>
    obtain ⟨before, after, hsplit, -⟩ := List.lookup_eq_some_iff.mp hd
    have hcode := (h.entry.codes (AttributeCode.sibling, d) (by rw [hsplit]; simp)).2
    exact absurd rfl hcode

/-- After an entry and all below it comes the next tree. -/
theorem gives_followingWith {subtreeEnd : Nat → Plain Nat} {offset : Nat} {e : Entry} {cs ts : Forest}
    (h : Stands s u c offset (.node e cs :: ts))
    (hend : cs ≠ [] → (subtreeEnd (offset + ((Tree.node e cs).head c).length)).Gives
      (offset + ((Tree.node e cs).head c).length + (Forest.encode c cs).length + 1)) :
    (followingWith u subtreeEnd ((Tree.node e cs).die c offset)).Gives
      (offset + ((Tree.node e cs).encode c).length) := by
  have hchildren : ((Tree.node e cs).die c offset).hasChildren = !cs.isEmpty := rfl
  have hsize : ((Tree.node e cs).die c offset).size = ((Tree.node e cs).head c).length := rfl
  unfold followingWith
  rw [attribute?_sibling h.head.2, hchildren, encode_node]
  by_cases hcs : cs = []
  · rw [hcs] at hsize ⊢
    rw [if_pos (by simp), hsize]
    exact Plain.gives_pure.mpr (by simp; rfl)
  · have hempty : cs.isEmpty = false := by simpa using hcs
    rw [hempty, if_neg (by simp), hsize, if_neg (by simp), List.length_append, List.length_append,
      List.length_singleton, ← Nat.add_assoc, ← Nat.add_assoc]
    exact hend hcs

/-- The list of a forest ends after the null entry. -/
theorem gives_listEndWith (hs : Written s u c) (ts : Forest) :
    ∀ {offset fuel : Nat}, Stands s u c offset ts → (Forest.encode c ts).length < fuel →
      (listEndWith u (entryAt s u top) fuel offset).Gives
        (offset + (Forest.encode c ts).length + 1) := by
  induction ts using Tree.forest_induction with
  | nil =>
    intro offset fuel h hfuel
    obtain ⟨fuel, rfl⟩ : ∃ k, fuel = k + 1 := ⟨fuel - 1, by omega⟩
    rw [listEndWith]
    exact Plain.gives_bind.mpr ⟨_, gives_entryAt_null h, Plain.gives_pure.mpr rfl⟩
  | cons e cs ts ihcs ihts =>
    intro offset fuel h hfuel
    have hhead := length_head_pos (c := c) (.node e cs)
    rw [encode_cons, List.length_append] at hfuel ⊢
    obtain ⟨fuel, rfl⟩ : ∃ k, fuel = k + 1 := ⟨fuel - 1, by omega⟩
    have hlength : ((Tree.node e cs).head c).length ≤ ((Tree.node e cs).encode c).length := by
      rw [encode_node, List.length_append]
      exact Nat.le_add_right _ _
    have hfollowing : (followingWith u (listEndWith u (entryAt s u top) fuel)
        ((Tree.node e cs).die c offset)).Gives (offset + ((Tree.node e cs).encode c).length) := by
      refine gives_followingWith h fun hcs => ihcs (h.children hcs) ?_
      have hempty : cs.isEmpty = false := by simpa using hcs
      rw [encode_node, hempty, if_neg (by simp), List.length_append, List.length_append] at hfuel
      omega
    have hrest := @ihts _ fuel h.rest (by omega)
    rw [listEndWith]
    refine Plain.gives_bind.mpr ⟨_, gives_entryAt_head hs h, ?_⟩
    change Plain.Gives (followingWith u _ _ >>= _) _
    refine Plain.gives_bind.mpr ⟨_, hfollowing, ?_⟩
    rw [← Nat.add_assoc]
    exact hrest

/-- What comes next from a cursor is a forest. -/
def Leads (s : DebugSections) (u : CompileUnit) (c : Context) (top : Die) (cursor : Cursor)
    (ts : Forest) : Prop :=
  ∃ offset, Stands s u c offset ts ∧
    (placeWith u (entryAt s u top) (pathLimit s) cursor).Gives offset

theorem Stands.leads {offset : Nat} {ts : Forest} (h : Stands s u c offset ts) :
    Leads s u c top (.at offset) ts :=
  ⟨offset, h, Plain.gives_pure.mpr rfl⟩

theorem leads_after (hs : Written s u c) {offset : Nat} {e : Entry} {cs ts : Forest}
    (h : Stands s u c offset (.node e cs :: ts)) :
    Leads s u c top (.after ((Tree.node e cs).die c offset)) ts := by
  refine ⟨_, h.rest, gives_followingWith h fun hcs => ?_⟩
  exact gives_listEndWith hs cs (h.children hcs) (h.children hcs).length_lt

theorem gives_nextAt_nil {cursor : Cursor} (h : Leads s u c top cursor []) :
    (nextAt s u top cursor).Gives none := by
  obtain ⟨offset, hstands, hplace⟩ := h
  exact Plain.gives_bind.mpr ⟨_, hplace, Plain.gives_bind.mpr
    ⟨_, gives_entryAt_null hstands, Plain.gives_pure.mpr rfl⟩⟩

theorem gives_nextAt_cons (hs : Written s u c) {cursor : Cursor} {e : Entry} {cs ts : Forest}
    (h : Leads s u c top cursor (.node e cs :: ts)) :
    ∃ offset, Stands s u c offset (.node e cs :: ts) ∧ (nextAt s u top cursor).Gives
      (some ((Tree.node e cs).die c offset, .after ((Tree.node e cs).die c offset))) := by
  obtain ⟨offset, hstands, hplace⟩ := h
  exact ⟨offset, hstands, Plain.gives_bind.mpr ⟨_, hplace, Plain.gives_bind.mpr
    ⟨_, gives_entryAt_head hs hstands, Plain.gives_pure.mpr rfl⟩⟩⟩

/-! ### Records of an entry -/

/-- Decoded entries are those at the heads of a forest. -/
abbrev Heads (c : Context) (ds : List Die) (ts : Forest) : Prop :=
  List.Forall₂ (fun d t => (∃ offset, d = t.die c offset) ∧ Legible c t) ds ts

theorem gives_childrenFrom (hs : Written s u c) {ts : Forest} {fuel : Nat} {cursor : Cursor}
    (h : Leads s u c top cursor ts) (hfuel : ts.length < fuel) :
    ∃ ds, (childrenFrom s u top fuel cursor).Gives ds ∧ Heads c ds ts := by
  induction ts generalizing fuel cursor with
  | nil =>
    obtain ⟨fuel, rfl⟩ : ∃ k, fuel = k + 1 := ⟨fuel - 1, by omega⟩
    exact ⟨[], Plain.gives_bind.mpr ⟨none, gives_nextAt_nil h, Plain.gives_pure.mpr rfl⟩, .nil⟩
  | cons t ts ih =>
    obtain ⟨e, cs⟩ := t
    obtain ⟨fuel, rfl⟩ : ∃ k, fuel = k + 1 := ⟨fuel - 1, by omega⟩
    obtain ⟨offset, hstands, hnext⟩ := gives_nextAt_cons hs h
    obtain ⟨ds, hds, hheads⟩ := ih (leads_after hs hstands) (by simpa using hfuel)
    exact ⟨_ :: ds, Plain.gives_bind.mpr ⟨_, hnext, Plain.gives_bind.mpr
      ⟨ds, hds, Plain.gives_pure.mpr rfl⟩⟩, .cons ⟨⟨offset, rfl⟩, hstands.head.2⟩ hheads⟩

theorem length_le_encode (ts : Forest) : ts.length ≤ (Forest.encode c ts).length := by
  induction ts with
  | nil => simp
  | cons t ts ih =>
    obtain ⟨e, cs⟩ := t
    have hhead := length_head_pos (c := c) (.node e cs)
    rw [encode_cons, encode_node, List.length_append, List.length_append, List.length_cons]
    omega

theorem gives_childrenOf (hs : Written s u c) {offset : Nat} {e : Entry} {cs : Forest}
    (h : cs ≠ [] → Stands s u c (offset + ((Tree.node e cs).head c).length) cs) :
    ∃ ds, (childrenOf s u top ((Tree.node e cs).die c offset)).Gives ds ∧ Heads c ds cs := by
  unfold childrenOf Die.children?
  by_cases hcs : cs = []
  · rw [hcs]
    exact ⟨[], Plain.gives_pure.mpr rfl, .nil⟩
  · have hchildren : ((Tree.node e cs).die c offset).hasChildren = true := by
      simpa [Tree.die, Tree.children] using hcs
    rw [if_pos hchildren]
    have hlength := length_le_encode (c := c) cs
    exact gives_childrenFrom hs (h hcs).leads (hlength.trans_lt (h hcs).length_lt)

/-- What is made of the children with a tag is made of the entries with it. -/
theorem filterMap_heads {α : Type} {f : Die → Option α} {g : Entry → α} {ds : List Die} {ts : Forest}
    (h : Heads c ds ts) (tag : Nat)
    (hf : ∀ t offset, Legible c t → f (t.die c offset) = some (g t.entry)) :
    (ds.filter (·.tag = some tag)).filterMap f =
      ((ts.map Tree.entry).filter (·.tag = tag)).map g := by
  induction h with
  | nil => rfl
  | @cons d t ds ts hd _ ih =>
    obtain ⟨⟨offset, rfl⟩, hlegible⟩ := hd
    have htag : decide ((t.die c offset).tag = some tag) = decide (t.entry.tag = tag) := by
      simp [Tree.die]
    rw [List.map_cons, List.filter_cons, List.filter_cons, htag]
    by_cases hc : t.entry.tag = tag
    · rw [decide_eq_true hc, if_pos rfl, if_pos rfl, List.filterMap_cons, hf t offset hlegible, ih]
      rfl
    · rw [decide_eq_false hc, if_neg (by simp), if_neg (by simp), ih]

section Records
variable {offset : Nat} {e : Entry} {cs : Forest}

theorem gives_functionOf (hs : Written s u c) (ha : c.addressSize = 4 ∨ c.addressSize = 8)
    (h : Legible c (.node e cs))
    (hcs : cs ≠ [] → Stands s u c (offset + ((Tree.node e cs).head c).length) cs) :
    (functionOf s u top ((Tree.node e cs).die c offset)).Gives
      (e.functionInfo (cs.map Tree.entry)) := by
  obtain ⟨ds, hds, hheads⟩ := @gives_childrenOf s u c top hs offset e cs hcs
  refine Plain.gives_bind.mpr ⟨_, Plain.gives_bind.mpr ⟨ds, hds, Plain.gives_pure.mpr rfl⟩, ?_⟩
  have hparameters := filterMap_heads (f := fun d => some (d.variableInfo .parameter))
    (g := fun e => e.variableInfo .parameter) hheads Tag.formalParameter fun t offset ht =>
      congrArg some (Tree.variableInfo_die ht.entry offset .parameter)
  rw [List.filterMap_eq_map'] at hparameters
  rw [Tree.functionInfo_die ha h.entry offset hparameters]
  exact Plain.gives_pure.mpr rfl

theorem gives_typeOf (hs : Written s u c) (h : Legible c (.node e cs))
    (hcs : cs ≠ [] → Stands s u c (offset + ((Tree.node e cs).head c).length) cs) {kind : TypeKind}
    (hkind : ((Tree.node e cs).die c offset).typeKind = kind)
    (htype : kind = .struct ∨ kind = .union ∨ kind = .enum) :
    (typeOf s u top ((Tree.node e cs).die c offset)).Gives
      (e.typeInfo kind (cs.map Tree.entry)) := by
  have hmembers : (membersOf s u top ((Tree.node e cs).die c offset)).Gives
      (if kind = .enum then [] else
        ((cs.map Tree.entry).filter (·.tag = Tag.member)).map Entry.memberInfo) := by
    unfold membersOf
    rw [hkind]
    by_cases henum : kind = .enum
    · rw [henum, if_pos rfl, if_neg (by simp)]
      exact Plain.gives_pure.mpr rfl
    · obtain ⟨ds, hds, hheads⟩ := @gives_childrenOf s u c top hs offset e cs hcs
      have hpart : kind = .struct ∨ kind = .union := by
        rcases htype with h | h | h
        · exact .inl h
        · exact .inr h
        · exact absurd h henum
      have hmade := filterMap_heads (f := fun d => d.memberInfo.toOption) (g := Entry.memberInfo)
        hheads Tag.member fun t offset ht =>
          congrArg Except.toOption (Tree.memberInfo_die ht.entry offset)
      rw [if_pos hpart, if_neg henum]
      exact Plain.gives_bind.mpr ⟨ds, hds, Plain.gives_pure.mpr hmade⟩
  refine Plain.gives_bind.mpr ⟨_, hmembers, ?_⟩
  rw [Tree.typeInfo_die h.entry offset hkind rfl]
  exact Plain.gives_pure.mpr rfl

theorem gives_addedBy (hs : Written s u c) (ha : c.addressSize = 4 ∨ c.addressSize = 8)
    (h : Legible c (.node e cs))
    (hcs : cs ≠ [] → Stands s u c (offset + ((Tree.node e cs).head c).length) cs) (depth : Nat)
    (inside : Bool) :
    (addedBy s u top ⟨(Tree.node e cs).die c offset, depth, inside⟩).Gives
      (e.symbols inside (cs.map Tree.entry)) := by
  have htag (tag : Nat) : (((Tree.node e cs).die c offset).tag = some tag) = (e.tag = tag) := by
    simp [Tree.die, Tree.entry]
  have htype (kind : TypeKind) (hkind : ((Tree.node e cs).die c offset).typeKind = kind)
      (hk : kind = .struct ∨ kind = .union ∨ kind = .enum) :
      (typeOf s u top ((Tree.node e cs).die c offset) >>= fun info =>
        (pure { types := [info] } : Plain Symbols)).Gives
        { types := [e.typeInfo kind (cs.map Tree.entry)] } :=
    Plain.gives_bind.mpr ⟨_, gives_typeOf hs h hcs hkind hk, Plain.gives_pure.mpr rfl⟩
  have hsymbols : (symbolsOf s u top ⟨(Tree.node e cs).die c offset, depth, inside⟩).Gives
      (e.symbols inside (cs.map Tree.entry)) := by
    unfold symbolsOf Entry.symbols
    simp only [htag]
    by_cases h1 : e.tag = Tag.subprogram
    · rw [if_pos h1, if_pos h1]
      exact Plain.gives_bind.mpr ⟨_, gives_functionOf hs ha h hcs, Plain.gives_pure.mpr rfl⟩
    rw [if_neg h1, if_neg h1]
    by_cases h2 : e.tag = Tag.variableEntry
    · rw [if_pos h2, if_pos h2, Tree.variableInfo_die h.entry]
      exact Plain.gives_pure.mpr rfl
    rw [if_neg h2, if_neg h2]
    by_cases h3 : e.tag = Tag.structureType
    · rw [if_pos (.inl h3), if_pos h3]
      exact htype .struct (by simp [Die.typeKind, Tree.die, Tree.entry, h3]) (by simp)
    rw [if_neg h3]
    by_cases h4 : e.tag = Tag.unionType
    · rw [if_pos (.inr (.inl h4)), if_pos h4]
      exact htype .union (by simp [Die.typeKind, Tree.die, Tree.entry, h4, Tag.unionType,
        Tag.structureType]) (by simp)
    rw [if_neg h4]
    by_cases h5 : e.tag = Tag.enumerationType
    · rw [if_pos (.inr (.inr h5)), if_pos h5]
      exact htype .enum (by simp [Die.typeKind, Tree.die, Tree.entry, h5, Tag.unionType,
        Tag.structureType, Tag.enumerationType]) (by simp)
    rw [if_neg h5, if_neg (by simp [h3, h4, h5])]
    exact Plain.gives_pure.mpr rfl
  exact Plain.gives_map.mpr ⟨_, Plain.gives_attempt_some.mpr hsymbols, rfl⟩

end Records

/-! ### A whole unit -/

section Levels
variable {level : Preorder.Level Cursor} {levels : List (Preorder.Level Cursor)} {fuel : Nat}

/-- A level that has ended is closed. -/
theorem addedFrom_close (h : (nextAt s u top level.cursor).Gives none) :
    addedFrom s u top fuel (level :: levels) = addedFrom s u top fuel levels := by
  cases fuel with
  | zero => rfl
  | succ fuel =>
    have hnext : nextVisit s u top (level :: levels) = nextVisit s u top levels :=
      Plain.bind_of_gives h _
    rw [addedFrom, addedFrom, hnext]

/-- An entry is followed by the levels below it. -/
theorem gives_addedFrom_open {d : Die} {cursor : Cursor} {b a : Symbols} {stopped : Bool}
    (h : (nextAt s u top level.cursor).Gives (some (d, cursor)))
    (hadded : (addedBy s u top ⟨d, level.depth, level.inside⟩).Gives b)
    (hrest : (addedFrom s u top fuel
      (Preorder.below Die.children? Die.isSubprogram ⟨d, level.depth, level.inside⟩ ++
        { level with cursor } :: levels)).Gives (a, stopped)) :
    (addedFrom s u top (fuel + 1) (level :: levels)).Gives (b ++ a, stopped) := by
  have hnext : (nextVisit s u top (level :: levels)).Gives
      (some (⟨d, level.depth, level.inside⟩,
        Preorder.below Die.children? Die.isSubprogram ⟨d, level.depth, level.inside⟩ ++
          { level with cursor } :: levels)) := by
    refine Plain.gives_bind.mpr ⟨_, h, Plain.gives_pure.mpr rfl⟩
  rw [addedFrom]
  exact Plain.gives_bind.mpr ⟨_, Plain.gives_attempt_some.mpr hnext, Plain.gives_bind.mpr
    ⟨b, hadded, Plain.gives_bind.mpr ⟨_, hrest, Plain.gives_pure.mpr rfl⟩⟩⟩

/-- The level below an entry that was written before its children. -/
theorem below_die {offset depth : Nat} {e : Entry} {cs : Forest} (hcs : cs ≠ []) (inside : Bool) :
    Preorder.below Die.children? Die.isSubprogram
        ⟨(Tree.node e cs).die c offset, depth, inside⟩ =
      [⟨.at (offset + ((Tree.node e cs).head c).length), depth + 1, inside || e.isSubprogram⟩] := by
  have hchildren : ((Tree.node e cs).die c offset).hasChildren = true := by
    simpa [Tree.die, Tree.children] using hcs
  have hmarked : Die.isSubprogram ((Tree.node e cs).die c offset) = e.isSubprogram := by
    simp [Die.isSubprogram, Entry.isSubprogram, Tree.die, Tree.entry]
  unfold Preorder.below Die.children?
  simp only [if_pos hchildren, hmarked]
  rfl

/-- A level that leads to a forest adds the records of the forest, before what the other levels
add. -/
theorem gives_addedFrom_forest (hs : Written s u c) (ha : c.addressSize = 4 ∨ c.addressSize = 8)
    (ts : Forest) : ∀ {level : Preorder.Level Cursor} {levels : List (Preorder.Level Cursor)}
      {fuel : Nat} {a : Symbols}, Leads s u c top level.cursor ts →
      (addedFrom s u top fuel levels).Gives (a, false) →
      (addedFrom s u top (fuel + (Forest.nodes ts).length) (level :: levels)).Gives
        (Forest.symbols level.inside ts ++ a, false) := by
  induction ts using Tree.forest_induction with
  | nil =>
    intro level levels fuel a h hlevels
    rw [addedFrom_close (gives_nextAt_nil h)]
    exact hlevels
  | cons e cs ts ihcs ihts =>
    intro level levels fuel a h hlevels
    obtain ⟨offset, hstands, hnext⟩ := gives_nextAt_cons hs h
    have hadded := @gives_addedBy s u c top offset e cs hs ha hstands.head.2 hstands.children
      level.depth level.inside
    have hrest := @ihts { level with cursor := .after ((Tree.node e cs).die c offset) } levels fuel a
      (leads_after hs hstands) hlevels
    have hbelow : (addedFrom s u top
        (fuel + (Forest.nodes ts).length + (Forest.nodes cs).length)
        (Preorder.below Die.children? Die.isSubprogram
            ⟨(Tree.node e cs).die c offset, level.depth, level.inside⟩ ++
          { level with cursor := .after ((Tree.node e cs).die c offset) } :: levels)).Gives
        (Forest.symbols (level.inside || e.isSubprogram) cs ++
          (Forest.symbols level.inside ts ++ a), false) := by
      by_cases hcs : cs = []
      · subst hcs
        exact (Symbols.empty_append _).symm ▸ hrest
      · rw [below_die hcs]
        exact ihcs (hstands.children hcs).leads hrest
    have hopen := gives_addedFrom_open hnext hadded hbelow
    have hfuel : fuel + (Forest.nodes ts).length + (Forest.nodes cs).length + 1 =
        fuel + (Forest.nodes (.node e cs :: ts)).length := by
      rw [Forest.nodes_cons, List.length_cons, List.length_append]
      omega
    rw [hfuel, ← Symbols.append_assoc, ← Symbols.append_assoc] at hopen
    exact hopen

theorem gives_addedFrom_nil (hfuel : 0 < fuel) : (addedFrom s u top fuel []).Gives ({}, false) := by
  obtain ⟨fuel, rfl⟩ : ∃ k, fuel = k + 1 := ⟨fuel - 1, by omega⟩
  have hnext : (nextVisit s u top []).Gives none := Plain.gives_pure.mpr rfl
  rw [addedFrom]
  exact Plain.gives_bind.mpr ⟨_, Plain.gives_attempt_some.mpr hnext, Plain.gives_pure.mpr rfl⟩

end Levels

theorem length_nodes_le (ts : Forest) : (Forest.nodes ts).length ≤ (Forest.encode c ts).length := by
  induction ts using Tree.forest_induction with
  | nil => simp
  | cons e cs ts ihcs ihts =>
    have hhead := length_head_pos (c := c) (.node e cs)
    have hcs : (Forest.nodes cs).length ≤
        (if cs.isEmpty then [] else Forest.encode c cs ++ [0]).length := by
      cases cs with
      | nil => simp
      | cons t cs =>
        rw [List.isEmpty_cons, if_neg (by simp), List.length_append]
        exact ihcs.trans (Nat.le_add_right _ _)
    rw [Forest.nodes_cons, encode_cons, encode_node, List.length_cons, List.length_append,
      List.length_append, List.length_append]
    omega

theorem pathLimit_lt_visitLimit (s : DebugSections) : pathLimit s < visitLimit s := by
  unfold visitLimit
  rw [Nat.one_shiftLeft]
  exact Nat.lt_two_pow_self

/-- A unit adds the records of the tree at its first entry. -/
theorem gives_addedFromTop (hs : Written s u c) (ha : c.addressSize = 4 ∨ c.addressSize = 8)
    {e : Entry} {cs : Forest} (hlegible : ∀ t ∈ (Tree.node e cs).nodes, Legible c t)
    (h : s.info.Holds u.start ((Tree.node e cs).encode c)) :
    (addedFromTop s u ((Tree.node e cs).die c u.start)).Gives
      ((Tree.node e cs).symbols false, false) := by
  have htop : Legible c (.node e cs) := hlegible _ List.mem_cons_self
  have hcs (hne : cs ≠ []) : Stands s u c (u.start + ((Tree.node e cs).head c).length) cs := by
    have hempty : cs.isEmpty = false := by simpa using hne
    rw [encode_node, hempty] at h
    refine ⟨?_, h.right, fun t ht => hlegible t (List.mem_cons_of_mem _ ht)⟩
    exact Nat.lt_add_of_pos_right (length_head_pos _)
  have hlimit := pathLimit_lt_visitLimit s
  have hfirst := @gives_addedBy s u c ((Tree.node e cs).die c u.start) u.start e cs hs ha htop hcs 0
    false
  refine Plain.gives_bind.mpr ⟨_, hfirst, Plain.gives_bind.mpr
    ⟨(_, false), ?_, Plain.gives_pure.mpr rfl⟩⟩
  unfold firstLevels
  by_cases hne : cs = []
  · subst hne
    exact gives_addedFrom_nil (by omega)
  · have hlength := (length_nodes_le (c := c) cs).trans_lt (hcs hne).length_lt
    obtain ⟨fuel, hfuel⟩ : ∃ k, visitLimit s = k + (Forest.nodes cs).length :=
      ⟨visitLimit s - (Forest.nodes cs).length, by omega⟩
    have hforest := @gives_addedFrom_forest s u c ((Tree.node e cs).die c u.start) hs ha cs
      ⟨_, 1, false || e.isSubprogram⟩ [] fuel {} (hcs hne).leads (gives_addedFrom_nil (by omega))
    rw [Symbols.append_empty, ← hfuel] at hforest
    rw [topVisit, below_die hne]
    exact hforest

end CompileUnit

end ElfScope.Dwarf
