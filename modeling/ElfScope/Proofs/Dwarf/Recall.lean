import Mathlib
import ElfScope.Proofs.Dwarf.Extraction
import ElfScope.Proofs.Dwarf.Traversal

/-! # Entries that are given again

An entry that a unit has decoded is the one it gives at that offset from then on. Its top can still
change, so that what could not be decoded can be decoded later. What was listed once is listed again
with the same entries.
-/
namespace ElfScope.Dwarf

namespace Growth
variable {σ α β : Type} (g : Growth σ)

def Grows (act : EStateM Failure σ α) : Prop := ∀ st, g.le st (outcome act st).2

/-- A value that is given once is given again in any later state. -/
structure Settles (act : EStateM Failure σ α) : Prop where
  grows : g.Grows act
  again : ∀ st a, (outcome act st).1 = .ok a → ∀ st', g.le (outcome act st).2 st' →
    (outcome act st').1 = .ok a

variable {g}

theorem grows_pure (a : α) : g.Grows (pure a) := g.refl

theorem grows_throw (e : Failure) : g.Grows (throw e : EStateM Failure σ α) := g.refl

theorem Grows.bind {act : EStateM Failure σ α} {f : α → EStateM Failure σ β} (ha : g.Grows act)
    (hf : ∀ a, g.Grows (f a)) : g.Grows (act >>= f) := by
  intro st
  have hact := ha st
  rw [outcome_bind]
  rcases hr : outcome act st with ⟨e | a, st'⟩ <;> rw [hr] at hact
  · exact hact
  · exact g.trans hact (hf a st')

theorem Grows.ite {c : Prop} [Decidable c] {act act' : EStateM Failure σ α} (h : c → g.Grows act)
    (h' : ¬c → g.Grows act') : g.Grows (if c then act else act') := by
  split_ifs with hc
  · exact h hc
  · exact h' hc

theorem settles_pure (a : α) : g.Settles (pure a) := ⟨grows_pure a, fun _ _ h _ _ => h⟩

theorem settles_throw (e : Failure) : g.Settles (throw e : EStateM Failure σ α) :=
  ⟨grows_throw e, fun _ _ h _ _ => h⟩

theorem Settles.bind {act : EStateM Failure σ α} {f : α → EStateM Failure σ β} (ha : g.Settles act)
    (hf : ∀ a, g.Settles (f a)) : g.Settles (act >>= f) := by
  refine ⟨ha.grows.bind fun a => (hf a).grows, fun st b hb st' hle => ?_⟩
  rw [outcome_bind] at hb hle ⊢
  rcases hact : outcome act st with ⟨e | a, mid⟩ <;> rw [hact] at hb hle
  · cases hb
  · dsimp only at hb hle
    -- The first action is made again, and leads up from where the second one led to before.
    have hmid : g.le mid st' := g.trans ((hf a).grows mid) hle
    have hfirst := ha.again st a (by rw [hact]) st' (by rw [hact]; exact hmid)
    have hup := g.trans hle (ha.grows st')
    rcases hact' : outcome act st' with ⟨r, mid'⟩
    rw [hact'] at hfirst hup
    cases hfirst
    exact (hf a).again mid b hb mid' hup

theorem Settles.ite {c : Prop} [Decidable c] {act act' : EStateM Failure σ α} (h : c → g.Settles act)
    (h' : ¬c → g.Settles act') : g.Settles (if c then act else act') := by
  split_ifs with hc
  · exact h hc
  · exact h' hc

end Growth

/-! ### The memory of a unit -/

namespace Memory
variable {m : Memory} {d e : Die}

/-- The entry is what the unit gives at its offset. -/
structure Knows (m : Memory) (d : Die) : Prop where
  top : m.top ≠ none
  find : m.find? d.offset = some d

theorem Knows.eq_of_offset (hd : m.Knows d) (he : m.Knows e) (h : d.offset = e.offset) : d = e := by
  have hfind := hd.find
  rw [h, he.find] at hfind
  exact (Option.some.inj hfind).symm

/-- Nothing is put before an entry at the same offset. -/
theorem find?_add (h : m.find? d.offset = none) (o : Nat) :
    (m.add d).find? o = if d.offset = o then some d else m.find? o := by
  have hnone : ∀ e ∈ m.entries, e.offset ≠ d.offset := by simpa [find?] using h
  obtain ⟨_ | t, others⟩ := m
  · unfold add find? entries
    simp [List.find?_cons]
    split_ifs <;> simp_all
  · have ht := hnone t List.mem_cons_self
    unfold add find? entries
    dsimp only
    split_ifs with hlt ho ho
    · simp [ho]
    · simp [ho]
    · simp [← ho, ht]
    · simp [List.find?_cons, ho]

theorem knows_add (h : m.find? d.offset = none) : (m.add d).Knows d :=
  ⟨add_top_ne_none m d, by rw [find?_add h, if_pos rfl]⟩

theorem Knows.add (he : m.Knows e) (h : m.find? d.offset = none) : (m.add d).Knows e := by
  refine ⟨add_top_ne_none m d, ?_⟩
  rw [find?_add h, if_neg fun hsame => ?_, he.find]
  rw [hsame, he.find] at h
  cases h

end Memory

/-- What is known of the entries of a unit. -/
def Growth.recall : Growth Memory where
  sound _ := True
  le m m' := ∀ d, m.Knows d → m'.Knows d
  refl _ _ h := h
  trans h h' d hd := h' d (h d hd)

namespace CompileUnit
variable {s : DebugSections} {u : CompileUnit} {m : Memory} {d : Die}

theorem outcome_topDie_of_ok (hd : (outcome (topDie s u) m).1 = .ok d) :
    (outcome (topDie s u) m).2.top = some d := by
  obtain ⟨_ | t, others⟩ := m
  · rw [outcome_topDie_none] at hd ⊢
    cases hfirst : die? s u none u.start with
    | none =>
      rw [hfirst] at hd
      cases hd
    | some e =>
      rw [hfirst] at hd
      dsimp only at hd ⊢
      split_ifs at hd
      cases hd
      rfl
  · cases hd
    rfl

/-- The top entry is known where it is given. -/
theorem knows_of_topDie (hd : (outcome (topDie s u) m).1 = .ok d) :
    (outcome (topDie s u) m).2.Knows d := by
  have htop := outcome_topDie_of_ok hd
  refine ⟨by simp [htop], ?_⟩
  simp [Memory.find?, Memory.entries, htop]

theorem grows_topDie : Growth.recall.Grows (topDie s u) := by
  intro m d hd
  obtain ⟨_ | t, others⟩ := m
  · exact absurd rfl hd.top
  · exact hd

/-- An entry that is known is given without being decoded. -/
theorem outcome_dieAt_of_knows (hd : m.Knows d) : outcome (dieAt s u d.offset) m = (.ok d, m) := by
  obtain ⟨_ | t, others⟩ := m
  · exact absurd rfl hd.top
  · rw [outcome_dieAt, outcome_topDie_some]
    dsimp only
    rw [hd.find]

/-- What decoding at an offset comes to. -/
theorem dieAt_cases (s : DebugSections) (u : CompileUnit) (o : Nat) (m : Memory) :
    Growth.recall.le m (outcome (dieAt s u o) m).2 ∧
      ∀ d, (outcome (dieAt s u o) m).1 = .ok d →
        d.offset = o ∧ (outcome (dieAt s u o) m).2.Knows d := by
  have hgrows := @grows_topDie s u m
  have htop (t : Die) := @outcome_topDie_of_ok s u m t
  rw [outcome_dieAt]
  rcases hr : outcome (topDie s u) m with ⟨e | t, m'⟩ <;> rw [hr] at hgrows htop
  · exact ⟨hgrows, fun d hd => by cases hd⟩
  · have hsome : m'.top = some t := htop t rfl
    dsimp only
    cases hfind : m'.find? o with
    | some e =>
      refine ⟨hgrows, fun d hd => ?_⟩
      cases hd
      have ho := (Memory.mem_of_find? hfind).2
      exact ⟨ho, by simp [hsome], ho ▸ hfind⟩
    | none =>
      cases hdie : die? s u (some t.attributes) o with
      | none => exact ⟨hgrows, fun d hd => by cases hd⟩
      | some e =>
        have ho := die?_offset hdie
        have hnew : m'.find? e.offset = none := ho ▸ hfind
        refine ⟨fun d hd => (hgrows d hd).add hnew, fun d hd => ?_⟩
        cases hd
        exact ⟨ho, Memory.knows_add hnew⟩

theorem knows_of_dieAt {o : Nat} (hd : (outcome (dieAt s u o) m).1 = .ok d) :
    (outcome (dieAt s u o) m).2.Knows d :=
  ((dieAt_cases s u o m).2 d hd).2

theorem settles_dieAt (o : Nat) : Growth.recall.Settles (dieAt s u o) := by
  refine ⟨fun m => (dieAt_cases s u o m).1, fun m d hd m' hle => ?_⟩
  obtain ⟨rfl, hknows⟩ := (dieAt_cases s u o m).2 d hd
  rw [outcome_dieAt_of_knows (hle d hknows)]

section Ways
variable {σ : Type} {g : Growth σ}

theorem settles_followingWith {subtreeEnd : Nat → EStateM Failure σ Nat}
    (h : ∀ offset, g.Settles (subtreeEnd offset)) (u : CompileUnit) (d : Die) :
    g.Settles (followingWith u subtreeEnd d) := by
  refine Growth.Settles.ite (fun _ => Growth.settles_pure _) fun _ => ?_
  cases d.attribute? AttributeCode.sibling with
  | none => exact h _
  | some a =>
    cases hs : siblingTarget u a with
    | none =>
      simp only [hs]
      exact Growth.settles_throw _
    | some offset =>
      simp only [hs]
      exact Growth.settles_pure _

variable {dieAt : Nat → EStateM Failure σ Die}

theorem settles_listEndWith (h : ∀ offset, g.Settles (dieAt offset)) (u : CompileUnit)
    (fuel offset : Nat) : g.Settles (listEndWith u dieAt fuel offset) := by
  induction fuel generalizing offset with
  | zero => exact Growth.settles_throw _
  | succ fuel ih =>
    refine (h offset).bind fun d => Growth.Settles.ite (fun _ => Growth.settles_pure _) fun _ => ?_
    exact (settles_followingWith ih u d).bind ih

theorem settles_placeWith (h : ∀ offset, g.Settles (dieAt offset)) (u : CompileUnit) (limit : Nat)
    (c : Cursor) : g.Settles (placeWith u dieAt limit c) := by
  cases c with
  | «at» offset => exact Growth.settles_pure offset
  | after d => exact settles_followingWith (settles_listEndWith h u limit) u d

end Ways

theorem settles_advance (c : Cursor) : Growth.recall.Settles (advance s u c) :=
  (settles_placeWith settles_dieAt u _ c).bind fun offset =>
    (settles_dieAt offset).bind fun _ => Growth.settles_pure _

/-- A child that is given is known. -/
theorem knows_of_advance {c c' : Cursor} (h : (outcome (advance s u c) m).1 = .ok (some (d, c'))) :
    (outcome (advance s u c) m).2.Knows d := by
  unfold advance advanceWith at h ⊢
  rw [outcome_bind] at h ⊢
  rcases hplace : outcome (placeWith u (dieAt s u) (pathLimit s) c) m with ⟨e | o, m'⟩ <;>
    rw [hplace] at h
  · cases h
  · have hknows (t : Die) := @knows_of_dieAt s u m' t o
    dsimp only at h ⊢
    rw [outcome_bind] at h ⊢
    rcases hr : outcome (dieAt s u o) m' with ⟨e | t, m''⟩ <;> rw [hr] at h hknows
    · cases h
    · have hgiven : (if t.isNull then none else some (t, Cursor.after t)) = some (d, c') :=
        Except.ok.inj h
      split_ifs at hgiven
      cases hgiven
      exact hknows d rfl

end CompileUnit

/-! ### Ways to an entry -/

/-- The top of a unit, the entry at an offset, or a child. -/
inductive Look where
  | top
  | entry (offset : Nat)
  | child (c : Cursor)

namespace Look

def read (s : DebugSections) (u : CompileUnit) : Look → Reading (Option Die)
  | top => some <$> u.topDie s
  | entry offset => some <$> u.dieAt s offset
  | child c => Option.map Prod.fst <$> u.advance s c

variable {s : DebugSections} {u : CompileUnit} {m : Memory}

theorem outcome_map {α β : Type} (act : Reading α) (f : α → β) (m : Memory) :
    outcome (f <$> act) m = (f <$> (outcome act m).1, (outcome act m).2) := by
  rw [map_eq_pure_bind, outcome_bind]
  rcases outcome act m with ⟨e | a, m'⟩ <;> rfl

theorem grows_read (look : Look) : Growth.recall.Grows (look.read s u) := by
  intro m
  cases look <;> unfold read <;> rw [outcome_map]
  · exact CompileUnit.grows_topDie m
  · exact (CompileUnit.settles_dieAt _).grows m
  · exact (CompileUnit.settles_advance _).grows m

/-- What is found is known from then on. -/
theorem knows_of_read {look : Look} {d : Die} (h : (outcome (look.read s u) m).1 = .ok (some d)) :
    (outcome (look.read s u) m).2.Knows d := by
  cases look <;> unfold read at h ⊢ <;> rw [outcome_map] at h ⊢ <;> dsimp only at h ⊢
  · rcases hr : (outcome (u.topDie s) m).1 with e | t <;> rw [hr] at h <;> cases h
    exact CompileUnit.knows_of_topDie hr
  · rcases hr : (outcome (u.dieAt s _) m).1 with e | t <;> rw [hr] at h <;> cases h
    exact CompileUnit.knows_of_dieAt hr
  · rcases hr : (outcome (u.advance s _) m).1 with e | _ | ⟨t, c'⟩ <;> rw [hr] at h <;> cases h
    exact CompileUnit.knows_of_advance hr

end Look

/-! ### The desk of a walk -/

/-- An entry of a unit that is known on a desk. -/
def Desk.Knows (desk : Desk) (u : CompileUnit) (d : Die) : Prop := (desk.memory u).Knows d

/-- What was known is known, and no types were added. -/
structure Desk.Recalls (desk desk' : Desk) : Prop where
  known : ∀ u d, desk.Knows u d → desk'.Knows u d
  types : desk'.types = desk.types
  found : desk'.found.types = desk.found.types

def Growth.recallAll : Growth Desk where
  sound _ := True
  le := Desk.Recalls
  refl _ := ⟨fun _ _ h => h, rfl, rfl⟩
  trans h h' := ⟨fun u d hd => h'.known u d (h.known u d hd), h'.types.trans h.types,
    h'.found.trans h.found⟩

theorem Desk.Alike.recalls {desk desk' : Desk} (h : Alike desk desk') : desk.Recalls desk' := by
  refine ⟨fun u d hd => ?_, h.types, congrArg Symbols.types h.found⟩
  rwa [Knows, h.memory]

namespace Walk
variable {α : Type} {s : DebugSections} {u : CompileUnit}

theorem grows_inUnit {act : Reading α} (h : Growth.recall.Grows act) :
    Growth.recallAll.Grows (inUnit u act) := by
  intro desk
  rw [outcome_inUnit]
  refine ⟨fun v d hd => ?_, rfl, rfl⟩
  by_cases hv : v.offset = u.offset
  · have hsame : desk.memory v = desk.memory u := by
      unfold Desk.memory
      rw [hv]
    rw [Desk.Knows, hsame] at hd
    rw [Desk.Knows, Growth.memory_remember_of_eq hv]
    exact h _ d hd
  · rwa [Desk.Knows, Growth.memory_remember_of_ne hv]

theorem knows_of_inUnit {act : Reading α} {desk : Desk} {d : Die}
    (h : (outcome act (desk.memory u)).2.Knows d) : (outcome (inUnit u act) desk).2.Knows u d := by
  rwa [outcome_inUnit, Desk.Knows, Desk.memory_remember]

theorem settles_inUnit {act : Reading α} (h : Growth.recall.Settles act) :
    Growth.recallAll.Settles (inUnit u act) := by
  refine ⟨grows_inUnit h.grows, fun desk a ha desk' hle => ?_⟩
  rw [outcome_inUnit] at ha ⊢
  exact h.again _ a ha _ fun d hd => hle.known u d (knows_of_inUnit hd)

theorem settles_of_tells {act : Walk α} {a : α} (h : Tells act a) : Growth.recallAll.Settles act := by
  refine ⟨fun desk => ?_, fun desk b hb desk' _ => ?_⟩
  · obtain ⟨log, hrun⟩ := h desk
    rw [hrun]
    exact Desk.Alike.recalls ⟨rfl, rfl, rfl⟩
  · obtain ⟨log, hrun⟩ := h desk
    obtain ⟨log', hrun'⟩ := h desk'
    rw [hrun] at hb
    rw [hrun']
    exact hb

theorem settles_ofRecord (r : Except RecordError α) : Growth.recallAll.Settles (ofRecord r) := by
  cases r with
  | ok a => exact Growth.settles_pure a
  | error e => exact Growth.settles_throw _

theorem settles_collectFrom {make : Die → Walk (Option α)}
    (h : ∀ d, Growth.recallAll.Settles (make d)) (fuel : Nat) (c : Cursor) :
    Growth.recallAll.Settles (collectFrom s u make fuel c) := by
  induction fuel generalizing c with
  | zero => exact Growth.settles_throw _
  | succ fuel ih =>
    refine (settles_inUnit (CompileUnit.settles_advance c)).bind fun o => ?_
    cases o with
    | none => exact Growth.settles_pure []
    | some p =>
      exact (h p.1).bind fun made => (ih p.2).bind fun rest => Growth.settles_pure _

theorem settles_collectChildren {make : Die → Walk (Option α)}
    (h : ∀ d, Growth.recallAll.Settles (make d)) (d : Die) (tag : Nat) :
    Growth.recallAll.Settles (collectChildren s u d tag make) := by
  unfold collectChildren
  cases d.children? with
  | none => exact Growth.settles_pure []
  | some c =>
    refine settles_collectFrom (fun child => ?_) _ c
    exact Growth.Settles.ite (fun _ => h child) fun _ => Growth.settles_pure none

/-- Also a child that no record can be made of is the same again. -/
theorem settles_orSkip (child : Die) (part : Text) (r : Except RecordError α) :
    Growth.recallAll.Settles (orSkip child part (ofRecord r)) :=
  settles_of_tells (tells_orSkip child part r)

theorem settles_extractFunction (d : Die) : Growth.recallAll.Settles (extractFunction s u d) :=
  (settles_collectChildren (fun child => settles_orSkip child _ (.ok (child.variableInfo .parameter)))
    d _).bind fun _ => settles_ofRecord _

theorem settles_makeType (d : Die) : Growth.recallAll.Settles (makeType s u d) := by
  have hmembers : Growth.recallAll.Settles (extractMembers s u d) :=
    Growth.Settles.ite (fun _ => settles_collectChildren
      (fun child => settles_orSkip child _ child.memberInfo) d _) fun _ => Growth.settles_pure []
  exact hmembers.bind fun _ => settles_ofRecord _

theorem settles_next (levels : List (Preorder.Level Cursor)) : Growth.recallAll.Settles
    (Preorder.next (fun c => inUnit u (u.advance s c)) Die.children? Die.isSubprogram levels) := by
  induction levels with
  | nil => exact Growth.settles_pure none
  | cons level rest ih =>
    refine (settles_inUnit (CompileUnit.settles_advance level.cursor)).bind fun o => ?_
    cases o with
    | none => exact ih
    | some p => exact Growth.settles_pure _

/-- The next entry is known where it is given. -/
theorem knows_of_next {levels levels' : List (Preorder.Level Cursor)} {v : Preorder.Visit Die}
    {desk desk' : Desk} (h : outcome (Preorder.next (fun c => inUnit u (u.advance s c)) Die.children?
      Die.isSubprogram levels) desk = (.ok (some (v, levels')), desk')) : desk'.Knows u v.node := by
  induction levels generalizing desk with
  | nil => cases h
  | cons level rest ih =>
    unfold Preorder.next at h
    rw [outcome_bind] at h
    rcases hr : outcome (inUnit u (u.advance s level.cursor)) desk with ⟨e | o, mid⟩ <;> rw [hr] at h
    · cases h
    · rcases o with _ | ⟨d, c'⟩
      · exact ih h
      · have hadvance := congrArg Prod.fst hr
        rw [outcome_inUnit] at hadvance
        have hknows := knows_of_inUnit (CompileUnit.knows_of_advance hadvance)
        rw [hr] at hknows
        cases h
        exact hknows

end Walk

end ElfScope.Dwarf
