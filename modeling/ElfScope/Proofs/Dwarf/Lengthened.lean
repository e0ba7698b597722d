import Mathlib
import ElfScope.Proofs.Dwarf.Containment
import ElfScope.Proofs.Dwarf.Outline

/-! # Sections that go on

Bytes after the units of a section are not looked at as long as nothing fails before them. So a unit
whose entries can be met to their end adds the same symbols, whatever comes after the section.
-/
namespace ElfScope.Dwarf

/-- The same sections, with bytes after the debug information. -/
def DebugSections.extend (s : DebugSections) (b : Bytes) : DebugSections :=
  { s with info := s.info ++ b }

namespace CompileUnit
variable {s : DebugSections} {u : CompileUnit} {t : Die} {b : Bytes}

/-! ### Readings of a longer section -/

theorem drop_extend {o : Nat} {front rest : Bytes} (h : s.info.drop o = front ++ rest)
    (hne : front ≠ []) : (s.extend b).info.drop o = front ++ (rest ++ b) := by
  have hlength := congrArg List.length h
  have hpos := List.length_pos_iff.mpr hne
  rw [List.length_drop, List.length_append] at hlength
  change (s.info ++ b).drop o = _
  rw [List.drop_append_of_le_length (by omega), h, List.append_assoc]

theorem die?_extend {bases : Option Attributes} {o : Nat} {d : Die}
    (h : die? s u bases o = some d) : die? (s.extend b) u bases o = some d := by
  obtain ⟨x, hx, -⟩ := Option.map_eq_some_iff.mp (outline?_of_die? h)
  obtain ⟨front, rest, hfront, hne, -, hsame⟩ := die?_local hx
  exact (hsame _ _ (drop_extend hfront hne) bases).trans h

theorem resolveAll_extend (codes : List Nat) (as : Attributes) :
    resolveAll (s.extend b) u codes as = resolveAll s u codes as := by
  induction codes generalizing as with
  | nil => rfl
  | cons code codes ih =>
    rw [resolveAll, resolveAll]
    cases as.get? code with
    | none => exact ih as
    | some a =>
      simp only
      split_ifs
      · exact ih as
      · have hresolve : resolve? (s.extend b) u (some as) a.form a.value =
            resolve? s u (some as) a.form a.value := rfl
        rw [hresolve]
        cases resolve? s u (some as) a.form a.value with
        | none => rfl
        | some value => exact ih _

theorem top?_extend (h : top? s u = some t) : top? (s.extend b) u = some t := by
  unfold top? at h ⊢
  obtain ⟨d, hd, h⟩ := Option.bind_eq_some_iff.mp h
  rw [die?_extend hd]
  simp only [Option.bind_eq_bind, Option.bind_some, resolveAll_extend]
  exact h

theorem entryAt_extend {o : Nat} {d : Die} (h : (entryAt s u t o).Gives d) :
    (entryAt (s.extend b) u t o).Gives d := by
  unfold entryAt at h ⊢
  by_cases ho : o = u.start
  · rw [if_pos ho] at h ⊢
    exact h
  · rw [if_neg ho] at h ⊢
    cases hd : die? s u (some t.attributes) o with
    | none =>
      rw [hd] at h
      cases Plain.not_gives_throw h
    | some e =>
      rw [hd] at h
      rw [die?_extend hd]
      exact h

/-! ### More fuel -/

section
variable {p p' : Nat → Plain Die} {find find' : Nat → Plain Nat}

theorem followingWith_mono (h : ∀ o e, (find o).Gives e → (find' o).Gives e) {d : Die} {e : Nat}
    (he : (followingWith u find d).Gives e) : (followingWith u find' d).Gives e := by
  unfold followingWith at he ⊢
  split_ifs at he ⊢
  · exact he
  · cases ha : d.attribute? AttributeCode.sibling with
    | none =>
      rw [ha] at he
      exact h _ _ he
    | some a =>
      rw [ha] at he
      exact he

theorem listEndWith_mono (h : ∀ o d, (p o).Gives d → (p' o).Gives d) {fuel fuel' : Nat}
    (hle : fuel ≤ fuel') {o e : Nat} (he : (listEndWith u p fuel o).Gives e) :
    (listEndWith u p' fuel' o).Gives e := by
  induction fuel generalizing fuel' o e with
  | zero => cases Plain.not_gives_throw he
  | succ fuel ih =>
    obtain ⟨fuel', rfl⟩ : ∃ k, fuel' = k + 1 := ⟨fuel' - 1, by omega⟩
    have hrest := fun o e => @ih fuel' (by omega) o e
    rw [listEndWith] at he ⊢
    obtain ⟨d, hd, he⟩ := Plain.gives_bind.mp he
    refine Plain.gives_bind.mpr ⟨d, h o d hd, ?_⟩
    split_ifs at he ⊢
    · exact he
    · obtain ⟨o', ho, he⟩ := Plain.gives_bind.mp he
      exact Plain.gives_bind.mpr ⟨o', followingWith_mono hrest ho, hrest _ _ he⟩

end

theorem nextAt_extend {c : Cursor} {r : Option (Die × Cursor)} (h : (nextAt s u t c).Gives r) :
    (nextAt (s.extend b) u t c).Gives r := by
  have hlimit : pathLimit s ≤ pathLimit (s.extend b) := by
    unfold pathLimit DebugSections.extend
    rw [List.length_append]
    omega
  unfold nextAt advanceWith at h ⊢
  obtain ⟨o, ho, h⟩ := Plain.gives_bind.mp h
  obtain ⟨d, hd, h⟩ := Plain.gives_bind.mp h
  refine Plain.gives_bind.mpr ⟨o, ?_, Plain.gives_bind.mpr ⟨d, entryAt_extend hd, h⟩⟩
  cases c with
  | «at» p => exact ho
  | after d =>
    have hend := fun o e => @listEndWith_mono u _ _ (fun o d => @entryAt_extend s u t b o d) _ _
      hlimit o e
    exact followingWith_mono hend ho

theorem nextVisit_extend {levels : List (Preorder.Level Cursor)}
    {r : Option (Preorder.Visit Die × List (Preorder.Level Cursor))}
    (h : (nextVisit s u t levels).Gives r) : (nextVisit (s.extend b) u t levels).Gives r := by
  induction levels with
  | nil => exact h
  | cons level rest ih =>
    obtain ⟨o, ho, h⟩ := Plain.gives_bind.mp h
    refine Plain.gives_bind.mpr ⟨o, nextAt_extend ho, ?_⟩
    cases o with
    | none => exact ih h
    | some p => exact h

/-- Entries that are met to their end. -/
theorem visitsFrom_extend {fuel fuel' : Nat} (hle : fuel ≤ fuel')
    {levels : List (Preorder.Level Cursor)} {vs : List (Preorder.Visit Die)}
    (h : (visitsFrom s u t fuel levels).Gives (vs, false)) :
    (visitsFrom (s.extend b) u t fuel' levels).Gives (vs, false) := by
  induction fuel generalizing fuel' levels vs with
  | zero => cases Plain.not_gives_throw h
  | succ fuel ih =>
    obtain ⟨fuel', rfl⟩ : ∃ k, fuel' = k + 1 := ⟨fuel' - 1, by omega⟩
    rw [visitsFrom] at h ⊢
    obtain ⟨o, ho, h⟩ := Plain.gives_bind.mp h
    cases o with
    | none => cases Plain.gives_pure.mp h
    | some r =>
      refine Plain.gives_bind.mpr ⟨some r, Plain.gives_attempt_some.mpr
        (nextVisit_extend (Plain.gives_attempt_some.mp ho)), ?_⟩
      rcases r with _ | ⟨v, left⟩
      · exact h
      · obtain ⟨⟨rest, stopped⟩, hrest, h⟩ := Plain.gives_bind.mp h
        cases Plain.gives_pure.mp h
        exact Plain.gives_bind.mpr ⟨_, ih (by omega) hrest, Plain.gives_pure.mpr rfl⟩

/-! ### Lists of children -/

/-- The children from a cursor on, up to the end of their list. -/
inductive Kids (s : DebugSections) (u : CompileUnit) (t : Die) : Cursor → List Die → Prop where
  | nil {c : Cursor} (h : (nextAt s u t c).Gives none) : Kids s u t c []
  | cons {c : Cursor} {d : Die} {ds : List Die}
    (h : (nextAt s u t c).Gives (some (d, .after d))) (hrest : Kids s u t (.after d) ds) :
    Kids s u t c (d :: ds)

theorem cursor_of_nextAt {c c' : Cursor} {d : Die} (h : (nextAt s u t c).Gives (some (d, c'))) :
    c' = .after d := by
  unfold nextAt advanceWith at h
  obtain ⟨o, -, h⟩ := Plain.gives_bind.mp h
  obtain ⟨e, -, h⟩ := Plain.gives_bind.mp h
  rw [Plain.gives_pure] at h
  split_ifs at h
  cases h
  rfl

namespace Kids
variable {c : Cursor} {ds ds' : List Die} {d : Die}

theorem unique (h : Kids s u t c ds) (h' : Kids s u t c ds') : ds = ds' := by
  induction h generalizing ds' with
  | nil h =>
    cases h' with
    | nil => rfl
    | cons h' => cases Option.some.inj (h.symm.trans h')
  | cons h _ ih =>
    cases h' with
    | nil h' => cases Option.some.inj (h.symm.trans h')
    | cons h' hrest' =>
      cases Option.some.inj (h.symm.trans h')
      rw [ih hrest']

/-- What comes after a child is a shorter list. -/
theorem after (h : Kids s u t c ds) (hd : d ∈ ds) :
    ∃ rest, Kids s u t (.after d) rest ∧ rest.length < ds.length := by
  induction h with
  | nil => cases hd
  | @cons c e es _ hrest ih =>
    rcases List.mem_cons.mp hd with rfl | hd
    · exact ⟨es, hrest, Nat.lt_succ_self _⟩
    · obtain ⟨rest, hafter, hlt⟩ := ih hd
      exact ⟨rest, hafter, hlt.trans (Nat.lt_succ_self _)⟩

/-- What follows an entry depends on the entry alone, so none comes twice in a list that ends. -/
theorem nodup (h : Kids s u t c ds) : ds.Nodup := by
  induction h with
  | nil => exact List.nodup_nil
  | cons _ hrest ih =>
    refine List.nodup_cons.mpr ⟨fun hd => ?_, ih⟩
    obtain ⟨rest, hafter, hlt⟩ := hrest.after hd
    rw [hafter.unique hrest] at hlt
    exact absurd hlt (lt_irrefl _)

theorem genuine (ht : top? s u = some t) (h : Kids s u t c ds) : ∀ d ∈ ds, Genuine s u t d := by
  induction h with
  | nil => simp
  | cons h _ ih => exact List.forall_mem_cons.mpr ⟨genuine_of_nextAt ht h, ih⟩

theorem gives_childrenFrom (h : Kids s u t c ds) {fuel : Nat} (hfuel : ds.length < fuel) :
    (childrenFrom s u t fuel c).Gives ds := by
  induction h generalizing fuel with
  | nil h =>
    obtain ⟨fuel, rfl⟩ : ∃ k, fuel = k + 1 := ⟨fuel - 1, by omega⟩
    exact Plain.gives_bind.mpr ⟨none, h, Plain.gives_pure.mpr rfl⟩
  | cons h _ ih =>
    rw [List.length_cons] at hfuel
    obtain ⟨fuel, rfl⟩ : ∃ k, fuel = k + 1 := ⟨fuel - 1, by omega⟩
    exact Plain.gives_bind.mpr ⟨_, h, Plain.gives_bind.mpr
      ⟨_, ih (by omega), Plain.gives_pure.mpr rfl⟩⟩

theorem extend (h : Kids s u t c ds) : Kids (s.extend b) u t c ds := by
  induction h with
  | nil h => exact .nil (nextAt_extend h)
  | cons h _ ih => exact .cons (nextAt_extend h) ih

end Kids

theorem offset_lt_of_genuine (ht : top? s u = some t) {d : Die} (h : Genuine s u t d) :
    d.offset < s.info.length := by
  have hlt {bases : Option Attributes} {o : Nat} {e : Die} (he : die? s u bases o = some e) :
      o < s.info.length := by
    obtain ⟨hpos, hle⟩ := outline?_size (outline?_of_die? he)
    omega
  unfold Genuine entryAt at h
  by_cases ho : d.offset = u.start
  · unfold top? at ht
    obtain ⟨e, he, -⟩ := Option.bind_eq_some_iff.mp ht
    rw [ho]
    exact hlt he
  · rw [if_neg ho] at h
    cases hd : die? s u (some t.attributes) d.offset with
    | none =>
      rw [hd] at h
      cases Plain.not_gives_throw h
    | some e => exact hlt hd

/-- A list of children is shorter than the section. -/
theorem Kids.length_le (ht : top? s u = some t) {c : Cursor} {ds : List Die}
    (h : Kids s u t c ds) : ds.length ≤ s.info.length := by
  have hgenuine := h.genuine ht
  have hnodup : (ds.map (·.offset)).Nodup :=
    h.nodup.map_on fun d hd e he ho => (hgenuine d hd).eq (hgenuine e he) ho
  have hlt : ∀ o ∈ ds.map (·.offset), o < s.info.length := by
    intro o ho
    obtain ⟨d, hd, rfl⟩ := List.mem_map.mp ho
    exact offset_lt_of_genuine ht (hgenuine d hd)
  have hle := length_le_of_nodup hnodup hlt
  rw [List.length_map] at hle
  exact hle

/-- The lists at the cursors that are left end, and so do those that there were before. -/
theorem kids_of_nextVisit {levels : List (Preorder.Level Cursor)}
    {r : Option (Preorder.Visit Die × List (Preorder.Level Cursor))}
    (h : (nextVisit s u t levels).Gives r) :
    match r with
    | none => ∀ level ∈ levels, ∃ ds, Kids s u t level.cursor ds
    | some (v, left) => (∀ level ∈ left, ∃ ds, Kids s u t level.cursor ds) →
      (∀ level ∈ levels, ∃ ds, Kids s u t level.cursor ds) ∧
        ∀ c ∈ v.node.children?, ∃ ds, Kids s u t c ds := by
  induction levels with
  | nil =>
    cases Plain.gives_pure.mp h
    simp
  | cons level rest ih =>
    obtain ⟨o, ho, h⟩ := Plain.gives_bind.mp h
    rcases o with _ | ⟨d, c⟩
    · have ih := ih h
      rcases r with _ | ⟨v, left⟩
      · exact List.forall_mem_cons.mpr ⟨⟨[], .nil ho⟩, ih⟩
      · intro hleft
        obtain ⟨hrest, hchildren⟩ := ih hleft
        exact ⟨List.forall_mem_cons.mpr ⟨⟨[], .nil ho⟩, hrest⟩, hchildren⟩
    · cases cursor_of_nextAt ho
      cases Plain.gives_pure.mp h
      intro hleft
      obtain ⟨hbelow, hlevels⟩ := List.forall_mem_append.mp hleft
      obtain ⟨⟨ds, hds⟩, hrest⟩ := List.forall_mem_cons.mp hlevels
      refine ⟨List.forall_mem_cons.mpr ⟨⟨d :: ds, .cons ho hds⟩, hrest⟩, fun c hc => ?_⟩
      have hc : d.children? = some c := hc
      unfold Preorder.below at hbelow
      simp only [hc] at hbelow
      exact hbelow _ List.mem_cons_self

/-- Where all entries are met, so are all children of each of them. -/
theorem kids_of_visitsFrom {fuel : Nat} {levels : List (Preorder.Level Cursor)}
    {vs : List (Preorder.Visit Die)} (h : (visitsFrom s u t fuel levels).Gives (vs, false)) :
    (∀ level ∈ levels, ∃ ds, Kids s u t level.cursor ds) ∧
      ∀ v ∈ vs, ∀ c ∈ v.node.children?, ∃ ds, Kids s u t c ds := by
  induction fuel generalizing levels vs with
  | zero => cases Plain.not_gives_throw h
  | succ fuel ih =>
    rw [visitsFrom] at h
    obtain ⟨o, ho, h⟩ := Plain.gives_bind.mp h
    rcases o with _ | _ | ⟨v, left⟩
    · cases Plain.gives_pure.mp h
    · cases Plain.gives_pure.mp h
      exact ⟨kids_of_nextVisit (Plain.gives_attempt_some.mp ho), by simp⟩
    · obtain ⟨⟨rest, stopped⟩, hrest, h⟩ := Plain.gives_bind.mp h
      cases Plain.gives_pure.mp h
      obtain ⟨hleft, hvs⟩ := ih hrest
      obtain ⟨hlevels, hv⟩ := kids_of_nextVisit (Plain.gives_attempt_some.mp ho) hleft
      exact ⟨hlevels, List.forall_mem_cons.mpr ⟨hv, hvs⟩⟩

/-! ### Records -/

theorem eq_pure_of_gives {α : Type} {p : Plain α} {a : α} (h : p.Gives a) : p = pure a :=
  ExceptT.ext h

/-- The children of an entry whose list ends are the same in a longer section. -/
theorem childrenOf_extend (ht : top? s u = some t) {d : Die}
    (h : ∀ c ∈ d.children?, ∃ ds, Kids s u t c ds) :
    ∃ ds, childrenOf s u t d = pure ds ∧ childrenOf (s.extend b) u t d = pure ds := by
  unfold childrenOf
  cases hc : d.children? with
  | none => exact ⟨[], rfl, rfl⟩
  | some c =>
    obtain ⟨ds, hds⟩ := h c hc
    have hle := hds.length_le ht
    have hle' := (hds.extend (b := b)).length_le (top?_extend ht)
    refine ⟨ds, eq_pure_of_gives (hds.gives_childrenFrom ?_),
      eq_pure_of_gives (hds.extend.gives_childrenFrom ?_)⟩ <;>
    · unfold pathLimit
      omega

theorem addedBy_extend (ht : top? s u = some t) {v : Preorder.Visit Die}
    (h : ∀ c ∈ v.node.children?, ∃ ds, Kids s u t c ds) :
    ∃ a, (addedBy s u t v).Gives a ∧ (addedBy (s.extend b) u t v).Gives a := by
  obtain ⟨ds, hds, hds'⟩ := childrenOf_extend (b := b) ht h
  have hsame : addedBy (s.extend b) u t v = addedBy s u t v := by
    unfold addedBy symbolsOf functionOf parametersOf typeOf membersOf
    rw [hds, hds']
  have hrecord {α : Type} (r : Except RecordError α) (make : α → Symbols) :
      ∃ a, ((·.getD {}) <$> (Plain.ofRecord r >>= fun x => pure (make x) :
        Plain Symbols).attempt).Gives a := by
    cases r with
    | ok x => exact ⟨make x, rfl⟩
    | error e => exact ⟨{}, rfl⟩
  rw [hsame]
  suffices hgives : ∃ a, (addedBy s u t v).Gives a by
    obtain ⟨a, ha⟩ := hgives
    exact ⟨a, ha, ha⟩
  unfold addedBy symbolsOf functionOf parametersOf typeOf membersOf
  rw [hds]
  split_ifs
  · exact hrecord _ _
  · exact ⟨_, rfl⟩
  · exact ⟨_, rfl⟩
  · exact hrecord _ _
  · exact hrecord _ _
  · exact ⟨_, rfl⟩

/-- The entries of a unit are met to their end, and none is decoded in its header or in front of it. -/
structure Whole (s : DebugSections) (u : CompileUnit) : Prop where
  ends : ∃ vs, (outcome (Walk.entries s u) {}).1 = .ok (vs, false)
  first : ∀ d ∈ ((outcome (Walk.entries s u) {}).2.memory u).entries, u.start ≤ d.offset

theorem Whole.visits (h : u.Whole s) :
    ∃ t vs, top? s u = some t ∧ (visitsFromTop s u t).Gives (vs, false) := by
  obtain ⟨vs, hvs⟩ := h.ends
  cases ht : top? s u with
  | none =>
    rw [Walk.outcome_entries_of_top?_none ht] at hvs
    cases hvs
  | some t =>
    refine ⟨t, vs, rfl, ?_⟩
    rcases (Walk.follows_entries ht).sound {} ((Walk.fresh_empty u).sound s t) with
      ⟨-, hspoilt⟩ | ⟨hrun, -⟩
    · obtain ⟨d, hd, hlt⟩ := hspoilt.stray
      exact absurd (h.first d hd) (by omega)
    · exact hrun.trans (congrArg some hvs)

theorem exists_forall₂ {α β : Type} {R : α → β → Prop} {xs : List α}
    (h : ∀ x ∈ xs, ∃ y, R x y) : ∃ ys, List.Forall₂ R xs ys := by
  induction xs with
  | nil => exact ⟨[], .nil⟩
  | cons x xs ih =>
    obtain ⟨⟨y, hy⟩, hxs⟩ := List.forall_mem_cons.mp h
    obtain ⟨ys, hys⟩ := ih hxs
    exact ⟨y :: ys, .cons hy hys⟩

/-- A unit whose entries are met to their end adds the same in a longer section. -/
theorem Whole.addedByUnit (h : u.Whole s) (b : Bytes) :
    ∃ a, (u.addedByUnit s).Gives a ∧ (u.addedByUnit (s.extend b)).Gives a := by
  obtain ⟨t, vs, ht, hvs⟩ := h.visits
  obtain ⟨⟨rest, stopped⟩, hrest, hpure⟩ := Plain.gives_bind.mp hvs
  cases Plain.gives_pure.mp hpure
  have hlimit : visitLimit s ≤ visitLimit (s.extend b) := by
    unfold visitLimit pathLimit DebugSections.extend
    rw [Nat.one_shiftLeft, Nat.one_shiftLeft, List.length_append]
    exact Nat.pow_le_pow_right (by omega) (by omega)
  have hvs' : (visitsFromTop (s.extend b) u t).Gives (topVisit t :: rest, false) :=
    Plain.gives_bind.mpr ⟨_, visitsFrom_extend hlimit hrest, Plain.gives_pure.mpr rfl⟩
  obtain ⟨hlevels, hkids⟩ := kids_of_visitsFrom hrest
  have htop : ∀ c ∈ (topVisit t).node.children?, ∃ ds, Kids s u t c ds := by
    intro c hc
    have hc : t.children? = some c := hc
    refine hlevels ⟨c, 1, t.isSubprogram⟩ ?_
    unfold firstLevels Preorder.below topVisit
    simp [hc]
  have hall : ∀ v ∈ topVisit t :: rest, ∃ a, (addedBy s u t v).Gives a ∧
      (addedBy (s.extend b) u t v).Gives a :=
    List.forall_mem_cons.mpr ⟨addedBy_extend ht htop, fun v hv => addedBy_extend ht (hkids v hv)⟩
  obtain ⟨added, hadded⟩ := exists_forall₂ hall
  have hgives {s' : DebugSections} (ht : top? s' u = some t)
      (hvs : (visitsFromTop s' u t).Gives (topVisit t :: rest, false))
      (hadded : List.Forall₂ (fun v a => (addedBy s' u t v).Gives a) (topVisit t :: rest) added) :
      (u.addedByUnit s').Gives (Symbols.concat added) := by
    unfold CompileUnit.addedByUnit
    rw [ht]
    exact Plain.gives_map.mpr ⟨_, addedFromTop_gives.mpr ⟨_, _, hvs, hadded, rfl⟩, rfl⟩
  refine ⟨Symbols.concat added, hgives ht hvs (hadded.imp fun _ _ h => h.1), ?_⟩
  exact hgives (top?_extend ht) hvs' (hadded.imp fun _ _ h => h.2)

end CompileUnit

/-! ### Walks over units that add something -/

namespace Walk
variable {s : DebugSections}

open CompileUnit

/-- What is kept after some units that add symbols. -/
structure Passed (us : List CompileUnit) (added : List Symbols) (desk desk' : Desk) : Prop where
  found : desk'.found = desk.found ++ Symbols.concat added
  memories : ∀ o, (∀ u ∈ us, u.offset ≠ o) → desk'.memories.lookup o = desk.memories.lookup o
  types : ∀ p ∈ desk'.types, p ∈ desk.types ∨ ∃ u ∈ us, p.1.1 = u.offset

theorem passed_forM {us : List CompileUnit} {added : List Symbols} {desk : Desk}
    (hd : us.Pairwise (·.offset ≠ ·.offset)) (hf : ∀ u ∈ us, desk.Fresh u)
    (h : List.Forall₂ (fun u a => (u.addedByUnit s).Gives a) us added) :
    ∃ desk', outcome (us.forM (walkUnit s)) desk = (.ok (), desk') ∧ Passed us added desk desk' := by
  induction h generalizing desk with
  | nil =>
    exact ⟨desk, rfl, (Symbols.append_empty _).symm, fun _ _ => rfl, fun p hp => .inl hp⟩
  | @cons u a us added ha _ ih =>
    rw [List.pairwise_cons] at hd
    rw [List.forall_mem_cons] at hf
    have hw := @walked_walkUnit s u desk hf.1
    rw [outcome_forM_cons]
    rcases hrun : outcome (walkUnit s u) desk with ⟨r, desk₁⟩
    rw [hrun] at hw
    rcases hw with ⟨hp, -⟩ | ⟨hp, -⟩ | ⟨a', ha', hr, hapart, hfound⟩
    · cases ha.symm.trans hp
    · cases ha.symm.trans hp
    · cases ha.symm.trans ha'
      cases (show r = .ok () from hr)
      obtain ⟨desk', hrest, hpassed⟩ := ih hd.2 fun w hw => (hf.2 w hw).apart hapart (hd.1 w hw)
      refine ⟨desk', hrest, ?_, fun o ho => ?_, fun p hp => ?_⟩
      · rw [hpassed.found, show desk₁.found = _ from hfound, Symbols.append_assoc]
        rfl
      · obtain ⟨hne, hothers⟩ := List.forall_mem_cons.mp ho
        exact (hpassed.memories o hothers).trans (hapart.memories o hne.symm)
      · rcases hpassed.types p hp with hp | ⟨w, hw, hpw⟩
        · rcases hapart.types p hp with hp | hp
          · exact .inl hp
          · exact .inr ⟨u, List.mem_cons_self, hp⟩
        · exact .inr ⟨w, List.mem_cons_of_mem _ hw, hpw⟩

/-- A walk gives what has been found when it is through with the units, and remembers what they have. -/
theorem outcome_run_units (s : DebugSections) :
    ((outcome (run (some s)) {}).1 =
      (outcome ((CompileUnit.units s).forM (walkUnit s)) {}).1.map fun _ =>
        (outcome ((CompileUnit.units s).forM (walkUnit s)) {}).2.found) ∧
    ∀ u, (outcome (run (some s)) {}).2.memory u =
      (outcome ((CompileUnit.units s).forM (walkUnit s)) {}).2.memory u := by
  obtain ⟨desk', hlike, hrun⟩ := outcome_runUnits s {}
  have hreset : outcome (run (some s)) {} = outcome (runUnits s) {} := rfl
  rw [hreset, hrun]
  refine ⟨?_, hlike.memory⟩
  cases (outcome ((CompileUnit.units s).forM (walkUnit s)) {}).1 <;> rfl

end Walk

end ElfScope.Dwarf
