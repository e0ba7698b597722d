import Mathlib
import ElfScope.Proofs.Bytes.Locality
import ElfScope.Proofs.Dwarf.Ending

/-! # The extent of a unit

The end of a unit is where its null entries have it, and its length only says where the next unit is.
Both agree where all that the entries lead to ends inside the length: then nothing else is decoded for
the unit.
-/
namespace ElfScope.Dwarf

namespace CompileUnit

/-- The list of entries that goes on at an offset, with all that is below it, ends by another offset, or
it stops by there at what cannot be decoded. No sibling reference leads to before the end of the subtree
that it skips. -/
inductive EndsBy (s : DebugSections) (u : CompileUnit) : Nat → Nat → Prop where
  | null {o e : Nat} {x : Outline} (hx : u.outline? s o = some x) (hnull : x.tag = none)
    (hle : o + x.size ≤ e) : EndsBy s u o e
  | stop {o e : Nat} (hx : u.outline? s o = none) (hle : o ≤ e) : EndsBy s u o e
  | leaf {o e : Nat} {x : Outline} (hx : u.outline? s o = some x) (htag : x.tag ≠ none)
    (hleaf : x.hasChildren = false) (hrest : EndsBy s u (o + x.size) e) : EndsBy s u o e
  | link {o e t : Nat} {x : Outline} (hx : u.outline? s o = some x) (htag : x.tag ≠ none)
    (hchildren : x.hasChildren = true) (hlink : x.link = some (some t))
    (hbelow : EndsBy s u (o + x.size) t) (hrest : EndsBy s u t e) : EndsBy s u o e
  | nowhere {o e : Nat} {x : Outline} (hx : u.outline? s o = some x) (htag : x.tag ≠ none)
    (hchildren : x.hasChildren = true) (hlink : x.link = some none)
    (hbelow : EndsBy s u (o + x.size) e) : EndsBy s u o e
  | subtree {o e : Nat} {x : Outline} (hx : u.outline? s o = some x) (htag : x.tag ≠ none)
    (hchildren : x.hasChildren = true) (hlink : x.link = none)
    (hbelow : EndsBy s u (o + x.size) e)
    (hrest : ∀ e', ListEnd s u (o + x.size) e' → EndsBy s u e' e) : EndsBy s u o e

/-- The top entry and all that is below it end inside the length of the unit. -/
def Closed (s : DebugSections) (u : CompileUnit) : Prop :=
  ∀ x, u.outline? s u.start = some x → u.start + x.size ≤ u.next ∧
    (x.hasChildren = true → EndsBy s u (u.start + x.size) u.next)

section
variable {s : DebugSections} {u : CompileUnit} {o o' e e' : Nat} {x : Outline}

/-- A null entry has no children. -/
theorem hasChildren_of_null (hx : u.outline? s o = some x) (hnull : x.tag = none) :
    x.hasChildren = false := by
  obtain ⟨d, hd, rfl⟩ := Option.map_eq_some_iff.mp hx
  unfold die? at hd
  obtain ⟨p, -, hd⟩ := Option.bind_eq_some_iff.mp hd
  simp only at hd
  split_ifs at hd
  · cases hd
    rfl
  · obtain ⟨table, -, hd⟩ := Option.bind_eq_some_iff.mp hd
    obtain ⟨abbreviation, -, hd⟩ := Option.bind_eq_some_iff.mp hd
    obtain ⟨q, -, hd⟩ := Option.bind_eq_some_iff.mp hd
    cases hd
    cases hnull

namespace EndsBy

theorem le (h : EndsBy s u o e) : o ≤ e := by
  induction h with
  | null _ _ hle => omega
  | stop _ hle => exact hle
  | leaf _ _ _ _ ih => omega
  | link _ _ _ _ _ _ ihbelow ih => omega
  | nowhere _ _ _ _ _ ih => omega
  | subtree _ _ _ _ _ _ ih => omega

theorem mono (h : EndsBy s u o e) (he : e ≤ e') : EndsBy s u o e' := by
  induction h with
  | null hx hnull hle => exact .null hx hnull (hle.trans he)
  | stop hx hle => exact .stop hx (hle.trans he)
  | leaf hx htag hleaf _ ih => exact .leaf hx htag hleaf (ih he)
  | link hx htag hchildren hlink hbelow _ _ ih => exact .link hx htag hchildren hlink hbelow (ih he)
  | nowhere hx htag hchildren hlink _ ih => exact .nowhere hx htag hchildren hlink (ih he)
  | subtree hx htag hchildren hlink _ _ ihbelow ih =>
    exact .subtree hx htag hchildren hlink (ihbelow he) fun e' he' => ih e' he' he

/-- The first entry of the list lies before the end. -/
theorem first_le (h : EndsBy s u o e) (hx : u.outline? s o = some x) : o + x.size ≤ e := by
  cases h with
  | null hx' _ hle =>
    cases hx.symm.trans hx'
    exact hle
  | stop hx' => cases hx.symm.trans hx'
  | leaf hx' _ _ hrest =>
    cases hx.symm.trans hx'
    exact hrest.le
  | link hx' _ _ _ hbelow hrest =>
    cases hx.symm.trans hx'
    exact hbelow.le.trans hrest.le
  | nowhere hx' _ _ _ hbelow =>
    cases hx.symm.trans hx'
    exact hbelow.le
  | subtree hx' _ _ _ hbelow =>
    cases hx.symm.trans hx'
    exact hbelow.le

theorem children (h : EndsBy s u o e) (hx : u.outline? s o = some x)
    (hchildren : x.hasChildren = true) : EndsBy s u (o + x.size) e := by
  cases h with
  | null hx' hnull =>
    cases hx.symm.trans hx'
    exact absurd hchildren (by simp [hasChildren_of_null hx hnull])
  | stop hx' => cases hx.symm.trans hx'
  | leaf hx' _ hleaf =>
    cases hx.symm.trans hx'
    exact absurd hchildren (by simp [hleaf])
  | link hx' _ _ _ hbelow hrest =>
    cases hx.symm.trans hx'
    exact hbelow.mono hrest.le
  | nowhere hx' _ _ _ hbelow =>
    cases hx.symm.trans hx'
    exact hbelow
  | subtree hx' _ _ _ hbelow =>
    cases hx.symm.trans hx'
    exact hbelow

/-- The null entry that ends the list ends by there. -/
theorem listEnd (h : EndsBy s u o e) (he : ListEnd s u o e') : o ≤ e' ∧ e' ≤ e := by
  induction h generalizing e' with
  | null hx hnull hle =>
    cases (listEnd_null hx hnull).mp he
    exact ⟨Nat.le_add_right _ _, hle⟩
  | stop hx =>
    obtain ⟨x, hx'⟩ := he.exists_outline
    cases hx.symm.trans hx'
  | leaf hx htag hleaf _ ih =>
    obtain ⟨o', ho, hrest⟩ := (listEnd_entry hx htag).mp he
    cases (following_leaf hleaf).mp ho
    obtain ⟨hle, hle'⟩ := ih hrest
    exact ⟨by omega, hle'⟩
  | link hx htag hchildren hlink hbelow _ _ ih =>
    obtain ⟨o', ho, hrest⟩ := (listEnd_entry hx htag).mp he
    cases (following_link hchildren hlink).mp ho
    obtain ⟨hle, hle'⟩ := ih hrest
    have hskip := hbelow.le
    exact ⟨by omega, hle'⟩
  | nowhere hx htag hchildren hlink _ _ =>
    obtain ⟨o', ho, -⟩ := (listEnd_entry hx htag).mp he
    cases (following_link hchildren hlink).mp ho
  | subtree hx htag hchildren hlink _ _ ihbelow ih =>
    obtain ⟨o', ho, hrest⟩ := (listEnd_entry hx htag).mp he
    have hend := (following_subtree hchildren hlink).mp ho
    obtain ⟨hskip, -⟩ := ihbelow hend
    obtain ⟨hle, hle'⟩ := ih _ hend hrest
    exact ⟨by omega, hle'⟩

/-- What follows an entry of the list goes on with it, after the subtree of the entry. -/
theorem following (h : EndsBy s u o e) (hx : u.outline? s o = some x) (htag : x.tag ≠ none)
    (ho : Following s u o x o') : o ≤ o' ∧ EndsBy s u o' e ∧
      ∀ e', x.hasChildren = true → ListEnd s u (o + x.size) e' → e' ≤ o' := by
  cases h with
  | null hx' hnull =>
    cases hx.symm.trans hx'
    exact absurd hnull htag
  | stop hx' => cases hx.symm.trans hx'
  | leaf hx' _ hleaf hrest =>
    cases hx.symm.trans hx'
    cases (following_leaf hleaf).mp ho
    exact ⟨by omega, hrest, fun _ h => absurd hleaf (by simp [h])⟩
  | link hx' _ hchildren hlink hbelow hrest =>
    cases hx.symm.trans hx'
    cases (following_link hchildren hlink).mp ho
    have hle := hbelow.le
    exact ⟨by omega, hrest, fun e' _ he => (hbelow.listEnd he).2⟩
  | nowhere hx' _ hchildren hlink =>
    cases hx.symm.trans hx'
    cases (following_link hchildren hlink).mp ho
  | subtree hx' _ hchildren hlink hbelow hrest =>
    cases hx.symm.trans hx'
    have hend := (following_subtree hchildren hlink).mp ho
    have hle := (hbelow.listEnd hend).1
    exact ⟨by omega, hrest _ hend, fun e' _ he => (he.unique hend).le⟩

end EndsBy

/-- Where the lists of a closed unit have their entries. -/
def Inside (s : DebugSections) (u : CompileUnit) (o : Nat) : Prop :=
  u.start ≤ o ∧ EndsBy s u o u.next

theorem Closed.covers (h : u.Closed s) : Covers s u (u.Inside s) := by
  constructor
  · rintro o x (rfl | ⟨hstart, hends⟩) hx hchildren
    · exact ⟨Nat.le_add_right _ _, (h x hx).2 hchildren⟩
    · exact ⟨by omega, hends.children hx hchildren⟩
  · rintro o x o' ⟨hstart, hends⟩ hx htag hfollowing
    obtain ⟨hle, hrest, -⟩ := hends.following hx htag hfollowing
    exact ⟨hstart.trans hle, hrest⟩

/-- What is decoded for a closed unit lies in it. -/
theorem Closed.within (h : u.Closed s) {m : Memory} (hm : m.Tracked s u (u.Inside s)) {d : Die}
    (hd : d ∈ m.entries) : u.start ≤ d.offset ∧ d.offset + d.size ≤ u.next := by
  obtain ⟨hx, ho⟩ := hm d hd
  rcases ho with ho | ⟨hstart, hends⟩
  · rw [ho] at hx ⊢
    exact ⟨le_rfl, (h _ hx).1⟩
  · exact ⟨hstart, hends.first_le hx⟩

theorem Inside.leadsPast {d : Die} (h : u.Inside s d.offset)
    (hx : u.outline? s d.offset = some (u.outline d)) : u.LeadsPast s d := by
  intro t ht e he
  have ht' : u.sibling? d = some t := ht
  rw [sibling?] at ht'
  split_ifs at ht' with hchildren
  obtain ⟨a, ha, htarget⟩ := Option.bind_eq_some_iff.mp ht'
  have hlink : (u.outline d).link = some (some t) :=
    (congrArg (Option.map u.siblingTarget) ha).trans (congrArg some htarget)
  have htag : d.tag ≠ none := fun hnull => by
    have hnone := hasChildren_of_null hx hnull
    rw [outline_hasChildren, hchildren] at hnone
    cases hnone
  exact (h.2.following hx htag (.link hchildren hlink)).2.2 e hchildren he

end

/-! ### Other units -/

/-- Units of the section do not overlap. -/
theorem pairwise_next_le (s : DebugSections) (fuel offset : Nat) :
    (listFrom s fuel offset).1.Pairwise fun u w => u.next ≤ w.offset := by
  induction fuel generalizing offset with
  | zero => exact .nil
  | succ fuel ih =>
    rw [listFrom]
    split_ifs
    · exact .nil
    · cases at? s offset with
      | none => exact .nil
      | some u =>
        refine List.pairwise_cons.mpr ⟨fun w hw => ?_, ih u.next⟩
        exact (pairwise_listFrom s fuel u.next).1 w hw

theorem offset_le_start {s : DebugSections} {u : CompileUnit} (hu : u ∈ units s) :
    u.offset ≤ u.start := by
  obtain ⟨front, -, -, -, hstart, -⟩ := at?_local (at?_of_mem_units hu)
  omega

theorem next_le_or {s : DebugSections} {u w : CompileUnit} (hu : u ∈ units s) (hw : w ∈ units s)
    (hne : u.offset ≠ w.offset) : u.next ≤ w.offset ∨ w.next ≤ u.offset := by
  have hpairwise := pairwise_next_le s (s.info.length + 1) 0
  have hall := List.Pairwise.forall_of_forall_of_flip (l := units s)
    (R := fun u w => u.offset ≠ w.offset → u.next ≤ w.offset ∨ w.next ≤ u.offset)
    (fun u _ hne => absurd rfl hne) (hpairwise.imp fun h _ => .inl h)
    (hpairwise.imp fun h _ => .inr h)
  exact hall hu hw hne

end CompileUnit

namespace Walk
variable {s : DebugSections} {u : CompileUnit}

open CompileUnit Growth

/-- The first entry that is met is the one after the header. -/
theorem entries_head {vs : List (Preorder.Visit Die)} {stopped : Bool}
    (h : (outcome (entries s u) {}).1 = .ok (vs, stopped)) :
    ∀ v ∈ vs.head?, v.node.offset = u.start := by
  have hmem : Desk.memory {} u = {} := rfl
  have htop (d : Die) (m : Memory) (hr : outcome (u.topDie s) {} = (.ok d, m)) :
      d.offset = u.start := by
    change outcome (u.topDie s) ⟨none, []⟩ = _ at hr
    rw [outcome_topDie_none] at hr
    cases hd : die? s u none u.start with
    | none =>
      rw [hd] at hr
      cases hr
    | some e =>
      rw [hd] at hr
      rcases hresolve : resolveAll s u (e.attributes.map (·.code)) e.attributes with ⟨as, _ | _⟩ <;>
        simp only [hresolve] at hr <;> cases hr
      exact (die?_offset hd :)
  unfold entries at h
  rw [outcome_bind, outcome_attempt, outcome_inUnit, hmem] at h
  rcases hr : outcome (u.topDie s) {} with ⟨(_ | _ | _) | d, m⟩ <;> rw [hr] at h
  · cases h
    simp
  · cases h
    simp
  · cases h
  · simp only at h
    rw [outcome_bind] at h
    rcases hrest : outcome (entriesFrom s u (visitLimit s) (Preorder.below Die.children?
      Die.isSubprogram ⟨d, 0, false⟩)) (Desk.remember {} u m) with ⟨e | r, desk⟩ <;>
      rw [hrest] at h <;> cases h
    intro v hv
    cases hv
    exact htop d m hr

/-- Entries that come after one another come after the first one. -/
theorem start_le_of_before {vs : List (Preorder.Visit Die)} {start : Nat}
    (hbefore : vs.Pairwise Before) (hhead : ∀ v ∈ vs.head?, v.node.offset = start) :
    ∀ v ∈ vs, start ≤ v.node.offset := by
  cases vs with
  | nil => simp
  | cons first rest =>
    have hfirst := hhead first rfl
    refine List.forall_mem_cons.mpr ⟨hfirst.ge, fun v hv => ?_⟩
    have hle : first.node.offset + first.node.size ≤ v.node.offset :=
      (List.pairwise_cons.mp hbefore).1 v hv
    omega

/-- What a walk decodes for a closed unit lies in it. -/
theorem decoded_within (hu : u ∈ CompileUnit.units s) (hclosed : u.Closed s) :
    ∀ d ∈ ((outcome (run (some s)) {}).2.memory u).entries,
      u.start ≤ d.offset ∧ d.offset + d.size ≤ u.next := by
  have hcovers (w : CompileUnit) : Covers s w fun o => w.Closed s → w.Inside s o :=
    .given Closed.covers
  have htracked := (runs_runUnits hcovers).sound {} sound_empty trivial u (at?_of_mem_units hu)
  intro d hd
  refine hclosed.within (fun e he => ?_) hd
  obtain ⟨hx, ho⟩ := htracked e he
  exact ⟨hx, ho.imp id fun hin => hin hclosed⟩

/-- What is known of the entries that are met for a unit, when its traversal is through. -/
structure Traced (s : DebugSections) (u : CompileUnit) (B : Nat → Prop)
    (vs : List (Preorder.Visit Die)) (m : Memory) : Prop where
  tracked : m.Tracked s u B
  mem : ∀ v ∈ vs, v.node ∈ m.entries
  listed : ∀ v ∈ vs.tail, B v.node.offset
  ordered : (∀ v ∈ vs.tail, u.LeadsPast s v.node) →
    vs.Pairwise Before ∧ ∀ v ∈ vs, u.start ≤ v.node.offset

theorem traced_entries {B : CompileUnit → Nat → Prop} (hu : u ∈ CompileUnit.units s)
    (hB : Covers s u (B u)) {vs : List (Preorder.Visit Die)} {stopped : Bool}
    (hvs : (outcome (entries s u) {}).1 = .ok (vs, stopped)) :
    Traced s u (B u) vs ((outcome (entries s u) {}).2.memory u) := by
  have hat := at?_of_mem_units hu
  have hruns := runs_entries hB hat
  obtain ⟨hmem, hlisted, hbefore⟩ := hruns.gives {} sound_empty trivial _ hvs
  refine ⟨hruns.sound {} sound_empty trivial u hat, hmem, hlisted, fun hpast => ?_⟩
  exact ⟨hbefore hpast, start_le_of_before (hbefore hpast) (entries_head hvs)⟩

/-- The entries that are met for a unit come one after the other from its header on, as long as none
leads to before the end of its own subtree. Those of a closed unit lie in it, as does all that a walk
decodes for it, and no byte is decoded for two such units. -/
theorem decoded_within_unit (s : DebugSections) :
    (∀ u ∈ CompileUnit.units s, ∀ vs stopped, (outcome (entries s u) {}).1 = .ok (vs, stopped) →
      (∀ v ∈ vs.tail, u.LeadsPast s v.node) →
        vs.Pairwise Before ∧
          ∀ v ∈ vs, u.start ≤ v.node.offset ∧ v.node.offset + v.node.size ≤ s.info.length) ∧
    (∀ u ∈ CompileUnit.units s, u.Closed s →
      (∀ vs stopped, (outcome (entries s u) {}).1 = .ok (vs, stopped) →
        vs.Pairwise Before ∧
          ∀ v ∈ vs, u.start ≤ v.node.offset ∧ v.node.offset + v.node.size ≤ u.next) ∧
      ∀ d ∈ ((outcome (run (some s)) {}).2.memory u).entries,
        u.start ≤ d.offset ∧ d.offset + d.size ≤ u.next) ∧
    ∀ u ∈ CompileUnit.units s, ∀ w ∈ CompileUnit.units s, u.Closed s → w.Closed s →
      u.offset ≠ w.offset → ∀ d ∈ ((outcome (run (some s)) {}).2.memory u).entries,
        ∀ e ∈ ((outcome (run (some s)) {}).2.memory w).entries,
          d.offset + d.size ≤ e.offset ∨ e.offset + e.size ≤ d.offset := by
  refine ⟨fun u hu vs stopped hvs hpast => ?_, fun u hu hclosed => ⟨fun vs stopped hvs => ?_,
    decoded_within hu hclosed⟩, fun u hu w hw hclosed hclosed' hne d hd e he => ?_⟩
  · have h := traced_entries (B := fun _ _ => True) hu (covers_all s u) hvs
    obtain ⟨hbefore, hstart⟩ := h.ordered hpast
    exact ⟨hbefore, fun v hv => ⟨hstart v hv, (outline?_size (h.tracked _ (h.mem v hv)).1).2⟩⟩
  · have h := traced_entries (B := fun w => w.Inside s) hu hclosed.covers hvs
    have hpast (v : Preorder.Visit Die) (hv : v ∈ vs.tail) : u.LeadsPast s v.node :=
      (h.listed v hv).leadsPast (h.tracked _ (h.mem v (List.mem_of_mem_tail hv))).1
    exact ⟨(h.ordered hpast).1, fun v hv => hclosed.within h.tracked (h.mem v hv)⟩
  · obtain ⟨hstart, hnext⟩ := decoded_within hu hclosed d hd
    obtain ⟨hstart', hnext'⟩ := decoded_within hw hclosed' e he
    have hle := offset_le_start hu
    have hle' := offset_le_start hw
    rcases next_le_or hu hw hne with h | h
    · exact .inl (by omega)
    · exact .inr (by omega)

/-- A unit with a block, and after it another unit. The first byte of each unit is the code of a
variable. -/
def blockBeforeUnit (sibling : UInt8) (nulls : Bytes) : DebugSections where
  info := [13 + UInt8.ofNat nulls.length, 0, 0, 0, 4, 0, 0, 0, 0, 0, 8, 1, 2, sibling, 0, 0, 0] ++
    nulls ++ [15, 0, 0, 0, 4, 0, 0, 0, 0, 0, 8, 1, 0, 0, 0, 0, 0, 0, 0]
  abbreviations := [1, 17, 1, 0, 0, 2, 11, 1, 1, 19, 0, 0, 15, 52, 0, 0, 0, 0]

theorem blockBeforeUnit_within :
    (∀ u ∈ CompileUnit.units (blockBeforeUnit 18 [0, 0]), u.Closed (blockBeforeUnit 18 [0, 0])) ∧
    ∀ u ∈ CompileUnit.units (blockBeforeUnit 18 [0, 0]),
      (∀ vs stopped, (outcome (entries (blockBeforeUnit 18 [0, 0]) u) {}).1 = .ok (vs, stopped) →
        vs.Pairwise Before ∧
          ∀ v ∈ vs, u.start ≤ v.node.offset ∧ v.node.offset + v.node.size ≤ u.next) ∧
      ∀ d ∈ ((outcome (run (some (blockBeforeUnit 18 [0, 0]))) {}).2.memory u).entries,
        u.start ≤ d.offset ∧ d.offset + d.size ≤ u.next := by
  have hunits : ∀ u ∈ CompileUnit.units (blockBeforeUnit 18 [0, 0]),
      u.outline? (blockBeforeUnit 18 [0, 0]) u.start = some ⟨1, some 17, true, none⟩ ∧
      (u.start = 11 ∧ u.next = 19 ∧
          u.outline? (blockBeforeUnit 18 [0, 0]) 12 = some ⟨5, some 11, true, some (some 18)⟩ ∧
          u.outline? (blockBeforeUnit 18 [0, 0]) 17 = some ⟨1, none, false, none⟩ ∧
          u.outline? (blockBeforeUnit 18 [0, 0]) 18 = some ⟨1, none, false, none⟩ ∨
        u.start = 30 ∧ u.next = 38 ∧
          u.outline? (blockBeforeUnit 18 [0, 0]) 31 = some ⟨1, none, false, none⟩) := by
    decide +kernel
  have hclosed : ∀ u ∈ CompileUnit.units (blockBeforeUnit 18 [0, 0]),
      u.Closed (blockBeforeUnit 18 [0, 0]) := by
    intro u hu x hx
    obtain ⟨htop, hrest⟩ := hunits u hu
    cases htop.symm.trans hx
    rcases hrest with ⟨hstart, hnext, hblock, hnull, hend⟩ | ⟨hstart, hnext, hend⟩
    · rw [hstart, hnext]
      refine ⟨by decide, fun _ => .link hblock (by simp) rfl rfl ?_ ?_⟩
      · exact .null hnull rfl le_rfl
      · exact .null hend rfl le_rfl
    · rw [hstart, hnext]
      exact ⟨by decide, fun _ => .null hend rfl (by decide)⟩
  refine ⟨hclosed, fun u hu => ?_⟩
  exact (decoded_within_unit (blockBeforeUnit 18 [0, 0])).2.1 u hu (hclosed u hu)

/-- Without the null entry that ends its entries, a unit goes on into the header of the next one. With
a sibling reference to its own header, it has an entry there. -/
theorem blockBeforeUnit_outside :
    ((CompileUnit.units (blockBeforeUnit 18 [0])).map fun u =>
        (u.start, u.next, (reached (blockBeforeUnit 18 [0]) u).map (·.node.offset))) =
      [(11, 18, [11, 12, 18]), (29, 37, [29])] ∧
    ((CompileUnit.units (blockBeforeUnit 0 [0, 0])).map fun u =>
        (u.start, u.next, (reached (blockBeforeUnit 0 [0, 0]) u).map (·.node.offset))) =
      [(11, 19, [11, 12, 0]), (30, 38, [30])] := by
  decide +kernel

end Walk

end ElfScope.Dwarf
