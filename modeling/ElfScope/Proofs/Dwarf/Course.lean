import Mathlib
import ElfScope.Proofs.Dwarf.Growth

/-! # The course of a traversal

Which offset follows an entry is decided by the outlines of entries alone, and so is where a list of
entries ends. A traversal goes up as long as the sibling references lead forward.
-/
namespace ElfScope.Dwarf

namespace CompileUnit

/-- The list of entries that goes on at an offset has its null entry end at another one. -/
inductive ListEnd (s : DebugSections) (u : CompileUnit) : Nat → Nat → Prop where
  | null {o : Nat} {x : Outline} (hx : u.outline? s o = some x) (hnull : x.tag = none) :
    ListEnd s u o (o + x.size)
  | leaf {o e : Nat} {x : Outline} (hx : u.outline? s o = some x) (htag : x.tag ≠ none)
    (hleaf : x.hasChildren = false) (hrest : ListEnd s u (o + x.size) e) : ListEnd s u o e
  | link {o t e : Nat} {x : Outline} (hx : u.outline? s o = some x) (htag : x.tag ≠ none)
    (hchildren : x.hasChildren = true) (hlink : x.link = some (some t))
    (hrest : ListEnd s u t e) : ListEnd s u o e
  | subtree {o e e' : Nat} {x : Outline} (hx : u.outline? s o = some x) (htag : x.tag ≠ none)
    (hchildren : x.hasChildren = true) (hlink : x.link = none)
    (hbelow : ListEnd s u (o + x.size) e') (hrest : ListEnd s u e' e) : ListEnd s u o e

/-- What follows an entry with its subtree. -/
inductive Following (s : DebugSections) (u : CompileUnit) (o : Nat) (x : Outline) : Nat → Prop where
  | leaf (hleaf : x.hasChildren = false) : Following s u o x (o + x.size)
  | link {t : Nat} (hchildren : x.hasChildren = true) (hlink : x.link = some (some t)) :
    Following s u o x t
  | subtree {e : Nat} (hchildren : x.hasChildren = true) (hlink : x.link = none)
    (hbelow : ListEnd s u (o + x.size) e) : Following s u o x e

section
variable {s : DebugSections} {u : CompileUnit} {o o' e e' : Nat} {x : Outline}

theorem ListEnd.entry (hx : u.outline? s o = some x) (htag : x.tag ≠ none)
    (h : Following s u o x o') (hrest : ListEnd s u o' e) : ListEnd s u o e := by
  cases h with
  | leaf hleaf => exact .leaf hx htag hleaf hrest
  | link hchildren hlink => exact .link hx htag hchildren hlink hrest
  | subtree hchildren hlink hbelow => exact .subtree hx htag hchildren hlink hbelow hrest

theorem ListEnd.inv (h : ListEnd s u o e) (hx : u.outline? s o = some x) :
    (x.tag = none ∧ e = o + x.size) ∨
      x.tag ≠ none ∧ ∃ o', Following s u o x o' ∧ ListEnd s u o' e := by
  cases h with
  | null hx' hnull =>
    cases hx.symm.trans hx'
    exact .inl ⟨hnull, rfl⟩
  | leaf hx' htag hleaf hrest =>
    cases hx.symm.trans hx'
    exact .inr ⟨htag, _, .leaf hleaf, hrest⟩
  | link hx' htag hchildren hlink hrest =>
    cases hx.symm.trans hx'
    exact .inr ⟨htag, _, .link hchildren hlink, hrest⟩
  | subtree hx' htag hchildren hlink hbelow hrest =>
    cases hx.symm.trans hx'
    exact .inr ⟨htag, _, .subtree hchildren hlink hbelow, hrest⟩

theorem ListEnd.exists_outline (h : ListEnd s u o e) : ∃ x, u.outline? s o = some x := by
  cases h <;> exact ⟨_, by assumption⟩

theorem following_leaf (hleaf : x.hasChildren = false) :
    Following s u o x o' ↔ o' = o + x.size := by
  constructor
  · intro h
    cases h with
    | leaf => rfl
    | link hchildren => exact absurd hleaf (by simp [hchildren])
    | subtree hchildren => exact absurd hleaf (by simp [hchildren])
  · rintro rfl
    exact .leaf hleaf

theorem following_link (hchildren : x.hasChildren = true) {t : Option Nat}
    (hlink : x.link = some t) : Following s u o x o' ↔ some o' = t := by
  constructor
  · intro h
    cases h with
    | leaf hleaf => exact absurd hchildren (by simp [hleaf])
    | link _ hlink' => exact Option.some.inj (hlink'.symm.trans hlink)
    | subtree _ hlink' => cases hlink.symm.trans hlink'
  · rintro rfl
    exact .link hchildren hlink

theorem following_subtree (hchildren : x.hasChildren = true) (hlink : x.link = none) :
    Following s u o x o' ↔ ListEnd s u (o + x.size) o' := by
  constructor
  · intro h
    cases h with
    | leaf hleaf => exact absurd hchildren (by simp [hleaf])
    | link _ hlink' => cases hlink.symm.trans hlink'
    | subtree _ _ hbelow => exact hbelow
  · exact .subtree hchildren hlink

theorem listEnd_null (hx : u.outline? s o = some x) (hnull : x.tag = none) :
    ListEnd s u o e ↔ e = o + x.size := by
  constructor
  · intro h
    rcases h.inv hx with ⟨-, rfl⟩ | ⟨htag, -⟩
    · rfl
    · exact absurd hnull htag
  · rintro rfl
    exact .null hx hnull

theorem listEnd_entry (hx : u.outline? s o = some x) (htag : x.tag ≠ none) :
    ListEnd s u o e ↔ ∃ o', Following s u o x o' ∧ ListEnd s u o' e := by
  constructor
  · intro h
    rcases h.inv hx with ⟨hnull, -⟩ | ⟨-, h⟩
    · exact absurd hnull htag
    · exact h
  · rintro ⟨o', ho, hrest⟩
    exact .entry hx htag ho hrest

/-- A list has one end. -/
theorem ListEnd.unique (h : ListEnd s u o e) (h' : ListEnd s u o e') : e = e' := by
  induction h generalizing e' with
  | null hx hnull => exact ((listEnd_null hx hnull).mp h').symm
  | leaf hx htag hleaf _ ih =>
    obtain ⟨o', ho, hrest⟩ := (listEnd_entry hx htag).mp h'
    cases (following_leaf hleaf).mp ho
    exact ih hrest
  | link hx htag hchildren hlink _ ih =>
    obtain ⟨o', ho, hrest⟩ := (listEnd_entry hx htag).mp h'
    cases (following_link hchildren hlink).mp ho
    exact ih hrest
  | subtree hx htag hchildren hlink _ _ ihbelow ih =>
    obtain ⟨o', ho, hrest⟩ := (listEnd_entry hx htag).mp h'
    cases ihbelow ((following_subtree hchildren hlink).mp ho)
    exact ih hrest

end

/-- Where the sibling reference of an entry leads. Only that of an entry with children is followed. -/
def sibling? (u : CompileUnit) (d : Die) : Option Nat :=
  if d.hasChildren then (d.attribute? AttributeCode.sibling).bind u.siblingTarget else none

def LeadsForward (u : CompileUnit) (d : Die) : Prop := ∀ t ∈ u.sibling? d, d.offset < t

instance (u : CompileUnit) (d : Die) : Decidable (u.LeadsForward d) :=
  inferInstanceAs (Decidable (∀ t ∈ u.sibling? d, d.offset < t))

/-- The sibling reference does not lead to before the end of the entry's own subtree. -/
def LeadsPast (s : DebugSections) (u : CompileUnit) (d : Die) : Prop :=
  ∀ t ∈ u.sibling? d, ∀ e, ListEnd s u (d.offset + d.size) e → e ≤ t

/-- Some offsets at which the children of an entry start, and what follows an entry that stands at one
of them. -/
structure Covers (s : DebugSections) (u : CompileUnit) (B : Nat → Prop) : Prop where
  child : ∀ o x, o = u.start ∨ B o → u.outline? s o = some x → x.hasChildren = true →
    B (o + x.size)
  next : ∀ o x o', B o → u.outline? s o = some x → x.tag ≠ none → Following s u o x o' → B o'

theorem covers_all (s : DebugSections) (u : CompileUnit) : Covers s u fun _ => True :=
  ⟨fun _ _ _ _ _ => trivial, fun _ _ _ _ _ _ _ => trivial⟩

/-- Nothing is told of an offset unless something holds. -/
theorem Covers.given {s : DebugSections} {u : CompileUnit} {B : Nat → Prop} {p : Prop}
    (h : p → Covers s u B) : Covers s u fun o => p → B o := by
  constructor
  · intro o x ho hx hchildren hp
    exact (h hp).child o x (ho.imp id fun ho => ho hp) hx hchildren
  · intro o x o' ho hx htag hfollowing hp
    exact (h hp).next o x o' (ho hp) hx htag hfollowing

end CompileUnit

/-! ### One step -/

namespace Cursor

/-- Where the next child is. -/
def Place (s : DebugSections) (u : CompileUnit) : Cursor → Nat → Prop
  | .at p, o => o = p
  | .after d, o => CompileUnit.Following s u d.offset (u.outline d) o

/-- The next child is not before this offset, where sibling references lead forward. -/
def position : Cursor → Nat
  | .at p => p
  | .after d => d.offset + 1

/-- The cursor stands at one of some offsets, or behind an entry that has been decoded at one. -/
def Known (B : Nat → Prop) (m : Memory) : Cursor → Prop
  | .at p => B p
  | .after d => d ∈ m.entries ∧ B d.offset ∧ d.tag ≠ none

end Cursor

namespace Memory

/-- The sibling reference of an entry leads back. -/
def LeadsBack (u : CompileUnit) (m : Memory) : Prop := ∃ d ∈ m.entries, ¬u.LeadsForward d

end Memory

namespace Growth
variable {s : DebugSections} {u : CompileUnit} {B : Nat → Prop}

open CompileUnit

theorem lasting_leadsBack : (ofMemory s u B).Lasting (Memory.LeadsBack u) :=
  fun _ _ hle ⟨d, hd, hback⟩ => ⟨d, hle d hd, hback⟩

theorem lasting_known (c : Cursor) : (ofMemory s u B).Lasting (Cursor.Known B · c) := by
  intro m m' hle h
  cases c with
  | «at» p => exact h
  | after d => exact ⟨hle d h.1, h.2⟩

theorem lasting_met (o : Nat) (d : Die) : (ofMemory s u B).Lasting (Met s u o d) :=
  fun _ _ hle h => ⟨h.offset, hle d h.mem, h.outline⟩

theorem leadsBack_or_lt {m : Memory} {d : Die} {t : Nat} (hd : d ∈ m.entries)
    (ht : u.sibling? d = some t) : m.LeadsBack u ∨ d.offset < t := by
  by_cases hlt : d.offset < t
  · exact .inr hlt
  · exact .inl ⟨d, hd, fun h => hlt (h t ht)⟩

/-- What is known of the offset after an entry. -/
def Follows (s : DebugSections) (u : CompileUnit) (d : Die) (o : Nat) (m : Memory) : Prop :=
  Following s u d.offset (u.outline d) o ∧ (m.LeadsBack u ∨ d.offset < o)

/-- What is known of the end of a list. -/
def Ends (s : DebugSections) (u : CompileUnit) (o e : Nat) (m : Memory) : Prop :=
  ListEnd s u o e ∧ (m.LeadsBack u ∨ o < e)

theorem lasting_follows (d : Die) (o : Nat) : (ofMemory s u B).Lasting (Follows s u d o) :=
  (lasting_const _).and (lasting_leadsBack.or (lasting_const _))

theorem runs_followingWith {P : Memory → Prop} {N : Memory → Prop} {find : Nat → Reading Nat}
    {d : Die} (hP : ∀ m, P m → d ∈ m.entries)
    (hfind : d.hasChildren = true → (ofMemory s u B).Runs P (find (d.offset + d.size))
      (Ends s u (d.offset + d.size)) N) :
    (ofMemory s u B).Runs P (u.followingWith find d) (Follows s u d) N := by
  have hsize (m : Memory) (hm : m.Tracked s u B) (hp : P m) : 0 < d.size :=
    (outline?_size (hm d (hP m hp)).1).1
  unfold followingWith
  refine Runs.ite (fun hleaf => ?_) fun hchildren => ?_
  · have hleaf : d.hasChildren = false := by simpa using hleaf
    refine runs_pure fun m hm hp => ⟨.leaf hleaf, .inr ?_⟩
    have hpos := hsize m hm hp
    omega
  · have hchildren : d.hasChildren = true := by simpa using hchildren
    cases ha : d.attribute? AttributeCode.sibling with
    | none =>
      have hlink : (u.outline d).link = none := congrArg (Option.map u.siblingTarget) ha
      refine (hfind hchildren).mono (fun _ _ => id) (fun e m hm he => ?_) fun _ _ => id
      refine ⟨.subtree hchildren hlink he.1, he.2.imp id fun hlt => ?_⟩
      omega
    | some a =>
      dsimp only
      cases ht : u.siblingTarget a with
      | none => exact runs_undecodable
      | some t =>
        have hlink : (u.outline d).link = some (some t) :=
          (congrArg (Option.map u.siblingTarget) ha).trans (congrArg some ht)
        have hsibling : u.sibling? d = some t := by
          rw [sibling?, hchildren, ha]
          exact ht
        refine runs_pure fun m hm hp => ⟨.link hchildren hlink, ?_⟩
        exact leadsBack_or_lt (hP m hp) hsibling

/-- Each entry takes a byte, so the bytes that are left bound a list. -/
theorem runs_listEndWith (hB : Covers s u B) {fuel o : Nat} (ho : B o) :
    (ofMemory s u B).Runs (fun _ => True) (u.listEndWith (u.dieAt s) fuel o) (Ends s u o)
      fun m => m.LeadsBack u ∨ fuel = 0 ∨ o + fuel ≤ s.info.length + 1 := by
  induction fuel generalizing o with
  | zero => exact runs_throw fun _ _ _ _ => .inr (.inl rfl)
  | succ fuel ih =>
    rw [listEndWith]
    refine (runs_dieAt ho).bind (lasting_const _) fun d => ?_
    refine Runs.assume (fun m hm h => h.2.outline) fun hx => ?_
    refine Runs.assume (fun m hm h => h.2.offset) fun hd => ?_
    obtain ⟨hpos, hle⟩ := outline?_size hx
    rw [outline_size] at hpos hle
    subst hd
    refine Runs.ite (fun hnull => ?_) fun hnull => ?_
    · have htag : d.tag = none := by simpa [Die.isNull] using hnull
      refine runs_pure fun m hm h => ⟨.null hx htag, .inr ?_⟩
      omega
    · have htag : d.tag ≠ none := fun h => hnull (by simpa [Die.isNull] using h)
      have hknown := (lasting_const (g := ofMemory s u B) True).and (lasting_met d.offset d)
      refine Runs.bind (Q := Follows s u d) hknown ?_ fun o' => ?_
      · refine runs_followingWith (fun m h => h.2.mem) fun hchildren => ?_
        refine (ih (hB.child _ _ (.inr ho) hx hchildren)).mono (fun _ _ _ => trivial)
          (fun _ _ _ => id) fun m hm h => h.imp id fun h => ?_
        rw [outline_size] at h
        omega
      · refine Runs.assume (fun m hm h => h.2.1) fun hfollowing => ?_
        have hrest := (ih (hB.next _ _ _ ho hx htag hfollowing)).always (P := Follows s u d o')
        refine (hrest.keep (lasting_follows d o')).mono (fun m hm h => h.2)
          (fun e m hm h => ⟨.entry hx htag hfollowing h.2.1, ?_⟩) fun m hm h => ?_
        · rcases h.1.2, h.2.2 with ⟨hback | hlt, hback' | hlt'⟩
          all_goals first | exact .inl ‹_› | skip
          exact .inr (by omega)
        · rcases h.1.2, h.2 with ⟨hback | hlt, hback' | hend⟩
          all_goals first | exact .inl ‹_› | skip
          exact .inr (by omega)

/-- What is known of the offset that a cursor leads to. -/
def Placed (s : DebugSections) (u : CompileUnit) (B : Nat → Prop) (c : Cursor) (o : Nat)
    (m : Memory) : Prop :=
  B o ∧ c.Place s u o ∧ (m.LeadsBack u ∨ c.position ≤ o)

theorem lasting_placed (c : Cursor) (o : Nat) : (ofMemory s u B).Lasting (Placed s u B c o) :=
  (lasting_const _).and ((lasting_const _).and (lasting_leadsBack.or (lasting_const _)))

theorem runs_placeWith (hB : Covers s u B) (c : Cursor) :
    (ofMemory s u B).Runs (c.Known B) (u.placeWith (u.dieAt s) (pathLimit s) c) (Placed s u B c)
      (Memory.LeadsBack u) := by
  cases c with
  | «at» p => exact runs_pure fun m hm hp => ⟨hp, rfl, .inr le_rfl⟩
  | after d =>
    have hfollowing := @runs_followingWith s u B (Cursor.Known B · (.after d)) (Memory.LeadsBack u)
      (u.listEndWith (u.dieAt s) (pathLimit s)) d (fun m h => h.1)
    refine Runs.assume (fun m hm h => (hm d h.1).1) fun hx => ?_
    refine Runs.assume (fun m hm h => h.2) fun ⟨ho, htag⟩ => ?_
    refine (hfollowing fun hchildren => ?_).mono (fun _ _ => id)
      (fun o m hm h => ⟨hB.next _ _ _ ho hx htag h.1, h⟩) fun _ _ => id
    refine (runs_listEndWith hB (hB.child _ _ (.inr ho) hx hchildren)).mono
      (fun _ _ _ => trivial) (fun _ _ _ => id) fun m hm h => h.resolve_right ?_
    rw [pathLimit]
    omega

/-- What is known of the next child, or of the null entry after the last one. -/
def Advanced (s : DebugSections) (u : CompileUnit) (B : Nat → Prop) (c : Cursor) :
    Option (Die × Cursor) → Memory → Prop
  | none, _ => ∃ o x, c.Place s u o ∧ u.outline? s o = some x ∧ x.tag = none
  | some (d, c'), m => c' = .after d ∧ Cursor.Known B m (.after d) ∧ Placed s u B c d.offset m

theorem runs_advance (hB : Covers s u B) (c : Cursor) :
    (ofMemory s u B).Runs (c.Known B) (u.advance s c) (Advanced s u B c) (Memory.LeadsBack u) := by
  unfold advance advanceWith
  refine (runs_placeWith hB c).bind (lasting_known c) fun o => ?_
  refine Runs.assume (fun m hm h => h.2.1) fun ho => ?_
  have hknown := (lasting_known (s := s) (u := u) (B := B) c).and (lasting_placed c o)
  refine (runs_dieAt ho).bind hknown fun d => runs_pure fun m hm h => ?_
  obtain ⟨⟨-, hplaced⟩, hmet⟩ := h
  have hd := hmet.offset
  subst hd
  split_ifs with hnull
  · exact ⟨d.offset, u.outline d, hplaced.2.1, hmet.outline, by simpa [Die.isNull] using hnull⟩
  · exact ⟨rfl, ⟨hmet.mem, ho, fun h => hnull (by simp [Die.isNull, h])⟩, hplaced⟩

end Growth

/-! ### The order of entries -/

namespace CompileUnit
variable {s : DebugSections} {u : CompileUnit} {f o e : Nat} {c : Cursor} {rest : List Cursor}

/-- No cursor leads to before an offset, and none to before the end of the lists that are to be ended
before it. -/
def Ahead (s : DebugSections) (u : CompileUnit) : Nat → List Cursor → Prop
  | _, [] => True
  | f, c :: rest => (∀ o, c.Place s u o → f ≤ o) ∧
    ∀ o e, c.Place s u o → ListEnd s u o e → Ahead s u e rest

theorem ahead_start (s : DebugSections) (u : CompileUnit) (d : Die) :
    Ahead s u (d.offset + d.size) d.children?.toList := by
  unfold Die.children?
  split_ifs
  · refine ⟨fun o h => (show o = _ from h).ge, fun _ _ _ _ => trivial⟩
  · exact trivial

/-- A list ends. -/
theorem Ahead.null {x : Outline} (h : Ahead s u f (c :: rest)) (hc : c.Place s u o)
    (hx : u.outline? s o = some x) (hnull : x.tag = none) :
    f ≤ o ∧ Ahead s u (o + x.size) rest :=
  ⟨h.1 o hc, h.2 o _ hc (.null hx hnull)⟩

theorem following_cases {d : Die} (h : Following s u d.offset (u.outline d) o) :
    (d.hasChildren = false ∧ o = d.offset + d.size) ∨
      (d.hasChildren = true ∧
        (u.sibling? d = some o ∨ ListEnd s u (d.offset + d.size) o)) := by
  cases h with
  | leaf hleaf => exact .inl ⟨hleaf, rfl⟩
  | subtree hchildren _ hbelow => exact .inr ⟨hchildren, .inr hbelow⟩
  | link hchildren hlink =>
    obtain ⟨a, ha, ht⟩ := Option.map_eq_some_iff.mp hlink
    have hchildren : d.hasChildren = true := hchildren
    refine .inr ⟨hchildren, .inl ?_⟩
    rw [sibling?, if_pos hchildren, ha]
    exact ht

/-- An entry is met: its children come next, and then what follows it. -/
theorem Ahead.entry {d : Die} (h : Ahead s u f (c :: rest)) (hc : c.Place s u d.offset)
    (hx : u.outline? s d.offset = some (u.outline d)) (htag : d.tag ≠ none)
    (hpast : u.LeadsPast s d) :
    f ≤ d.offset ∧ Ahead s u (d.offset + d.size) (d.children?.toList ++ .after d :: rest) := by
  have hrest (o e : Nat) (ho : Following s u d.offset (u.outline d) o) (he : ListEnd s u o e) :
      Ahead s u e rest :=
    h.2 _ _ hc (.entry hx htag ho he)
  refine ⟨h.1 _ hc, ?_⟩
  unfold Die.children?
  split_ifs with hchildren
  · refine ⟨fun o ho => (show o = _ from ho).ge, fun o e ho he => ⟨fun o' ho' => ?_, hrest⟩⟩
    cases (show o = _ from ho)
    rcases following_cases ho' with ⟨hleaf, -⟩ | ⟨-, hsibling | hend⟩
    · exact absurd hchildren (by simp [hleaf])
    · exact hpast o' hsibling e he
    · exact (he.unique hend).le
  · refine ⟨fun o ho => ?_, hrest⟩
    rcases following_cases ho with ⟨-, rfl⟩ | ⟨hc, -⟩
    · exact le_rfl
    · exact absurd hc hchildren

end CompileUnit

end ElfScope.Dwarf
