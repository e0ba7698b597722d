import Mathlib
import ElfScope.Proofs.Dwarf.Lockstep
import ElfScope.Proofs.Dwarf.Growth

/-! # Sections that start later

With bytes before them all entries of a section stand further on, and nothing else is changed: what is
read of the one section tells what is read of the other one, as long as no sibling reference is to an
offset in the section.
-/
namespace ElfScope.Dwarf

/-- The same sections, with bytes before the debug information. -/
def DebugSections.prepend (a : Bytes) (s : DebugSections) : DebugSections :=
  { s with info := a ++ s.info }

def Die.shift (k : Nat) (d : Die) : Die := { d with offset := d.offset + k }

def CompileUnit.shift (k : Nat) (u : CompileUnit) : CompileUnit :=
  { u with offset := u.offset + k, start := u.start + k }

def Cursor.shift (k : Nat) : Cursor → Cursor
  | .at p => .at (p + k)
  | .after d => .after (d.shift k)

def Memory.shift (k : Nat) (m : Memory) : Memory :=
  ⟨m.top.map (·.shift k), m.others.map (·.shift k)⟩

/-- The sibling reference, if there is one, is not to an offset in the section. -/
def Die.Movable (d : Die) : Prop := ∀ a ∈ d.attribute? AttributeCode.sibling, a.form ≠ .refAddr

instance (d : Die) : Decidable d.Movable :=
  inferInstanceAs (Decidable (∀ a ∈ d.attribute? AttributeCode.sibling, a.form ≠ .refAddr))

def Memory.Movable (m : Memory) : Prop := ∀ d ∈ m.entries, d.Movable

instance (m : Memory) : Decidable m.Movable :=
  inferInstanceAs (Decidable (∀ d ∈ m.entries, d.Movable))

def Cursor.Movable : Cursor → Prop
  | .at _ => True
  | .after d => d.Movable

/-! ### Entries -/

namespace CompileUnit
variable {s : DebugSections} {u : CompileUnit} {a : Bytes}

theorem drop_prepend (o : Nat) : (s.prepend a).info.drop (o + a.length) = s.info.drop o := by
  change (a ++ s.info).drop _ = _
  rw [Nat.add_comm, ← List.drop_drop, List.drop_left]

theorem value?_shift (k : Nat) (spec : AttributeSpec) (bs : Bytes) :
    value? (u.shift k) spec bs = value? u spec bs := by
  have hindirect (fuel : Nat) (bs : Bytes) :
      indirectValue? (u.shift k) fuel bs = indirectValue? u fuel bs := by
    induction fuel generalizing bs with
    | zero => rfl
    | succ fuel ih => simp only [indirectValue?, ih]; rfl
  simp only [value?, hindirect]
  rfl

theorem resolve?_prepend (k : Nat) (bases : Option Attributes) (form : Form) (value : Value) :
    resolve? (s.prepend a) (u.shift k) bases form value = resolve? s u bases form value := rfl

theorem attributes?_prepend (k : Nat) (bases : Option Attributes) (specs : List AttributeSpec)
    (as : Attributes) (bs : Bytes) :
    attributes? (s.prepend a) (u.shift k) bases specs as bs = attributes? s u bases specs as bs := by
  induction specs generalizing as bs with
  | nil => rfl
  | cons spec specs ih => simp only [attributes?, value?_shift, resolve?_prepend, ih]

theorem resolveAll_prepend (k : Nat) (codes : List Nat) (as : Attributes) :
    resolveAll (s.prepend a) (u.shift k) codes as = resolveAll s u codes as := by
  induction codes generalizing as with
  | nil => rfl
  | cons code codes ih => simp only [resolveAll, resolve?_prepend, ih]

theorem die?_prepend (bases : Option Attributes) (o : Nat) :
    die? (s.prepend a) (u.shift a.length) bases (o + a.length) =
      (die? s u bases o).map (·.shift a.length) := by
  have hsize (rest : Bytes) : (s.prepend a).info.length - rest.length - (o + a.length) =
      s.info.length - rest.length - o := by
    change (a ++ s.info).length - _ - _ = _
    rw [List.length_append]
    omega
  have htable : (u.shift a.length).table = u.table := rfl
  unfold die?
  rw [drop_prepend]
  simp only [attributes?_prepend, hsize, htable]
  cases Leb128.unsigned? (s.info.drop o) with
  | none => rfl
  | some r =>
    obtain ⟨code, rest⟩ := r
    simp only [Option.bind_eq_bind, Option.bind_some]
    split_ifs
    · rfl
    · cases u.table with
      | none => rfl
      | some table =>
        simp only [Option.bind_some]
        cases Abbreviation.find? table code with
        | none => rfl
        | some abbreviation =>
          simp only [Option.bind_some]
          cases attributes? s u bases abbreviation.attributes [] rest <;> rfl

theorem pathLimit_le_prepend (s : DebugSections) (a : Bytes) :
    pathLimit s ≤ pathLimit (s.prepend a) := by
  unfold pathLimit DebugSections.prepend
  rw [List.length_append]
  omega

theorem children?_shift (k : Nat) (d : Die) :
    (d.shift k).children? = d.children?.map (·.shift k) := by
  have hfirst : d.offset + k + d.size = d.offset + d.size + k := Nat.add_right_comm _ _ _
  unfold Die.children?
  change (if d.hasChildren then some (Cursor.at (d.offset + k + d.size)) else none) = _
  rw [hfirst]
  split_ifs <;> rfl

theorem siblingTarget_shift {k : Nat} {x : Attribute} (h : x.form ≠ .refAddr) :
    siblingTarget (u.shift k) x = (siblingTarget u x).map (· + k) := by
  obtain ⟨code, form, value⟩ := x
  have hadd (n : Nat) : u.offset + k + n = u.offset + n + k := Nat.add_right_comm _ _ _
  cases form <;> cases value <;>
    first
    | rfl
    | exact congrArg some (hadd _)
    | exact absurd rfl h

end CompileUnit

/-! ### The memory of a unit -/

namespace Memory

theorem entries_shift (k : Nat) (m : Memory) : (m.shift k).entries = m.entries.map (·.shift k) := by
  obtain ⟨_ | t, others⟩ := m <;> simp [shift, entries]

theorem find?_shift (k : Nat) (m : Memory) (o : Nat) :
    (m.shift k).find? (o + k) = (m.find? o).map (·.shift k) := by
  unfold find?
  rw [entries_shift, List.find?_map]
  congr 2
  funext d
  simp [Die.shift]

theorem add_shift (k : Nat) (m : Memory) (d : Die) :
    (m.shift k).add (d.shift k) = (m.add d).shift k := by
  obtain ⟨_ | t, others⟩ := m
  · rfl
  · have hlt : (d.shift k).offset < (t.shift k).offset ↔ d.offset < t.offset := by
      simp [Die.shift]
    unfold add
    simp only [shift, Option.map_some, hlt]
    split_ifs <;> rfl

end Memory

namespace Pairing
variable {s : DebugSections} {u : CompileUnit} {a : Bytes}

open CompileUnit

/-- Memories with the same entries, so many bytes further on. -/
def ofMemory (k : Nat) : Pairing Memory where
  clean := Memory.Movable
  like m m' := m' = m.shift k

theorem outcome_topDie_prepend (m : Memory) :
    outcome ((u.shift a.length).topDie (s.prepend a)) (m.shift a.length) =
      ((outcome (u.topDie s) m).1.map (·.shift a.length),
        (outcome (u.topDie s) m).2.shift a.length) := by
  obtain ⟨_ | t, others⟩ := m
  · have hstart : (u.shift a.length).start = u.start + a.length := rfl
    change outcome _ (⟨none, _⟩ : Memory) = _
    rw [outcome_topDie_none, outcome_topDie_none, hstart, die?_prepend]
    cases die? s u none u.start with
    | none => rfl
    | some d =>
      simp only [Option.map_some, resolveAll_prepend]
      change (if (resolveAll s u (d.attributes.map (·.code)) d.attributes).2 then _ else _, _) = _
      split_ifs <;> rfl
  · rfl

theorem outcome_dieAt_prepend (o : Nat) (m : Memory) :
    outcome ((u.shift a.length).dieAt (s.prepend a) (o + a.length)) (m.shift a.length) =
      ((outcome (u.dieAt s o) m).1.map (·.shift a.length),
        (outcome (u.dieAt s o) m).2.shift a.length) := by
  rw [outcome_dieAt, outcome_dieAt, outcome_topDie_prepend]
  rcases outcome (u.topDie s) m with ⟨e | t, m₁⟩
  · rfl
  · simp only [Except.map, Memory.find?_shift]
    cases m₁.find? o with
    | some d => rfl
    | none =>
      have hbases : (t.shift a.length).attributes = t.attributes := rfl
      simp only [Option.map_none, hbases, die?_prepend]
      cases die? s u (some t.attributes) o with
      | none => rfl
      | some d =>
        simp only [Option.map_some, Memory.add_shift]

theorem agrees_topDie : (ofMemory a.length).Agrees True (u.topDie s)
    ((u.shift a.length).topDie (s.prepend a)) (·.shift a.length) fun _ => True where
  clean _ hc d hd := hc d (mem_entries_topDie hd)
  agrees _ m m' hl _ _ := by
    cases (show m' = _ from hl)
    exact ⟨_, outcome_topDie_prepend m, rfl, fun _ _ => trivial⟩

theorem agrees_dieAt (o : Nat) : (ofMemory a.length).Agrees True (u.dieAt s o)
    ((u.shift a.length).dieAt (s.prepend a) (o + a.length)) (·.shift a.length) Die.Movable where
  clean _ hc d hd := hc d (mem_entries_dieAt hd)
  agrees _ m m' hl hc _ := by
    cases (show m' = _ from hl)
    exact ⟨_, outcome_dieAt_prepend o m, rfl, fun d hd => hc d (mem_entries_of_dieAt hd)⟩

/-! ### Children -/

section
variable {k : Nat} {find find' : Nat → Reading Nat}

theorem agrees_followingWith {d : Die} (h : ∀ o, (ofMemory k).Agrees True (find o) (find' (o + k))
      (· + k) fun _ => True) :
    (ofMemory k).Agrees d.Movable (u.followingWith find d)
      ((u.shift k).followingWith find' (d.shift k)) (· + k) fun _ => True := by
  have hend : (d.shift k).offset + (d.shift k).size = d.offset + d.size + k :=
    Nat.add_right_comm _ _ _
  have hattribute : (d.shift k).attribute? AttributeCode.sibling =
      d.attribute? AttributeCode.sibling := rfl
  unfold followingWith
  rw [hend, hattribute]
  refine Agrees.ite (fun _ => agrees_pure rfl fun _ => trivial) fun _ => ?_
  cases hx : d.attribute? AttributeCode.sibling with
  | none => exact (h _).always
  | some x =>
    by_cases hform : x.form = .refAddr
    · constructor
      · dsimp only
        intro m hc
        cases ht : siblingTarget u x <;> rw [ht] at hc <;> exact hc
      · intro hmovable
        exact absurd hform (hmovable x hx)
    · simp only [siblingTarget_shift hform]
      cases siblingTarget u x with
      | none => exact agrees_throw _
      | some t => exact agrees_pure rfl fun _ => trivial

end

theorem agrees_listEndWith {fuel fuel' : Nat} (hle : fuel ≤ fuel') (o : Nat) :
    (ofMemory a.length).Agrees True (u.listEndWith (u.dieAt s) fuel o)
      ((u.shift a.length).listEndWith ((u.shift a.length).dieAt (s.prepend a)) fuel'
        (o + a.length)) (· + a.length) fun _ => True := by
  induction fuel generalizing fuel' o with
  | zero => exact agrees_endless
  | succ fuel ih =>
    obtain ⟨fuel', rfl⟩ : ∃ n, fuel' = n + 1 := ⟨fuel' - 1, by omega⟩
    have hrest := fun o => @ih fuel' (by omega) o
    rw [listEndWith, listEndWith]
    refine (agrees_dieAt o).bind fun d => Agrees.ite (fun _ => ?_) fun _ => ?_
    · exact agrees_pure (Nat.add_right_comm _ _ _) fun _ => trivial
    · exact ((agrees_followingWith hrest).mono And.right fun _ => id).bind fun o' =>
        (hrest o').always

/-- The next child, with the cursor after it. -/
def shiftNext (k : Nat) : Option (Die × Cursor) → Option (Die × Cursor) :=
  Option.map (Prod.map (·.shift k) (·.shift k))

theorem agrees_advance (c : Cursor) :
    (ofMemory a.length).Agrees c.Movable (u.advance s c)
      ((u.shift a.length).advance (s.prepend a) (c.shift a.length)) (shiftNext a.length)
      fun r => ∀ x ∈ r, x.2.Movable := by
  have hplace : (ofMemory a.length).Agrees c.Movable
      (u.placeWith (u.dieAt s) (pathLimit s) c)
      ((u.shift a.length).placeWith ((u.shift a.length).dieAt (s.prepend a))
        (pathLimit (s.prepend a)) (c.shift a.length)) (· + a.length) fun _ => True := by
    cases c with
    | «at» p => exact agrees_pure rfl fun _ => trivial
    | after d => exact agrees_followingWith (agrees_listEndWith (pathLimit_le_prepend s a))
  unfold advance advanceWith
  refine hplace.bind fun o => (agrees_dieAt o).always.bind fun d => ?_
  refine agrees_pure ?_ fun h => ?_
  · have hnull : (d.shift a.length).isNull = d.isNull := rfl
    rw [hnull]
    split_ifs <;> rfl
  · intro x hx
    by_cases hnull : d.isNull
    · rw [if_pos hnull] at hx
      cases hx
    · rw [if_neg hnull] at hx
      obtain rfl := Option.some.inj hx
      exact h.2

end Pairing

end ElfScope.Dwarf
