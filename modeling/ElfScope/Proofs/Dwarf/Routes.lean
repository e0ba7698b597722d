import Mathlib
import ElfScope.Proofs.Dwarf.Ending

/-! # Where global variables stand

A traversal reaches every entry on a route of its own: down to a first child, or on to what follows an
entry. A variable is listed where no entry above it on that route is a subprogram.
-/
namespace ElfScope.Dwarf

/-! ### Routes -/

namespace CompileUnit

/-- A route from the first entry of a unit to an offset, with the offsets of the entries above it, the
nearest first. -/
inductive Route (s : DebugSections) (u : CompileUnit) : List Nat → Nat → Prop where
  | top : Route s u [] u.start
  | first {above : List Nat} {o : Nat} {x : Outline} (h : Route s u above o)
    (hx : u.outline? s o = some x) (hchildren : x.hasChildren = true) :
    Route s u (o :: above) (o + x.size)
  | next {above : List Nat} {p o o' : Nat} {x : Outline} (h : Route s u (p :: above) o)
    (hx : u.outline? s o = some x) (htag : x.tag ≠ none) (ho : Following s u o x o') :
    Route s u (p :: above) o'

/-- There is a subprogram at an offset. -/
def SubprogramAt (s : DebugSections) (u : CompileUnit) (o : Nat) : Prop :=
  ∃ x, u.outline? s o = some x ∧ x.tag = some Tag.subprogram

/-- A route with no subprogram on it. -/
structure ClearRoute (s : DebugSections) (u : CompileUnit) (above : List Nat) (o : Nat) : Prop where
  route : Route s u above o
  clear : ∀ p ∈ above, ¬SubprogramAt s u p

/-- A level that is not within a subprogram leads to entries that are outside of all subprograms. -/
def LeadsOutside (s : DebugSections) (u : CompileUnit) (level : Preorder.Level Cursor) : Prop :=
  level.inside = false → ∀ o, level.cursor.Place s u o → ∃ p above, ClearRoute s u (p :: above) o

variable {s : DebugSections} {u : CompileUnit}

/-- What follows an entry is on a route with the same entries above it. -/
theorem LeadsOutside.after {level : Preorder.Level Cursor} (h : LeadsOutside s u level) {d : Die}
    (hd : level.cursor.Place s u d.offset) (hx : u.outline? s d.offset = some (u.outline d))
    (htag : d.tag ≠ none) : LeadsOutside s u { level with cursor := .after d } := by
  intro hinside o ho
  obtain ⟨p, above, hroute, hclear⟩ := h hinside d.offset hd
  exact ⟨p, above, .next hroute hx htag ho, hclear⟩

end CompileUnit

/-! ### What is added to the global variables -/

namespace Walk
variable {s : DebugSections} {u : CompileUnit} {α : Type} {xs : List VariableInfo}

end Walk

/-! ### Listed variables -/

/-- A global variable comes from an entry of some unit that stands on a route with no subprogram. -/
def Listed (s : DebugSections) (x : VariableInfo) : Prop :=
  ∃ u ∈ CompileUnit.units s, ∃ (d : Die) (above : List Nat), x = d.variableInfo .global ∧
    d.tag = some Tag.variableEntry ∧ u.outline? s d.offset = some (u.outline d) ∧
      u.ClearRoute s above d.offset

/-- All global variables that have been found are listed. -/
def Desk.Traced (s : DebugSections) (desk : Desk) : Prop := ∀ x ∈ desk.found.globals, Listed s x

namespace Growth

/-- The same growth, of states of which something else is known too. -/
def also {σ : Type} (g : Growth σ) (I : σ → Prop) : Growth σ :=
  { g with sound := fun st => g.sound st ∧ I st }

section
variable {σ α : Type} {g : Growth σ} {P I : σ → Prop} {Q Q' : α → σ → Prop} {N N' : σ → Prop}
variable {act : EStateM Failure σ α}

theorem Runs.also (h : g.Runs P act Q N)
    (hI : ∀ st, g.sound st → I st → P st → I (outcome act st).2) :
    (g.also I).Runs P act Q N where
  sound st hst hp := ⟨h.sound st hst.1 hp, hI st hst.1 hst.2 hp⟩
  grows st hst := h.grows st hst.1
  gives st hst := h.gives st hst.1
  endless st hst := h.endless st hst.1

theorem Runs.and (h : g.Runs P act Q N) (h' : g.Runs P act Q' N') :
    g.Runs P act (fun a st => Q a st ∧ Q' a st) N where
  sound := h.sound
  grows := h.grows
  gives st hst hp a ha := ⟨h.gives st hst hp a ha, h'.gives st hst hp a ha⟩
  endless := h.endless

end

variable {s : DebugSections} {u : CompileUnit} {B : CompileUnit → Nat → Prop}

open CompileUnit

/-- The growth of a walk in which every global variable is listed. -/
def traced (s : DebugSections) : Growth Desk := (ofDesk s fun _ _ => True).also (Desk.Traced s)

variable (hunit : u ∈ units s)
include hunit

end Growth

namespace Walk

end Walk

end ElfScope.Dwarf
