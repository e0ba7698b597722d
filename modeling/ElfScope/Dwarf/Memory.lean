import ElfScope.Dwarf.Die
import ElfScope.Record.Error

/-! # Decoded entries

A unit remembers its entries as they are decoded, and takes the one of the least offset for its top.
Only an entry that was reached backwards, from a reference into the header or before it, can come to
stand before the real top entry.
-/
namespace ElfScope.Dwarf

/-- Why something could not be done. -/
inductive Failure where
  | undecodable
  | invalid (e : RecordError)
  | endless

structure Memory where
  /-- The entry of the least offset. -/
  top : Option Die := none
  /-- The other ones, the newest first. -/
  others : List Die := []
deriving DecidableEq

abbrev Reading (α : Type) := EStateM Failure Memory α

/-- What an action gives or fails with, and the state after it. -/
def outcome {σ α : Type} (act : EStateM Failure σ α) (state : σ) : Except Failure α × σ :=
  match act state with
  | .ok a state => (.ok a, state)
  | .error e state => (.error e, state)

namespace Memory

def entries (m : Memory) : List Die := m.top.toList ++ m.others

def find? (m : Memory) (offset : Nat) : Option Die := m.entries.find? (·.offset = offset)

def add (m : Memory) (d : Die) : Memory :=
  match m.top with
  | none => ⟨some d, m.others⟩
  | some top =>
    if d.offset < top.offset then ⟨some d, top :: m.others⟩ else ⟨some top, d :: m.others⟩

end Memory

namespace CompileUnit

variable (s : DebugSections) (u : CompileUnit)

/-- The top entry. It is remembered before its own indices are resolved, and stays so where that
fails. -/
def topDie : Reading Die := do
  match (← get).top with
  | some d => return d
  | none =>
    match die? s u none u.start with
    | none => throw .undecodable
    | some d =>
      let (attributes, resolved) := resolveAll s u (d.attributes.map (·.code)) d.attributes
      let d := { d with attributes }
      modify (·.add d)
      if resolved then return d else throw .undecodable

def dieAt (offset : Nat) : Reading Die := do
  let top ← topDie s u
  match (← get).find? offset with
  | some d => return d
  | none =>
    match die? s u (some top.attributes) offset with
    | none => throw .undecodable
    | some d =>
      modify (·.add d)
      return d

end CompileUnit

end ElfScope.Dwarf
