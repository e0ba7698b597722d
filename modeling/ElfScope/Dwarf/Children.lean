import ElfScope.Dwarf.Memory
import ElfScope.Dwarf.Preorder
import ElfScope.Dwarf.Tag

/-! # Children

The children of an entry follow it, up to a null entry. Where a child has children of its own, the
next one is at its sibling reference, or else after the null entry that ends its subtree.
-/
namespace ElfScope.Dwarf

/-- Where the next child is to be looked for. -/
inductive Cursor where
  | at (offset : Nat)
  | after (child : Die)

/-- The first child follows the entry. -/
def Die.children? (d : Die) : Option Cursor :=
  if d.hasChildren then some (.at (d.offset + d.size)) else none

def Die.isSubprogram (d : Die) : Bool := d.tag = some Tag.subprogram

namespace CompileUnit

/-- The longest way through distinct entries: a longer one goes in a circle. -/
def pathLimit (s : DebugSections) : Nat := s.info.length + 2

/-- More visits than this are not made by a walk that ends: each goes a distinct way. -/
def visitLimit (s : DebugSections) : Nat := 1 <<< pathLimit s

/-- The offset that a sibling reference gives. -/
def siblingTarget (u : CompileUnit) (a : Attribute) : Option Nat :=
  match a.form, a.value with
  | .ref, .number n | .ref1, .number n | .ref2, .number n | .ref4, .number n | .ref8, .number n
  | .refUdata, .number n => some (u.offset + n.toNat)
  | .refAddr, .number n => some n.toNat
  | _, _ => none

section
variable {m : Type → Type} [Monad m] [MonadExceptOf Failure m] (u : CompileUnit)

/-- The offset of what follows an entry; `subtreeEnd` finds the end of the subtree below it. -/
def followingWith (subtreeEnd : Nat → m Nat) (d : Die) : m Nat :=
  if !d.hasChildren then return d.offset + d.size
  else match d.attribute? AttributeCode.sibling with
    | none => subtreeEnd (d.offset + d.size)
    | some a => match siblingTarget u a with
      | some offset => return offset
      | none => throw .undecodable

variable (dieAt : Nat → m Die)

/-- The offset after the null entry that ends the list of children that goes on at an offset. The lists
below its entries are searched in depth, and nothing bounds the depth: where sibling references lead in
a circle the search is endless, as a list without a null entry is. On a stack of bounded depth it would
fail with an error that is caught like any other. -/
def listEndWith : Nat → Nat → m Nat
  | 0, _ => throw .endless
  | fuel + 1, offset => do
    let d ← dieAt offset
    if d.isNull then return d.offset + d.size
    else listEndWith fuel (← followingWith u (listEndWith fuel) d)

/-- Where the next child is, or the null entry after the last one. -/
def placeWith (limit : Nat) : Cursor → m Nat
  | .at offset => return offset
  | .after d => followingWith u (listEndWith u dieAt limit) d

/-- The next child, if there is one, on ways that are not longer than a limit. -/
def advanceWith (limit : Nat) (c : Cursor) : m (Option (Die × Cursor)) := do
  let offset ← placeWith u dieAt limit c
  let d ← dieAt offset
  return if d.isNull then none else some (d, .after d)

end

def advance (s : DebugSections) (u : CompileUnit) (c : Cursor) : Reading (Option (Die × Cursor)) :=
  advanceWith u (dieAt s u) (pathLimit s) c

end CompileUnit

end ElfScope.Dwarf
