/-! # Pre-order traversal

A walk over a tree whose nodes are reached one at a time. A cursor gives the next child of a node, or
the end; it may fail. The walk keeps one level for each node that is open, innermost first.
-/
namespace ElfScope.Preorder

/-- A node with its distance from the top, and whether a node above it is marked. -/
structure Visit (α : Type) where
  node : α
  depth : Nat
  inside : Bool
deriving Repr

structure Level (κ : Type) where
  cursor : κ
  depth : Nat
  inside : Bool

variable {m : Type → Type} [Monad m] {α κ : Type}
variable (advance : κ → m (Option (α × κ))) (children : α → Option κ) (marked : α → Bool)

/-- The level of a node's children, if it has any. -/
def below (v : Visit α) : List (Level κ) :=
  match children v.node with
  | some cursor => [⟨cursor, v.depth + 1, v.inside || marked v.node⟩]
  | none => []

/-- The next node, and the levels after it. Levels that have ended are closed. -/
def next : List (Level κ) → m (Option (Visit α × List (Level κ)))
  | [] => return none
  | level :: rest => do
    match ← advance level.cursor with
    | none => next rest
    | some (a, cursor) =>
      let v : Visit α := ⟨a, level.depth, level.inside⟩
      return some (v, below children marked v ++ { level with cursor } :: rest)

/-- Handles the nodes that are left, at most `fuel` of them. -/
def forEach (handle : Visit α → m Unit) (outOfFuel : m Unit) : Nat → List (Level κ) → m Unit
  | 0, _ => outOfFuel
  | fuel + 1, levels => do
    match ← next advance children marked levels with
    | none => return ()
    | some (v, levels) =>
      handle v
      forEach handle outOfFuel fuel levels

/-- Handles a top node and all nodes below it. -/
def walk (handle : Visit α → m Unit) (outOfFuel : m Unit) (fuel : Nat) (top : α) : m Unit := do
  let v : Visit α := ⟨top, 0, false⟩
  handle v
  forEach advance children marked handle outOfFuel fuel (below children marked v)

end ElfScope.Preorder
