/-! # Canonical codes

A code is given by the length of each symbol's word. It is kept as the symbols of each length, in
their order, shortest words first.
-/
namespace ElfScope.Zlib

/-- The symbols of the words of one bit, of two bits, and so on to the longest. -/
abbrev Code := List (List Nat)

/-- Whether a code may lack words: only one with a single word of one bit, and only where the
format lets it. -/
inductive Completeness where
  | required
  | singleAllowed
deriving DecidableEq

namespace Code

def maxLength : Nat := 15

def symbolsOfLength (lengths : List Nat) (n : Nat) : List Nat :=
  lengths.zipIdx.filterMap fun (l, symbol) => if l = n then some symbol else none

/-- The words still free after those of a code, starting from `free`; none where there are too
many. -/
def free? : Nat → Code → Option Nat
  | free, [] => some free
  | free, symbols :: rest =>
    if symbols.length ≤ 2 * free then free? (2 * free - symbols.length) rest else none

def ofLengths? (completeness : Completeness) (lengths : List Nat) : Option Code :=
  let longest := min maxLength (lengths.foldl max 0)
  let code := (List.range longest).map fun n => symbolsOfLength lengths (n + 1)
  if longest = 0 then some code
  else match free? 1 code with
    | none => none
    | some 0 => some code
    | some _ => if completeness = .singleAllowed ∧ longest = 1 then some code else none

end Code

end ElfScope.Zlib
