import ElfScope.Bytes.Basic

/-! # Decoders

A decoder takes a value from the front of the bytes that are left. It fails at the first field
that does not fit, and says how many bytes that field has and how many there were.
-/
namespace ElfScope

structure Shortage where
  expected : Nat
  found : Nat
deriving DecidableEq, Repr

abbrev Decoder (α : Type) := StateT Bytes (Except Shortage) α

namespace Decoder

def take (n : Nat) : Decoder Bytes := fun bs =>
  let front := bs.take n
  if front.length = n then .ok (front, bs.drop n) else .error ⟨n, front.length⟩

def number (order : ByteOrder) (width : Nat) : Decoder Nat :=
  return Bytes.value order (← take width)

/-- The bytes up to a NUL, which is consumed. -/
def nulTerminated : Decoder Bytes := fun bs =>
  match bs.beforeNul? with
  | some s => .ok (s, bs.drop (s.length + 1))
  | none => .error ⟨1, 0⟩

/-- Repeats a step until it gives nothing. Every step must consume a byte: there are at most as
many steps as bytes. -/
def repeatUntilNone {α : Type} (step : Decoder (Option α)) : Decoder (List α) := fun bs =>
  go bs.length bs
where
  go : Nat → Decoder (List α)
    | 0 => fun bs => .error ⟨1, bs.length⟩
    | fuel + 1 => do
      match ← step with
      | none => return []
      | some a => return a :: (← go fuel)

/-- The value decoded at an offset, and the bytes after it. -/
def runAt {α : Type} (d : Decoder α) (bs : Bytes) (offset : Nat) : Except Shortage (α × Bytes) :=
  d.run (bs.drop offset)

/-- The value decoded at an offset. -/
def valueAt {α : Type} (d : Decoder α) (bs : Bytes) (offset : Nat) : Except Shortage α :=
  (d.runAt bs offset).map Prod.fst

theorem take_append (front rest : Bytes) : take front.length (front ++ rest) = .ok (front, rest) := by
  simp [take]

end ElfScope.Decoder
