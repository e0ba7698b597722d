import ElfScope.Zlib.Adler
import ElfScope.Zlib.Huffman

/-! # Inflating

The decoder of zlib streams. It may be given room for a number of bytes only. It then goes on as
far as it can without writing, and stops where it would have to write more.
-/
namespace ElfScope.Zlib

/-- Why decoding stopped before the end of the stream. -/
inductive Halt where
  | starved
  | full
  | corrupt
deriving DecidableEq, Repr

/-- The bits that are left, the bytes written, and the room for more, if it is limited. -/
structure Inflater where
  bits : List Bool
  output : Array UInt8
  room : Option Nat

abbrev Inflate (α : Type) := EStateM Halt Inflater α

/-- Bits in the order of the stream: the lowest of each byte first. -/
def bitsOf (bs : Bytes) : List Bool :=
  bs.flatMap fun b => (List.range 8).map fun i => b.toNat.testBit i

namespace Inflate

def bit : Inflate Bool := do
  match (← get).bits with
  | [] => throw .starved
  | b :: rest =>
    modify fun s => { s with bits := rest }
    return b

/-- A number of some bits, the lowest first. -/
def number : Nat → Inflate Nat
  | 0 => return 0
  | width + 1 => do
    let b ← bit
    return b.toNat + 2 * (← number width)

/-- A number whose bits are all there, or none of them is taken. -/
def field (width : Nat) : Inflate Nat := do
  if ((← get).bits.take width).length < width then throw .starved
  number width

/-- Drops what is left of a byte. -/
def align : Inflate Unit :=
  modify fun s => { s with bits := s.bits.drop (s.bits.length % 8) }

def emit (b : UInt8) : Inflate Unit := do
  let s ← get
  match s.room with
  | none => set { s with output := s.output.push b }
  | some 0 => throw .full
  | some (room + 1) => set { s with output := s.output.push b, room := some room }

/-- Walks down the lengths of a code: `index` is the number of the word so far, less the number of
the first word of its length. -/
def symbolFrom (index : Nat) : Code → Inflate Nat
  | [] => throw .corrupt
  | symbols :: rest => do
    let index := 2 * index + (← bit).toNat
    match symbols[index]? with
    | some symbol => return symbol
    | none => symbolFrom (index - symbols.length) rest

/-- The next symbol. A code without words takes a bit and finds nothing. -/
def symbol (code : Code) : Inflate Nat :=
  if code.isEmpty then do
    let _ ← bit
    throw .corrupt
  else symbolFrom 0 code

/-- Base and number of extra bits of the lengths 257 to 285. -/
def lengthTable : List (Nat × Nat) :=
  [(3, 0), (4, 0), (5, 0), (6, 0), (7, 0), (8, 0), (9, 0), (10, 0), (11, 1), (13, 1), (15, 1),
    (17, 1), (19, 2), (23, 2), (27, 2), (31, 2), (35, 3), (43, 3), (51, 3), (59, 3), (67, 4),
    (83, 4), (99, 4), (115, 4), (131, 5), (163, 5), (195, 5), (227, 5), (258, 0)]

/-- Base and number of extra bits of the distances 0 to 29. -/
def distanceTable : List (Nat × Nat) :=
  [(1, 0), (2, 0), (3, 0), (4, 0), (5, 1), (7, 1), (9, 2), (13, 2), (17, 3), (25, 3), (33, 4),
    (49, 4), (65, 5), (97, 5), (129, 6), (193, 6), (257, 7), (385, 7), (513, 8), (769, 8),
    (1025, 9), (1537, 9), (2049, 10), (3073, 10), (4097, 11), (6145, 11), (8193, 12), (12289, 12),
    (16385, 13), (24577, 13)]

def tabled (table : List (Nat × Nat)) (index : Nat) : Inflate Nat :=
  match table[index]? with
  | none => throw .corrupt
  | some (base, extra) => return base + (← field extra)

/-- Repeats bytes already written. There must be room for one before the distance is looked at. -/
def copyBack (distance : Nat) : Nat → Inflate Unit
  | 0 => return ()
  | length + 1 => do
    let s ← get
    if s.room = some 0 then throw .full
    if s.output.size < distance then throw .corrupt
    emit (s.output[s.output.size - distance]?.getD 0)
    copyBack distance length

/-- The symbols of a block. Each takes a bit at least. -/
def symbols (literals distances : Code) : Nat → Inflate Unit
  | 0 => throw .starved
  | fuel + 1 => do
    let s ← symbol literals
    if s < 256 then
      emit (UInt8.ofNat s)
      symbols literals distances fuel
    else if s = 256 then return ()
    else
      let length ← tabled lengthTable (s - 257)
      let distance ← tabled distanceTable (← symbol distances)
      copyBack distance length
      symbols literals distances fuel

def fixedLiterals : Code :=
  (Code.ofLengths? .required (List.replicate 144 8 ++ List.replicate 112 9 ++
    List.replicate 24 7 ++ List.replicate 8 8)).getD []

def fixedDistances : Code := (Code.ofLengths? .required (List.replicate 32 5)).getD []

/-- The order in which the lengths of the code of lengths are written. -/
def lengthOrder : List Nat := [16, 17, 18, 0, 8, 7, 9, 6, 10, 5, 11, 4, 12, 3, 13, 2, 14, 1, 15]

/-- The lengths of a code, from a run-length coded list; `lengths` are those so far, last first.
A code of lengths without words reads every bit as a zero. -/
def codeLengths (code : Code) (total : Nat) : Nat → List Nat → Inflate (List Nat)
  | 0, _ => throw .starved
  | fuel + 1, lengths => do
    if total ≤ lengths.length then return lengths.reverse
    let s ← if code.isEmpty then (do let _ ← bit; return 0) else symbolFrom 0 code
    if s < 16 then codeLengths code total fuel (s :: lengths)
    else
      let (value, base, extra) := match s with
        | 16 => (lengths.head?, 3, 2)
        | 17 => (some 0, 3, 3)
        | _ => (some 0, 11, 7)
      let count := base + (← field extra)
      match value with
      | none => throw .corrupt
      | some value =>
        if total < lengths.length + count then throw .corrupt
        codeLengths code total fuel (List.replicate count value ++ lengths)

def orCorrupt {α : Type} : Option α → Inflate α
  | some a => return a
  | none => throw .corrupt

def smallLengths : Nat → Inflate (List Nat)
  | 0 => return []
  | n + 1 => do
    let l ← field 3
    return l :: (← smallLengths n)

/-- The two codes that a block brings with it. -/
def dynamicCodes : Inflate (Code × Code) := do
  let header ← field 14
  let literalCount := header % 32 + 257
  let distanceCount := header / 32 % 32 + 1
  if 286 < literalCount ∨ 30 < distanceCount then throw .corrupt
  let lengths ← smallLengths (header / 1024 + 4)
  let ordered := (List.range 19).map fun i =>
    ((lengthOrder.zip lengths).find? (·.1 = i)).elim 0 (·.2)
  let code ← orCorrupt (Code.ofLengths? .required ordered)
  let total := literalCount + distanceCount
  let lengths ← codeLengths code total (total + 1) []
  if lengths[256]? = some 0 then throw .corrupt
  let literals ← orCorrupt (Code.ofLengths? .singleAllowed (lengths.take literalCount))
  let distances ← orCorrupt (Code.ofLengths? .singleAllowed (lengths.drop literalCount))
  return (literals, distances)

def storedBytes : Nat → Inflate Unit
  | 0 => return ()
  | n + 1 => do
    if (← get).room = some 0 then throw .full
    emit (UInt8.ofNat (← field 8))
    storedBytes n

def storedBlock : Inflate Unit := do
  align
  let header ← field 32
  let length := header % 65536
  if length + header / 65536 ≠ 65535 then throw .corrupt
  storedBytes length

/-- The blocks up to the last one. -/
def blocks : Nat → Inflate Unit
  | 0 => throw .starved
  | fuel + 1 => do
    let header ← field 3
    match header / 2 with
    | 0 => storedBlock
    | 1 => symbols fixedLiterals fixedDistances ((← get).bits.length + 1)
    | 2 =>
      let (literals, distances) ← dynamicCodes
      symbols literals distances ((← get).bits.length + 1)
    | _ => throw .corrupt
    if header % 2 = 1 then return () else blocks fuel

/-- A big-endian number of four bytes. -/
def checksum : Inflate Nat := do
  let n ← field 32
  return n % 256 * 16777216 + n / 256 % 256 * 65536 + n / 65536 % 256 * 256 + n / 16777216

/-- A whole stream: the header, the blocks and the checksum. -/
def stream : Inflate Unit := do
  let header ← field 16
  let method := header % 256
  let flags := header / 256
  if (method * 256 + flags) % 31 ≠ 0 ∨ method % 16 ≠ 8 ∨ 7 < method / 16 then throw .corrupt
  if flags.testBit 5 then
    let _ ← field 32
    throw .corrupt
  blocks ((← get).bits.length + 1)
  align
  let sum ← checksum
  if sum ≠ adler32 (← get).output.toList then throw .corrupt

end Inflate

/-- What a stream gives: the bytes written, and why it ended early if it did. -/
structure Inflated where
  content : Bytes
  halted : Option Halt
deriving DecidableEq

/-- What follows the stream is not looked at. -/
def inflate (room : Option Nat) (input : Bytes) : Inflated :=
  match Inflate.stream.run ⟨bitsOf input, #[], room⟩ with
  | .ok _ s => ⟨s.output.toList, none⟩
  | .error h s => ⟨s.output.toList, some h⟩

/-- The content of a complete stream. -/
def inflateWhole? (input : Bytes) : Option Bytes :=
  let r := inflate none input
  if r.halted.isNone then some r.content else none

/-- The first bytes of a stream, which need not be complete; a limit of zero is none. The checks
that come after the last byte wanted count where they are reached. -/
def inflateUpTo? (limit : Nat) (input : Bytes) : Option Bytes :=
  let r := inflate (if limit = 0 then none else some limit) input
  if r.halted = some .corrupt then none else some r.content

end ElfScope.Zlib
