import ElfScope.Bytes.Basic
import ElfScope.Text.Basic

/-! # UTF-8

The reader is a machine that takes one byte at a time. A sequence that no character can continue
is given up where that shows, and stands for one invalid character.
-/
namespace ElfScope.Utf8

/-- Between characters, or within one: the bytes still owed after the next one, the least and the
greatest next byte, and the bits so far. -/
inductive State where
  | start
  | within (owed low high bits : Nat)

/-- What a first byte gives at once, and the state after it. -/
def first (b : UInt8) : List (Option CodePoint) × State :=
  let n := b.toNat
  if n < 0x80 then ([some (.ofNat n)], .start)
  else if n < 0xc2 then ([none], .start)
  else if n < 0xe0 then ([], .within 0 0x80 0xbf (n - 0xc0))
  else if n = 0xe0 then ([], .within 1 0xa0 0xbf 0)
  else if n = 0xed then ([], .within 1 0x80 0x9f 0xd)
  else if n < 0xf0 then ([], .within 1 0x80 0xbf (n - 0xe0))
  else if n = 0xf0 then ([], .within 2 0x90 0xbf 0)
  else if n < 0xf4 then ([], .within 2 0x80 0xbf (n - 0xf0))
  else if n = 0xf4 then ([], .within 2 0x80 0x8f 4)
  else ([none], .start)

/-- The characters read from a state on; none stands for an invalid one. -/
def scanFrom : State → Bytes → List (Option CodePoint)
  | .start, [] => []
  | .within .., [] => [none]
  | .start, b :: rest => (first b).1 ++ scanFrom (first b).2 rest
  | .within owed low high bits, b :: rest =>
    if low ≤ b.toNat ∧ b.toNat ≤ high then
      let bits := bits * 64 + (b.toNat - 0x80)
      match owed with
      | 0 => some (.ofNat bits) :: scanFrom .start rest
      | owed + 1 => scanFrom (.within owed 0x80 0xbf bits) rest
    else none :: (first b).1 ++ scanFrom (first b).2 rest

def scan (bs : Bytes) : List (Option CodePoint) := scanFrom .start bs

/-- Decodes any bytes; invalid characters are replaced. -/
def decodeLossy (bs : Bytes) : Text := (scan bs).map (·.getD .replacement)

/-- Decodes valid UTF-8 only. -/
def decode? (bs : Bytes) : Option Text := (scan bs).mapM id

def encodePoint (c : CodePoint) : Bytes :=
  let n := c.value
  let tail (shift : Nat) : UInt8 := UInt8.ofNat (0x80 + n / shift % 64)
  if n < 0x80 then [UInt8.ofNat n]
  else if n < 0x800 then [UInt8.ofNat (0xc0 + n / 64), tail 1]
  else if n < 0x10000 then [UInt8.ofNat (0xe0 + n / 4096), tail 64, tail 1]
  else [UInt8.ofNat (0xf0 + n / 262144), tail 4096, tail 64, tail 1]

/-- A surrogate on its own is written in the three bytes of its number, which no reader takes. -/
def encode (t : Text) : Bytes := t.flatMap encodePoint

/-- A surrogate on its own is spelled out. -/
def encodeVisibly (t : Text) : Bytes :=
  encode (t.flatMap fun c =>
    if c.isHighSurrogate || c.isLowSurrogate then "\\u" ++ Text.hexPadded 4 c.value else [c])

end ElfScope.Utf8
