import ElfScope.Bytes.Basic

/-! # Adler-32

The checksum of a zlib stream: the sum of the bytes and the sum of the running sums.
-/
namespace ElfScope.Zlib

def adlerStep (s : Nat × Nat) (b : UInt8) : Nat × Nat :=
  let low := (s.1 + b.toNat) % 65521
  (low, (s.2 + low) % 65521)

def adler32 (bs : Bytes) : Nat :=
  let s := bs.foldl adlerStep (1, 0)
  s.2 * 65536 + s.1

end ElfScope.Zlib
