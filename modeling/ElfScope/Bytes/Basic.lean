/-! # Byte strings

Contents of files and sections, and the unsigned numbers laid out in them.
-/
namespace ElfScope

abbrev Bytes := List UInt8

inductive ByteOrder where
  | little
  | big
deriving DecidableEq, Repr

namespace Bytes

def littleValue : Bytes → Nat
  | [] => 0
  | b :: rest => b.toNat + 256 * littleValue rest

def ofLittle : Nat → Nat → Bytes
  | 0, _ => []
  | width + 1, n => UInt8.ofNat n :: ofLittle width (n / 256)

def value : ByteOrder → Bytes → Nat
  | .little, bs => littleValue bs
  | .big, bs => littleValue bs.reverse

/-- The lowest `width` bytes of a number. -/
def ofNat : ByteOrder → Nat → Nat → Bytes
  | .little, width, n => ofLittle width n
  | .big, width, n => (ofLittle width n).reverse

def slice (bs : Bytes) (start length : Nat) : Bytes := (bs.drop start).take length

/-- Positions from here on cannot be reached, however long the bytes are. -/
def positionLimit : Nat := 1 <<< 63

/-- The least number that does not fit in a width. -/
def limit : Nat → Nat
  | 0 => 1
  | width + 1 => 256 * limit width

/-- The bytes before the first NUL; none where there is no NUL. -/
def beforeNul? : Bytes → Option Bytes
  | [] => none
  | b :: rest => if b = 0 then some [] else (beforeNul? rest).map (b :: ·)

@[simp] theorem length_ofLittle (width n : Nat) : (ofLittle width n).length = width := by
  induction width generalizing n <;> simp [ofLittle, *]

@[simp] theorem length_ofNat (order : ByteOrder) (width n : Nat) :
    (ofNat order width n).length = width := by
  cases order <;> simp [ofNat]

theorem littleValue_ofLittle (width n : Nat) :
    littleValue (ofLittle width n) = n % limit width := by
  induction width generalizing n with
  | zero => simp [ofLittle, littleValue, limit, Nat.mod_one]
  | succ width ih =>
    rw [ofLittle, littleValue, ih, limit, Nat.mod_mul, UInt8.toNat_ofNat']

theorem value_ofNat (order : ByteOrder) (width n : Nat) :
    value order (ofNat order width n) = n % limit width := by
  cases order <;> simp [value, ofNat, littleValue_ofLittle]

theorem littleValue_lt (bs : Bytes) : littleValue bs < limit bs.length := by
  induction bs with
  | nil => simp [littleValue, limit]
  | cons b rest ih =>
    have hb := b.toNat_lt
    simp only [littleValue, List.length_cons, limit]
    omega

theorem value_lt (order : ByteOrder) (bs : Bytes) : value order bs < limit bs.length := by
  cases order with
  | little => exact littleValue_lt bs
  | big => simpa [value] using littleValue_lt bs.reverse

theorem ofLittle_littleValue (bs : Bytes) : ofLittle bs.length (littleValue bs) = bs := by
  induction bs with
  | nil => rfl
  | cons b rest ih =>
    have hb := b.toNat_lt
    have hfirst : UInt8.ofNat (b.toNat + 256 * littleValue rest) = b :=
      UInt8.toNat.inj (by rw [UInt8.toNat_ofNat']; omega)
    have hrest : (b.toNat + 256 * littleValue rest) / 256 = littleValue rest := by omega
    rw [List.length_cons, ofLittle, littleValue, hfirst, hrest, ih]

theorem ofNat_value (order : ByteOrder) (bs : Bytes) :
    ofNat order bs.length (value order bs) = bs := by
  cases order with
  | little => exact ofLittle_littleValue bs
  | big =>
    have hreverse := ofLittle_littleValue bs.reverse
    rw [List.length_reverse] at hreverse
    simp only [ofNat, value, hreverse, List.reverse_reverse]

theorem beforeNul?_append (s rest : Bytes) (h : (0 : UInt8) ∉ s) :
    beforeNul? (s ++ 0 :: rest) = some s := by
  induction s with
  | nil => simp [beforeNul?]
  | cons b s ih =>
    simp only [List.mem_cons, not_or] at h
    have hb : b ≠ 0 := fun e => h.1 e.symm
    simp [beforeNul?, hb, ih h.2]

end ElfScope.Bytes
