import ElfScope.Text.Basic

/-! # Real numbers of JSON

A number with a fraction or an exponent is kept as it is written. Its text is that of the nearest
double: the fewest digits that read back to it, and of those the nearest.
-/
namespace ElfScope.Json

/-- `digits * 10 ^ exponent`, or one of the three values that are no number. -/
inductive Real where
  | finite (negative : Bool) (digits : Nat) (exponent : Int)
  | infinite (negative : Bool)
  | notANumber
deriving DecidableEq, Repr

namespace Real

/-- A quotient of naturals, rounded to the nearest; a half goes to the even neighbour. -/
def roundDiv (n d : Nat) : Nat :=
  let q := n / d
  let r := n % d
  if 2 * r < d || (2 * r == d && q % 2 == 0) then q else q + 1

/-- Numerator and denominator of `n * base ^ exponent`. -/
def scaled (n base : Nat) (exponent : Int) : Nat × Nat :=
  if 0 ≤ exponent then (n * Nat.pow base exponent.toNat, 1)
  else (n, Nat.pow base (-exponent).toNat)

/-- The least mantissa of 53 bits. -/
def leastFull : Nat := 1 <<< 52

/-- The double nearest to a positive quotient, as `m * 2 ^ q` with `m` of at most 53 bits;
none where it is too large. -/
def nearest? (n d : Nat) : Option (Nat × Int) :=
  let guess : Int := (Nat.log2 n : Int) - Nat.log2 d
  let (a, b) := scaled d 2 guess
  let log := if a ≤ n * b then guess else guess - 1
  let q := max (log - 52) (-1074)
  let (a, b) := scaled d 2 q
  let m := roundDiv (n * b) a
  let (m, q) := if m = 2 * leastFull then (leastFull, q + 1) else (m, q)
  if q > 971 then none else some (m, q)

/-- The fewest digits that read back to `m * 2 ^ q`, and the power of ten of the last one. -/
def shortest (m : Nat) (q : Int) : Nat × Int :=
  -- Everything is counted in quarters of the last place.
  let (unit, den) := scaled 1 2 (q - 2)
  let high := (4 * m + 2) * unit
  let low := if m = leastFull ∧ q > -1074 then (4 * m - 1) * unit else (4 * m - 2) * unit
  let value := 4 * m * unit
  let inside (n d : Nat) : Bool :=
    if m % 2 = 0 then low * d ≤ n * den && n * den ≤ high * d
    else low * d < n * den && n * den < high * d
  let top : Int := (Nat.toDigits 10 (value / den)).length
  let atPlace? (place : Int) : Option (Nat × Int) :=
    let (a, b) := scaled 1 10 place
    let floor := value * b / (den * a)
    let below := inside (floor * a) b
    let above := inside ((floor + 1) * a) b
    let twice := 2 * value * b
    let middle := (2 * floor + 1) * a * den
    if below && above then
      some (if twice < middle || (twice == middle && floor % 2 == 0) then floor else floor + 1, place)
    else if below && floor != 0 then some (floor, place)
    else if above then some (floor + 1, place)
    else none
  ((List.range 345).findSome? fun (k : Nat) => atPlace? (top - k)).getD (0, 0)

/-- Digits and a decimal point: positional from `0.0001` up to sixteen digits before the point,
and with an exponent of at least two digits elsewhere. -/
def layout (digits : Nat) (exponent : Int) : Text :=
  let ds := Text.ofNat digits
  let point := exponent + ds.length
  let zeros (n : Nat) : Text := List.replicate n '0'
  if -4 < point ∧ point ≤ 16 then
    if point ≤ 0 then "0." ++ zeros (-point).toNat ++ ds
    else if point < ds.length then ds.take point.toNat ++ "." ++ ds.drop point.toNat
    else ds ++ zeros (point.toNat - ds.length) ++ ".0"
  else
    let e := point - 1
    let fraction : Text := if ds.length ≤ 1 then [] else "." ++ ds.drop 1
    let power := Text.ofNat e.natAbs
    ds.take 1 ++ fraction ++ (if e < 0 then "e-" else "e+") ++ zeros (2 - power.length) ++ power

/-- Without the zeros at its end. -/
def strip (digits : Nat) (exponent : Int) : Nat → Nat × Int
  | 0 => (digits, exponent)
  | fuel + 1 =>
    if digits ≠ 0 ∧ digits % 10 = 0 then strip (digits / 10) (exponent + 1) fuel
    else (digits, exponent)

def sign (negative : Bool) : Text := if negative then "-" else []

def infinity (negative : Bool) : Text := sign negative ++ "inf"

def text : Real → Text
  | .notANumber => "nan"
  | .infinite negative => infinity negative
  | .finite negative digits exponent =>
    let size := exponent + (Nat.toDigits 10 digits).length
    if digits = 0 ∨ size < -400 then sign negative ++ "0.0"
    else if size > 400 then infinity negative
    else
      let (n, d) := scaled digits 10 exponent
      match nearest? n d with
      | none => infinity negative
      | some (0, _) => sign negative ++ "0.0"
      | some (m, q) =>
        let (ds, e) := shortest m q
        let (ds, e) := strip ds e 400
        sign negative ++ layout ds e

end ElfScope.Json.Real
