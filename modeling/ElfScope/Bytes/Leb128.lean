import ElfScope.Bytes.Decoder

/-! # LEB128 numbers

Seven bits a byte, lowest first; the high bit tells that more follow. There is no limit on the
length, and a number may be written longer than it needs.
-/
namespace ElfScope.Leb128

def unsigned? : Bytes → Option (Nat × Bytes)
  | [] => none
  | b :: rest =>
    if b.toNat < 128 then some (b.toNat, rest)
    else (unsigned? rest).map fun (n, tail) => (b.toNat - 128 + 128 * n, tail)

/-- The last byte carries the sign in its seventh bit. -/
def signed? : Bytes → Option (Int × Bytes)
  | [] => none
  | b :: rest =>
    if b.toNat < 64 then some (b.toNat, rest)
    else if b.toNat < 128 then some ((b.toNat : Int) - 128, rest)
    else (signed? rest).map fun (n, tail) => ((b.toNat : Int) - 128 + 128 * n, tail)

def unsigned : Decoder Nat := fun bs =>
  match unsigned? bs with
  | some r => .ok r
  | none => .error ⟨1, 0⟩

def signed : Decoder Int := fun bs =>
  match signed? bs with
  | some r => .ok r
  | none => .error ⟨1, 0⟩

/-- The shortest unsigned form. -/
def encode (n : Nat) : Bytes :=
  if n < 128 then [UInt8.ofNat n] else UInt8.ofNat (n % 128 + 128) :: encode (n / 128)
termination_by n
decreasing_by omega

/-- The shortest signed form. -/
def encodeSigned (n : Int) : Bytes :=
  if -64 ≤ n ∧ n < 64 then [UInt8.ofNat (n % 128).toNat]
  else UInt8.ofNat ((n % 128).toNat + 128) :: encodeSigned (n / 128)
termination_by n.natAbs
decreasing_by omega

theorem unsigned?_encode (n : Nat) (rest : Bytes) : unsigned? (encode n ++ rest) = some (n, rest) := by
  induction n using encode.induct with
  | case1 n h =>
    rw [encode]
    simp only [h, if_true, List.cons_append, List.nil_append, unsigned?, UInt8.toNat_ofNat']
    rw [Nat.mod_eq_of_lt (by omega)]
    simp [h]
  | case2 n h ih =>
    rw [encode]
    simp only [h, if_false, List.cons_append, unsigned?, UInt8.toNat_ofNat', ih, Option.map_some]
    rw [Nat.mod_eq_of_lt (by omega)]
    have : ¬ n % 128 + 128 < 128 := by omega
    simp only [this, if_false, Option.some.injEq, Prod.mk.injEq, and_true]
    omega

theorem signed?_encodeSigned (n : Int) (rest : Bytes) :
    signed? (encodeSigned n ++ rest) = some (n, rest) := by
  induction n using encodeSigned.induct with
  | case1 n h =>
    rw [encodeSigned]
    simp only [h, and_self, if_true, List.cons_append, List.nil_append, signed?,
      UInt8.toNat_ofNat']
    rw [Nat.mod_eq_of_lt (by omega)]
    split
    · simp only [Option.some.injEq, Prod.mk.injEq, and_true]; omega
    · rw [if_pos (by omega)]
      simp only [Option.some.injEq, Prod.mk.injEq, and_true]; omega
  | case2 n h ih =>
    rw [encodeSigned]
    simp only [h, if_false, List.cons_append, signed?, UInt8.toNat_ofNat', ih, Option.map_some]
    rw [Nat.mod_eq_of_lt (by omega)]
    rw [if_neg (by omega), if_neg (by omega)]
    simp only [Option.some.injEq, Prod.mk.injEq, and_true]
    omega

end ElfScope.Leb128
