import Mathlib
import ElfScope.Json.Parser

/-! # Numerals read back

The decimal digits of a number are read as that number, and so are four hexadecimal digits of a
sixteen bit unit. The first decimal digit is no zero, but for the number zero.
-/
namespace ElfScope

namespace CodePoint

theorem eq_iff {c d : CodePoint} : c = d ↔ c.value = d.value := by
  constructor
  · rintro rfl
    rfl
  · intro h
    cases c
    cases d
    simpa using h

@[simp] theorem value_ofChar (c : Char) : (ofChar c).value = c.toNat := rfl

theorem ofNat_value (c : CodePoint) : ofNat c.value = c := by simp [ofNat, c.lt]

end CodePoint

namespace Text

theorem ofString_append (s t : String) : ofString (s ++ t) = ofString s ++ ofString t := by
  simp [ofString, String.toList_append]

theorem ofNat_eq (n : Nat) : ofNat n = (Nat.toDigits 10 n).map CodePoint.ofChar := by
  simp [ofNat, ofString]

theorem ofInt_natCast (n : Nat) : ofInt n = ofNat n := rfl

theorem ofInt_negSucc (n : Nat) : ofInt (Int.negSucc n) = CodePoint.ofChar '-' :: ofNat (n + 1) := by
  change ofString ("-" ++ toString (n + 1)) = _
  rw [ofString_append]
  rfl

theorem ofNat_ne_nil (n : Nat) : ofNat n ≠ [] := by simp [ofNat_eq]

end Text

namespace Json

theorem isDigit_digitChar {k : Nat} (h : k < 10) :
    (CodePoint.ofChar (Nat.digitChar k)).isDigit = true := by
  revert k
  decide

theorem value_digitChar {k : Nat} (h : k < 10) :
    (CodePoint.ofChar (Nat.digitChar k)).value = 0x30 + k := by
  revert k
  decide

theorem isDigit_of_mem_ofNat {n : Nat} {c : CodePoint} (h : c ∈ Text.ofNat n) :
    c.isDigit = true := by
  induction n using Nat.strong_induction_on with
  | _ n ih =>
    rw [Text.ofNat_eq, Nat.toDigits_eq_if (by omega)] at h
    split at h
    · rw [List.map_singleton, List.mem_singleton] at h
      rw [h]
      exact isDigit_digitChar (by omega)
    · rw [List.map_append, List.mem_append, ← Text.ofNat_eq] at h
      rcases h with h | h
      · exact ih (n / 10) (by omega) h
      · rw [List.map_singleton, List.mem_singleton] at h
        rw [h]
        exact isDigit_digitChar (by omega)

theorem digitsValue_ofNat (n : Nat) : digitsValue (Text.ofNat n) = n := by
  induction n using Nat.strong_induction_on with
  | _ n ih =>
    rw [Text.ofNat_eq, Nat.toDigits_eq_if (by omega)]
    split
    · have hv := value_digitChar (k := n) (by omega)
      simp only [digitsValue, List.map_singleton, List.foldl_cons, List.foldl_nil, hv]
      omega
    · have hv := value_digitChar (k := n % 10) (by omega)
      have hq := ih (n / 10) (by omega)
      rw [Text.ofNat_eq] at hq
      unfold digitsValue at hq ⊢
      rw [List.map_append, List.foldl_append, hq]
      simp only [List.map_singleton, List.foldl_cons, List.foldl_nil, hv]
      omega

theorem head?_ofNat_eq_zero {n : Nat} (h : (Text.ofNat n).head? = some (CodePoint.ofChar '0')) :
    n = 0 := by
  induction n using Nat.strong_induction_on with
  | _ n ih =>
    rw [Text.ofNat_eq, Nat.toDigits_eq_if (by omega)] at h
    split at h
    · have hv := value_digitChar (k := n) (by omega)
      simp only [List.map_singleton, List.head?_cons, Option.some.injEq] at h
      rw [h, CodePoint.value_ofChar] at hv
      have h0 : '0'.toNat = 0x30 := rfl
      omega
    · rw [List.map_append, ← Text.ofNat_eq, List.head?_append_of_ne_nil _ (Text.ofNat_ne_nil _)] at h
      have := ih (n / 10) (by omega) h
      omega

/-- A digit in base sixteen. -/
def hexChar (k : Nat) : CodePoint := CodePoint.ofChar (Nat.digitChar k)

theorem hexDigit?_hexChar {k : Nat} (h : k < 16) : hexDigit? (hexChar k) = some k := by
  revert k
  decide

theorem hex_eq_if (n : Nat) :
    Text.hex n = if n < 16 then [hexChar n] else Text.hex (n / 16) ++ [hexChar (n % 16)] := by
  unfold Text.hex
  rw [Nat.toDigits_eq_if (by omega)]
  split <;> simp [hexChar]

theorem hexPadded_four {n : Nat} (h : n < 0x10000) :
    Text.hexPadded 4 n =
      [hexChar (n / 4096), hexChar (n / 256 % 16), hexChar (n / 16 % 16), hexChar (n % 16)] := by
  have hzero : CodePoint.ofChar '0' = hexChar 0 := rfl
  unfold Text.hexPadded
  rw [hzero, hex_eq_if]
  by_cases h1 : n < 16
  · have e1 : n / 4096 = 0 := by omega
    have e2 : n / 256 % 16 = 0 := by omega
    have e3 : n / 16 % 16 = 0 := by omega
    have e4 : n % 16 = n := by omega
    rw [if_pos h1, e1, e2, e3, e4]
    rfl
  rw [if_neg h1, hex_eq_if (n / 16)]
  by_cases h2 : n / 16 < 16
  · have e1 : n / 4096 = 0 := by omega
    have e2 : n / 256 % 16 = 0 := by omega
    have e3 : n / 16 % 16 = n / 16 := by omega
    rw [if_pos h2, e1, e2, e3]
    rfl
  rw [if_neg h2, hex_eq_if (n / 16 / 16)]
  by_cases h3 : n / 16 / 16 < 16
  · have e1 : n / 4096 = 0 := by omega
    have e2 : n / 256 % 16 = n / 16 / 16 := by omega
    rw [if_pos h3, e1, e2]
    rfl
  have h4 : n / 16 / 16 / 16 < 16 := by omega
  have e1 : n / 4096 = n / 16 / 16 / 16 := by omega
  have e2 : n / 256 % 16 = n / 16 / 16 % 16 := by omega
  rw [if_neg h3, hex_eq_if (n / 16 / 16 / 16), if_pos h4, e1, e2]
  rfl

theorem hexNumber?_hexChars {n : Nat} (h : n < 0x10000) :
    hexNumber? [hexChar (n / 4096), hexChar (n / 256 % 16), hexChar (n / 16 % 16),
      hexChar (n % 16)] = some n := by
  have h1 := hexDigit?_hexChar (k := n / 4096) (by omega)
  have h2 := hexDigit?_hexChar (k := n / 256 % 16) (by omega)
  have h3 := hexDigit?_hexChar (k := n / 16 % 16) (by omega)
  have h4 := hexDigit?_hexChar (k := n % 16) (by omega)
  simp only [hexNumber?, List.foldlM_cons, List.foldlM_nil, h1, h2, h3, h4, Option.map_some,
    Option.bind_eq_bind, Option.bind_some, Option.pure_def, Option.some.injEq]
  omega

end Json

end ElfScope
