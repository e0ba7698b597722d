import Mathlib
import ElfScope.Json.Printer
import ElfScope.Proofs.Json.Numerals

/-! # Strings read back

A string is written as characters that stand for themselves and as escapes, and is read back from
them. Two escapes that are a high and a low surrogate are read as one character, so a text that holds
such a pair of its own does not come back.
-/
namespace ElfScope

/-- No high surrogate stands right before a low one. -/
def Text.Unpaired (t : Text) : Prop :=
  t.IsChain fun a b => ¬(a.isHighSurrogate = true ∧ b.isLowSurrogate = true)

instance (t : Text) : Decidable t.Unpaired := inferInstanceAs (Decidable (List.IsChain _ t))

namespace Json

/-- The character is written as it is, or as an escape of one letter. -/
def shortlyWritten (c : CodePoint) : Bool :=
  (0x20 ≤ c.value && c.value ≤ 0x7e) || c.value == 0x0a || c.value == 0x0d || c.value == 0x09 ||
    c.value == 0x0c || c.value == 0x08

def highUnit (c : CodePoint) : Nat := 0xd800 + (c.value - 0x10000) / 0x400

def lowUnit (c : CodePoint) : Nat := 0xdc00 + (c.value - 0x10000) % 0x400

/-- What the written form of a character is read as. -/
def piecesOf (c : CodePoint) : List Piece :=
  if shortlyWritten c then [.plain c]
  else if c.value < 0x10000 then [.unit c.value]
  else [.unit (highUnit c), .unit (lowUnit c)]

/-- Reading goes on after some pieces. -/
def afterPieces (ps : List Piece) (r : Except ParseError (List Piece × Text)) :
    Except ParseError (List Piece × Text) := do
  let (qs, tail) ← r
  return (ps ++ qs, tail)

theorem afterPieces_append (ps qs : List Piece) (r : Except ParseError (List Piece × Text)) :
    afterPieces (ps ++ qs) r = afterPieces ps (afterPieces qs r) := by
  cases r with
  | error e => rfl
  | ok p => simp [afterPieces, bind, Except.bind, pure, Except.pure]

theorem pieces_plain {c : CodePoint} (h1 : c.value ≠ 0x22) (h2 : c.value ≠ 0x5c)
    (h3 : 0x20 ≤ c.value) (rest : Text) :
    pieces (c :: rest) = afterPieces [.plain c] (pieces rest) := by
  have hq : c ≠ CodePoint.ofChar '"' := fun h => h1 (by rw [h]; rfl)
  have hb : c ≠ CodePoint.ofChar '\\' := fun h => h2 (by rw [h]; rfl)
  have h3' : ¬c.value < 0x20 := by omega
  rw [pieces.eq_def]
  simp only [if_neg hq, if_neg h3', if_pos hb]
  rfl

theorem pieces_short {e c : CodePoint} (he : e ≠ CodePoint.ofChar 'u')
    (hc : shortEscape? e = some c) (rest : Text) :
    pieces (CodePoint.ofChar '\\' :: e :: rest) = afterPieces [.plain c] (pieces rest) := by
  rw [pieces.eq_def]
  simp only [if_pos he, hc]
  rfl

theorem pieces_unit {n : Nat} (h : n < 0x10000) (rest : Text) :
    pieces (unitEscape n ++ rest) = afterPieces [.unit n] (pieces rest) := by
  have hn := hexNumber?_hexChars h
  unfold unitEscape
  rw [hexPadded_four h]
  change pieces (CodePoint.ofChar '\\' :: CodePoint.ofChar 'u' :: hexChar (n / 4096) ::
    hexChar (n / 256 % 16) :: hexChar (n / 16 % 16) :: hexChar (n % 16) :: rest) = _
  rw [pieces.eq_def]
  simp only [hn]
  rfl

theorem pieces_quote (rest : Text) :
    pieces (CodePoint.ofChar '"' :: rest) = .ok ([], rest) := by
  rw [pieces.eq_def]
  simp

theorem pieces_escape (c : CodePoint) (rest : Text) :
    pieces (escape c ++ rest) = afterPieces (piecesOf c) (pieces rest) := by
  have hc := c.lt
  unfold escape
  by_cases h1 : c = CodePoint.ofChar '"'
  · subst h1
    exact pieces_short (by decide) (by decide) rest
  by_cases h2 : c = CodePoint.ofChar '\\'
  · subst h2
    exact pieces_short (by decide) (by decide) rest
  by_cases h3 : c = CodePoint.ofChar '\n'
  · subst h3
    exact pieces_short (by decide) (by decide) rest
  by_cases h4 : c = CodePoint.ofChar '\r'
  · subst h4
    exact pieces_short (by decide) (by decide) rest
  by_cases h5 : c = CodePoint.ofChar '\t'
  · subst h5
    exact pieces_short (by decide) (by decide) rest
  by_cases h6 : c.value = 0x0c
  · obtain rfl : c = CodePoint.ofChar '\x0c' := CodePoint.eq_iff.mpr h6
    exact pieces_short (by decide) (by decide) rest
  by_cases h7 : c.value = 0x08
  · obtain rfl : c = CodePoint.ofChar '\x08' := CodePoint.eq_iff.mpr h7
    exact pieces_short (by decide) (by decide) rest
  simp only [if_neg h1, if_neg h2, if_neg h3, if_neg h4, if_neg h5, if_neg h6, if_neg h7]
  rw [CodePoint.eq_iff] at h1 h2 h3 h4 h5
  simp only [CodePoint.value_ofChar, Char.reduceToNat] at h1 h2 h3 h4 h5
  by_cases h8 : 0x20 ≤ c.value ∧ c.value ≤ 0x7e
  · have hs : shortlyWritten c = true := by simp [shortlyWritten, h8.1, h8.2]
    rw [if_pos h8, piecesOf, if_pos hs]
    exact pieces_plain h1 h2 h8.1 rest
  have hs : ¬shortlyWritten c = true := by
    simp only [shortlyWritten, Bool.or_eq_true, Bool.and_eq_true, decide_eq_true_eq, beq_iff_eq]
    omega
  rw [if_neg h8, piecesOf, if_neg hs]
  by_cases h9 : c.value < 0x10000
  · rw [if_pos h9, if_pos h9]
    exact pieces_unit h9 rest
  · rw [if_neg h9, if_neg h9, List.append_assoc]
    rw [show [Piece.unit (highUnit c), Piece.unit (lowUnit c)] =
      [Piece.unit (highUnit c)] ++ [Piece.unit (lowUnit c)] from rfl, afterPieces_append]
    change pieces (unitEscape (highUnit c) ++ (unitEscape (lowUnit c) ++ rest)) = _
    have hhigh : highUnit c < 0x10000 := by
      unfold highUnit
      omega
    have hlow : lowUnit c < 0x10000 := by
      unfold lowUnit
      omega
    rw [pieces_unit hhigh, pieces_unit hlow]

theorem pieces_flatMap_escape (t rest : Text) :
    pieces (t.flatMap escape ++ CodePoint.ofChar '"' :: rest) = .ok (t.flatMap piecesOf, rest) := by
  induction t with
  | nil => exact pieces_quote rest
  | cons c t ih =>
    rw [List.flatMap_cons, List.append_assoc, pieces_escape, ih]
    rfl

/-- A unit stands for itself unless it is the first of a pair. -/
theorem assemble_unit {n : Nat} {ps : List Piece}
    (h : ∀ m, ps.head? = some (.unit m) → ¬(0xd800 ≤ n ∧ n < 0xdc00 ∧ 0xdc00 ≤ m ∧ m < 0xe000)) :
    assemble (.unit n :: ps) = .ofNat n :: assemble ps := by
  cases ps with
  | nil => simp [assemble]
  | cons p ps =>
    cases p with
    | plain c => simp [assemble]
    | unit m => rw [assemble, if_neg (h m rfl)]

theorem assemble_pair {c : CodePoint} (h : ¬c.value < 0x10000) (ps : List Piece) :
    assemble (.unit (highUnit c) :: .unit (lowUnit c) :: ps) = c :: assemble ps := by
  have hc := c.lt
  have hpair : 0xd800 ≤ highUnit c ∧ highUnit c < 0xdc00 ∧ 0xdc00 ≤ lowUnit c ∧
      lowUnit c < 0xe000 := by
    unfold highUnit lowUnit
    omega
  have hvalue : 0x10000 + (highUnit c - 0xd800) * 0x400 + (lowUnit c - 0xdc00) = c.value := by
    unfold highUnit lowUnit
    omega
  rw [assemble, if_pos hpair, hvalue, CodePoint.ofNat_value]

/-- The first unit of a character beyond sixteen bits is a high surrogate, so what comes first in
the form of a character is a low one only where the character is. -/
theorem isLowSurrogate_of_head?_piecesOf {c : CodePoint} {rest : List Piece} {m : Nat}
    (h : (piecesOf c ++ rest).head? = some (.unit m)) (hm : 0xdc00 ≤ m ∧ m < 0xe000) :
    c.isLowSurrogate = true := by
  have hc := c.lt
  unfold piecesOf at h
  split at h
  · cases h
  split at h
  · have he : c.value = m := by simpa using h
    simp only [CodePoint.isLowSurrogate, Bool.and_eq_true, decide_eq_true_eq]
    omega
  · have he : highUnit c = m := by simpa using h
    unfold highUnit at he
    omega

theorem assemble_flatMap_piecesOf {t : Text} (h : t.Unpaired) :
    assemble (t.flatMap piecesOf) = t := by
  induction t with
  | nil => rfl
  | cons c t ih =>
    have ht := ih (List.IsChain.of_cons h)
    rw [List.flatMap_cons, piecesOf]
    split
    · simp only [List.cons_append, List.nil_append, assemble, ht]
    split
    · rw [List.cons_append, List.nil_append, assemble_unit, ht, CodePoint.ofNat_value]
      intro m hm hpair
      cases t with
      | nil => cases hm
      | cons d t =>
        have hlow := isLowSurrogate_of_head?_piecesOf hm hpair.2.2
        have hhigh : c.isHighSurrogate = true := by
          simp only [CodePoint.isHighSurrogate, Bool.and_eq_true, decide_eq_true_eq]
          omega
        exact (List.isChain_cons_cons.mp h).1 ⟨hhigh, hlow⟩
    · next hlarge =>
      rw [List.cons_append, List.cons_append, List.nil_append, assemble_pair hlarge, ht]

/-- What is written for a text is read as that text. -/
theorem parseString_renderString {t : Text} (h : t.Unpaired) (rest : Text) :
    parseString (t.flatMap escape ++ CodePoint.ofChar '"' :: rest) = .ok (t, rest) := by
  rw [parseString, pieces_flatMap_escape]
  change Except.ok (assemble (t.flatMap piecesOf), rest) = _
  rw [assemble_flatMap_piecesOf h]

end Json

end ElfScope
