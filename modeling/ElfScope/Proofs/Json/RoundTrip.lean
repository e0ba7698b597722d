import Mathlib
import ElfScope.Proofs.Json.Strings
import ElfScope.Proofs.Text.Utf8

/-! # JSON read back

A value that is written, in one line or with any indent, is read as the same value. It must hold no
real number, no text with a pair of surrogates, no integer that is too long to be read, and no key
twice, and must not be nested too deep for the reader. What is written holds no surrogates.
-/
namespace ElfScope.Json

mutual

/-- How deep arrays and objects are nested. -/
def depth : Json → Nat
  | .array items => depthItems items + 1
  | .object fields => depthFields fields + 1
  | _ => 0

def depthItems : List Json → Nat
  | [] => 0
  | item :: rest => max item.depth (depthItems rest)

def depthFields : List (Text × Json) → Nat
  | [] => 0
  | (_, value) :: rest => max value.depth (depthFields rest)

end

/-- What is written for the value can be read, if it is not nested too deep. -/
inductive Legible : Json → Prop
  | null : Legible .null
  | bool (b : Bool) : Legible (.bool b)
  | int {n : Int} (h : (Text.ofNat n.natAbs).length ≤ maxIntegerDigits) : Legible (.int n)
  | string {t : Text} (h : t.Unpaired) : Legible (.string t)
  | array {items : List Json} (h : ∀ j ∈ items, Legible j) : Legible (.array items)
  | object {fields : List (Text × Json)} (keys : (fields.map Prod.fst).Nodup)
      (texts : ∀ f ∈ fields, f.1.Unpaired) (h : ∀ f ∈ fields, Legible f.2) :
      Legible (.object fields)

/-! ### White space -/

/-- A text from which no white space is skipped, and which closes nothing. -/
def Opening (t : Text) : Prop :=
  ∃ c rest, t = c :: rest ∧ isSpace c = false ∧ c ≠ CodePoint.ofChar ']' ∧ c ≠ CodePoint.ofChar '\x7d'

theorem Opening.append {t : Text} (h : Opening t) (rest : Text) : Opening (t ++ rest) := by
  obtain ⟨c, r, rfl, h⟩ := h
  exact ⟨c, r ++ rest, rfl, h⟩

theorem skipSpace_cons {c : CodePoint} (h : isSpace c = false) (rest : Text) :
    skipSpace (c :: rest) = c :: rest := by
  simp [skipSpace, h]

theorem skipSpace_append {blanks : Text} (h : ∀ c ∈ blanks, isSpace c = true) (t : Text) :
    skipSpace (blanks ++ t) = skipSpace t := by
  induction blanks with
  | nil => rfl
  | cons c blanks ih =>
    have hc := h c List.mem_cons_self
    have hr := ih fun d hd => h d (List.mem_cons_of_mem _ hd)
    simpa [skipSpace, hc] using hr

theorem Opening.skipSpace {t : Text} (h : Opening t) : Json.skipSpace t = t := by
  obtain ⟨c, r, rfl, hc, -⟩ := h
  exact skipSpace_cons hc r

theorem isSpace_of_mem_lineBreak {indent : Option Nat} {level : Nat} {c : CodePoint}
    (h : c ∈ lineBreak indent level) : isSpace c = true := by
  cases indent with
  | none => cases h
  | some n =>
    rcases List.mem_append.mp h with h | h
    · rw [List.mem_singleton.mp (show c ∈ [CodePoint.ofChar '\n'] from h)]
      rfl
    · rw [List.eq_of_mem_replicate h]
      rfl

/-- A comma, and blanks up to the next item. -/
theorem exists_separator (indent : Option Nat) (level : Nat) :
    ∃ blanks : Text, comma indent ++ lineBreak indent level = CodePoint.ofChar ',' :: blanks ∧
      ∀ c ∈ blanks, isSpace c = true := by
  cases indent with
  | none =>
    refine ⟨[CodePoint.ofChar ' '], rfl, fun c hc => ?_⟩
    rw [List.mem_singleton.mp hc]
    rfl
  | some n => exact ⟨lineBreak (some n) level, rfl, fun c hc => isSpace_of_mem_lineBreak hc⟩

/-! ### Scalars -/

/-- A text that no number goes on with. -/
def Apart (t : Text) : Prop :=
  ∀ c ∈ t.head?, c.isDigit = false ∧ c ≠ CodePoint.ofChar '.' ∧ c ≠ CodePoint.ofChar 'e' ∧
    c ≠ CodePoint.ofChar 'E'

theorem apart_cons {c : CodePoint} (h : c.isDigit = false ∧ c ≠ CodePoint.ofChar '.' ∧
    c ≠ CodePoint.ofChar 'e' ∧ c ≠ CodePoint.ofChar 'E') (rest : Text) : Apart (c :: rest) := by
  intro d hd
  cases hd
  exact h

theorem fraction?_of_apart {t : Text} (h : Apart t) : fraction? t = none := by
  cases t with
  | nil => rfl
  | cons c rest =>
    obtain ⟨-, hc, -, -⟩ := h c rfl
    simp [fraction?, hc]

theorem exponent?_of_apart {t : Text} (h : Apart t) : exponent? t = none := by
  cases t with
  | nil => rfl
  | cons c rest =>
    obtain ⟨-, -, he, hE⟩ := h c rfl
    simp [exponent?, he, hE]

theorem takeWhile_ofNat_append (n : Nat) {rest : Text} (h : Apart rest) :
    (Text.ofNat n ++ rest).takeWhile CodePoint.isDigit = Text.ofNat n := by
  rw [List.takeWhile_append_of_pos fun c hc => isDigit_of_mem_ofNat hc]
  cases rest with
  | nil => simp
  | cons c rest =>
    have hc := (h c rfl).1
    simp [hc]

theorem parseMagnitude_ofNat (negative : Bool) {n : Nat} {rest : Text}
    (hn : (Text.ofNat n).length ≤ maxIntegerDigits) (h : Apart rest) :
    parseMagnitude negative (Text.ofNat n ++ rest) =
      .ok (.int (if negative then -(n : Int) else n), rest) := by
  have hlead : (if (Text.ofNat n).head? = some (CodePoint.ofChar '0') then (Text.ofNat n).take 1
      else Text.ofNat n) = Text.ofNat n := by
    split
    · next h0 =>
      rw [head?_ofNat_eq_zero h0]
      rfl
    · rfl
  have hne : (Text.ofNat n).isEmpty = false := by simpa using Text.ofNat_ne_nil n
  unfold parseMagnitude
  simp only [takeWhile_ofNat_append n h, hlead, hne, List.drop_left, fraction?_of_apart h]
  simp [hn, exponent?_of_apart h, digitsValue_ofNat]

theorem startsWith_cons_of_ne {c d : CodePoint} (h : c ≠ d) (rest start : Text) :
    Text.startsWith (c :: rest) (d :: start) = false := by
  have hd : (d == c) = false := beq_eq_false_iff_ne.mpr (Ne.symm h)
  rw [Text.startsWith, List.isPrefixOf_cons_cons, hd, Bool.false_and]

theorem ne_ofChar_of_isDigit {c : CodePoint} (h : c.isDigit = true) {w : Char}
    (hw : w.toNat < 0x30 ∨ 0x39 < w.toNat) : c ≠ CodePoint.ofChar w := by
  simp only [CodePoint.isDigit, Bool.and_eq_true, decide_eq_true_eq] at h
  rw [ne_eq, CodePoint.eq_iff, CodePoint.value_ofChar]
  omega

/-- No keyword starts with a digit, nor with a sign and a digit. -/
theorem keyword?_digit {c : CodePoint} (h : c.isDigit = true) (rest : Text) :
    keyword? (c :: rest) = none := by
  have hc (w : Char) (hw : w.toNat < 0x30 ∨ 0x39 < w.toNat) (start : Text) :
      ¬Text.startsWith (c :: rest) (CodePoint.ofChar w :: start) = true := by
    simp [startsWith_cons_of_ne (ne_ofChar_of_isDigit h hw)]
  unfold keyword?
  simp only [List.findSome?_eq_none_iff, List.mem_cons, List.not_mem_nil, or_false]
  rintro p (rfl | rfl | rfl | rfl | rfl | rfl)
  · exact if_neg (hc 'n' (by decide) _)
  · exact if_neg (hc 't' (by decide) _)
  · exact if_neg (hc 'f' (by decide) _)
  · exact if_neg (hc 'N' (by decide) _)
  · exact if_neg (hc 'I' (by decide) _)
  · exact if_neg (hc '-' (by decide) _)

theorem keyword?_minus {c : CodePoint} (h : c.isDigit = true) (rest : Text) :
    keyword? (CodePoint.ofChar '-' :: c :: rest) = none := by
  have hm (w : Char) (hw : '-' ≠ w) (start : Text) :
      ¬Text.startsWith (CodePoint.ofChar '-' :: c :: rest) (CodePoint.ofChar w :: start) = true := by
    have hne : CodePoint.ofChar '-' ≠ CodePoint.ofChar w := by
      rw [ne_eq, CodePoint.eq_iff, CodePoint.value_ofChar, CodePoint.value_ofChar]
      exact fun e => hw (Char.toNat_inj.mp e)
    simp [startsWith_cons_of_ne hne]
  have hi (start : Text) : ¬Text.startsWith (CodePoint.ofChar '-' :: c :: rest)
      (CodePoint.ofChar '-' :: CodePoint.ofChar 'I' :: start) = true := by
    have hd := startsWith_cons_of_ne (ne_ofChar_of_isDigit h (w := 'I') (by decide)) rest start
    rw [Text.startsWith] at hd ⊢
    rw [List.isPrefixOf_cons_cons, hd, Bool.and_false]
    exact Bool.false_ne_true
  unfold keyword?
  simp only [List.findSome?_eq_none_iff, List.mem_cons, List.not_mem_nil, or_false]
  rintro p (rfl | rfl | rfl | rfl | rfl | rfl)
  · exact if_neg (hm 'n' (by decide) _)
  · exact if_neg (hm 't' (by decide) _)
  · exact if_neg (hm 'f' (by decide) _)
  · exact if_neg (hm 'N' (by decide) _)
  · exact if_neg (hm 'I' (by decide) _)
  · exact if_neg (hi _)

theorem exists_digit (n : Nat) : ∃ c rest, Text.ofNat n = c :: rest ∧ c.isDigit = true := by
  cases h : Text.ofNat n with
  | nil => exact absurd h (Text.ofNat_ne_nil n)
  | cons c rest => exact ⟨c, rest, rfl, isDigit_of_mem_ofNat (by rw [h]; exact List.mem_cons_self)⟩

/-- A text that holds no string, array or object is read as a scalar. -/
theorem parseValue_scalar {c : CodePoint} (h1 : c ≠ CodePoint.ofChar '"')
    (h2 : c ≠ CodePoint.ofChar '[') (h3 : c ≠ CodePoint.ofChar '\x7b') (depth : Nat) (rest : Text) :
    parseValue depth (c :: rest) = parseScalar (c :: rest) := by
  rw [parseValue.eq_def]
  simp only [if_neg h1, if_neg h2, if_neg h3]

theorem parseValue_int {n : Int} (hn : (Text.ofNat n.natAbs).length ≤ maxIntegerDigits)
    (depth : Nat) {rest : Text} (h : Apart rest) :
    parseValue depth (Text.ofInt n ++ rest) = .ok (.int n, rest) := by
  cases n with
  | ofNat n =>
    obtain ⟨c, digits, hd, hc⟩ := exists_digit n
    have hm := parseMagnitude_ofNat false hn h
    rw [Int.ofNat_eq_natCast, Text.ofInt_natCast]
    change (Text.ofNat n).length ≤ _ at hn
    change parseMagnitude false (Text.ofNat n ++ rest) = _ at hm
    rw [hd, List.cons_append] at hm ⊢
    rw [parseValue_scalar (ne_ofChar_of_isDigit hc (by decide))
      (ne_ofChar_of_isDigit hc (by decide)) (ne_ofChar_of_isDigit hc (by decide)), parseScalar,
      keyword?_digit hc]
    simp only [if_neg (ne_ofChar_of_isDigit hc (w := '-') (by decide)), hm]
    rfl
  | negSucc n =>
    obtain ⟨c, digits, hd, hc⟩ := exists_digit (n + 1)
    have hm := parseMagnitude_ofNat true hn h
    change parseMagnitude true (Text.ofNat (n + 1) ++ rest) = _ at hm
    rw [Text.ofInt_negSucc, hd, List.cons_append, List.cons_append]
    rw [hd, List.cons_append] at hm
    rw [parseValue_scalar (by decide) (by decide) (by decide), parseScalar, keyword?_minus hc]
    simp only [if_true, hm]
    rfl

theorem parseValue_null (depth : Nat) (rest : Text) :
    parseValue depth (Text.ofString "null" ++ rest) = .ok (.null, rest) := by
  change parseValue depth (CodePoint.ofChar 'n' :: _) = _
  rw [parseValue_scalar (by decide) (by decide) (by decide)]
  rfl

theorem parseValue_bool (b : Bool) (depth : Nat) (rest : Text) :
    parseValue depth (Text.ofString (if b then "true" else "false") ++ rest) =
      .ok (.bool b, rest) := by
  cases b with
  | true =>
    change parseValue depth (CodePoint.ofChar 't' :: _) = _
    rw [parseValue_scalar (by decide) (by decide) (by decide)]
    rfl
  | false =>
    change parseValue depth (CodePoint.ofChar 'f' :: _) = _
    rw [parseValue_scalar (by decide) (by decide) (by decide)]
    rfl

theorem parseValue_renderString {t : Text} (h : t.Unpaired) (depth : Nat) (rest : Text) :
    parseValue depth (renderString t ++ rest) = .ok (.string t, rest) := by
  have hp := parseString_renderString h rest
  have hr : renderString t ++ rest =
      CodePoint.ofChar '"' :: (t.flatMap escape ++ CodePoint.ofChar '"' :: rest) := by
    simp [renderString, Text.ofString]
  rw [hr, parseValue.eq_def]
  simp only [if_true, hp]
  rfl

/-! ### Arrays and objects -/

theorem apart_of_isSpace {c : CodePoint} (h : isSpace c = true) (rest : Text) :
    Apart (c :: rest) := by
  simp only [isSpace, Bool.or_eq_true, beq_iff_eq] at h
  refine apart_cons ⟨?_, ?_, ?_, ?_⟩ rest
  · simp only [CodePoint.isDigit, Bool.and_eq_false_iff, decide_eq_false_iff_not]
    omega
  all_goals
    rw [ne_eq, CodePoint.eq_iff, CodePoint.value_ofChar]
    simp only [Char.reduceToNat]
    omega

/-- What follows the last item. -/
def Closing (mark : Char) (blanks rest : Text) : Text := blanks ++ CodePoint.ofChar mark :: rest

theorem apart_closing (mark : Char) (hm : ∀ rest, Apart (CodePoint.ofChar mark :: rest))
    {blanks : Text} (hb : ∀ c ∈ blanks, isSpace c = true) (rest : Text) :
    Apart (Closing mark blanks rest) := by
  cases blanks with
  | nil => exact hm rest
  | cons c blanks => exact apart_of_isSpace (hb c List.mem_cons_self) _

theorem skipSpace_closing {mark : Char} (hm : isSpace (CodePoint.ofChar mark) = false)
    {blanks : Text} (hb : ∀ c ∈ blanks, isSpace c = true) (rest : Text) :
    skipSpace (Closing mark blanks rest) = CodePoint.ofChar mark :: rest := by
  rw [Closing, skipSpace_append hb, skipSpace_cons hm]

theorem opening_renderString (t : Text) : Opening (renderString t) :=
  ⟨CodePoint.ofChar '"', _, rfl, rfl, by decide, by decide⟩

theorem opening_ofInt (n : Int) : Opening (Text.ofInt n) := by
  have hdigits (n : Nat) : Opening (Text.ofNat n) := by
    obtain ⟨c, rest, h, hc⟩ := exists_digit n
    refine ⟨c, rest, h, ?_, ne_ofChar_of_isDigit hc (by decide), ne_ofChar_of_isDigit hc (by decide)⟩
    simp only [CodePoint.isDigit, Bool.and_eq_true, decide_eq_true_eq] at hc
    simp only [isSpace, Bool.or_eq_false_iff, beq_eq_false_iff_ne]
    omega
  cases n with
  | ofNat n => exact hdigits n
  | negSucc n =>
    rw [Text.ofInt_negSucc]
    exact ⟨CodePoint.ofChar '-', _, rfl, rfl, by decide, by decide⟩

theorem opening_renderAt {j : Json} (h : Legible j) (indent : Option Nat) (level : Nat) :
    Opening (renderAt indent level j) := by
  cases h with
  | null => exact ⟨CodePoint.ofChar 'n', _, rfl, rfl, by decide, by decide⟩
  | bool b =>
    cases b with
    | true => exact ⟨CodePoint.ofChar 't', _, rfl, rfl, by decide, by decide⟩
    | false => exact ⟨CodePoint.ofChar 'f', _, rfl, rfl, by decide, by decide⟩
  | int => exact opening_ofInt _
  | string => exact opening_renderString _
  | @array items =>
    cases items <;> exact ⟨CodePoint.ofChar '[', _, rfl, rfl, by decide, by decide⟩
  | @object fields =>
    cases fields <;> exact ⟨CodePoint.ofChar '\x7b', _, rfl, rfl, by decide, by decide⟩

/-- A reader that takes the written form of each of some values from the front of a text. -/
def Reads (read : Text → Except ParseError (Json × Text)) (indent : Option Nat) (level : Nat)
    (j : Json) : Prop :=
  ∀ rest, Apart rest → read (renderAt indent level j ++ rest) = .ok (j, rest)

section Items
variable {read : Text → Except ParseError (Json × Text)} {indent : Option Nat} {level : Nat}

/-- One step of the reader of items. -/
theorem parseItems_succ {j : Json} (hr : Reads read indent level j) {fuel : Nat} {c : CodePoint}
    {after rest : Text} (ha : Apart after) (hc : skipSpace after = c :: rest) :
    parseItems read (fuel + 1) (renderAt indent level j ++ after) =
      if c = CodePoint.ofChar ']' then .ok ([j], rest)
      else if c = CodePoint.ofChar ',' then do
        let (vs, tail) ← parseItems read fuel (skipSpace rest)
        return (j :: vs, tail)
      else throw .malformed := by
  have hread := hr after ha
  rw [parseItems, hread]
  simp only [bind, Except.bind, hc]
  rfl

theorem parseItems_renderItems {item : Json} {items : List Json} {blanks : Text} (fuel : Nat)
    (hl : ∀ j ∈ item :: items, Legible j) (hr : ∀ j ∈ item :: items, Reads read indent level j)
    (hb : ∀ c ∈ blanks, isSpace c = true) (hf : items.length < fuel) (rest : Text) :
    parseItems read fuel (renderAt indent level item ++ (renderItems indent level items ++
      Closing ']' blanks rest)) = .ok (item :: items, rest) := by
  induction items generalizing item fuel with
  | nil =>
    obtain ⟨fuel, rfl⟩ : ∃ k, fuel = k + 1 := ⟨fuel - 1, by omega⟩
    have hclose := apart_closing ']' (fun _ => apart_cons (by decide) _) hb rest
    rw [renderItems, List.nil_append, parseItems_succ (hr item (by simp)) hclose
      (skipSpace_closing rfl hb rest), if_pos rfl]
  | cons next items ih =>
    obtain ⟨fuel, rfl⟩ : ∃ k, fuel = k + 1 := ⟨fuel - 1, by omega⟩
    obtain ⟨gap, hgap, hspace⟩ := exists_separator indent level
    have htail := @ih next fuel (fun j hj => hl j (List.mem_cons_of_mem _ hj))
      (fun j hj => hr j (List.mem_cons_of_mem _ hj)) (by simpa using hf)
    have hsplit : renderItems indent level (next :: items) ++ Closing ']' blanks rest =
        CodePoint.ofChar ',' :: (gap ++ (renderAt indent level next ++
          (renderItems indent level items ++ Closing ']' blanks rest))) := by
      rw [renderItems, hgap]
      simp
    have hnext := (opening_renderAt (hl next (by simp)) indent level).append
      (renderItems indent level items ++ Closing ']' blanks rest)
    rw [hsplit, parseItems_succ (hr item (by simp)) (apart_cons (by decide) _)
      (skipSpace_cons rfl _), if_neg (by decide), if_pos rfl, skipSpace_append hspace,
      hnext.skipSpace, htail]
    rfl

theorem length_le_renderItems (indent : Option Nat) (level : Nat) (items : List Json) :
    items.length ≤ (renderItems indent level items).length := by
  induction items with
  | nil => simp
  | cons item items ih =>
    obtain ⟨gap, hgap, -⟩ := exists_separator indent level
    rw [renderItems, hgap, List.append_assoc]
    simp only [List.cons_append, List.length_cons, List.length_append]
    omega

/-- The written form of a field, which opens with the quote of its key. -/
theorem renderField_append (f : Text × Json) (rest : Text) :
    renderField indent level f ++ rest = CodePoint.ofChar '"' :: (f.1.flatMap escape ++
      CodePoint.ofChar '"' :: CodePoint.ofChar ':' :: CodePoint.ofChar ' ' ::
        (renderAt indent level f.2 ++ rest)) := by
  obtain ⟨key, value⟩ := f
  simp [renderField, renderString, Text.ofString]

/-- One step of the reader of fields: the key, the colon and the value of a field. -/
theorem parseFields_succ {f : Text × Json} (ht : f.1.Unpaired) (hl : Legible f.2)
    (hr : Reads read indent level f.2) {fuel : Nat} {c : CodePoint} {after rest : Text}
    (ha : Apart after) (hc : skipSpace after = c :: rest) :
    parseFields read (fuel + 1) (renderField indent level f ++ after) =
      if c = CodePoint.ofChar '\x7d' then .ok ([f], rest)
      else if c = CodePoint.ofChar ',' then do
        let (fs, tail) ← parseFields read fuel (skipSpace rest)
        return (f :: fs, tail)
      else throw .malformed := by
  have hkey := parseString_renderString ht (CodePoint.ofChar ':' :: CodePoint.ofChar ' ' ::
    (renderAt indent level f.2 ++ after))
  have hvalue := ((opening_renderAt hl indent level).append after).skipSpace
  have hblank : skipSpace (CodePoint.ofChar ' ' :: (renderAt indent level f.2 ++ after)) =
      renderAt indent level f.2 ++ after := by
    have h := skipSpace_append (show ∀ c ∈ [CodePoint.ofChar ' '], isSpace c = true by
      simp [isSpace]) (renderAt indent level f.2 ++ after)
    rw [hvalue] at h
    exact h
  have hread := hr after ha
  rw [renderField_append, parseFields.eq_def]
  have hcolon : skipSpace (CodePoint.ofChar ':' :: CodePoint.ofChar ' ' ::
      (renderAt indent level f.2 ++ after)) = CodePoint.ofChar ':' :: CodePoint.ofChar ' ' ::
        (renderAt indent level f.2 ++ after) := skipSpace_cons rfl _
  simp only [ne_eq, not_true_eq_false, if_false, hkey, bind, Except.bind, hcolon, hblank, hread, hc]
  rfl

theorem parseFields_renderFields {f : Text × Json} {fields : List (Text × Json)} {blanks : Text}
    (fuel : Nat) (ht : ∀ g ∈ f :: fields, g.1.Unpaired) (hl : ∀ g ∈ f :: fields, Legible g.2)
    (hr : ∀ g ∈ f :: fields, Reads read indent level g.2)
    (hb : ∀ c ∈ blanks, isSpace c = true) (hf : fields.length < fuel) (rest : Text) :
    parseFields read fuel (renderField indent level f ++ (renderFields indent level fields ++
      Closing '\x7d' blanks rest)) = .ok (f :: fields, rest) := by
  induction fields generalizing f fuel with
  | nil =>
    obtain ⟨fuel, rfl⟩ : ∃ k, fuel = k + 1 := ⟨fuel - 1, by omega⟩
    have hclose := apart_closing '\x7d' (fun _ => apart_cons (by decide) _) hb rest
    rw [renderFields, List.nil_append, parseFields_succ (ht f (by simp)) (hl f (by simp))
      (hr f (by simp)) hclose (skipSpace_closing rfl hb rest), if_pos rfl]
  | cons g fields ih =>
    obtain ⟨fuel, rfl⟩ : ∃ k, fuel = k + 1 := ⟨fuel - 1, by omega⟩
    obtain ⟨gap, hgap, hspace⟩ := exists_separator indent level
    have htail := @ih g fuel (fun h hh => ht h (List.mem_cons_of_mem _ hh))
      (fun h hh => hl h (List.mem_cons_of_mem _ hh))
      (fun h hh => hr h (List.mem_cons_of_mem _ hh)) (by simpa using hf)
    have hsplit : renderFields indent level (g :: fields) ++ Closing '\x7d' blanks rest =
        CodePoint.ofChar ',' :: (gap ++ (renderField indent level g ++
          (renderFields indent level fields ++ Closing '\x7d' blanks rest))) := by
      rw [renderFields, hgap]
      simp
    have hnext : skipSpace (renderField indent level g ++ (renderFields indent level fields ++
        Closing '\x7d' blanks rest)) = renderField indent level g ++
          (renderFields indent level fields ++ Closing '\x7d' blanks rest) := by
      rw [renderField_append]
      exact skipSpace_cons rfl _
    rw [hsplit, parseFields_succ (ht f (by simp)) (hl f (by simp)) (hr f (by simp))
      (apart_cons (by decide) _) (skipSpace_cons rfl _), if_neg (by decide), if_pos rfl,
      skipSpace_append hspace, hnext, htail]
    rfl

theorem length_le_renderFields (indent : Option Nat) (level : Nat)
    (fields : List (Text × Json)) :
    fields.length ≤ (renderFields indent level fields).length := by
  induction fields with
  | nil => simp
  | cons f fields ih =>
    obtain ⟨gap, hgap, -⟩ := exists_separator indent level
    rw [renderFields, hgap]
    simp only [List.cons_append, List.length_cons, List.length_append]
    omega

end Items

theorem insertField_of_not_mem {key : Text} {fs : List (Text × Json)}
    (h : key ∉ fs.map Prod.fst) (value : Json) : insertField key value fs = fs ++ [(key, value)] := by
  induction fs with
  | nil => rfl
  | cons f fs ih =>
    rw [List.map_cons, List.mem_cons, not_or] at h
    have hk : f.1 ≠ key := fun e => h.1 e.symm
    simp [insertField, hk, ih h.2]

theorem foldl_insertField (acc fs : List (Text × Json)) (h : ((acc ++ fs).map Prod.fst).Nodup) :
    fs.foldl (fun acc (k, v) => insertField k v acc) acc = acc ++ fs := by
  induction fs generalizing acc with
  | nil => simp
  | cons f fs ih =>
    have hf : f.1 ∉ acc.map Prod.fst := by
      rw [List.map_append, List.map_cons, List.nodup_append] at h
      exact fun hm => h.2.2 f.1 hm f.1 List.mem_cons_self rfl
    rw [List.foldl_cons]
    change fs.foldl _ (insertField f.1 f.2 acc) = _
    rw [insertField_of_not_mem hf, ih _ (by simpa using h)]
    simp

/-- Fields of distinct keys are kept as they come. -/
theorem ofFields_of_nodup {fs : List (Text × Json)} (h : (fs.map Prod.fst).Nodup) :
    ofFields fs = .object fs := by
  rw [ofFields, foldl_insertField [] fs (by simpa using h), List.nil_append]

theorem depth_le_of_mem {items : List Json} {j : Json} (h : j ∈ items) :
    j.depth ≤ depthItems items := by
  induction items with
  | nil => cases h
  | cons item items ih =>
    rw [depthItems]
    rcases List.mem_cons.mp h with rfl | h
    · exact le_max_left _ _
    · exact (ih h).trans (le_max_right _ _)

theorem depth_le_of_mem_fields {fields : List (Text × Json)} {f : Text × Json} (h : f ∈ fields) :
    f.2.depth ≤ depthFields fields := by
  induction fields with
  | nil => cases h
  | cons g fields ih =>
    rw [depthFields]
    rcases List.mem_cons.mp h with rfl | h
    · exact le_max_left _ _
    · exact (ih h).trans (le_max_right _ _)

theorem reads_array {items : List Json} {d : Nat} {indent : Option Nat} {level : Nat}
    (hl : ∀ j ∈ items, Legible j) (hr : ∀ j ∈ items, Reads (parseValue d) indent (level + 1) j) :
    Reads (parseValue (d + 1)) indent level (.array items) := by
  intro rest _
  cases items with
  | nil => rfl
  | cons item items =>
    have hblank {c : CodePoint} (h : c ∈ lineBreak indent (level + 1)) := isSpace_of_mem_lineBreak h
    have hclose {c : CodePoint} (h : c ∈ lineBreak indent level) := isSpace_of_mem_lineBreak h
    have hopen := (opening_renderAt (hl item (by simp)) indent (level + 1)).append
      (renderItems indent (level + 1) items ++ Closing ']' (lineBreak indent level) rest)
    have hlen := length_le_renderItems indent (level + 1) items
    have hitems := parseItems_renderItems (renderAt indent (level + 1) item ++
      (renderItems indent (level + 1) items ++ Closing ']' (lineBreak indent level) rest)).length
      hl hr (fun _ h => hclose h) (by
        simp only [Closing, List.length_append, List.length_cons]
        omega) rest
    have hsplit : renderAt indent level (.array (item :: items)) ++ rest =
        CodePoint.ofChar '[' :: (lineBreak indent (level + 1) ++ (renderAt indent (level + 1) item ++
          (renderItems indent (level + 1) items ++
            Closing ']' (lineBreak indent level) rest))) := by
      simp [renderAt, Closing, Text.ofString]
    rw [hsplit, parseValue.eq_def]
    simp only [if_neg (show CodePoint.ofChar '[' ≠ CodePoint.ofChar '"' by decide), if_true]
    rw [skipSpace_append fun _ h => hblank h, hopen.skipSpace, hitems]
    obtain ⟨c, tail, ht, -, hc, -⟩ := hopen
    rw [ht]
    simp only [List.head?_cons, Option.some.injEq, if_neg hc]
    rfl

theorem reads_object {fields : List (Text × Json)} {d : Nat} {indent : Option Nat} {level : Nat}
    (hk : (fields.map Prod.fst).Nodup) (ht : ∀ f ∈ fields, f.1.Unpaired)
    (hl : ∀ f ∈ fields, Legible f.2)
    (hr : ∀ f ∈ fields, Reads (parseValue d) indent (level + 1) f.2) :
    Reads (parseValue (d + 1)) indent level (.object fields) := by
  intro rest _
  cases fields with
  | nil => rfl
  | cons f fields =>
    have hlen := length_le_renderFields indent (level + 1) fields
    have hblank (c : CodePoint) (h : c ∈ lineBreak indent level) := isSpace_of_mem_lineBreak h
    have hfields := parseFields_renderFields (renderField indent (level + 1) f ++
      (renderFields indent (level + 1) fields ++
        Closing '\x7d' (lineBreak indent level) rest)).length ht hl hr hblank (by
        simp only [Closing, List.length_append, List.length_cons]
        omega) rest
    have hsplit : renderAt indent level (.object (f :: fields)) ++ rest =
        CodePoint.ofChar '\x7b' :: (lineBreak indent (level + 1) ++
          (renderField indent (level + 1) f ++ (renderFields indent (level + 1) fields ++
            Closing '\x7d' (lineBreak indent level) rest))) := by
      simp [renderAt, Closing, Text.ofString]
    rw [hsplit, parseValue.eq_def]
    simp only [if_neg (show CodePoint.ofChar '\x7b' ≠ CodePoint.ofChar '"' by decide),
      if_neg (show CodePoint.ofChar '\x7b' ≠ CodePoint.ofChar '[' by decide), if_true]
    rw [skipSpace_append fun _ h => isSpace_of_mem_lineBreak h]
    rw [renderField_append] at hfields ⊢
    rw [skipSpace_cons rfl, hfields]
    simp only [List.head?_cons, Option.some.injEq,
      if_neg (show CodePoint.ofChar '"' ≠ CodePoint.ofChar '\x7d' by decide)]
    change Except.ok (ofFields (f :: fields), rest) = _
    rw [ofFields_of_nodup hk]

/-- The written form of a value is read as the value, and the reader stops where it ends. -/
theorem reads_of_legible {j : Json} (h : Legible j) {d : Nat} (hd : j.depth ≤ d)
    (indent : Option Nat) (level : Nat) : Reads (parseValue d) indent level j := by
  induction h generalizing d level with
  | null => exact fun rest _ => parseValue_null d rest
  | bool b =>
    intro rest _
    cases b with
    | true => exact parseValue_bool true d rest
    | false => exact parseValue_bool false d rest
  | int hn => exact fun rest h => parseValue_int hn d h
  | string ht => exact fun rest _ => parseValue_renderString ht d rest
  | array hl ih =>
    rw [depth] at hd
    obtain ⟨d, rfl⟩ : ∃ k, d = k + 1 := ⟨d - 1, by omega⟩
    refine reads_array hl fun j hj => ih j hj ?_ _
    have := depth_le_of_mem hj
    omega
  | object hk ht hl ih =>
    rw [depth] at hd
    obtain ⟨d, rfl⟩ : ∃ k, d = k + 1 := ⟨d - 1, by omega⟩
    refine reads_object hk ht hl fun f hf => ih f hf ?_ _
    have := depth_le_of_mem_fields hf
    omega

theorem parse_render {j : Json} (h : Legible j) {d : Nat} (hd : j.depth ≤ d)
    (indent : Option Nat) : parse d (j.render indent) = .ok j := by
  have hread := reads_of_legible h hd indent 0 [] (fun c hc => by cases hc)
  rw [List.append_nil] at hread
  rw [parse, render, (opening_renderAt h indent 0).skipSpace, hread]
  rfl

/-! ### Bytes -/

theorem scalar_escape (c : CodePoint) : (escape c).Scalar := by
  have hunit (n : Nat) : (unitEscape n).Scalar :=
    (Text.scalar_ofString _).append (.append (fun d hd => List.eq_of_mem_replicate hd ▸
      CodePoint.scalar_ofChar '0') (List.forall_mem_map.mpr fun d _ => CodePoint.scalar_ofChar d))
  unfold escape
  simp only
  split_ifs with _ _ _ _ _ _ _ hc
  · exact Text.scalar_ofString _
  · exact Text.scalar_ofString _
  · exact Text.scalar_ofString _
  · exact Text.scalar_ofString _
  · exact Text.scalar_ofString _
  · exact Text.scalar_ofString _
  · exact Text.scalar_ofString _
  · intro d hd
    rw [List.mem_singleton.mp hd]
    exact .inl (by omega)
  · exact hunit _
  · exact (hunit _).append (hunit _)

theorem scalar_renderString (t : Text) : (renderString t).Scalar :=
  ((Text.scalar_ofString _).append (.flatMap fun c _ => scalar_escape c)).append
    (Text.scalar_ofString _)

theorem scalar_lineBreak (indent : Option Nat) (level : Nat) : (lineBreak indent level).Scalar := by
  cases indent with
  | none => exact .nil
  | some n =>
    exact (Text.scalar_ofString _).append fun c hc =>
      List.eq_of_mem_replicate hc ▸ CodePoint.scalar_ofChar ' '

theorem scalar_comma (indent : Option Nat) : (comma indent).Scalar := by
  cases indent <;> exact Text.scalar_ofString _

section Scalar
variable {indent : Option Nat} {level : Nat}

theorem scalar_renderItems {items : List Json}
    (h : ∀ j ∈ items, (renderAt indent level j).Scalar) :
    (renderItems indent level items).Scalar := by
  induction items with
  | nil => exact .nil
  | cons item items ih =>
    rw [List.forall_mem_cons] at h
    rw [renderItems]
    exact (((scalar_comma _).append (scalar_lineBreak _ _)).append h.1).append (ih h.2)

theorem scalar_renderField {f : Text × Json} (h : (renderAt indent level f.2).Scalar) :
    (renderField indent level f).Scalar := by
  obtain ⟨key, value⟩ := f
  rw [renderField]
  exact ((scalar_renderString key).append (Text.scalar_ofString _)).append h

theorem scalar_renderFields {fields : List (Text × Json)}
    (h : ∀ f ∈ fields, (renderAt indent level f.2).Scalar) :
    (renderFields indent level fields).Scalar := by
  induction fields with
  | nil => exact .nil
  | cons f fields ih =>
    rw [List.forall_mem_cons] at h
    rw [renderFields]
    exact (((scalar_comma _).append (scalar_lineBreak _ _)).append
      (scalar_renderField h.1)).append (ih h.2)

end Scalar

/-- Surrogates are written as escapes, never as they are. -/
theorem scalar_renderAt {j : Json} (h : Legible j) (indent : Option Nat) (level : Nat) :
    (renderAt indent level j).Scalar := by
  induction h generalizing level with
  | null => exact Text.scalar_ofString _
  | bool b => cases b <;> exact Text.scalar_ofString _
  | int => exact Text.scalar_ofString _
  | string => exact scalar_renderString _
  | @array items _ ih =>
    cases items with
    | nil => exact Text.scalar_ofString _
    | cons item items =>
      rw [List.forall_mem_cons] at ih
      rw [renderAt]
      exact (((((Text.scalar_ofString _).append (scalar_lineBreak _ _)).append (ih.1 _)).append
        (scalar_renderItems fun j hj => ih.2 j hj _)).append (scalar_lineBreak _ _)).append
        (Text.scalar_ofString _)
  | @object fields _ _ _ ih =>
    cases fields with
    | nil => exact Text.scalar_ofString _
    | cons f fields =>
      rw [List.forall_mem_cons] at ih
      rw [renderAt]
      exact (((((Text.scalar_ofString _).append (scalar_lineBreak _ _)).append
        (scalar_renderField (ih.1 _))).append
        (scalar_renderFields fun f hf => ih.2 f hf _)).append (scalar_lineBreak _ _)).append
        (Text.scalar_ofString _)

end ElfScope.Json
