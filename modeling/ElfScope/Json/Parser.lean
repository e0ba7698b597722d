import ElfScope.Json.Basic

/-! # Reading JSON

The grammar is the standard one, with `NaN` and the two infinities as numbers. Arrays and objects
may be nested up to a depth, and integers have at most 4300 digits.
-/
namespace ElfScope.Json

inductive ParseError where
  | malformed
  | tooDeep
  | longInteger (digits : Nat)
deriving DecidableEq, Repr

def maxIntegerDigits : Nat := 4300

/-- What is told of an integer with too many digits; their number is left out where it is not
known. -/
def tooManyDigits (digits : Option Nat) : Text :=
  let found : Text := match digits with
    | some n => ": value has " ++ Text.ofNat n ++ " digits"
    | none => []
  "Exceeds the limit (4300 digits) for integer string conversion" ++ found ++
    "; use sys.set_int_max_str_digits() to increase the limit"

def isSpace (c : CodePoint) : Bool :=
  c.value == 0x20 || c.value == 0x09 || c.value == 0x0a || c.value == 0x0d

def skipSpace (cs : Text) : Text := cs.dropWhile isSpace

def hexDigit? (c : CodePoint) : Option Nat :=
  let n := c.value
  if 0x30 ≤ n ∧ n ≤ 0x39 then some (n - 0x30)
  else if 0x61 ≤ n ∧ n ≤ 0x66 then some (n - 0x57)
  else if 0x41 ≤ n ∧ n ≤ 0x46 then some (n - 0x37)
  else none

def hexNumber? (ds : Text) : Option Nat :=
  ds.foldlM (fun n d => (hexDigit? d).map (16 * n + ·)) 0

/-- What a string holds before surrogates are paired: a character that stands for itself, or a
sixteen bit unit written as an escape. -/
inductive Piece where
  | plain (c : CodePoint)
  | unit (n : Nat)
deriving DecidableEq

/-- The character of an escape of one letter. -/
def shortEscape? (c : CodePoint) : Option CodePoint :=
  if c = '"' ∨ c = '\\' ∨ c = '/' then some c
  else if c = 'b' then some '\x08'
  else if c = 'f' then some '\x0c'
  else if c = 'n' then some '\n'
  else if c = 'r' then some '\r'
  else if c = 't' then some '\t'
  else none

/-- The pieces up to the closing quote. -/
def pieces : Text → Except ParseError (List Piece × Text)
  | [] => .error .malformed
  | c :: rest =>
    if c = '"' then .ok ([], rest)
    else if c.value < 0x20 then .error .malformed
    else if c ≠ '\\' then do
      let (ps, tail) ← pieces rest
      return (.plain c :: ps, tail)
    else match rest with
      | [] => .error .malformed
      | e :: rest =>
        if e ≠ 'u' then
          match shortEscape? e with
          | none => .error .malformed
          | some c => do
            let (ps, tail) ← pieces rest
            return (.plain c :: ps, tail)
        else match rest with
          | a :: b :: c :: d :: rest =>
            match hexNumber? [a, b, c, d] with
            | none => .error .malformed
            | some n => do
              let (ps, tail) ← pieces rest
              return (.unit n :: ps, tail)
          | _ => .error .malformed

/-- Joins an escaped high surrogate with the escaped low one that follows it. -/
def assemble : List Piece → Text
  | [] => []
  | .plain c :: rest => c :: assemble rest
  | [.unit n] => [.ofNat n]
  | .unit n :: .plain c :: rest => .ofNat n :: c :: assemble rest
  | .unit n :: .unit m :: rest =>
    if 0xd800 ≤ n ∧ n < 0xdc00 ∧ 0xdc00 ≤ m ∧ m < 0xe000 then
      .ofNat (0x10000 + (n - 0xd800) * 0x400 + (m - 0xdc00)) :: assemble rest
    else .ofNat n :: assemble (.unit m :: rest)

/-- A string, from after its opening quote. -/
def parseString (cs : Text) : Except ParseError (Text × Text) := do
  let (ps, rest) ← pieces cs
  return (assemble ps, rest)

def digitsValue (ds : Text) : Nat := ds.foldl (fun n d => 10 * n + (d.value - 0x30)) 0

/-- The digits after a point, where there are some. -/
def fraction? : Text → Option (Text × Text)
  | [] => none
  | c :: rest =>
    if c = '.' ∧ rest.head?.any CodePoint.isDigit then
      some (rest.takeWhile CodePoint.isDigit, rest.dropWhile CodePoint.isDigit)
    else none

/-- An exponent, where it is complete. -/
def exponent? : Text → Option (Int × Text)
  | [] => none
  | c :: rest =>
    if c ≠ 'e' ∧ c ≠ 'E' then none
    else
      let (negative, digits) : Bool × Text := match rest with
        | [] => (false, [])
        | s :: after =>
          if s = '-' then (true, after) else if s = '+' then (false, after) else (false, rest)
      let ds := digits.takeWhile CodePoint.isDigit
      if ds.isEmpty then none
      else
        let n : Int := digitsValue ds
        some (if negative then -n else n, digits.dropWhile CodePoint.isDigit)

/-- A number without its sign. -/
def parseMagnitude (negative : Bool) (cs : Text) : Except ParseError (Json × Text) :=
  let leading := cs.takeWhile CodePoint.isDigit
  let leading := if leading.head? = some (CodePoint.ofChar '0') then leading.take 1 else leading
  if leading.isEmpty then .error .malformed
  else
    let rest := cs.drop leading.length
    let fraction := fraction? rest
    let (places, rest) := fraction.getD ([], rest)
    let exponent := exponent? rest
    let (power, rest) := exponent.getD (0, rest)
    if fraction.isNone && exponent.isNone then
      if maxIntegerDigits < leading.length then .error (.longInteger leading.length)
      else
        let n : Int := digitsValue leading
        .ok (.int (if negative then -n else n), rest)
    else
      .ok (.real (.finite negative (digitsValue (leading ++ places)) (power - places.length)), rest)

/-- A keyword at the front, and its value. -/
def keyword? (cs : Text) : Option (Json × Text) :=
  let words : List (Text × Json) :=
    [("null", .null), ("true", .bool true), ("false", .bool false), ("NaN", .real .notANumber),
      ("Infinity", .real (.infinite false)), ("-Infinity", .real (.infinite true))]
  words.findSome? fun (word, value) =>
    if cs.startsWith word then some (value, cs.drop word.length) else none

def parseScalar (cs : Text) : Except ParseError (Json × Text) :=
  match keyword? cs with
  | some r => .ok r
  | none => match cs with
    | [] => .error .malformed
    | c :: rest => if c = '-' then parseMagnitude true rest else parseMagnitude false cs

/-- The items of an array, from a place where one is due. -/
def parseItems (item : Text → Except ParseError (Json × Text)) : Nat → Text → Except ParseError (List Json × Text)
  | 0, _ => .error .malformed
  | fuel + 1, cs => do
    let (v, rest) ← item cs
    match skipSpace rest with
    | [] => throw .malformed
    | c :: rest =>
      if c = ']' then return ([v], rest)
      else if c = ',' then
        let (vs, tail) ← parseItems item fuel (skipSpace rest)
        return (v :: vs, tail)
      else throw .malformed

/-- The fields of an object, from a place where one is due. -/
def parseFields (item : Text → Except ParseError (Json × Text)) : Nat → Text → Except ParseError (List (Text × Json) × Text)
  | 0, _ => .error .malformed
  | fuel + 1, cs =>
    match cs with
    | [] => .error .malformed
    | quote :: body =>
      if quote ≠ '"' then .error .malformed
      else do
        let (key, rest) ← parseString body
        match skipSpace rest with
        | [] => throw .malformed
        | colon :: rest =>
          if colon ≠ ':' then throw .malformed
          else
            let (v, rest) ← item (skipSpace rest)
            match skipSpace rest with
            | [] => throw .malformed
            | c :: rest =>
              if c = '\x7d' then return ([(key, v)], rest)
              else if c = ',' then
                let (fs, tail) ← parseFields item fuel (skipSpace rest)
                return ((key, v) :: fs, tail)
              else throw .malformed

def ofFields (fs : List (Text × Json)) : Json :=
  .object (fs.foldl (fun acc (k, v) => insertField k v acc) [])

/-- A value nested up to `depth` deep, from its first character. -/
def parseValue : Nat → Text → Except ParseError (Json × Text)
  | _, [] => .error .malformed
  | depth, c :: rest =>
    if c = '"' then do
      let (t, rest) ← parseString rest
      return (.string t, rest)
    else if c = '[' then
      match depth with
      | 0 => .error .tooDeep
      | depth + 1 =>
        let inner := skipSpace rest
        if inner.head? = some (CodePoint.ofChar ']') then .ok (.array [], inner.drop 1)
        else do
          let (vs, rest) ← parseItems (parseValue depth) inner.length inner
          return (.array vs, rest)
    else if c = '\x7b' then
      match depth with
      | 0 => .error .tooDeep
      | depth + 1 =>
        let inner := skipSpace rest
        if inner.head? = some (CodePoint.ofChar '\x7d') then .ok (.object [], inner.drop 1)
        else do
          let (fs, rest) ← parseFields (parseValue depth) inner.length inner
          return (ofFields fs, rest)
    else parseScalar (c :: rest)

/-- A whole text that holds one value. -/
def parse (depth : Nat) (cs : Text) : Except ParseError Json := do
  let (v, rest) ← parseValue depth (skipSpace cs)
  if (skipSpace rest).isEmpty then return v else throw .malformed

end ElfScope.Json
