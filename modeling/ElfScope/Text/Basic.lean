/-! # Text

Text is a list of code points. Unlike a `String` it may hold a surrogate on its own, as an escape
in a JSON document can.
-/
namespace ElfScope

structure CodePoint where
  value : Nat
  lt : value < 0x110000
deriving DecidableEq

abbrev Text := List CodePoint

namespace CodePoint

def ofChar (c : Char) : CodePoint where
  value := c.toNat
  lt := by
    have h := c.valid
    simp only [UInt32.isValidChar, Nat.isValidChar] at h
    change c.val.toNat < _
    omega

instance : Coe Char CodePoint := ⟨ofChar⟩
instance : Inhabited CodePoint := ⟨⟨0, by decide⟩⟩

/-- What stands for bytes that are not text. -/
def replacement : CodePoint := ⟨0xfffd, by decide⟩

/-- The code point of a number; the replacement where there is none. -/
def ofNat (n : Nat) : CodePoint := if h : n < 0x110000 then ⟨n, h⟩ else replacement

def isHighSurrogate (c : CodePoint) : Bool := 0xd800 ≤ c.value && c.value < 0xdc00
def isLowSurrogate (c : CodePoint) : Bool := 0xdc00 ≤ c.value && c.value < 0xe000

def isDigit (c : CodePoint) : Bool := 0x30 ≤ c.value && c.value ≤ 0x39

/-- The white space of the Unicode standard, and the four separators among the ASCII controls. -/
def isBlank (c : CodePoint) : Bool :=
  let n := c.value
  (0x09 ≤ n && n ≤ 0x0d) || (0x1c ≤ n && n ≤ 0x20) || n == 0x85 || n == 0xa0 || n == 0x1680 ||
    (0x2000 ≤ n && n ≤ 0x200a) || n == 0x2028 || n == 0x2029 || n == 0x202f || n == 0x205f ||
    n == 0x3000

/-- ASCII capitals. Two letters beyond ASCII, the dotless i and the long s, have one too. -/
def capital (c : CodePoint) : CodePoint :=
  if 0x61 ≤ c.value && c.value ≤ 0x7a then ofNat (c.value - 0x20)
  else if c.value == 0x131 then 'I'
  else if c.value == 0x17f then 'S'
  else c

end CodePoint

namespace Text

def ofString (s : String) : Text := s.toList.map CodePoint.ofChar

instance : Coe String Text := ⟨ofString⟩

def ofNat (n : Nat) : Text := ofString (toString n)
def ofInt (n : Int) : Text := ofString (toString n)

/-- Digits in base sixteen, lower case. -/
def hex (n : Nat) : Text := (Nat.toDigits 16 n).map CodePoint.ofChar

/-- The last `width` digits in base sixteen. -/
def hexPadded (width n : Nat) : Text :=
  let digits := hex n
  List.replicate (width - digits.length) (CodePoint.ofChar '0') ++ digits

def trim (t : Text) : Text :=
  ((t.dropWhile CodePoint.isBlank).reverse.dropWhile CodePoint.isBlank).reverse

def capitals (t : Text) : Text := t.map CodePoint.capital

/-- The parts between separators. -/
def splitOn (separator : CodePoint) : Text → List Text
  | [] => [[]]
  | c :: rest =>
    if c = separator then [] :: splitOn separator rest
    else match splitOn separator rest with
      | [] => [[c]]
      | part :: parts => (c :: part) :: parts

def join (separator : Text) : List Text → Text
  | [] => []
  | [t] => t
  | t :: rest => t ++ separator ++ join separator rest

def startsWith (t start : Text) : Bool := start.isPrefixOf t

def endsWith (t ending : Text) : Bool := ending.isSuffixOf t

/-- The parts before and after the first place where a mark stands. -/
def cut? (mark : Text) : Text → Option (Text × Text)
  | [] => if mark.isEmpty then some ([], []) else none
  | c :: rest =>
    if startsWith (c :: rest) mark then some ([], (c :: rest).drop mark.length)
    else (cut? mark rest).map fun (before, after) => (c :: before, after)

/-- Order by code points. -/
def le : Text → Text → Bool
  | [], _ => true
  | _ :: _, [] => false
  | a :: s, b :: t => a.value < b.value || (a.value == b.value && le s t)

end ElfScope.Text
