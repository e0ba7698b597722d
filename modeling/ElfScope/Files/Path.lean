import ElfScope.Text.Quoted
import ElfScope.Text.Utf8

/-! # Paths

Names of files, and why a name leads nowhere.
-/
namespace ElfScope

inductive FileError where
  | noSuchFile
  | notADirectory
  | isADirectory
  | nameTooLong
  | embeddedNul
  /-- What only some systems refuse. -/
  | other (number : Nat) (reason : Text)
  /-- A run of surrogates, from its first character to its last. -/
  | unencodable (first last : Nat) (point : CodePoint)
deriving DecidableEq

namespace FileError

/-- The number and wording of the errors that a file system gives. The other ones are about a name
that is none. -/
def system? : FileError → Option (Nat × Text)
  | .noSuchFile => some (2, "No such file or directory")
  | .notADirectory => some (20, "Not a directory")
  | .isADirectory => some (21, "Is a directory")
  | .nameTooLong => some (36, "File name too long")
  | .other number reason => some (number, reason)
  | .embeddedNul | .unencodable .. => none

def message (path : Text) (e : FileError) : Text :=
  match e, e.system? with
  | _, some (number, reason) =>
    "[Errno " ++ Text.ofNat number ++ "] " ++ reason ++ ": " ++ Text.quoted path
  | .unencodable first last point, none =>
    let place : Text :=
      if first = last then
        "character '" ++ Text.escapePoint '\'' point ++ "' in position " ++ Text.ofNat first
      else "characters in position " ++ Text.ofNat first ++ "-" ++ Text.ofNat last
    "'utf-8' codec can't encode " ++ place ++ ": surrogates not allowed"
  | _, none => "embedded null byte"

end FileError

/-- The names from the root down. -/
abbrev Path := List Text

namespace Path

def separator : CodePoint := '/'

def isSurrogate (c : CodePoint) : Bool := c.isHighSurrogate || c.isLowSurrogate

/-- Surrogates that stand for a byte of a name. -/
def isByteSurrogate (c : CodePoint) : Bool := 0xdc80 ≤ c.value && c.value < 0xdd00

/-- What makes a text no name. -/
def checkName (name : Text) : Except FileError Unit := do
  match name.findIdx? fun c => isSurrogate c && !isByteSurrogate c with
  | some first =>
    let run := (name.drop first).takeWhile isSurrogate
    throw (.unencodable first (first + run.length - 1) (run.headD .replacement))
  | none => if name.any (·.value = 0) then throw .embeddedNul

def isAbsolute (name : Text) : Bool := name.head? = some separator

/-- A name that ends in a separator can only be that of a directory. -/
def wantsDirectory (name : Text) : Bool := name.getLast? = some separator

def parts (name : Text) : List Text := (Text.splitOn separator name).filter (!·.isEmpty)

def render (p : Path) : Text := "/" ++ Text.join "/" p

/-- Follows the names from a place without looking at what is there. -/
def follow : Path → List Text → Path
  | p, [] => p
  | p, part :: rest =>
    if part = Text.ofString "." then follow p rest
    else if part = Text.ofString ".." then follow p.dropLast rest
    else follow (p ++ [part]) rest

/-- The absolute name of a name that is relative to a place. Two separators in front are kept, and
more of them count as one. -/
def absolute (here : Path) (name : Text) : Text :=
  let path := render (follow (if isAbsolute name then [] else here) (parts name))
  if (name.takeWhile (· = separator)).length = 2 then separator :: path else path

end Path

end ElfScope
