import ElfScope.Bytes.Basic
import ElfScope.Files.Path

/-! # File trees

A file system as a value: directories, and files with their content. The root is always there.
-/
namespace ElfScope

inductive Node where
  | file (content : Bytes)
  | directory
deriving DecidableEq

structure FileTree where
  nodes : List (Path × Node) := []
deriving DecidableEq

namespace FileTree

def node? (t : FileTree) (p : Path) : Option Node :=
  if p.isEmpty then some .directory else t.nodes.lookup p

def put (t : FileTree) (p : Path) (n : Node) : FileTree :=
  ⟨if t.nodes.any (·.1 = p) then t.nodes.map fun (q, old) => (q, if q = p then n else old)
    else t.nodes ++ [(p, n)]⟩

/-- Adds a node, and the directories above it that are not there. -/
def plant (t : FileTree) (p : Path) (n : Node) : FileTree :=
  let above := (List.range p.length).map p.take
  let t := above.foldl (fun t q => if (t.node? q).isNone then t.put q .directory else t) t
  t.put p n

/-- Goes down from a place. Every name but the last must lead to a directory. -/
def descend (t : FileTree) : Path → List Text → Except FileError Path
  | here, [] => .ok here
  | here, part :: rest =>
    match t.node? here with
    | none => .error .noSuchFile
    | some (.file _) => .error .notADirectory
    | some .directory =>
      if part = Text.ofString "." then descend t here rest
      else if part = Text.ofString ".." then descend t here.dropLast rest
      else if 255 < (Utf8.encode part).length then .error .nameTooLong
      else descend t (here ++ [part]) rest

/-- Where a name leads from a place, whether or not there is anything. -/
def resolve (t : FileTree) (here : Path) (name : Text) : Except FileError Path := do
  Path.checkName name
  if name.isEmpty then throw .noSuchFile
  if 4096 ≤ (Utf8.encode name).length then throw .nameTooLong
  t.descend (if Path.isAbsolute name then [] else here) (Path.parts name)

def readFile (t : FileTree) (here : Path) (name : Text) : Except FileError Bytes := do
  match t.node? (← t.resolve here name) with
  | none => throw .noSuchFile
  | some .directory => throw .isADirectory
  | some (.file content) => if Path.wantsDirectory name then throw .notADirectory else return content

/-- The place of a file that is to be written. -/
def target (t : FileTree) (here : Path) (name : Text) : Except FileError Path := do
  let p ← t.resolve here name
  if Path.wantsDirectory name then throw .isADirectory
  match t.node? p with
  | some .directory => throw .isADirectory
  | _ => return p

def contentAt (t : FileTree) (p : Path) : Bytes :=
  match t.node? p with
  | some (.file content) => content
  | _ => []

def directory (t : FileTree) (here : Path) (name : Text) : Except FileError Path := do
  let p ← t.resolve here name
  match t.node? p with
  | none => throw .noSuchFile
  | some (.file _) => throw .notADirectory
  | some .directory => return p

end FileTree

end ElfScope
