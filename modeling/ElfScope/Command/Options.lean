import ElfScope.Text.Digits
import ElfScope.Text.Quoted

/-! # Options

The arguments of a command are words, options with or without a value, and a separator after which
all are words. The name of an option may be cut short as long as only one option starts so, and its
value may follow an equals sign. What a command does not know is left over.
-/
namespace ElfScope

inductive OptionKind where
  /-- With a value, out of some choices if there are any. -/
  | value (choices : List Text)
  | switch
deriving DecidableEq

structure OptionForm where
  name : Text
  kind : OptionKind
deriving DecidableEq

/-- What a command takes. -/
structure CommandForm where
  program : Text
  /-- The word that must be given, if there is one. -/
  word : Option Text
  /-- Whether help can be asked for, with `-h` or `--help`. -/
  helps : Bool
  options : List OptionForm

/-- What an option name stands for. -/
inductive Target where
  | help
  | option (o : OptionForm)
deriving DecidableEq

def Target.title : Target → Text
  | .help => "-h/--help"
  | .option o => o.name

/-- Why arguments are refused. -/
inductive Misuse where
  | ambiguous (given : Text) (names : List Text)
  | valueMissing (o : Target)
  | valueUnwanted (o : Target) (value : Text)
  | valueUnknown (o : Target) (value : Text) (choices : List Text)
  | wordMissing (word : Text)
  | leftOver (arguments : List Text)
deriving DecidableEq

namespace Misuse

def about (o : Target) (reason : Text) : Text := "argument " ++ o.title ++ ": " ++ reason

def message : Misuse → Text
  | .ambiguous given names =>
    "ambiguous option: " ++ given ++ " could match " ++ Text.join ", " names
  | .valueMissing o => about o "expected one argument"
  | .valueUnwanted o value => about o ("ignored explicit argument " ++ Text.quoted value)
  | .valueUnknown o value choices =>
    about o ("invalid choice: " ++ Text.quoted value ++ " (choose from " ++
      Text.join ", " (choices.map Text.quoted) ++ ")")
  | .wordMissing word => "the following arguments are required: " ++ word
  | .leftOver arguments => "unrecognized arguments: " ++ Text.join " " arguments

end Misuse

/-- Why a command is not carried out. -/
inductive Stop where
  | help
  | misuse (e : Misuse)
deriving DecidableEq

/-- The text that is attached to an option, and whether an equals sign comes before it. -/
structure Attached where
  marked : Bool
  text : Text
deriving DecidableEq

inductive Token where
  | word (t : Text)
  | separator
  | option (o : Target) (attached : Option Attached)
  | unknown (t : Text)
deriving DecidableEq

/-- What was given. The last value of an option counts. -/
structure Arguments where
  values : List (Text × Text) := []
  switches : List Text := []
  word : Option Text := none
  rest : List Text := []
deriving DecidableEq

namespace Arguments

def value? (a : Arguments) (name : Text) : Option Text := a.values.lookup name

def isOn (a : Arguments) (name : Text) : Bool := a.switches.contains name

def leave (a : Arguments) (t : Text) : Arguments := { a with rest := a.rest ++ [t] }

end Arguments

namespace CommandForm

def dash : CodePoint := '-'

def separator : Text := [dash, dash]

/-- All names, in the order in which they are told of. -/
def names (f : CommandForm) : List (Text × Target) :=
  (if f.helps then [(Text.ofString "-h", .help), (Text.ofString "--help", .help)] else []) ++
    f.options.map fun o => (o.name, .option o)

def target? (f : CommandForm) (name : Text) : Option Target := f.names.lookup name

/-- Digits after a dash, with a point before or among them. A line break may end the text. -/
def isNegativeNumber (t : Text) : Bool :=
  let t := if t.getLast? = some (CodePoint.ofChar '\n') then t.dropLast else t
  match t with
  | [] => false
  | c :: rest =>
    let fraction := rest.dropWhile CodePoint.isDecimal
    let digits := match fraction with
      | [] => rest
      | point :: digits => if point = '.' then digits else []
    c = dash && !digits.isEmpty && digits.all CodePoint.isDecimal

/-- The options that a text may be the beginning of. -/
def candidates (f : CommandForm) (t : Text) : List (Text × Token) :=
  if t.startsWith separator then
    let (start, attached) := match Text.cut? "=" t with
      | some (start, value) => (start, some (Attached.mk true value))
      | none => (t, none)
    f.names.filterMap fun (name, o) =>
      if name.startsWith start then some (name, .option o attached) else none
  else
    f.names.filterMap fun (name, o) =>
      if name = t.take 2 then some (name, .option o (some ⟨false, t.drop 2⟩))
      else if name.startsWith t then some (name, .option o none)
      else none

def classify (f : CommandForm) (t : Text) : Except Misuse Token :=
  if t.head? ≠ some dash then .ok (.word t)
  else if let some o := f.target? t then .ok (.option o none)
  else if t.length = 1 then .ok (.word t)
  else
    let assigned : Option Token := do
      let (name, value) ← Text.cut? "=" t
      let o ← f.target? name
      return .option o (some ⟨true, value⟩)
    match assigned, f.candidates t with
    | some token, _ => .ok token
    | none, [(_, token)] => .ok token
    | none, [] =>
      if isNegativeNumber t || t.contains (CodePoint.ofChar ' ') then .ok (.word t)
      else .ok (.unknown t)
    | none, found => .error (.ambiguous t (found.map (·.1)))

def tokens (f : CommandForm) : List Text → Except Misuse (List Token)
  | [] => .ok []
  | t :: rest =>
    if t = separator then .ok (.separator :: rest.map .word)
    else do
      let token ← f.classify t
      return token :: (← tokens f rest)

/-- What comes of text that is attached to `-h`: only another `h` may follow it. -/
def attachedToHelp : Bool → Text → Stop
  | true, value => .misuse (.valueUnwanted .help value)
  | false, [] => .help
  | false, c :: rest =>
    if c = dash then .misuse (.valueUnwanted .help (c :: rest))
    else if c = 'h' then
      match rest with
      | [] => .help
      | c :: value =>
        if c = '=' then .misuse (.valueUnwanted .help value) else attachedToHelp false rest
    else .help

def give (a : Arguments) (o : OptionForm) (choices : List Text) (value : Text) :
    Except Stop Arguments :=
  if choices.isEmpty || choices.contains value then
    .ok { a with values := (o.name, value) :: a.values }
  else .error (.misuse (.valueUnknown (.option o) value choices))

def wants (f : CommandForm) (a : Arguments) : Bool := f.word.isSome && a.word.isNone

/-- Goes through the tokens. A separator beside the word that is wanted is dropped. -/
def collect (f : CommandForm) : List Token → Arguments → Except Stop Arguments
  | [], a => .ok a
  | .word t :: .separator :: tokens, a =>
    if f.wants a then collect f tokens { a with word := some t }
    else collect f (.separator :: tokens) (a.leave t)
  | .word t :: tokens, a =>
    collect f tokens (if f.wants a then { a with word := some t } else a.leave t)
  | .separator :: .word t :: tokens, a =>
    if f.wants a then collect f tokens { a with word := some t }
    else collect f (.word t :: tokens) (a.leave separator)
  | .separator :: tokens, a => collect f tokens (a.leave separator)
  | .unknown t :: tokens, a => collect f tokens (a.leave t)
  | .option .help none :: _, _ => .error .help
  | .option .help (some v) :: _, _ => .error (attachedToHelp v.marked v.text)
  | .option (.option ⟨name, .switch⟩) none :: tokens, a =>
    collect f tokens { a with switches := name :: a.switches }
  | .option (.option ⟨name, .switch⟩) (some v) :: _, _ =>
    .error (.misuse (.valueUnwanted (.option ⟨name, .switch⟩) v.text))
  | .option (.option ⟨name, .value choices⟩) (some v) :: tokens, a => do
    collect f tokens (← give a ⟨name, .value choices⟩ choices v.text)
  | .option (.option ⟨name, .value choices⟩) none :: .word v :: tokens, a => do
    collect f tokens (← give a ⟨name, .value choices⟩ choices v)
  | .option (.option o) none :: _, _ => .error (.misuse (.valueMissing (.option o)))

/-- The arguments as far as the command knows them. -/
def parseKnown (f : CommandForm) (arguments : List Text) : Except Stop Arguments := do
  let tokens ← (f.tokens arguments).mapError .misuse
  let a ← f.collect tokens {}
  match f.word, a.word with
  | some word, none => throw (.misuse (.wordMissing word))
  | _, _ => return a

/-- Nothing may be left over. -/
def parse (f : CommandForm) (arguments : List Text) : Except Stop Arguments := do
  let a ← f.parseKnown arguments
  if a.rest.isEmpty then return a else throw (.misuse (.leftOver a.rest))

end CommandForm

end ElfScope
