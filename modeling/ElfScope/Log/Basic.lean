import ElfScope.Text.Basic

/-! # Log records

A log is the list of what was reported, oldest first. Which records are shown is settled later.
-/
namespace ElfScope

inductive Level where
  | notSet
  | dumpData
  | debug
  | info
  | warning
  | error
  | critical
deriving DecidableEq, Repr

namespace Level

def rank : Level → Nat
  | .notSet => 0
  | .dumpData => 9
  | .debug => 10
  | .info => 20
  | .warning => 30
  | .error => 40
  | .critical => 50

def name : Level → Text
  | .notSet => "NOTSET"
  | .dumpData => "DUMPDATA"
  | .debug => "DEBUG"
  | .info => "INFO"
  | .warning => "WARNING"
  | .error => "ERROR"
  | .critical => "CRITICAL"

def all : List Level := [.notSet, .dumpData, .debug, .info, .warning, .error, .critical]

/-- The level of a name in any case, with blanks around it. Two levels have a second name. -/
def ofName? (t : Text) : Option Level :=
  let t := t.trim.capitals
  if t = Text.ofString "FATAL" then some .critical
  else if t = Text.ofString "WARN" then some .warning
  else all.find? (·.name = t)

end Level

structure LogRecord where
  level : Level
  logger : Text
  message : Text
deriving DecidableEq

abbrev Log := List LogRecord

def Log.atLeast (threshold : Level) (log : Log) : Log :=
  log.filter (threshold.rank ≤ ·.level.rank)

end ElfScope
