import Chromatic.Event
import Chromatic.Statistics.Casing
import Chromatic.Statistics.Name
/-!
# The ledger of statistics

Statistics are written one a line once the ledger has been set up; before that they are dropped.
Only the first set-up counts.
-/

namespace Chromatic

/-- Where statistics go. -/
inductive LedgerTarget
  | memory
  | standardOutput
  /-- Nowhere: every write fails for the given cause. -/
  | broken (cause : String)
deriving DecidableEq

/-- How statistics are written. -/
structure LedgerOptions where
  /-- Written in front of every statistic. -/
  lead : String
  /-- Written on a line of its own after a block of statistics. -/
  closing : Option String
  /-- How names are respelled. -/
  casing : Option Casing
  target : LedgerTarget
deriving DecidableEq

namespace LedgerOptions

/-- Statistics under the lead `c STAT`, with their names as they are and no closing line. -/
def standard (target : LedgerTarget) : LedgerOptions := ⟨"c STAT", none, none, target⟩

def statisticLine (o : LedgerOptions) (s : Statistic) : String :=
  o.lead ++ " " ++ o.casing.elim s.name.text (·.apply s.name.text) ++ "=" ++ s.value

end LedgerOptions

/-- What was set up and written so far. -/
structure Ledger where
  options : Option LedgerOptions
  memory : String
  output : String
  /-- What happened since the log was taken, the newest event first. -/
  log : List Event
deriving DecidableEq

namespace Ledger

def unopened : Ledger := ⟨none, "", "", []⟩

/-- Sets up the ledger, unless that was done before. -/
def configure (l : Ledger) (o : LedgerOptions) : Ledger :=
  { l with options := l.options <|> some o }

def isOpen (l : Ledger) : Bool := l.options.isSome

/-- Writes a line to a target. -/
def writeLine (l : Ledger) (line : String) : LedgerTarget → Ledger
  | .memory => { l with memory := l.memory ++ line ++ "\n" }
  | .standardOutput => { l with output := l.output ++ line ++ "\n" }
  | .broken cause => { l with log := .statisticLost cause :: l.log }

def record (l : Ledger) (s : Statistic) : Ledger :=
  match l.options with
  | none => l
  | some o => l.writeLine (o.statisticLine s) o.target

def close (l : Ledger) : Ledger :=
  match l.options with
  | none => l
  | some o => o.closing.elim l fun line => l.writeLine line o.target

/-- Writes a block of statistics and the closing line. -/
def recordBlock (l : Ledger) (block : List Statistic) : Ledger := (block.foldl record l).close

/-- Takes the log, the oldest event first, and empties it. -/
def takeLog (l : Ledger) : List Event × Ledger := (l.log.reverse, { l with log := [] })

end Ledger

end Chromatic
