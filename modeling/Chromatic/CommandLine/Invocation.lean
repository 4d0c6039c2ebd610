import Chromatic.Limit
import Chromatic.Text.Integer
/-!
# Command lines

The arguments of the program: the path of one instance, switches in any place, and a time limit.
Arguments are read from left to right, and the first one that settles the matter does so.
-/

namespace Chromatic

/-- The switches, each of which may be given once. -/
inductive Switch
  | verbose
  | logStatistics
  /-- Leave the time out of reports. -/
  | omitTimestamp
  | omitCallSite
deriving DecidableEq

namespace Switch

def ofName? : String → Option Switch
  | "verbose" => some verbose
  | "log-statistics" => some logStatistics
  | "omit-timestamp" => some omitTimestamp
  | "omit-call-site" => some omitCallSite
  | _ => none

def ofLetter? : Char → Option Switch
  | 'v' => some verbose
  | 's' => some logStatistics
  | _ => none

end Switch

/-- What the program was asked to do with an instance. -/
structure Invocation where
  path : String
  /-- The time that the search may take, in milliseconds. -/
  timeLimit : Option Nat
  switches : List Switch
deriving DecidableEq

/-- What a command line asks for. -/
inductive Request
  | solve (i : Invocation)
  | help
  | version
  | misuse
deriving DecidableEq

/-- The arguments read so far. A step that settles the matter is an error. -/
structure Draft where
  path : Option String
  timeLimit : Option Nat
  switches : List Switch
deriving DecidableEq

namespace Draft

def empty : Draft := ⟨none, none, []⟩

/-- Sets the path, which is not empty and is given once. -/
def setPath (d : Draft) (path : String) : Except Request Draft :=
  if d.path.isSome || path.isEmpty then .error .misuse else .ok { d with path := some path }

/-- Sets the time limit, which is an unsigned number and is given once. -/
def setTimeLimit (d : Draft) (value : List Char) : Except Request Draft :=
  match d.timeLimit, Text.unsigned? value with
  | none, some t => .ok { d with timeLimit := some t }
  | _, _ => .error .misuse

def turnOn (d : Draft) (s : Switch) : Except Request Draft :=
  if s ∈ d.switches then .error .misuse else .ok { d with switches := s :: d.switches }

def setLong (d : Draft) (name : String) : Except Request Draft :=
  match name, Switch.ofName? name with
  | "help", _ => .error .help
  | "version", _ => .error .version
  | _, some s => d.turnOn s
  | _, none => .error .misuse

/-- Acts on the letters behind a single dash. The time limit takes the rest of them, less an
equals sign in front. Returns whether the time limit is still to come. -/
def setShort (d : Draft) : List Char → Except Request (Draft × Bool)
  | [] => .ok (d, false)
  | 'h' :: _ => .error .help
  | 'V' :: _ => .error .version
  | ['t'] => .ok (d, true)
  | 't' :: '=' :: value => (d.setTimeLimit value).map fun d => (d, false)
  | 't' :: value => (d.setTimeLimit value).map fun d => (d, false)
  | c :: rest =>
    match Switch.ofLetter? c with
    | none => .error .misuse
    | some s => do (← d.turnOn s).setShort rest

/-- Acts on what stands behind a double dash. Returns whether the time limit is still to come. -/
def setAfterDashes (d : Draft) (long : List Char) : Except Request (Draft × Bool) :=
  let key := "time-limit".toList
  if long = key then .ok (d, true)
  else if (key ++ ['=']).isPrefixOf long then
    (d.setTimeLimit (long.drop (key.length + 1))).map fun d => (d, false)
  else (d.setLong (String.ofList long)).map fun d => (d, false)

/-- Reads the arguments: the next one as the time limit if that is still to come, and all of them
as paths once a double dash was seen. -/
def read (d : Draft) (onlyPaths limitExpected : Bool) : List String → Except Request Draft
  | [] => if limitExpected then .error .misuse else .ok d
  | arg :: rest => do
    if limitExpected then
      (← d.setTimeLimit arg.toList).read onlyPaths false rest
    else if onlyPaths then
      (← d.setPath arg).read true false rest
    else
      match arg.toList with
      | ['-', '-'] => d.read true false rest
      | '-' :: '-' :: long =>
        let (d, limitExpected) ← d.setAfterDashes long
        d.read false limitExpected rest
      | '-' :: c :: letters =>
        let (d, limitExpected) ← d.setShort (c :: letters)
        d.read false limitExpected rest
      | _ => (← d.setPath arg).read false false rest

/-- The request that the arguments amount to; a path is needed. -/
def toRequest (d : Draft) : Request :=
  match d.path with
  | none => .misuse
  | some path => .solve ⟨path, d.timeLimit, d.switches⟩

end Draft

/-- What the arguments ask for. -/
def Request.ofArguments (args : List String) : Request :=
  match Draft.empty.read false false args with
  | .ok d => d.toRequest
  | .error r => r

namespace Invocation

def has (i : Invocation) (s : Switch) : Bool := s ∈ i.switches

/-- The limit on a search that has taken so many milliseconds. -/
def limitAfter (i : Invocation) (milliseconds : Nat) : Limit :=
  match i.timeLimit with
  | none => .absent
  | some t => .present (.time (t ≤ milliseconds))

end Invocation

end Chromatic
