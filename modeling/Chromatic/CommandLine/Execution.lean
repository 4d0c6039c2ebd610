import Chromatic.CommandLine.Invocation
import Chromatic.Instance
import Chromatic.Solver
import Chromatic.Statistics.Ledger
/-!
# Executions

What the program prints and how it ends. The work before the search and the work after it stand
apart, so that the search between them can be watched by a clock.
-/

namespace Chromatic

structure Execution where
  exitCode : Nat
  stdout : String
  stderr : String
deriving DecidableEq

/-- What is found at the path of an instance. -/
inductive Source
  | unopenable (cause : String)
  | unreadable (cause : String)
  | contents (bytes : List UInt8)
deriving DecidableEq

def Source.problem : Source → Except InstanceError Problem
  | unopenable cause => .error (.unreadable cause)
  | unreadable cause => .error (.unreadable cause)
  | contents bytes => Instance.read bytes

/-- The wording of an instance error for the user. -/
def InstanceError.outerMessage (e : InstanceError) : String :=
  "The instance could not be parsed, more details: " ++ e.message

namespace Invocation

/-- The least level that is reported. -/
def threshold (i : Invocation) : Level := if i.has .verbose then .debug else .warn

/-- The report of some log lines: those that matter enough, each as a comment. -/
def report (i : Invocation) (log : List LogLine) : String :=
  String.join ((log.filter fun l => i.threshold.rank ≤ l.level.rank).map fun l =>
    "c " ++ l.level.name ++ " " ++ l.text ++ "\n")

def opening : LogLine := ⟨.info, "Logging successfully configured"⟩

def failureLine (message : String) : LogLine := ⟨.error, "Execution failed, error: " ++ message⟩

/-- An execution that ends with a code, a text and log lines after the first one. -/
def finish (i : Invocation) (exitCode : Nat) (stdout : String) (log : List LogLine) : Execution :=
  ⟨exitCode, stdout, i.report (opening :: log)⟩

/-- The solver for the instance with the log lines so far, or the execution if it ends before any
search. A malformed instance has no colouring; one that cannot be read is a failure. -/
def prepare (i : Invocation) : Source → Except Execution (Solver × List LogLine)
  | .unopenable cause =>
    .error (i.finish 1 "" [⟨.warn, cause⟩,
      failureLine ("The instance file " ++ i.path ++ " could not be read.")])
  | source =>
    match source.problem with
    | .error (.unreadable cause) =>
      .error (i.finish 1 "" [failureLine (InstanceError.unreadable cause).outerMessage])
    | .error e => .error (i.finish 0 "failure\n" [⟨.warn, e.message⟩])
    | .ok p =>
      match Solver.create p with
      | (.error reason, log) =>
        .error (i.finish 0 "failure\n" ((log ++ [Event.rejected reason]).map Event.logLine))
      | (.ok s, log) => .ok (s, log.map Event.logLine)

def statisticsText (i : Invocation) (s : Solver) : String :=
  if i.has .logStatistics then
    ((Ledger.unopened.configure (.standard .standardOutput)).recordBlock s.statistics).output
  else ""

def conclude (i : Invocation) (log : List LogLine) (verdict : Except Fault Verdict) (s : Solver) :
    Execution :=
  let log := log ++ s.takeLog.1.map Event.logLine
  match verdict with
  | .ok v => i.finish 0 (v.line ++ "\n" ++ i.statisticsText s) log
  | .error fault => i.finish 101 "" (log ++ [failureLine fault.message])

/-- The execution on an instance, if the search takes no time. -/
def execute (i : Invocation) (source : Source) : Execution :=
  match i.prepare source with
  | .error e => e
  | .ok (s, log) =>
    let (verdict, s, _) := s.satisfy (i.limitAfter 0)
    i.conclude log verdict s

end Invocation

namespace Request

def versionText : String := "tinct-solver 0.1.0\n"

def usageText : String :=
  "Usage: tinct-solver [OPTIONS] <INSTANCE_PATH>\n\n" ++
  "Options:\n" ++
  "  -t, --time-limit <MILLISECONDS>  The time that the search may take\n" ++
  "  -v, --verbose                    Report what the solver does\n" ++
  "  -s, --log-statistics             Write the statistics after the result\n" ++
  "      --omit-timestamp             Leave the time out of reports\n" ++
  "      --omit-call-site             Leave the place in the program out of reports\n" ++
  "  -h, --help                       Print help\n" ++
  "  -V, --version                    Print the version\n"

/-- The execution of a request, given what is found at a path. -/
def execute (find : String → Source) : Request → Execution
  | solve i => i.execute (find i.path)
  | help => ⟨0, usageText, ""⟩
  | version => ⟨0, versionText, ""⟩
  | misuse => ⟨2, "", usageText⟩

end Request

end Chromatic
