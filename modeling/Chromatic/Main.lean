import Chromatic.CommandLine.Execution
/-!
# The program

Reads an instance, solves it under the eyes of a clock, and prints the result.
-/

namespace Chromatic.Program

def cause : IO.Error → String
  | .noFileOrDirectory _ code details => s!"{details} (os error {code})"
  | .permissionDenied _ code details => s!"{details} (os error {code})"
  | .inappropriateType _ code details => s!"{details} (os error {code})"
  | .resourceExhausted _ code details => s!"{details} (os error {code})"
  | .invalidArgument _ code details => s!"{details} (os error {code})"
  | e => toString e

/-- Looks up what is at a path. -/
def find (path : String) : IO Source := do
  match ← (IO.FS.Handle.mk path .read).toBaseIO with
  | .error e => return .unopenable (cause e)
  | .ok handle =>
    match ← handle.readBinToEnd.toBaseIO with
    | .error e => return .unreadable (cause e)
    | .ok bytes => return .contents bytes.toList

/-- Takes the steps of a search, with the limit that the clock shows before each of them. -/
partial def follow {G : Graph} {σ τ : Type} [VariableSelector σ] [ValueSelector τ]
    (limit : IO Limit) : Turn G σ τ Limit → IO (Except Fault Outcome × Search G σ τ)
  | .done result s _ => return (result, s)
  | .again s _ => do follow limit (s.step (← limit))

def print (e : Execution) : IO UInt32 := do
  (← IO.getStderr).putStr e.stderr
  let stdout ← IO.getStdout
  stdout.putStr e.stdout
  stdout.flush
  return e.exitCode.toUInt32

def run (i : Invocation) : IO UInt32 := do
  let source ← find i.path
  let started ← IO.monoMsNow
  match i.prepare source with
  | .error e => print e
  | .ok (solver, log) =>
    let begun ← IO.monoMsNow
    let limit := return i.limitAfter ((← IO.monoMsNow) - started)
    let root := solver.search.store.checkpoint
    let (result, search) ← follow limit (solver.search.enter (← limit))
    let (result, search) := search.leave root result
    let search := search.charge ((← IO.monoMsNow) - begun)
    let (verdict, solver) := solver.settle result search
    print (i.conclude log verdict solver)

end Chromatic.Program

def main (args : List String) : IO UInt32 :=
  match Chromatic.Request.ofArguments args with
  | .solve i => Chromatic.Program.run i
  | r => Chromatic.Program.print (r.execute fun path => .unopenable path)
