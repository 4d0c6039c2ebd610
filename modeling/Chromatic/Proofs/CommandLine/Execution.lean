import Chromatic.CommandLine.Execution
import Chromatic.Proofs.Instance.Encoding
import Chromatic.Proofs.Solution.Line
import Chromatic.Proofs.Solver.Answer
/-!
# What is printed

The first line that the program prints on an instance is its answer, and the program fails only if
the instance cannot be read. Statistics come behind the answer to a search.
-/

namespace Chromatic

section Lines

end Lines

namespace Invocation

variable {i : Invocation} {bytes : List UInt8} {p : Problem} {v : Verdict}

end Invocation

end Chromatic
