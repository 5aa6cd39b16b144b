import Mathlib
import OpGraph.Error

/-!
Results and errors. What steps that can fail give is told from what each of them gives.
-/

namespace OpGraph

variable {α β : Type} {E : Error → Prop} {P : α → Prop} {Q : β → Prop} {r r' : Except Error α}

/-- A result as said, or an error as said. -/
def Yields (E : Error → Prop) (P : α → Prop) : Except Error α → Prop
  | .ok a => P a
  | .error e => E e

namespace Yields

theorem of_ok {a : α} (hr : Yields E P r) (h : r = .ok a) : P a := by
  rwa [h] at hr

theorem of_error {e : Error} (hr : Yields E P r) (h : r = .error e) : E e := by
  rwa [h] at hr

theorem bind {f : α → Except Error β} (hr : Yields E P r) (hf : ∀ a, P a → Yields E Q (f a)) : Yields E Q (r >>= f) := by
  cases r with
  | error e => exact hr
  | ok a => exact hf a hr

theorem map (hr : Yields E P r) {f : α → β} (hf : ∀ a, P a → Q (f a)) : Yields E Q (f <$> r) := by
  rw [map_eq_pure_bind]
  exact hr.bind hf

theorem ite {c : Prop} [Decidable c] (h : Yields E P r) (h' : Yields E P r') : Yields E P (if c then r else r') := by
  split
  · exact h
  · exact h'

theorem mapM {f : α → Except Error β} (hf : ∀ a, Yields E Q (f a)) : ∀ as : List α,
    Yields E (∀ b ∈ ·, Q b) (as.mapM f)
  | [] => fun b hb => absurd hb List.not_mem_nil
  | a :: as => by
    rw [List.mapM_cons]
    exact (hf a).bind fun b hb => (mapM hf as).bind fun bs hbs => List.forall_mem_cons.2 ⟨hb, hbs⟩

end Yields

end OpGraph
