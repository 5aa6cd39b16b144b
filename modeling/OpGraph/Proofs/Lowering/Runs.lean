import Mathlib
import OpGraph.Lowering.Function

/-!
Successful runs of the steps of a lowering. A run of steps in a row is a run of each of them, so a property of runs is
proved step by step; what a step does to the state is said here once.
-/

namespace OpGraph.Lowering

variable {pos : Position}

/-- From the state `s` the steps `m` succeed with `a` and leave the state `s'`. -/
def Returns {α : Type} (m : Lower α) (env : Env) (s : State) (a : α) (s' : State) : Prop :=
  (m.run env).run.run s = (.ok a, s')

variable {α β : Type} {env : Env} {s s' : State}

/-! ### Sequences of steps -/

@[simp] theorem returns_pure {a b : α} : Returns (pure a) env s b s' ↔ a = b ∧ s = s' := by
  change (Except.ok a, s) = (Except.ok b, s') ↔ _
  simp

@[simp] theorem returns_bind {m : Lower α} {f : α → Lower β} {b : β} :
    Returns (m >>= f) env s b s' ↔ ∃ a t, Returns m env s a t ∧ Returns (f a) env t b s' := by
  have hrun : ((m >>= f).run env).run.run s =
      match (m.run env).run.run s with
      | (.ok a, t) => ((f a).run env).run.run t
      | (.error e, t) => (.error e, t) := by
    rw [ReaderT.run_bind, ExceptT.run_bind, StateT.run_bind]
    rcases h : (m.run env).run.run s with ⟨_ | _, t⟩ <;> rfl
  unfold Returns
  rw [hrun]
  rcases (m.run env).run.run s with ⟨e | a, t⟩
  · constructor
    · intro h
      cases h
    · rintro ⟨a, t', h, -⟩
      cases h
  · constructor
    · exact fun h => ⟨a, t, rfl, h⟩
    · rintro ⟨a', t', h, h'⟩
      cases h
      exact h'

@[simp] theorem returns_map {m : Lower α} {f : α → β} {b : β} :
    Returns (f <$> m) env s b s' ↔ ∃ a, Returns m env s a s' ∧ f a = b := by
  rw [map_eq_pure_bind, returns_bind]
  constructor
  · rintro ⟨a, t, hm, hp⟩
    cases hp
    exact ⟨a, hm, rfl⟩
  · rintro ⟨a, hm, rfl⟩
    exact ⟨a, s', hm, returns_pure.2 ⟨rfl, rfl⟩⟩

theorem returns_ite_bind {c : Prop} [Decidable c] {m m' : Lower α} {f : α → Lower β} {b : β} :
    Returns (if c then m >>= f else m' >>= f) env s b s' ↔
      ∃ a t, Returns (if c then m else m') env s a t ∧ Returns (f a) env t b s' := by
  rw [← returns_bind]
  split <;> rfl

@[simp] theorem returns_throw {e : Error} {a : α} : ¬ Returns (throw e : Lower α) env s a s' := by
  intro h
  cases h

/-! ### State and environment -/

@[simp] theorem returns_get {t : State} : Returns (get : Lower State) env s t s' ↔ s = t ∧ s = s' := by
  change (Except.ok s, s) = (Except.ok t, s') ↔ _
  simp

@[simp] theorem returns_read {e : Env} : Returns (read : Lower Env) env s e s' ↔ env = e ∧ s = s' := by
  change (Except.ok env, s) = (Except.ok e, s') ↔ _
  simp

@[simp] theorem returns_modify {f : State → State} {u : Unit} :
    Returns (modify f : Lower Unit) env s u s' ↔ f s = s' := by
  change (Except.ok PUnit.unit, f s) = (Except.ok u, s') ↔ _
  simp

@[simp] theorem returns_modifyGet {f : State → α × State} {a : α} :
    Returns (modifyGet f : Lower α) env s a s' ↔ f s = (a, s') := by
  change (Except.ok (f s).1, (f s).2) = (Except.ok a, s') ↔ _
  rw [Prod.ext_iff (x := f s)]
  simp

@[simp] theorem returns_lift {r : Except Error α} {a : α} : Returns (lift r) env s a s' ↔ r = .ok a ∧ s = s' := by
  cases r <;> simp [lift]

/-! ### Places -/

@[simp] theorem returns_location {l : Location} :
    Returns (location pos) env s l s' ↔ { pos.location with function := some env.function } = l ∧ s = s' := by
  simp [location, and_comm]

@[simp] theorem returns_failAt {f : Fault} {a : α} : ¬ Returns (failAt f pos) env s a s' := by
  simp [failAt]

@[simp] theorem returns_fail {f : LoweringFault} {a : α} : ¬ Returns (fail f pos) env s a s' := by
  simp [fail]

@[simp] theorem returns_liftAt {r : Except Error α} {a : α} :
    Returns (liftAt pos r) env s a s' ↔ r = .ok a ∧ s = s' := by
  cases r <;> simp [liftAt, Evaluation.located, and_comm]

@[simp] theorem returns_relocate {r : Except Error α} {a : α} :
    Returns (relocate pos r) env s a s' ↔ r = .ok a ∧ s = s' := by
  cases r <;> simp [relocate, and_comm]

@[simp] theorem returns_evalValue {e : Expr} {v : Value} :
    Returns (evalValue e) env s v s' ↔ Evaluation.eval env.globals e = .ok v ∧ s = s' := by
  simp [evalValue, and_comm]

@[simp] theorem returns_evalLiteral {e : Expr} {v : Literal} :
    Returns (evalLiteral e) env s v s' ↔ Evaluation.evalLiteral env.globals e = .ok v ∧ s = s' := by
  simp [evalLiteral, and_comm]

end OpGraph.Lowering
