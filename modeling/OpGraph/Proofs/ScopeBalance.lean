import OpGraph.Proofs.NestedFunctions

/-!
Statements and the open scopes. A statement may open scopes of its own, but it closes them again, and what it leaves
behind is in the innermost scope. So no scope is open after a function at the top level.
-/

namespace OpGraph

namespace Lowering

/-- The same scopes are open as before, and those around the innermost one are as they were. The innermost one is that
of the same function, which has kept its parameters, its nodes and its nested functions; of its names, those in `A` may
have been bound. -/
def State.KeepsAround (A : List String) (s s' : State) : Prop :=
  ∃ f f' around, s.scopes = f :: around ∧ s'.scopes = f' :: around ∧ f'.fn.name = f.fn.name ∧
    f'.fn.params = f.fn.params ∧ f.fn.nodes <+: f'.fn.nodes ∧ f.fn.nested <+: f'.fn.nested ∧
    ∀ x ∉ A, Members.get? f'.bindings x = Members.get? f.bindings x

variable {env : Env} {s s' : State}

theorem keepsAround_lowerStmt {place : Place} {x : Stmt NameSet} (hg : s.Good)
    (hr : Returns (lowerStmt place x) env s () s') : s.KeepsAround x.assigns s' := by
  have a := continues_lowerStmt hg hr
  have m := (acts_lowerStmt (K := .any) place x).also hr
  obtain ⟨f, hf, hcur, hb⟩ := State.scopes_eq_cons hg.opened
  obtain ⟨f', hf', hcur', hb'⟩ := State.scopes_eq_cons (a.opened hg.opened)
  have hname : f'.fn.name = f.fn.name := by
    have := m.function
    rw [State.frames, State.frames, hf, hf'] at this
    exact Option.some.inj this
  refine ⟨f, f', s.around, hf, by rw [← a.around, hf'], hname, ?_, ?_, ?_, ?_⟩
  · rw [← hcur, ← hcur', a.params]
  · rw [← hcur, ← hcur']
    exact a.nodes
  · rw [← hcur, ← hcur']
    exact a.nested
  · rw [← hb, ← hb']
    exact fun y hy => m.get?_eq fun _ hm => hy hm.1

/-- The lowering of a function up to the point where its scope is closed. -/
def functionGraph (fn : FunctionDef NameSet) : Lower GraphFunction := do
  enter fn.name (← read).domain
  signature fn.name fn.params fn.defaults fn.returns
  lowerBody true fn.body
  leave

theorem scopes_functionGraph {fn : FunctionDef NameSet} {g : GraphFunction} (hb : s.scopes.Bound) (ht : s.Taken {})
    (hr : Returns (functionGraph fn) env s g s') : s'.scopes = s.scopes := by
  simp only [functionGraph, returns_bind, returns_read] at hr
  obtain ⟨_, _, ⟨rfl, rfl⟩, u, s₀, henter, u₁, s₁, hsig, u₂, s₂, hbody, hleave⟩ := hr
  have e := enters_enter henter
  have hg := e.good hb ht.1
  have d := declares_signature (N := False) hsig hg
  have f := finishes_lowerBody (N := False) true fn.body (fun h => h.elim) (d.good hg) hbody
  rw [(leaves_leave hleave).scopes, f.around, d.around, e.around]

theorem function_eq_functionGraph (fn : FunctionDef NameSet) (hs : s.scopes = []) : outcome (function fn) env s =
    outcome (do let g ← functionGraph fn; trace ("\n" ++ g.text); return g) env s := by
  have hsplit : function fn = functionGraph fn >>= fun g => do
      if (← get).scopes.depth ≠ 0 then throw { fault := .unbalancedScopes fn.name }
      trace ("\n" ++ g.text)
      return g := by
    simp only [function, functionGraph, bind_assoc]
  rw [hsplit, outcome_bind, outcome_bind]
  rcases hrun : outcome (functionGraph fn) env s with ⟨e | g, t⟩
  · rfl
  · have ht : t.scopes = [] := by
      rw [scopes_functionGraph (by rw [hs]; trivial) (by simp [State.Taken, hs, Scopes.visible]) hrun, hs]
    dsimp only
    rw [outcome_get_bind, ht]
    rfl

end Lowering

namespace Compiler

open Lowering

/-- **Statements touch only the innermost scope.** This holds of every statement, from every point that the lowering of
a function goes through. So at the end of the function no scope is open, and it makes no difference that this is
checked. -/
theorem statements_keep_around (t : Compiler) (fn : FunctionDef Unit) :
    (∀ task s kinds, Reaches (t.start fn).1 (t.start fn).2 fn.analyze task s kinds → ∀ place x s',
      Returns (lowerStmt place x) (t.start fn).1 s () s' → s.KeepsAround x.assigns s') ∧
      outcome (function fn.analyze) (t.start fn).1 (t.start fn).2 =
        outcome (do let g ← functionGraph fn.analyze; trace ("\n" ++ g.text); return g) (t.start fn).1
          (t.start fn).2 := by
  refine ⟨fun task s kinds hreach place x s' hr => ?_, function_eq_functionGraph _ rfl⟩
  exact keepsAround_lowerStmt (hreach.nested_of rfl).good hr

/-- The return statement of a nested function emits a node there and leaves the function around it alone. -/
theorem statements_keep_around_sample : ∃ place x s s', Reaches (sampleModule.start captureDef).1
    (sampleModule.start captureDef).2 captureDef.analyze (.stmt place x) s [.function, .function] ∧
    Returns (lowerStmt place x) (sampleModule.start captureDef).1 s () s' ∧
    s.current.nodes.length = 0 ∧ s'.current.nodes.length = 1 ∧ s.KeepsAround x.assigns s' := by
  have hreach : ∃ place x s s', Reaches (sampleModule.start captureDef).1 (sampleModule.start captureDef).2
      captureDef.analyze (.stmt place x) s ([] ++ ([.function] ++ ([] ++ ([] ++ [.function])))) ∧
      Returns (lowerStmt place x) (sampleModule.start captureDef).1 s () s' ∧
      s.current.nodes.length = 0 ∧ s'.current.nodes.length = 1 := by
    refine ⟨_, _, _, _, .step (.step (.step (.step (.start (returns_of_isSome ?_) (returns_of_isSome ?_))
      (.bodyTail (returns_of_isSome ?_))) .bodyHead) (.nested (returns_of_isSome ?_) (returns_of_isSome ?_))) .bodyHead,
      returns_of_isSome ?_, ?_, ?_⟩
    all_goals decide +kernel
  obtain ⟨place, x, s, s', hr, hstmt, hbefore, hafter⟩ := hreach
  exact ⟨place, x, s, s', hr, hstmt, hbefore, hafter,
    (statements_keep_around sampleModule captureDef).1 _ s _ hr place x s' hstmt⟩

end Compiler

end OpGraph
