import OpGraph.Proofs.Lowering.Statements

/-!
Lowering of whole functions. A function at the top level is lowered with no names taken and no scope open, so what the
steps keep holds of the function that they build: its names are defined once, it refers to what is there, and its blocks
are in shape.
-/

namespace OpGraph

open List

variable {N : Prop}

namespace Lowering

variable {env : Env} {s s' : State} {fn : FunctionDef NameSet} {g : GraphFunction}

/-- The steps of the lowering of a function: a scope is opened, the signature is declared in it, the body is lowered,
and the scope is closed with the function that was built. -/
theorem returns_function (hr : Returns (function fn) env s g s') :
    ∃ s₀ s₁ s₂ s₃, Enters s fn.name env.domain s₀ ∧
      Returns (signature fn.name fn.params fn.defaults fn.returns) env s₀ () s₁ ∧
      Returns (lowerBody true fn.body) env s₁ () s₂ ∧ Leaves s₂ g s₃ ∧ Quiet s₃ s' := by
  simp only [function, returns_bind, returns_read, returns_get] at hr
  obtain ⟨e, t, ⟨rfl, rfl⟩, u, s₀, henter, u₁, s₁, hsig, u₂, s₂, hbody, g', s₃, hleave, t, t', ⟨rfl, rfl⟩, hr⟩ := hr
  refine ⟨s₀, s₁, s₂, s₃, enters_enter henter, hsig, hbody, ?_⟩
  split at hr
  · simp at hr
  · obtain ⟨u₃, s₄, htrace, ⟨⟩⟩ := returns_bind.1 hr
    exact ⟨leaves_leave hleave, quiet_trace htrace⟩

/-- A function as a lowering leaves it. Under `N` no name that its nodes define is empty. -/
structure Finished (N : Prop) (g : GraphFunction) : Prop where
  built : ∃ inner, g.Built {} inner
  shaped : ∀ p ∈ g.parts, ∀ n ∈ p.nodes, n.Shaped
  apart : ∀ p ∈ g.parts, ∀ q ∈ p.nested, q.OutputsApart
  owns : g.OwnsOutputs
  tally_le_one : ∀ x, g.tally x ≤ 1
  tally_input : ∀ x ∈ g.inputNames, g.tally x = 0
  tally_empty : N → g.tally "" = 0

namespace Finished

theorem nodup (h : Finished N g) : g.defined.Nodup :=
  nodup_iff_count_le_one.2 h.tally_le_one

theorem notInput (h : Finished N g) : ∀ x ∈ g.defined, x ∉ g.inputNames :=
  fun x hx hin => count_eq_zero.1 (h.tally_input x hin) hx

theorem resolves (h : Finished N g) {k : GraphFunction} (hk : k ∈ g.parts) :
    k.Resolves (g.ValueBetween k) (g.FunctionBetween k) := by
  obtain ⟨inner, hb⟩ := h.built
  exact (hb.resolved.parts hk).imp (fun _ hx => hx.resolve_right not_mem_nil)
    fun _ hq => hq.resolve_right not_mem_nil

end Finished

/-- **What a lowering from the start keeps** holds of the function that it builds. -/
theorem finished_function (hr : Returns (function fn) env s g s') (hs : s.scopes = [])
    (hN : N → "" ∉ Stmt.identifiersAll fn.body) : Finished N g := by
  obtain ⟨s₀, s₁, s₂, s₃, e, hsig, hbody, l, -⟩ := returns_function hr
  have hg0 : s₀.Good := e.good (by rw [hs]; trivial) (by rw [hs]; simp [Scopes.visible])
  have d := declares_signature (N := N) hsig hg0
  have hg1 := d.good hg0
  have f := finishes_lowerBody (N := N) true fn.body hN hg1 hbody
  have haround : s₁.around = [] := by rw [d.around, e.around, hs]
  have hempty : ∀ x, s₁.tally {} x = 0 := by
    intro x
    rw [State.tally, GraphFunction.tally_eq, d.sameNodes, d.sameNested, e.current]
    simp [Held.tally]
  have htally : ∀ x, g.tally x = s₂.tally {} x := by
    intro x
    rw [l.fn]
    simp [State.tally, Held.tally]
  have hshaped : g.Shaped := by
    rw [l.fn]
    refine ((d.toGrows.trans f.toGrows).shaped ?_ (by simp)).1
    rw [e.current, GraphFunction.shaped_iff]
    simp
  refine ⟨?_, fun p hp => (hshaped p hp).1, fun p hp => (hshaped p hp).2, ?_, ?_, ?_, ?_⟩
  · obtain ⟨inner, -, -, hb⟩ := (d.toGrows.trans f.toGrows).built [] (by simp) (by rw [e.current]; exact .start _ _ _)
    rw [e.around, hs, ← l.fn] at hb
    exact ⟨inner, hb⟩
  · have hout : s₁.current.outputNames = [] := by
      rw [GraphFunction.outputNames, d.outputs, e.current]
      rfl
    rw [l.fn]
    exact f.owns haround ⟨by simp [hout], by simp [hout], by simp [hout]⟩
  · intro x
    have := f.tally_le_succ x
    rw [hempty] at this
    rwa [htally]
  · intro x hx
    -- inputs are declared by the signature, so their names were taken before the body
    have hinputs : g.inputNames = s₁.current.inputNames :=
      GraphFunction.inputNames_congr (by rw [l.fn, f.params])
    have hused : x ∈ s₁.names.used := by
      refine hg1.taken.1 x (State.visible_of_current hg1.opened (mem_append_left _ ?_))
      rwa [← hinputs]
    have := f.tally_le x (.inl hused)
    rw [hempty] at this
    rw [htally]
    omega
  · intro hn
    have := f.tally_le "" (.inr (.inr ⟨hn, rfl⟩))
    rw [hempty] at this
    rw [htally]
    omega

end Lowering

namespace Compiler

open Lowering

variable {t : Compiler} {stmt : Stmt Unit} {f : ScriptFunction}

/-- A statement that compiles defines a function, and its lowering returns the graph. -/
theorem returns_of_compile (h : (t.compile stmt).1 = .ok f) : ∃ m fn s', stmt = .function m fn ∧
    Returns (function fn.analyze) (t.start fn).1 (t.start fn).2 f.fn s' ∧
    (t.compile stmt).2.defaultOpset = s'.defaultOpset := by
  cases stmt with
  | function m fn =>
    rcases hrun : ((function fn.analyze).run (t.start fn).1).run.run (t.start fn).2 with ⟨result, s'⟩
    simp only [compile, hrun] at h ⊢
    cases result with
    | error e => cases h
    | ok graph =>
      cases h
      exact ⟨m, fn, s', rfl, hrun, rfl⟩
  | _ => cases h

theorem finished_compile (h : (t.compile stmt).1 = .ok f) (hN : N → "" ∉ stmt.identifiers) : Finished N f.fn := by
  obtain ⟨m, fn, s', rfl, hr, -⟩ := returns_of_compile h
  refine finished_function hr rfl fun hn hmem => hN hn ?_
  rw [FunctionDef.analyze, Liveness.identifiersAll_analyzeAll] at hmem
  cases fn
  exact mem_cons_of_mem _ hmem

end Compiler

end OpGraph
