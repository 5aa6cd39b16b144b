import OpGraph.Proofs.Simulation.Blocks

/-!
Conditionals. Names are bound to the outputs of a node with blocks, and get the results of the block that is taken. The
node of a conditional comes to the branch that the script takes.
-/

namespace OpGraph

open List

variable {V : Type}

namespace Lowering

variable {I : Interpretation V} {fuel : ℕ} {c : Setting} {env : Env} {pos : Position} {s s' s₁ : State}
  {ρ ρ' σ σ' : Values V} {A B A' B' : String → Prop}

theorem State.current_of_scopes (h : s'.scopes = s.scopes) : s'.current = s.current := by
  unfold State.current
  rw [h]

/-- **A node with blocks**: names are bound to its outputs, which get the results of the blocks. -/
theorem runs_boundNode {β : Type} {n : GraphNode} {names : List String} {g : Outcome (List V)} {r : Outcome β}
    {P : List V → β → Prop} {u : Unit} (he : Returns (emit n) env s₁ u s')
    (hbind : Returns (bindOutputs names) env s n.outputs s₁) (hg : s.Good) (hd : s.Defined ρ) (hN : "" ∉ names)
    (heval : I.evalNode fuel n.node ρ = g >>= ρ.setAll n.outputs) (hm : Outcome.Matches P g r)
    (hlen : ∀ vs b, P vs b → names.length = vs.length) :
    RunsFresh I fuel s s' ρ r fun ρ' b =>
      ∃ vs, P vs b ∧ Forall₂ (fun x v => ρ' x = some v) n.outputs vs := by
  obtain ⟨b, hcount⟩ := bindsOutputs_bindOutputs (N := True) (h := {}) hbind fun _ => hN
  obtain ⟨hfree, hnodup⟩ := b.fresh_held rfl rfl fun x => by rw [b.current]
  have hd1 : s₁.Defined ρ := by
    intro x hx
    refine hd x ?_
    rwa [State.visible_eq (b.opened hg.opened), b.current, b.around, ← State.visible_eq hg.opened] at hx
  have hnode : Outcome.Matches (fun ρ' d => ∃ vs, P vs d ∧ Forall₂ (fun x v => ρ' x = some v) n.outputs vs)
      (I.evalNode fuel n.node ρ) r := by
    rw [heval]
    refine hm.andThen fun vs d hP => ?_
    rcases ρ.setAll_eq n.outputs vs with ⟨-, ρ', hρ'⟩ | ⟨hne, -⟩
    · exact ⟨ρ', hρ', vs, hP, Values.setAll_values hρ' hnodup⟩
    · exact absurd (hcount.trans (hlen vs d hP)) hne
  have hruns := (runs_emit he hd1 hnode).of_nodes_eq (s := s) (by rw [b.current])
  exact hruns.mono (fun x hx hmem => (hfree x hmem).1 hx) fun _ _ _ _ h => h

theorem evalNode_branches {n : GraphNode} {o : Opset} {thenGraph elseGraph : GraphFunction} {x : String} {v : V}
    (hop : n.op = opName (o.op "If")) (ho : o.domain = I.home) (hin : n.inputs = [x]) (hne : x ≠ "")
    (hx : ρ x = some v)
    (hgraphs : n.attributes.map (·.value) = [thenGraph.attribute "then_branch", elseGraph.attribute "else_branch"]) :
    I.evalNode fuel n.node ρ =
      (if I.truth v then I.evalGraph fuel thenGraph.graph ρ [] else I.evalGraph fuel elseGraph.graph ρ []) >>=
        ρ.setAll n.outputs := by
  refine Interpretation.evalNode_conditional (n := n.node) ?_ ?_ ?_ hgraphs
  · change n.op.domain = I.home
    rw [hop]
    exact ho
  · change n.op.name = "If"
    rw [hop]
    rfl
  · change n.inputs.mapM ρ.input = _
    rw [hin]
    exact Outcome.mapM_eq_ok.2 (.cons (Values.input_of_eq hne hx) .nil)

/-- **A conditional means the same in the graph** if its branches do. Names that are needed afterwards leave the node as
outputs, or are not assigned in the branches. -/
theorem executes_conditional {test : Expr} {names assigned : List String} {body orelse : Block}
    {value : Values V → Outcome V} {runBody runElse : Values V → Outcome (Completion V)}
    (htest : Evaluates I c fuel A (lowerOperand test (some "cond")) value) (hreads : "" ∉ test.reads) (hN : "" ∉ names)
    (hbody : Executes I c fuel A B A' B' body.lower runBody)
    (horelse : Executes I c fuel A B A' B' orelse.lower runElse)
    (hkeepBody : ∀ σ d, runBody σ = .ok d → d.Keeps assigned σ)
    (hkeepElse : ∀ σ d, runElse σ = .ok d → d.Keeps assigned σ)
    (hA : ∀ x ∉ names, A' x → A x ∧ x ∉ assigned) (hB : ∀ x ∉ names, B' x → B x ∧ x ∉ assigned) :
    Executes I c fuel A B A' B' (conditional pos test names body orelse) fun σ => (do
      if I.truth (← value σ) then runBody σ else runElse σ) := by
  have hperforms : Performs True (conditional pos test names body orelse) :=
    performs_conditional (fun _ => hreads) (fun _ => hN) hbody.performs horelse.performs
  refine ⟨hperforms, fun env s u s' ρ σ hI hm hr hw => ?_⟩
  have a := hperforms hm.ready.good hr
  simp only [conditional, returns_bind] at hr
  obtain ⟨cond, s₁, hcond, thenGraph, s₂, hthen, elseGraph, s₃, helse, outputs, s₄, hbind, hr⟩ := hr
  split at hr
  · simp at hr
  split at hr
  · simp at hr
  simp only [returns_bind, returns_defaultOp, returns_lift] at hr
  obtain ⟨op, t, ⟨o, ho, rfl, rfl⟩, thenBranch, t, ⟨hthenA, rfl⟩, elseBranch, t, ⟨helseA, rfl⟩, fs, t, ⟨-, rfl⟩, he⟩ := hr
  obtain ⟨c1, v1⟩ := htest.yields hm.ready.good hcond
  have hready1 := c1.ready hm.ready
  have hg1 := hready1.good
  obtain ⟨c2, hs2, -⟩ := computes_branch (N := True) hthen hg1 hbody.performs fun _ => hN
  have hg2 := (c2.good hg1).drop
  obtain ⟨c3, hs3, -⟩ := computes_branch (N := True) helse hg2 horelse.performs fun _ => hN
  have hg3 := (c3.good hg2).drop
  rw [hs2] at hs3
  obtain ⟨b, -⟩ := bindsOutputs_bindOutputs (N := True) (h := {}) hbind fun _ => hN
  have e := edits_modifyFunction he
  have hw4 : s₄.Within c := fun o ho => hw o (by rw [e.opset, ho])
  have hw3 := b.within hw4
  have hw2 := c3.within hw3
  have hnodes : s₁.current.nodes <+: s'.current.nodes := by
    rw [nodes_emit he, b.current, State.current_of_scopes hs3]
    exact prefix_append _ _
  have hrebinds : Rebinds s names outputs s' := by
    intro x
    rw [e.lookup, ← c1.lookup hm.ready.good.opened x, ← hs3]
    exact rebinds_bindOutputs hbind x
  -- the test is evaluated, and then the node
  refine (htest.runs hI hm.mirrors hcond (c2.within hw2)).bind hnodes (fun _ hx => hx) fun ρ₁ v hkept hd1 hv => ?_
  have hm1 := hm.computes c1 hkept hd1
  have hthenRun := matches_branch hthen hbody hI hm1 hw2 hN
  have helseRun := matches_branch helse horelse hI (hm1.computes c2 (fun _ _ => rfl) (hd1.of_scopes_eq hs2)) hw3 hN
  have hmatches : Outcome.Matches (fun vs d => ∃ σ', d = .next σ' ∧ (∀ x ∉ assigned, σ' x = σ x) ∧
      Forall₂ (fun x v => Alike I A' B' x (some v) (I.read? c σ' x)) names vs)
      (if I.truth v then I.evalGraph fuel thenGraph.graph ρ₁ [] else I.evalGraph fuel elseGraph.graph ρ₁ [])
      (if I.truth v then runBody σ else runElse σ) := by
    split
    · refine hthenRun.result.mono ?_
      rintro vs d ⟨⟨σ', rfl, hvs⟩, hrun⟩
      exact ⟨σ', rfl, hkeepBody σ _ hrun, hvs⟩
    · refine helseRun.result.mono ?_
      rintro vs d ⟨⟨σ', rfl, hvs⟩, hrun⟩
      exact ⟨σ', rfl, hkeepElse σ _ hrun, hvs⟩
  have hd3 := hd1.of_scopes_eq hs3
  have hruns := runs_boundNode he hbind hg3 hd3 hN (evalNode_branches rfl (hI.domain hw4 ho) rfl (hready1.ne_empty v1) hv
    (by simp [GraphFunction.value_toAttribute hthenA, GraphFunction.value_toAttribute helseA])) hmatches ?_
  · refine (hruns.of_nodes_eq (by rw [State.current_of_scopes hs3])).mono
      (fun x hx => c3.used x (c2.used x (c1.used x hx))) ?_
    rintro ρ' d hkept' hd' ⟨vs, ⟨σ', rfl, hsame, hvs⟩, houts⟩
    refine ⟨σ', rfl, hm.rebound a hrebinds (fun x hx => ?_) hd' houts hvs ?_ ?_⟩
    · rw [hkept' x (c3.used x (c2.used x (c1.used x hx))), hkept x hx]
    · exact fun x hx hx' => ⟨(hA x hx hx').1, hsame x (hA x hx hx').2⟩
    · exact fun x hx hx' => ⟨(hB x hx hx').1, hsame x (hB x hx hx').2⟩
  · rintro vs d ⟨σ', -, -, hvs⟩
    exact hvs.length_eq

end Lowering

end OpGraph
