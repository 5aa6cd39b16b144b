import OpGraph.Proofs.Simulation.Basic

/-!
What the steps compute that give a graph value: a copy has the value that is copied, a constant that of its literal, and
promotion changes no value.
-/

namespace OpGraph.Lowering

open List

variable {V : Type} {I : Interpretation V} {fuel : ℕ} {c : Setting} {env : Env} {s s' s₁ : State} {ρ : Values V}
variable {vs : List (Option V)} {inputs : List String} {pos : Position} {name x : String} {u : Unit} {v : V}

/-! ### Single nodes -/

theorem Runs.of_nodes_eq {β : Type} {keep : String → Prop} {r : Outcome β} {Q : Values V → β → Prop}
    (h : Runs I fuel keep s₁ s' ρ r Q) (hn : s₁.current.nodes = s.current.nodes) : Runs I fuel keep s s' ρ r Q := by
  obtain ⟨ns, hns, hm⟩ := h
  exact ⟨ns, by rw [hns, hn], hm⟩

theorem runs_home {n : GraphNode} {g : Option V} (hr : Returns (emit n) env s u s') (hout : n.outputs = [x])
    (hdomain : n.op.domain = I.home) (hd : s.Defined ρ) (hin : n.inputs.mapM ρ.input = .ok vs)
    (hplain : ∀ a ∈ n.attributes.map (·.value), ∀ g, a.value ≠ .graph g)
    (happly : I.apply I.home n.op.name (n.attributes.map (·.value)) vs 1 = g.map ([·])) :
    Runs I fuel (· ≠ x) s s' ρ (Outcome.ofOption .undefined g) fun ρ' v => ρ' x = some v ∧ g = some v := by
  refine (runs_emit hr hd (Q := fun ρ' v => ρ' x = some v ∧ g = some v) ?_).mono (fun y hy => by simpa [hout] using hy)
    fun _ _ _ _ h => h
  rw [Interpretation.evalNode_plain hin hplain]
  change Outcome.Matches _ (I.outputs n.op.domain n.op.name (n.attributes.map (·.value)) vs n.outputs.length >>=
    ρ.setAll n.outputs) _
  rw [hout, hdomain, Interpretation.outputs, length_singleton, happly]
  cases g with
  | none => exact Outcome.matches_error (by simp)
  | some v => exact ⟨Values.set_self ρ x v, rfl⟩

theorem State.Defined.of_scopes_eq (hd : s.Defined ρ) (hs : s'.scopes = s.scopes) : s'.Defined ρ := by
  unfold State.Defined
  rwa [hs]

theorem State.Defined.of_computes {N : Prop} {h h' : Held} (hd : s.Defined ρ) (a : Computes N s h s' h')
    (hs : s.scopes ≠ []) (hn : s'.current.nodes = s.current.nodes) : s'.Defined ρ := by
  intro x hx
  refine hd x ?_
  have hvalues : s'.current.values = s.current.values := by
    unfold GraphFunction.values GraphFunction.inputNames GraphFunction.inputs GraphFunction.assigned
    rw [a.params, hn]
  rwa [State.visible_eq (a.opened hs), hvalues, a.around, ← State.visible_eq hs] at hx

section Default

variable {attributes : List NodeAttribute} (hI : I.Suits c env) (hw : s.Within c) (hd : s.Defined ρ)
  (hin : inputs.mapM ρ.input = .ok vs) (hplain : ∀ a ∈ attributes.map (·.value), ∀ g, a.value ≠ .graph g)
  (happly : I.apply I.home name (attributes.map (·.value)) vs 1 = some [v])
include hI hw hd hin hplain happly

theorem runs_emitDefault (hr : Returns (emitDefault [x] name inputs attributes) env s u s') :
    Runs I fuel (· ≠ x) s s' ρ (.ok ()) fun ρ' _ => ρ' x = some v := by
  obtain ⟨o, ho, he⟩ := returns_emitDefault.1 hr
  have hrun : Runs I fuel _ s s' ρ _ _ := runs_home (g := some v) he rfl (hI.domain hw ho) hd hin hplain happly
  refine hrun.map (f := fun _ => ()) fun ρ' w _ _ h => ?_
  rw [h.1, h.2]

theorem runs_fresh_emitDefault {candidate : String} (hf : Returns (fresh candidate) env s x s₁)
    (he : Returns (emitDefault [x] name inputs attributes) env s₁ u s') :
    RunsFresh I fuel s s' ρ (.ok ()) fun ρ' _ => ρ' x = some v := by
  obtain ⟨rfl, rfl⟩ := returns_fresh.1 hf
  have hfree := Names.generate_notMem s.names candidate
  have hrun : Runs I fuel _ { s with names := (s.names.generate candidate).2 } _ _ _ _ :=
    runs_emitDefault hI hw (hd.of_scopes_eq rfl) hin hplain happly he
  exact (hrun.of_nodes_eq rfl).mono (fun y hy h => hfree (h ▸ hy)) fun _ _ _ _ h => h

end Default

theorem runs_copy {value candidate : String} (hr : Returns (copy value candidate) env s x s') (hI : I.Suits c env)
    (hw : s.Within c) (hd : s.Defined ρ) (hne : value ≠ "") (hv : ρ value = some v) :
    RunsFresh I fuel s s' ρ (.ok ()) fun ρ' _ => ρ' x = some v := by
  simp only [copy, returns_bind, returns_pure] at hr
  obtain ⟨name, s₁, hf, u, s₂, he, rfl, rfl⟩ := hr
  have hin : [value].mapM ρ.input = .ok [some v] := Outcome.mapM_eq_ok.2 (.cons (Values.input_of_eq hne hv) .nil)
  exact runs_fresh_emitDefault hI hw hd hin (by simp) (I.identity v) hf he

theorem runs_constant {l : Literal} {candidate : Option String} {x : Operand}
    (hr : Returns (constant l candidate pos) env s x s') (hI : I.Suits c env) (hw : s.Within c) (hd : s.Defined ρ) :
    RunsFresh I fuel s s' ρ (.ok ()) fun ρ' _ => ρ' x.name = some (I.literal l) := by
  simp only [constant, returns_bind, returns_pure, returns_liftAt] at hr
  obtain ⟨name, s₁, hf, tensor, s₂, ⟨ht, rfl⟩, u, s₃, he, rfl, rfl⟩ := hr
  refine runs_fresh_emitDefault hI hw hd (Outcome.mapM_eq_ok.2 .nil) ?_ (I.constant name l tensor ht) hf he
  exact forall_mem_singleton.2 (by simp)

/-! ### Values of names -/

theorem runs_operandOf_graph {v : String} {p : Provenance} {t : Option DeclaredType} {x : Operand}
    (hr : Returns (operandOf (.graph v p t) name pos) env s x s') : x.name = v ∧ s = s' := by
  cases hr
  exact ⟨rfl, rfl⟩

/-- **The value of a name** is the one that it has in the graph. -/
theorem runs_operandOfName {x : Operand} (hr : Returns (operandOfName name pos) env s x s') (hI : I.Suits c env)
    (hw : s.Within c) (hd : s.Defined ρ) (hready : s.Ready) : ∃ v, valueOf? I c s ρ name = some v ∧
      RunsFresh I fuel s s' ρ (.ok ()) fun ρ' _ => ρ' x.name = some v := by
  simp only [operandOfName, returns_bind, returns_lookup] at hr
  obtain ⟨b, t, ⟨hb, rfl⟩, hr⟩ := hr
  rcases Option.or_eq_some_iff.1 hb with hb | ⟨hnone, hb⟩
  · obtain ⟨g, p, t, rfl⟩ := hready.graphs name b hb
    obtain ⟨hx, rfl⟩ := runs_operandOf_graph hr
    obtain ⟨v, hv⟩ := hd.exists_value (hready.good.bound.lookup hb)
    refine ⟨v, by rw [valueOf?, hb]; exact hv, .done rfl hd (by rw [hx]; exact hv)⟩
  · obtain ⟨w, hw', rfl⟩ := Option.map_eq_some_iff.1 hb
    unfold operandOf at hr
    dsimp only at hr
    split at hr
    · rename_i l hl
      refine ⟨I.literal l, ?_, runs_constant hr hI hw hd⟩
      rw [valueOf?, hnone]
      change ((Members.get? c.globals name).bind (·.literal?)).map I.literal = _
      rw [hI.globals, hw']
      simp [hl]
    · cases hr

/-! ### Promoted arguments -/

theorem runs_casts {casts : List CastLike} {u : PUnit} (hr : Returns (forIn casts PUnit.unit fun c _ => do
      emitDefault [c.output] "CastLike" [c.input, c.like]
      pure (ForInStep.yield PUnit.unit)) env s u s') (hI : I.Suits c env) (hw : s'.Within c) (hs : s.scopes ≠ [])
    (hd : s.Defined ρ) (hnodup : (casts.map (·.output)).Nodup)
    (hsources : ∀ k ∈ casts, ∀ x ∈ [k.input, k.like], x ≠ "" ∧ x ∈ s.scopes.visible ∧ x ∉ casts.map (·.output)) :
    Runs I fuel (· ∉ casts.map (·.output)) s s' ρ (.ok ()) fun ρ' _ => ∀ k ∈ casts, ρ' k.output = ρ k.input := by
  induction casts generalizing s ρ u with
  | nil =>
    cases hr
    exact .done rfl hd (by simp)
  | cons k casts ih =>
    simp only [forIn_cons, bind_assoc, pure_bind, returns_bind] at hr
    obtain ⟨v, s₁, he, hr⟩ := hr
    rw [map_cons, nodup_cons] at hnodup
    obtain ⟨hin, hinput, -⟩ := hsources k mem_cons_self k.input (by simp)
    obtain ⟨hlike, hlikes, -⟩ := hsources k mem_cons_self k.like (by simp)
    obtain ⟨c1, -⟩ := computes_emitDefault (N := True) he (by simp [State.Sees, hinput, hlikes])
      ⟨casts.map (·.output), []⟩
    -- the sources of the other casts are not written by this one
    have hrest : ∀ j ∈ casts, ∀ x ∈ [j.input, j.like],
        x ≠ "" ∧ x ∈ s₁.scopes.visible ∧ x ≠ k.output ∧ x ∉ casts.map (·.output) := by
      intro j hj x hx
      obtain ⟨hne, hv, hnot⟩ := hsources j (mem_cons_of_mem _ hj) x hx
      rw [map_cons, mem_cons, not_or] at hnot
      exact ⟨hne, c1.visible hs hv, hnot.1, hnot.2⟩
    obtain ⟨c2, -⟩ := computes_casts (N := True) hr (c1.opened hs) fun j hj =>
      ⟨.inr (hrest j hj j.input (by simp)).2.1, .inr (hrest j hj j.like (by simp)).2.1⟩
    obtain ⟨a, ha⟩ := hd.exists_value hinput
    obtain ⟨b, hb⟩ := hd.exists_value hlikes
    have hvalues : [k.input, k.like].mapM ρ.input = .ok [some a, some b] :=
      Outcome.mapM_eq_ok.2 (.cons (Values.input_of_eq hin ha) (.cons (Values.input_of_eq hlike hb) .nil))
    have hfirst : Runs I fuel _ s s₁ ρ (.ok ()) _ :=
      runs_emitDefault hI (c1.within (c2.within hw)) hd hvalues (by simp) (I.castLike a b) he
    refine hfirst.bind c2.nodes (fun x hx h => hx (by simp [h])) fun ρ₁ _ hρ₁ hd1 hk => ?_
    have hruns := ih hr (c1.opened hs) hd1 hnodup.2 fun j hj x hx =>
      ⟨(hrest j hj x hx).1, (hrest j hj x hx).2.1, (hrest j hj x hx).2.2.2⟩
    refine hruns.mono (fun x hx h => hx (mem_cons_of_mem _ h)) fun ρ' _ hρ' _ hcasts j hj => ?_
    rcases mem_cons.1 hj with rfl | hj
    · rw [hρ' _ hnodup.1, hk, ha]
    · rw [hcasts j hj, hρ₁ _ (hrest j hj j.input (by simp)).2.2.1]

/-- **Promotion changes no value**: the inputs have the values of the arguments. -/
theorem runs_promote {schema : Option OpSchema} {args : List Operand}
    (hr : Returns (promote schema args) env s inputs s') (hI : I.Suits c env) (hw : s'.Within c) (hready : s.Ready)
    (hd : s.Defined ρ) (hargs : ∀ a ∈ args, s.Sees a.name) (hconst : ∀ a ∈ args, a.isConst → a.name ≠ "") :
    RunsFresh I fuel s s' ρ (.ok ()) fun ρ' _ =>
      inputs.mapM ρ'.input = args.mapM fun a => ρ.input a.name := by
  obtain ⟨pairs, r, u, hpairs, hfold, rfl, hfor⟩ := returns_promote hr
  obtain ⟨hcasts, c1⟩ := castsOf_assign (N := True) hpairs s hfold
  obtain ⟨hfree, hnodup⟩ := c1.fresh_held (append_nil _).symm rfl fun _ => rfl
  have hused : ∀ a ∈ args, a.name ≠ "" → a.name ∈ s.scopes.visible ∧ a.name ∈ s.names.used := by
    intro a ha hne
    have hv := (hargs a ha).resolve_left hne
    exact ⟨hv, hready.good.taken.1 _ hv⟩
  have hsource : ∀ a ∈ args, a.name ≠ "" →
      a.name ≠ "" ∧ a.name ∈ s.scopes.visible ∧ a.name ∉ r.casts.map (·.output) :=
    fun a ha hne => ⟨hne, (hused a ha hne).1, fun hmem => (hfree _ hmem).1 (hused a ha hne).2⟩
  have hruns : Runs I fuel _ { s with names := r.names } s' ρ (.ok ()) _ :=
    runs_casts hfor hI hw hready.good.opened (hd.of_scopes_eq rfl) hnodup fun k hk x hx => by
      obtain ⟨⟨a, ha, hin, hc⟩, b, hb, hlike, hne⟩ := hcasts.casts k hk
      simp only [mem_cons, not_mem_nil, or_false] at hx
      rcases hx with rfl | rfl
      · rw [← hin]
        exact hsource a ha (hconst a ha hc)
      · rw [← hlike]
        exact hsource b hb hne.2
  refine (hruns.of_nodes_eq rfl).mono (fun x hx hmem => (hfree x hmem).1 hx) fun ρ' _ hkept _ hk => ?_
  have hinputs := (forall₂_and_left args r.inputs).2 ⟨fun a ha => ha, hcasts.inputs⟩
  refine (Outcome.mapM_congr (hinputs.imp fun a x ⟨ha, h⟩ => ?_)).symm
  rcases h with rfl | ⟨hc, k, hk', hin, rfl⟩
  · exact (Values.input_of_kept fun hne => hkept _ (hsource a ha hne).2.2).symm
  · refine Values.input_congr (hconst a ha hc) (hfree _ (mem_map_of_mem hk')).2 ?_
    rw [hk k hk', hin]

end OpGraph.Lowering
