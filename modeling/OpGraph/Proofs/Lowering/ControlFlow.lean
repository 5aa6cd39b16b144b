import OpGraph.Proofs.Lowering.Expressions

/-!
Conditionals and loops advance the state if their blocks do. The graphs of the blocks own their outputs, and the nodes
that get them as attributes are in shape.
-/

namespace OpGraph.Lowering

open List
open GraphFunction (outputNames inputNames outputNames_congr inputNames_congr inputs_congr value_toAttribute
  graph_of_toAttribute)

variable {N : Prop} {env : Env} {s s' : State} {pos : Position}
variable {fn : GraphFunction} {h : Held} {names : List String} {header : LoopHeader} {body : Lower (Option String)}
variable {type : Option DeclaredType} {s₁ : State} {name x : String} {u : Unit}
variable {b : Binding} {last : Bool} {test : Expr} {h' : Held} {xs : List String} {stop : Option String} {s₂ s₃ : State}
variable {condIn condOut : String} {k : ℕ}

theorem returns_currentFunction {f : GraphFunction} (hr : Returns currentFunction env s f s') :
    f = s.current ∧ s = s' := by
  simp only [currentFunction, returns_bind, returns_get, returns_lift, returns_pure] at hr
  obtain ⟨t, t', ⟨rfl, rfl⟩, frame, t', ⟨hf, rfl⟩, rfl, rfl⟩ := hr
  refine ⟨?_, rfl⟩
  unfold State.current
  cases hs : s.scopes with
  | nil =>
    rw [hs] at hf
    cases hf
  | cons g rest =>
    rw [hs] at hf
    cases hf
    rfl

theorem returns_lookupLocal {b : Option Binding} (hr : Returns (lookupLocal name) env s b s') :
    b = Members.get? s.bindings name ∧ s = s' := by
  simp only [lookupLocal, returns_bind, returns_get, returns_lift] at hr
  obtain ⟨t, t', ⟨rfl, rfl⟩, hb, rfl⟩ := hr
  refine ⟨?_, rfl⟩
  unfold State.bindings
  cases hs : s.scopes with
  | nil =>
    rw [hs] at hb
    cases hb
  | cons g rest =>
    rw [hs] at hb
    exact (Except.ok.inj hb).symm

theorem State.lookup_of_bindings (h : Members.get? s.bindings x = some b) : s.scopes.lookup x = some b := by
  unfold State.bindings at h
  cases hs : s.scopes with
  | nil =>
    rw [hs] at h
    cases h
  | cons g rest =>
    rw [hs] at h
    rw [Scopes.lookup, findSome?_cons, h]

/-! ### Outputs of blocks -/

/-- What holds while a block returns values. Names are bound to values in `known`; an output is one of the declared
values or is not known, and a node of the block writes it. -/
structure Returning (known declared : List String) (s : State) : Prop where
  used : ∀ x ∈ known, x ∈ s.names.used
  bound : ∀ x v p t, s.scopes.lookup x = some (.graph v p t) → v ∈ known
  outputs : ∀ o ∈ s.current.outputNames, o ∈ declared ∨ o ∉ known
  nodup : s.current.outputNames.Nodup
  assigned : ∀ o ∈ s.current.outputNames, o ∈ s.current.assigned

theorem Grows.assigned (a : Grows N s h s' h') (hx : x ∈ s.current.assigned) : x ∈ s'.current.assigned := by
  obtain ⟨n, hn, hx⟩ := mem_flatMap.1 hx
  exact mem_flatMap.2 ⟨n, a.nodes.subset hn, hx⟩

theorem State.used_of_assigned (hg : s.Good h) (hx : x ∈ s.current.assigned) : x ∈ s.names.used :=
  hg.taken.1 x (State.visible_of_current hg.opened (mem_append_right _ hx))

namespace Returning

variable {known declared : List String}

theorem of_computes (r : Returning known declared s) (c : Computes N s h s' h') (hs : s.scopes ≠ []) :
    Returning known declared s' := by
  have ho := outputNames_congr c.outputs
  refine ⟨fun x hx => c.used x (r.used x hx), fun x v p t hx => r.bound x v p t ?_, ?_, ?_, ?_⟩
  · rwa [← c.lookup hs]
  · rw [ho]
    exact r.outputs
  · rw [ho]
    exact r.nodup
  · rw [ho]
    exact fun o hmem => c.toGrows.assigned (r.assigned o hmem)

theorem notOutput (r : Returning known declared s) {k : Held} (hg : s.Good k) (c : Computes N s h s' h')
    (hx : x ∉ s.names.used) : x ∉ s'.current.outputNames := by
  intro hmem
  rw [outputNames_congr c.outputs] at hmem
  exact hx (State.used_of_assigned hg (r.assigned x hmem))

theorem addOutput (r : Returning known declared s) {declared' : List String}
    (hr : Returns (modifyFunction (·.addOutput name type)) env s u s') (hnew : name ∉ s.current.outputNames)
    (hassigned : name ∈ s.current.assigned) (hdeclared : ∀ x ∈ declared, x ∈ declared')
    (hname : name ∈ declared' ∨ name ∉ known) : Returning known declared' s' := by
  have e := edits_modifyFunction hr
  have ho : s'.current.outputNames = s.current.outputNames ++ [name] := by
    rw [e.current]
    simp [outputNames, GraphFunction.addOutput]
  have ha : s'.current.assigned = s.current.assigned := by
    rw [e.current]
    rfl
  refine ⟨by rw [e.names]; exact r.used, fun x v p t hx => r.bound x v p t (by rwa [← e.lookup]), ?_, ?_, ?_⟩
  · rw [ho]
    have hold := fun o hmem => (r.outputs o hmem).imp_left (hdeclared o)
    exact forall_mem_append.2 ⟨hold, forall_mem_singleton.2 hname⟩
  · rw [ho]
    exact nodup_append'.2 ⟨r.nodup, nodup_singleton _, by simpa using hnew⟩
  · rw [ho, ha]
    exact forall_mem_append.2 ⟨r.assigned, forall_mem_singleton.2 hassigned⟩

end Returning

/-- A value that is returned from a block: one of its own that is not declared yet, or a copy. -/
theorem computes_ownOutput {known declared : List String} {value : String}
    (hr : Returns (ownOutput declared value name) env s x s') (hg : s.Good) (ret : Returning known declared s)
    (hv : value ∈ s.scopes.visible) (hknown : value ∈ known ∨ value ∉ s.current.outputNames) (hc : N → name ≠ "") :
    Computes N s h s' h ∧ x ∈ s'.current.assigned ∧ x ∉ s'.current.outputNames := by
  simp only [ownOutput, returns_bind] at hr
  obtain ⟨f, t, hf, hr⟩ := hr
  obtain ⟨rfl, rfl⟩ := returns_currentFunction hf
  split at hr
  · rename_i hcond
    obtain ⟨rfl, rfl⟩ := returns_pure.1 hr
    simp only [Bool.and_eq_true, contains_iff_mem, Bool.not_eq_true', ← Bool.not_eq_true] at hcond
    refine ⟨.refl _ _ _, hcond.1, fun hmem => ?_⟩
    rcases hknown with hk | hk
    · exact (ret.outputs value hmem).elim hcond.2 fun hn => hn hk
    · exact hk hmem
  · obtain ⟨c, f⟩ := computes_copy (N := N) hr hg (.inr hv) hc
    exact ⟨c.frame h, f.assigned, ret.notOutput hg c f.free⟩

/-- Steps that return that many values from a block. -/
structure Delivers (N : Prop) (s : State) (h : Held) (count : ℕ) (s' : State) : Prop extends Grows N s h s' h where
  bound : s'.scopes.Bound
  params : s'.current.params = s.current.params
  count : s'.current.outputs.length = s.current.outputs.length + count
  nodup : s'.current.outputNames.Nodup
  assigned : ∀ o ∈ s'.current.outputNames, o ∈ s'.current.assigned

section Deliver

variable {known declared : List String}

theorem Delivers.refl (hg : s.Good h) (r : Returning known declared s) : Delivers N s h 0 s :=
  ⟨.refl _ _ _, hg.bound, rfl, rfl, r.nodup, r.assigned⟩

theorem Delivers.cons (c : Computes N s h s₁ h) (hr : Returns (modifyFunction (·.addOutput name type)) env s₁ u s₂)
    (hs : s₁.scopes ≠ []) (hv : name ∈ s₁.current.assigned) (d : Delivers N s₂ h k s') : Delivers N s h (k + 1) s' := by
  have e := edits_modifyFunction hr
  have hg := grows_addOutput (N := N) (h := h) hr (State.visible_of_current hs (mem_append_right _ hv))
  refine ⟨c.toGrows.trans (hg.trans d.toGrows), d.bound, ?_, ?_, d.nodup, d.assigned⟩
  · rw [d.params, e.current]
    exact c.params
  · rw [d.count, e.current]
    simp only [GraphFunction.addOutput, length_append, length_singleton, c.outputs]
    omega

theorem good_addOutput (hr : Returns (modifyFunction (·.addOutput name type)) env s u s') (hg : s.Good h)
    (hv : name ∈ s.current.assigned) : s'.Good h := by
  have e := edits_modifyFunction hr
  refine (grows_addOutput (N := False) hr ?_).good hg ?_
  · exact State.visible_of_current hg.opened (mem_append_right _ hv)
  · exact e.bound hg.bound (fun _ hx => hx) (fun _ hg => hg) fun x b hx => .inl hx

theorem Delivers.output {x : Operand} {output : String} (hx : Returns (operandOf b name pos) env s x s₁)
    (hown : Returns (ownOutput declared x.name name) env s₁ output s₂)
    (hadd : Returns (modifyFunction (·.addOutput output type)) env s₂ u s₃) (hg : s.Good h)
    (ret : Returning known declared s) (hb : ∀ v p t, b = .graph v p t → s.scopes.lookup name = some b)
    (hname : N → name ≠ "") (hrest : s₃.Good h → Returning known (output :: declared) s₃ → Delivers N s₃ h k s') :
    Delivers N s h (k + 1) s' := by
  obtain ⟨c1, hcase⟩ := computes_operandOf (N := N) hx hg.drop hname
  have hg1 := (c1.frame h).good hg
  have ret1 := ret.of_computes c1 hg.opened
  have hknown : x.name ∈ s₁.scopes.visible ∧ (x.name ∈ known ∨ x.name ∉ s₁.current.outputNames) := by
    rcases hcase with ⟨p, t, rfl, rfl⟩ | f
    · exact ⟨hg.bound.lookup (hb _ p t rfl), .inl (ret.bound name _ p t (hb _ p t rfl))⟩
    · exact ⟨f.visible hg1.opened, .inr (ret.notOutput hg c1 f.free)⟩
  obtain ⟨c2, hass, hnew⟩ := computes_ownOutput (N := N) (h := h) hown hg1.drop ret1 hknown.1 hknown.2 hname
  have hg2 := c2.good hg1
  have ret2 := (ret1.of_computes c2 hg1.opened).addOutput hadd hnew hass
    (fun y hy => mem_cons_of_mem output hy) (.inl mem_cons_self)
  exact .cons ((c1.frame h).trans c2) hadd hg2.opened hass (hrest (good_addOutput hadd hg2 hass) ret2)

/-- **A branch returns each of the names.** -/
theorem delivers_branchOutputs (hr : Returns (branchOutputs pos declared names) env s u s') (hg : s.Good h)
    (ret : Returning known declared s) (hN : N → "" ∉ names) : Delivers N s h names.length s' := by
  induction names generalizing declared s u with
  | nil =>
    rw [branchOutputs] at hr
    cases hr
    exact .refl hg ret
  | cons name names ih =>
    have hname : N → name ≠ "" := fun hn h => hN hn (by simp [h])
    have hrest : N → "" ∉ names := fun hn h => hN hn (mem_cons_of_mem _ h)
    simp only [branchOutputs, returns_bind] at hr
    obtain ⟨b, t, hb, hr⟩ := hr
    obtain ⟨rfl, rfl⟩ := returns_lookupLocal hb
    split at hr
    · rename_i b hb'
      simp only [returns_bind] at hr
      obtain ⟨x, s₁, hx, output, s₂, hown, v, s₃, hadd, hr⟩ := hr
      exact .output hx hown hadd hg ret (fun _ _ _ _ => State.lookup_of_bindings hb') hname fun hg3 ret3 =>
        ih hr hg3 ret3 hrest
    · simp only [lookupOuter, returns_bind, returns_get, returns_pure] at hr
      obtain ⟨b, t, ⟨t', t'', ⟨rfl, rfl⟩, rfl, rfl⟩, hr⟩ := hr
      split at hr
      · cases hr
      · rename_i b houter
        simp only [returns_bind, returns_defaultOp] at hr
        obtain ⟨output, s₁, hf, op, t, ⟨o, -, -, rfl⟩, x, s₂, hx, v, s₃, he, w, s₄, hadd, hr⟩ := hr
        obtain ⟨c1, hfree, hused⟩ := computes_fresh (N := N) hf hname h
        have hg1 := c1.good hg
        obtain ⟨c2, hcase⟩ := computes_operandOf (N := N) hx hg1.drop hname
        have hsees : s₂.Sees x.name := by
          rcases hcase with ⟨p, t, rfl, rfl⟩ | f
          · refine .inr (c1.visible hg.opened ?_)
            rw [State.visible_eq hg.opened]
            have hb := (State.bound_iff hg.opened).1 hg.bound
            have houter' : s.around.lookup name = some (.graph x.name p t) := by
              rw [← houter, Scopes.lookupOuter, State.around, drop_one]
            exact mem_append_right _ (hb.2.lookup houter')
          · exact .inr (f.visible (c2.opened hg1.opened))
        have hs2 := c2.opened hg1.opened
        obtain ⟨c3, -⟩ := computes_emit_plain (N := N) he rfl (forall_mem_singleton.2 hsees) h
        have c13 : Computes N s h s₃ h := c1.trans ((c2.frame _).trans c3)
        have hg3 := c13.good hg
        have hass : output ∈ s₃.current.assigned := by
          rw [GraphFunction.assigned, nodes_emit he]
          simp
        have ret3 := ret.of_computes c13 hg.opened
        have hnew := ret.notOutput hg c13 hfree
        have ret4 := ret3.addOutput hadd hnew hass (fun y hy => hy) (.inr fun hk => hfree (ret.used _ hk))
        exact .cons c13 hadd hg3.opened hass (ih hr (good_addOutput hadd hg3 hass) ret4 hrest)

/-- **A loop body returns each of the names.** -/
theorem delivers_loopOutputs (hr : Returns (loopOutputs pos declared names) env s u s') (hg : s.Good h)
    (ret : Returning known declared s) (hN : N → "" ∉ names) : Delivers N s h names.length s' := by
  induction names generalizing declared s u with
  | nil =>
    rw [loopOutputs] at hr
    cases hr
    exact .refl hg ret
  | cons name names ih =>
    have hname : N → name ≠ "" := fun hn h => hN hn (by simp [h])
    simp only [loopOutputs, operandOfName, returns_bind, returns_lookup] at hr
    obtain ⟨x, s₁, ⟨b, t, ⟨hb, rfl⟩, hx⟩, output, s₂, hown, v, s₃, hadd, hr⟩ := hr
    refine .output hx hown hadd hg ret (fun v p t hgraph => ?_) hname fun hg3 ret3 =>
      ih hr hg3 ret3 fun hn h => hN hn (mem_cons_of_mem _ h)
    refine (Option.or_eq_some_iff.1 hb).resolve_right fun hl => ?_
    obtain ⟨w, -, hw⟩ := Option.map_eq_some_iff.1 hl.2
    rw [hgraph] at hw
    cases hw

end Deliver

/-! ### Conditionals -/

theorem Returning.start (hg : s.Good) (ho : s.current.outputs = []) : Returning s.names.used [] s := by
  have hn : s.current.outputNames = [] := by
    unfold outputNames
    rw [ho]
    rfl
  refine ⟨fun x hx => hx, fun x v p t hx => hg.taken.1 v (hg.bound.lookup hx), ?_, ?_, ?_⟩ <;> simp [hn]

/-- The graph of a branch: it takes no inputs and returns that many values of its own. -/
structure IsBranch (fn : GraphFunction) (count : ℕ) : Prop where
  inputs : fn.inputs = []
  outputs : fn.outputs.length = count
  owns : fn.OwnsOutputs

theorem computes_branch {body : Lower Unit} {outputs : List String}
    (hr : Returns (branch name body outputs pos) env s fn s') (hg : s.Good) (hbody : Performs N body)
    (hN : N → "" ∉ outputs) : Computes N s {} s' ⟨[], [fn]⟩ ∧ s'.scopes = s.scopes ∧ IsBranch fn outputs.length := by
  simp only [branch, returns_bind] at hr
  obtain ⟨u, s₀, henter, v, s₁, hb, w, s₂, hout, hleave⟩ := hr
  have e := enters_enter henter
  have l := leaves_leave hleave
  have hg0 := e.good hg.bound hg.taken.1
  have a := hbody hg0 hb
  have hg1 := a.good hg0
  have d := delivers_branchOutputs hout hg1 (.start hg1 (by rw [a.outputs, e.current])) hN
  refine ⟨.scope e (a.toGrows.trans d.toGrows) l hg.opened, l.scopes_eq (a.toGrows.trans d.toGrows) e, ?_⟩
  have hparams : fn.params = [] := by rw [l.fn, d.params, a.params, e.current]
  have hinputs : fn.inputs = [] := by simp [GraphFunction.inputs, hparams]
  refine ⟨hinputs, ?_, by rw [l.fn]; exact d.nodup, by rw [l.fn]; exact d.assigned, ?_⟩
  · simp only [l.fn, d.count, a.outputs, e.current, length_nil]
    omega
  · rw [inputNames, hinputs]
    simp

/-- Names are bound to new names, which are held for the outputs of a node. -/
structure BindsOutputs (N : Prop) (s : State) (h : Held) (xs : List String) (s' : State) : Prop
    extends Grows N s h s' ⟨xs ++ h.names, h.parts⟩ where
  current : s'.current = s.current
  bindings : ∀ y b, Members.get? s'.bindings y = some b →
    Members.get? s.bindings y = some b ∨ ∃ v ∈ xs, ∃ p t, b = .graph v p t

theorem bindsOutputs_bindOutputs (hr : Returns (bindOutputs names) env s xs s') (hN : N → "" ∉ names) :
    BindsOutputs N s h xs s' ∧ xs.length = names.length := by
  induction names generalizing xs s h with
  | nil =>
    cases hr
    exact ⟨⟨.refl _ _ _, rfl, fun y b hy => .inl hy⟩, rfl⟩
  | cons name names ih =>
    simp only [bindOutputs, mapM_cons, returns_bind, returns_pure] at hr
    obtain ⟨x, s₁, ⟨value, s₂, hf, u, s₃, hb, rfl, rfl⟩, rest, s₄, hrest, rfl, rfl⟩ := hr
    obtain ⟨c1, -, -⟩ := computes_fresh (N := N) hf (fun hn h => hN hn (by simp [h])) h
    have e := edits_bind hb
    obtain ⟨b, hlen⟩ := ih (h := ⟨value :: h.names, h.parts⟩) hrest fun hn h => hN hn (mem_cons_of_mem _ h)
    have hswap : Computes N s₄ ⟨rest ++ value :: h.names, h.parts⟩ s₄ ⟨value :: rest ++ h.names, h.parts⟩ :=
      .swap perm_middle rfl
    refine ⟨⟨c1.toGrows.trans ((grows_bind hb).trans (b.toGrows.trans hswap.toGrows)), ?_, ?_⟩, by simp [hlen]⟩
    · rw [b.current, e.current]
      obtain ⟨-, rfl⟩ := returns_fresh.1 hf
      rfl
    · intro y b' hy
      rcases b.bindings y b' hy with hy | ⟨v, hv, hb'⟩
      · rw [e.bindings, Members.get?_set, c1.bindings] at hy
        split at hy
        · cases hy
          exact .inr ⟨value, mem_cons_self, _, _, rfl⟩
        · exact .inl hy
      · exact .inr ⟨v, mem_cons_of_mem _ hv, hb'⟩

theorem BindsOutputs.bound {n : GraphNode} (b : BindsOutputs N s h xs s₁) (hg : s.Good h)
    (he : Returns (emit n) env s₁ u s') (hn : n.outputs = xs) (c : Computes N s₁ ⟨xs ++ h.names, h.parts⟩ s' h') :
    s'.scopes.Bound := by
  have hs₁ := b.opened hg.opened
  have hs' := c.opened hs₁
  have hb := (State.bound_iff hg.opened).1 hg.bound
  rw [State.bound_iff hs', c.bindings, c.around, b.around]
  refine ⟨fun y b' hy => ?_, hb.2⟩
  rcases b.bindings y b' hy with hy | ⟨v, hv, p, t, rfl⟩
  · exact (hb.1 y b' hy).mono (fun x hx => c.visible hs₁ (b.visible hg.opened hx))
      fun g hgf => c.functions hs₁ (b.functions hg.opened hgf)
  · refine State.visible_of_current hs' ?_
    rw [values_emit he, hn]
    exact mem_append_right _ hv

/-- **A conditional advances the state** if its blocks do. -/
theorem performs_conditional {body orelse : Block} (htest : N → "" ∉ test.reads) (hnames : N → "" ∉ names)
    (hbody : Performs N body.lower) (horelse : Performs N orelse.lower) :
    Performs N (conditional pos test names body orelse) := by
  intro env s u s' hg hr
  simp only [conditional, returns_bind] at hr
  obtain ⟨cond, s₁, hcond, thenGraph, s₂, hthen, elseGraph, s₃, helse, outputs, s₄, hbind, hr⟩ := hr
  obtain ⟨c1, v1⟩ := yields_lowerOperand htest (by simp) hg hcond
  have hg1 := c1.good hg
  obtain ⟨c2, -, b2⟩ := computes_branch hthen hg1 hbody hnames
  have hg2 := c2.good hg1
  obtain ⟨c3, -, b3⟩ := computes_branch helse hg2.drop horelse hnames
  have c3' := c3.holding ⟨[], [thenGraph]⟩
  have hg3 := c3'.good hg2
  obtain ⟨b, hlen⟩ := bindsOutputs_bindOutputs (h := ⟨[], [thenGraph, elseGraph]⟩) hbind hnames
  split at hr
  · simp at hr
  rename_i hne
  split at hr
  · simp at hr
  simp only [returns_bind, returns_defaultOp, returns_lift] at hr
  obtain ⟨op, t, ⟨o, -, rfl, rfl⟩, thenBranch, t, ⟨hthenA, rfl⟩, elseBranch, t, ⟨helseA, rfl⟩, fs, t, ⟨-, rfl⟩, he⟩ := hr
  have hshape : GraphNode.Shaped {
      outputs
      op := opName (o.op "If")
      inputs := [cond.name]
      attributes := [thenBranch, elseBranch]
      functions := fs
      blocks := [thenGraph, elseGraph] } := by
    refine .conditional thenGraph elseGraph rfl ⟨rfl, ?_, rfl, ?_, ?_⟩
    · simp [value_toAttribute hthenA, value_toAttribute helseA]
    · exact length_pos_iff.2 (by simpa using hne)
    · exact forall_mem_cons.2 ⟨⟨b2.inputs, b2.outputs.trans hlen.symm, b2.owns⟩,
        forall_mem_singleton.2 ⟨b3.inputs, b3.outputs.trans hlen.symm, b3.owns⟩⟩
  have c13 := c1.trans (c2.trans c3')
  have c4 : Computes N s₄ ⟨outputs ++ [], [thenGraph, elseGraph]⟩ s' {} := by
    refine computes_emit he ?_ ?_ (by simp) hshape ?_
    · refine forall_mem_singleton.2 (.inr (b.visible hg3.opened ?_))
      exact (c2.trans c3').visible hg1.opened v1
    · have hin : ∀ fn : GraphFunction, fn.inputs = [] → fn.inputNames = [] := by
        intro fn hfn
        rw [inputNames, hfn]
        rfl
      simp [GraphNode.defines, hin _ b2.inputs, hin _ b3.inputs]
    · exact forall_mem_cons.2 ⟨fun g h => ⟨thenGraph, by simp, graph_of_toAttribute hthenA h⟩,
        forall_mem_singleton.2 fun g h => ⟨elseGraph, by simp, graph_of_toAttribute helseA h⟩⟩
  refine ⟨c13.toGrows.trans (b.toGrows.trans c4.toGrows), b.bound hg3 he rfl c4, ?_, ?_⟩
  · rw [c4.params, b.current, c13.params]
  · rw [c4.outputs, b.current, c13.outputs]

/-! ### Loops -/

/-- An input of a loop body stays held, since it is defined with the node of the loop. -/
structure DeclaresInput (N : Prop) (s s' : State) : Prop
    extends Grows N s ⟨s.current.inputNames, []⟩ s' ⟨s'.current.inputNames, []⟩ where
  bound : s'.scopes.Bound
  count : s'.current.inputs.length = s.current.inputs.length + 1
  outputs : s'.current.outputs = s.current.outputs

theorem inputNames_addInput : (fn.addInput name type).inputNames = fn.inputNames ++ [name] := by
  simp [inputNames, GraphFunction.inputs, GraphFunction.addInput]

theorem declares_addInput {candidate : String} (hf : Returns (fresh candidate) env s x s₁)
    (hr : Returns (modifyFunction (·.addInput x type)) env s₁ u s') (hc : N → candidate ≠ "") (hg : s.Good) :
    DeclaresInput N s s' ∧ s'.bindings = s.bindings := by
  obtain ⟨c1, -, -⟩ := computes_fresh (N := N) hf hc ⟨s.current.inputNames, []⟩
  have e := edits_modifyFunction hr
  have hcur : s₁.current = s.current := by
    obtain ⟨-, rfl⟩ := returns_fresh.1 hf
    rfl
  have hnames : s'.current.inputNames = s.current.inputNames ++ [x] := by
    rw [e.current, inputNames_addInput, hcur]
  have hvalues : ∀ y ∈ s₁.current.values, y ∈ (s₁.current.addInput x type).values :=
    fun y hy => GraphFunction.mem_values_param hy
  have c2 : Computes N s₁ ⟨x :: s.current.inputNames, []⟩ s₁ ⟨s'.current.inputNames, []⟩ := by
    refine .swap ?_ rfl
    rw [hnames]
    exact (perm_append_singleton _ _).symm
  have g3 : Grows N s₁ ⟨s'.current.inputNames, []⟩ s' ⟨s'.current.inputNames, []⟩ := by
    refine e.grows_note rfl rfl hvalues (fun y hy => ?_) fun inner hb => .param _ hb
    rw [GraphFunction.values, inputNames_addInput, hcur, ← hnames] at hy
    rcases mem_append.1 hy with hy | hy
    · exact .inr hy
    · refine .inl ?_
      rw [hcur]
      exact mem_append_right _ hy
  refine ⟨⟨c1.toGrows.trans (c2.toGrows.trans g3), ?_, ?_, ?_⟩, by rw [e.bindings, c1.bindings]⟩
  · exact e.bound (c1.bound hg.opened hg.bound) hvalues (fun _ hq => hq) fun y b hy => .inl hy
  · rw [e.current, ← hcur]
    simp [GraphFunction.inputs, GraphFunction.addInput]
  · rw [e.current, ← hcur]
    rfl

theorem DeclaresInput.good (d : DeclaresInput N s s') (hg : s.Good ⟨s.current.inputNames, []⟩) :
    s'.Good ⟨s'.current.inputNames, []⟩ :=
  d.toGrows.good hg d.bound

theorem declares_loopInput (hr : Returns (loopInput name type) env s u s') (hc : N → name ≠ "") (hg : s.Good) :
    DeclaresInput N s s' := by
  simp only [loopInput, returns_bind] at hr
  obtain ⟨value, s₁, hf, v, s₂, hadd, hb⟩ := hr
  obtain ⟨d, -⟩ := declares_addInput (N := N) hf hadd hc hg
  have e := edits_bind hb
  have hcur : s'.current = s₂.current := e.current
  refine ⟨?_, ?_, by rw [hcur, d.count], by rw [hcur, d.outputs]⟩
  · rw [hcur]
    exact d.toGrows.trans (grows_bind hb)
  · refine bound_bind hb d.bound ?_
    refine State.visible_of_current e.opened (mem_append_left _ ?_)
    rw [(edits_modifyFunction hadd).current, inputNames_addInput]
    exact mem_append_right _ mem_cons_self

theorem declares_loopInputs (hr : Returns (names.forM (loopInput · none)) env s u s')
    (hg : s.Good ⟨s.current.inputNames, []⟩) (hN : N → "" ∉ names) :
    Grows N s ⟨s.current.inputNames, []⟩ s' ⟨s'.current.inputNames, []⟩ ∧ s'.Good ⟨s'.current.inputNames, []⟩ ∧
      s'.current.inputs.length = s.current.inputs.length + names.length ∧ s'.current.outputs = s.current.outputs := by
  induction names generalizing s u with
  | nil =>
    cases hr
    exact ⟨.refl _ _ _, hg, rfl, rfl⟩
  | cons name names ih =>
    obtain ⟨v, s₁, h1, hr⟩ := returns_bind.1 hr
    have d := declares_loopInput (N := N) h1 (fun hn h => hN hn (by simp [h])) hg.drop
    obtain ⟨g, hg', hlen, hout⟩ := ih hr (d.good hg) fun hn h => hN hn (mem_cons_of_mem _ h)
    refine ⟨d.toGrows.trans g, hg', ?_, hout.trans d.outputs⟩
    rw [hlen, d.count, length_cons]
    omega

theorem returns_bodyValue? {v : Option String} (hr : Returns (bodyValue? name) env s v s') :
    s = s' ∧ ∀ x, v = some x → ∃ p t, Members.get? s.bindings name = some (.graph x p t) := by
  simp only [bodyValue?, returns_bind] at hr
  obtain ⟨b, t, hb, hr⟩ := hr
  obtain ⟨rfl, rfl⟩ := returns_lookupLocal hb
  split at hr
  · rename_i value p t hget
    cases hr
    refine ⟨rfl, fun x hx => ?_⟩
    cases hx
    exact ⟨p, t, hget⟩
  · cases hr
    exact ⟨rfl, by simp⟩

theorem visible_of_bindings {v : String} {p : Provenance} {t : Option DeclaredType} (hg : s.Good)
    (h : Members.get? s.bindings name = some (.graph v p t)) : v ∈ s.scopes.visible :=
  hg.bound.lookup (State.lookup_of_bindings h)

theorem returns_breakCondition (hr : Returns (breakCondition pos test last) env s x s') :
    s = s' ∧ last = true ∧
      ∃ q id p t, test = .name q id ∧ Members.get? s.bindings id = some (.graph x p t) := by
  unfold breakCondition at hr
  split at hr
  · rename_i q id
    split at hr
    · cases hr
    · rename_i hlast
      obtain ⟨v, t, hv, hr⟩ := returns_bind.1 hr
      obtain ⟨rfl, hget⟩ := returns_bodyValue? hv
      split at hr
      · rename_i value
        obtain ⟨rfl, rfl⟩ := returns_pure.1 hr
        obtain ⟨p, t, hb⟩ := hget value rfl
        exact ⟨rfl, by simpa using hlast, q, id, p, t, rfl, hb⟩
      · cases hr
  · cases hr

theorem computes_continueCondition (hr : Returns (continueCondition pos header condIn condOut stop) env s u s')
    (hg : s.Good) (hin : condIn ∈ s.scopes.visible) (hstop : ∀ x, stop = some x → x ∈ s.scopes.visible) :
    Computes N s ⟨condOut :: h.names, h.parts⟩ s' h ∧ condOut ∈ s'.current.assigned := by
  have hemit : ∀ {t t' : State} {name : String} {inputs : List String} {v : Unit},
      Returns (emitDefault [condOut] name inputs) env t v t' → (∀ x ∈ inputs, x ∈ t.scopes.visible) →
      Computes N t ⟨condOut :: h.names, h.parts⟩ t' h ∧ condOut ∈ t'.current.assigned := by
    intro t t' name inputs v he hv
    refine ⟨(computes_emitDefault he (fun x hx => .inr (hv x hx)) h).1, ?_⟩
    obtain ⟨o, -, he⟩ := returns_emitDefault.1 he
    simp [GraphFunction.assigned, nodes_emit he]
  unfold continueCondition at hr
  split at hr
  · simp only [returns_bind] at hr
    obtain ⟨v, t, hv, hr⟩ := hr
    obtain ⟨rfl, hget⟩ := returns_bodyValue? hv
    split at hr
    · cases hr
    · rename_i value
      obtain ⟨p, t, hb⟩ := hget value rfl
      have hvalue := visible_of_bindings hg hb
      split at hr
      · exact hemit hr (by simpa using hvalue)
      · rename_i stop
        simp only [returns_bind] at hr
        obtain ⟨goOn, s₁, hf, w, s₂, he, hr⟩ := hr
        have hc : N → stop ++ "_not" ≠ "" := fun _ => by simp
        have c0 := (computes_fresh hf hc {}).1
        obtain ⟨c1, f1⟩ := computes_fresh_emitDefault hf he hc
          (forall_mem_singleton.2 (.inr (c0.visible hg.opened (hstop _ rfl))))
        obtain ⟨c2, h2⟩ := hemit hr (forall_mem_cons.2
          ⟨c1.visible hg.opened hvalue, forall_mem_singleton.2 (f1.visible (c1.opened hg.opened))⟩)
        exact ⟨(c1.frame _).trans c2, h2⟩
  · split at hr
    · exact hemit hr (by simpa using hin)
    · rename_i stop
      exact hemit hr (by simpa using hstop stop rfl)

/-- The steps of a loop body advance the state, and a condition that ends the loop is visible. -/
def PerformsLoop (N : Prop) (m : Lower (Option String)) : Prop :=
  ∀ ⦃env : Env⦄ ⦃s : State⦄ ⦃stop : Option String⦄ ⦃s' : State⦄, s.Good → Returns m env s stop s' →
    Advances N s s' ∧ ∀ x, stop = some x → x ∈ s'.scopes.visible

theorem PerformsLoop.pure_none : PerformsLoop N (Pure.pure none) := by
  intro env s stop s' hg hr
  cases hr
  exact ⟨(Computes.refl N s {}).advances hg, by simp⟩

theorem PerformsLoop.cons {m : Lower Unit} (hm : Performs N m) (hbody : PerformsLoop N body) :
    PerformsLoop N (do m; body) := by
  intro env s stop s' hg hr
  obtain ⟨v, s₁, h1, hr⟩ := returns_bind.1 hr
  have a := hm hg h1
  obtain ⟨a', hstop⟩ := hbody (a.good hg) hr
  exact ⟨a.trans a', hstop⟩

theorem performsLoop_break : PerformsLoop N (do return some (← breakCondition pos test last)) := by
  intro env s stop s' hg hr
  obtain ⟨x, t, hx, ⟨⟩⟩ := returns_bind.1 hr
  obtain ⟨rfl, -, -, id, p, t, -, hb⟩ := returns_breakCondition hx
  refine ⟨(Computes.refl N s {}).advances hg, fun y hy => ?_⟩
  cases hy
  exact visible_of_bindings hg hb

/-- The graph of a loop body that carries that many values. -/
structure IsLoopBody (fn : GraphFunction) (count : ℕ) : Prop where
  inputs : fn.inputs.length = 2 + count
  outputs : fn.outputs.length = 1 + count
  owns : fn.OwnsOutputs

theorem Grows.notHeld {domain : String} {s₀ : State} (e : Enters s name domain s₀) (a : Grows N s₀ {} s' ⟨names, []⟩)
    (hfn : fn = s'.current) : ∀ x ∈ fn.assigned, x ∉ names := by
  intro x hx hmem
  have h1 := a.tally_le_succ x
  have h0 : s₀.current.tally x = 0 := by
    rw [e.current, GraphFunction.tally_eq]
    rfl
  have ha := GraphFunction.count_assigned_le fn x
  have hx' := count_pos_iff.2 hx
  have hn' := count_pos_iff.2 hmem
  simp only [State.tally, Held.tally, h0, ← hfn, count_nil, map_nil, sum_nil] at h1
  omega

/-- The results of a loop body: the condition under which the loop goes on, and the state. -/
theorem delivers_loopResults {u' u'' : Unit} (hf : Returns (fresh "cond_out") env s condOut s₁)
    (hcont : Returns (continueCondition pos header condIn condOut stop) env s₁ u s₂)
    (hadd : Returns (modifyFunction (·.addOutput condOut type)) env s₂ u' s₃)
    (hout : Returns (loopOutputs pos [] names) env s₃ u'' s') (hg : s.Good h) (ho : s.current.outputs = [])
    (hin : condIn ∈ s.scopes.visible) (hstop : ∀ x, stop = some x → x ∈ s.scopes.visible) (hN : N → "" ∉ names) :
    Computes N s h s₂ h ∧ condOut ∈ s₂.scopes.visible ∧ Delivers N s h (names.length + 1) s' := by
  obtain ⟨c1, hfree, -⟩ := computes_fresh (N := N) hf (fun _ => by simp) h
  have hg1 := c1.good hg
  obtain ⟨c2, hass⟩ := computes_continueCondition (N := N) (h := h) hcont hg1.drop (c1.visible hg.opened hin)
    fun x hx => c1.visible hg.opened (hstop x hx)
  have c12 := c1.trans c2
  have hg2 := c12.good hg
  have ret := Returning.start hg.drop ho
  have ret3 := (ret.of_computes c12 hg.opened).addOutput hadd (ret.notOutput hg c12 hfree) hass (fun y hy => hy)
    (.inr hfree)
  refine ⟨c12, State.visible_of_current hg2.opened (mem_append_right _ hass), .cons c12 hadd hg2.opened hass ?_⟩
  exact delivers_loopOutputs hout (good_addOutput hadd hg2 hass) ret3 hN

theorem computes_loopBody (hr : Returns (loopBody pos header names body) env s fn s') (hg : s.Good)
    (hbody : PerformsLoop N body) (hcounter : N → header.counter ≠ "") (hN : N → "" ∉ names) :
    Computes N s {} s' ⟨fn.inputNames, [fn]⟩ ∧ s'.scopes = s.scopes ∧ IsLoopBody fn names.length := by
  simp only [loopBody, returns_bind] at hr
  obtain ⟨u, s₀, henter, u₁, s₁, hcount, condIn, s₂, hfin, u₂, s₃, haddin, u₃, s₄, hstate, stop, s₅, hb, condOut, s₆,
    hfout, u₄, s₇, hcont, u₅, s₈, haddout, u₆, s₉, hout, hleave⟩ := hr
  have e := enters_enter henter
  have l := leaves_leave hleave
  have hg0 : s₀.Good ⟨s₀.current.inputNames, []⟩ := by
    rw [e.current]
    exact e.good hg.bound hg.taken.1
  -- the inputs of the body
  have d1 := declares_loopInput (N := N) hcount hcounter hg0.drop
  have hg1 := d1.good hg0
  obtain ⟨d2, -⟩ := declares_addInput (N := N) hfin haddin (fun _ => by simp) hg1.drop
  have hg3 := d2.good hg1
  obtain ⟨g4, hg4, hlen4, hout4⟩ := declares_loopInputs (N := N) hstate hg3 hN
  have hcondIn : condIn ∈ s₃.scopes.visible := by
    refine State.visible_of_current hg3.opened (mem_append_left _ ?_)
    rw [(edits_modifyFunction haddin).current, inputNames_addInput]
    exact mem_append_right _ mem_cons_self
  -- its statements
  obtain ⟨a5, hstop⟩ := hbody hg4.drop hb
  set held : Held := ⟨s₄.current.inputNames, []⟩ with hheld
  have hg5 : s₅.Good held := (a5.toGrows.frame held).good hg4 a5.bound
  have ho5 : s₅.current.outputs = [] := by rw [a5.outputs, hout4, d2.outputs, d1.outputs, e.current]
  obtain ⟨-, -, d9⟩ := delivers_loopResults (N := N) hfout hcont haddout hout hg5 ho5
    (a5.visible hg4.opened (g4.visible hg3.opened hcondIn)) hstop hN
  -- the whole body
  have hparams : fn.params = s₄.current.params := by rw [l.fn, d9.params, a5.params]
  have hinputs := inputs_congr hparams
  have hnames := inputNames_congr hparams
  have g0 : Grows N s₀ {} s₉ ⟨fn.inputNames, []⟩ := by
    have g1 := d1.toGrows
    rw [show s₀.current.inputNames = [] by rw [e.current]; rfl] at g1
    rw [hnames]
    exact g1.trans (d2.toGrows.trans (g4.trans ((a5.toGrows.frame held).trans d9.toGrows)))
  refine ⟨.scope e g0 l hg.opened, l.scopes_eq g0 e, ?_, ?_, ?_, ?_, ?_⟩
  · have h0 : s₀.current.inputs.length = 0 := by
      rw [e.current]
      rfl
    simp only [hinputs, hlen4, d2.count, d1.count, h0]
  · simp only [l.fn, d9.count, ho5, length_nil]
    omega
  · rw [l.fn]
    exact d9.nodup
  · rw [l.fn]
    exact d9.assigned
  · intro x hx
    exact g0.notHeld e l.fn x (by rw [l.fn] at hx ⊢; exact d9.assigned x hx)

theorem computes_valuesOf (hr : Returns (names.mapM fun name => do return (← operandOfName name pos).name) env s xs s')
    (hg : s.Good) (hN : N → "" ∉ names) :
    Computes N s {} s' {} ∧ xs.length = names.length ∧ ∀ x ∈ xs, x ∈ s'.scopes.visible := by
  induction names generalizing s xs with
  | nil =>
    cases hr
    exact ⟨.refl _ _ _, rfl, by simp⟩
  | cons name names ih =>
    simp only [mapM_cons, returns_bind, returns_pure] at hr
    obtain ⟨x, s₁, ⟨y, t, hy, rfl, rfl⟩, rest, s₂, hrest, rfl, rfl⟩ := hr
    obtain ⟨c1, v1⟩ := yields_operandOfName (N := N) (fun hn h => hN hn (by simp [h])) hg hy
    have hg1 := c1.good hg
    obtain ⟨c2, hlen, v2⟩ := ih hrest hg1 fun hn h => hN hn (mem_cons_of_mem _ h)
    exact ⟨c1.trans c2, by simp [hlen], forall_mem_cons.2 ⟨c2.visible hg1.opened v1, v2⟩⟩

/-- The steps after the body of a loop. -/
def loopNode (pos : Position) (header : LoopHeader) (names : List String) (initial : Operand) (fn : GraphFunction) :
    Lower Unit := do
  let inputs ← names.mapM fun name => do return (← operandOfName name pos).name
  let outputs ← bindOutputs names
  let op ← defaultOp "Loop"
  let bodyGraph ← lift (fn.toAttribute "body")
  emit {
    outputs
    op := opName op
    inputs := header.bound :: initial.name :: inputs
    attributes := [bodyGraph]
    functions := ← lift (blockFunctions [fn])
    blocks := [fn] }

/-- The initial condition of a loop. -/
def loopCondition (pos : Position) (header : LoopHeader) : Lower Operand :=
  match header.test with
  | none => constant (.bool true) (some "true") pos
  | some name => operandOfName name pos

theorem loop_eq : loop pos header names body = (do
    let initial ← loopCondition pos header
    let fn ← loopBody pos header names body
    loopNode pos header names initial fn) := by
  unfold loop loopCondition loopNode
  cases header.test <;> rfl

theorem advances_loopNode {initial : Operand}
    (hr : Returns (loopBody pos header names body >>= loopNode pos header names initial) env s u s') (hg : s.Good)
    (hbody : PerformsLoop N body) (hcounter : N → header.counter ≠ "") (hbound : s.Sees header.bound)
    (hinitial : initial.name ∈ s.scopes.visible) (hN : N → "" ∉ names) : Advances N s s' := by
  simp only [loopNode, returns_bind, returns_defaultOp, returns_lift] at hr
  obtain ⟨fn, s₁, hfn, inputs, s₂, hin, outputs, s₃, hbind, op, t, ⟨o, -, rfl, rfl⟩, bodyGraph, t, ⟨hattr, rfl⟩, fs, t,
    ⟨-, rfl⟩, he⟩ := hr
  obtain ⟨c1, -, b1⟩ := computes_loopBody hfn hg hbody hcounter hN
  have hg1 := c1.good hg
  obtain ⟨c2, hlen2, v2⟩ := computes_valuesOf (N := N) hin hg1.drop hN
  have c2' := c2.frame ⟨fn.inputNames, [fn]⟩
  have hg2 := c2'.good hg1
  obtain ⟨b, hlen3⟩ := bindsOutputs_bindOutputs (h := ⟨fn.inputNames, [fn]⟩) hbind hN
  have c12 := c1.trans c2'
  have hshape : GraphNode.Shaped {
      outputs
      op := opName (o.op "Loop")
      inputs := header.bound :: initial.name :: inputs
      attributes := [bodyGraph]
      functions := fs
      blocks := [fn] } := by
    refine .loop fn rfl ⟨rfl, by simp [value_toAttribute hattr], ?_, ?_, ?_, b1.owns⟩
    · simp only [length_cons, hlen2, hlen3]
      omega
    · rw [b1.inputs, hlen3]
    · rw [b1.outputs, hlen3]
  have c4 : Computes N s₃ ⟨outputs ++ fn.inputNames, [fn]⟩ s' {} := by
    refine computes_emit he ?_ (by simp [GraphNode.defines]) (by simp) hshape ?_
    · intro x hx
      simp only [mem_cons] at hx
      rcases hx with rfl | rfl | hx
      · exact b.sees hg2.opened (c12.sees hg.opened hbound)
      · exact .inr (b.visible hg2.opened (c12.visible hg.opened hinitial))
      · exact .inr (b.visible hg2.opened (v2 x hx))
    · exact forall_mem_singleton.2 fun g hgraph => ⟨fn, by simp, graph_of_toAttribute hattr hgraph⟩
  refine ⟨c12.toGrows.trans (b.toGrows.trans c4.toGrows), b.bound hg2 he rfl c4, ?_, ?_⟩
  · rw [c4.params, b.current, c12.params]
  · rw [c4.outputs, b.current, c12.outputs]

theorem yields_loopCondition (htest : N → header.test ≠ some "") : Yields N (loopCondition pos header) := by
  unfold loopCondition
  split
  · intro env s x s' hg hr
    obtain ⟨c, f⟩ := computes_constant (N := N) hr (by simp)
    exact ⟨c, f.visible (c.opened hg.opened)⟩
  · rename_i name hname
    exact yields_operandOfName fun hn h => htest hn (by rw [hname, h])

/-- **A loop advances the state** if its body does. -/
theorem advances_loop (hr : Returns (loop pos header names body) env s u s') (hg : s.Good) (hbody : PerformsLoop N body)
    (hcounter : N → header.counter ≠ "") (htest : N → header.test ≠ some "") (hbound : s.Sees header.bound)
    (hN : N → "" ∉ names) : Advances N s s' := by
  rw [loop_eq, returns_bind] at hr
  obtain ⟨initial, s₁, hinit, hr⟩ := hr
  obtain ⟨c, hv⟩ := yields_loopCondition htest hg hinit
  exact (c.advances hg).trans (advances_loopNode hr (c.good hg) hbody hcounter (c.sees hg.opened hbound) hv hN)

end OpGraph.Lowering
