import OpGraph.Proofs.CallArguments
import OpGraph.Proofs.Lowering.Subscripts

/-!
Expressions compute: whatever an expression is, lowering it adds nodes to the innermost function and nothing else, and
its value is visible afterwards.
-/

namespace OpGraph.Lowering

open List

variable {N : Prop} {env : Env} {s s' : State} {pos : Position}
variable {c : Callee} {e : Expr} {o : Opset} {a : Option NodeAttribute} {candidate : Option String} {r : Request}
variable {name : String} {u : Unit}
variable {cmp : CompareOp} {right : Expr} {keywords : List (String × Part)} {as : List NodeAttribute} {args : List Part}
variable {v : Literal} {l m : Lower Operand} {op : Op} {left : Operand} {x : String} {t : Target}

/-! ### Requests -/

/-- A request for a node whose inputs are visible or omitted, and whose graphs are those of functions defined before. -/
structure Request.Seen (s : State) (r : Request) : Prop where
  inputs : ∀ x ∈ r.inputs, s.Sees x
  graphs : GraphFunction.HasGraphs s.scopes.surroundings.functions r.attributes

/-- Steps that compute the request for a node. -/
def Requests (N : Prop) (m : Lower Request) : Prop :=
  ∀ ⦃env : Env⦄ ⦃s : State⦄ ⦃r : Request⦄ ⦃s' : State⦄, s.Good → Returns m env s r s' →
    Computes N s {} s' {} ∧ r.Seen s'

/-- A value that is visible, or a request for a node with what is. -/
def Lowered.Seen (s : State) : Lowered → Prop
  | .operand x => x.name ∈ s.scopes.visible
  | .request r => r.Seen s

/-- Steps that compute an expression. -/
def Lowers (N : Prop) (m : Lower Lowered) : Prop :=
  ∀ ⦃env : Env⦄ ⦃s : State⦄ ⦃l : Lowered⦄ ⦃s' : State⦄, s.Good → Returns m env s l s' →
    Computes N s {} s' {} ∧ l.Seen s'

theorem lowers_operand (hm : Yields N m) : Lowers N (return .operand (← m)) := by
  intro env s l s' hg hr
  obtain ⟨x, t, hx, ⟨⟩⟩ := returns_bind.1 hr
  exact hm hg hx

theorem lowers_request {m : Lower Request} (hm : Requests N m) : Lowers N (return .request (← m)) := by
  intro env s l s' hg hr
  obtain ⟨x, t, hx, ⟨⟩⟩ := returns_bind.1 hr
  exact hm hg hx

theorem computes_fresh_request {candidate : String} {s₁ : State} (hf : Returns (fresh candidate) env s x s₁)
    (he : Returns (r.emit [x]) env s₁ u s') (hg : s.Good) (hc : N → candidate ≠ "") (hseen : r.Seen s) :
    Computes N s {} s' {} ∧ x ∈ s'.scopes.visible := by
  obtain ⟨c1, -, -⟩ := computes_fresh hf hc {}
  obtain ⟨c2, v2⟩ := computes_emit_plain (N := N) he rfl (fun y hy => c1.sees hg.opened (hseen.inputs y hy)) {}
    (hseen.graphs.mono fun _ => c1.functions hg.opened)
  exact ⟨c1.trans c2, v2 _ mem_cons_self⟩

theorem yields_finish {m : Lower Lowered} (hm : Lowers N m) (hc : N → candidate ≠ some "") :
    Yields N (m >>= finish candidate) := by
  intro env s x s' hg hr
  obtain ⟨l, s₁, hl, hr⟩ := returns_bind.1 hr
  obtain ⟨c1, v1⟩ := hm hg hl
  cases l with
  | operand y =>
    cases hr
    exact ⟨c1, v1⟩
  | request r =>
    simp only [finish, returns_bind, returns_pure] at hr
    obtain ⟨name, s₂, hf, u, s₃, he, rfl, rfl⟩ := hr
    obtain ⟨c2, v2⟩ := computes_fresh_request (N := N) hf he (c1.good hg)
      (fun hN => getD_ne_empty (hc hN) (by simp)) v1
    exact ⟨c1.trans c2, v2⟩

/-! ### Operators -/

theorem returns_remainderAttributes {op : BinaryOp} (hr : Returns (remainderAttributes op right) env s as s') :
    s = s' ∧ GraphFunction.HasGraphs [] as := by
  unfold remainderAttributes at hr
  split at hr
  · simp only [returns_bind, returns_evalLiteral] at hr
    obtain ⟨v, t, ⟨-, rfl⟩, hr⟩ := hr
    split at hr
    all_goals
      cases hr
      exact ⟨rfl, by simp [GraphFunction.HasGraphs]⟩
  · cases hr
    exact ⟨rfl, by simp [GraphFunction.HasGraphs]⟩

theorem computes_binaryRequest {right : Operand} (hr : Returns (binaryRequest op left right as) env s r s')
    (hg : s.Good) (hleft : left.name ∈ s.scopes.visible) (hright : right.name ∈ s.scopes.visible)
    (hplain : GraphFunction.HasGraphs [] as := by simp [GraphFunction.HasGraphs]) :
    Computes N s {} s' {} ∧ r.Seen s' := by
  simp only [binaryRequest, returns_bind, returns_pure] at hr
  obtain ⟨inputs, t, hp, rfl, rfl⟩ := hr
  obtain ⟨c, v⟩ := computes_promote (N := N) hp hg <|
    forall_mem_cons.2 ⟨.inr hleft, forall_mem_singleton.2 (.inr hright)⟩
  exact ⟨c, v, hplain.mono (by simp)⟩

theorem computes_joinOperands {ms : List (Lower Operand)} (hr : Returns (joinOperands op left m ms) env s r s')
    (hg : s.Good) (hleft : left.name ∈ s.scopes.visible) (hm : Yields N m) (hms : ∀ k ∈ ms, Yields N k) :
    Computes N s {} s' {} ∧ r.Seen s' := by
  induction ms generalizing m left s r with
  | nil =>
    simp only [joinOperands, returns_bind] at hr
    obtain ⟨x, s₁, hx, hr⟩ := hr
    obtain ⟨c1, v1⟩ := hm hg hx
    obtain ⟨c2, v2⟩ := computes_binaryRequest (N := N) hr (c1.good hg) (c1.visible hg.opened hleft) v1
    exact ⟨c1.trans c2, v2⟩
  | cons k ms ih =>
    simp only [joinOperands, returns_bind] at hr
    obtain ⟨x, s₁, hx, q, s₂, hq, name, s₃, hf, u, s₄, he, hr⟩ := hr
    obtain ⟨c1, v1⟩ := hm hg hx
    have hg1 := c1.good hg
    obtain ⟨c2, v2⟩ := computes_binaryRequest (N := N) hq hg1 (c1.visible hg.opened hleft) v1
    obtain ⟨c3, v3⟩ := computes_fresh_request (N := N) hf he (c2.good hg1) (fun _ => by simp) v2
    have c13 := c1.trans (c2.trans c3)
    obtain ⟨c4, v4⟩ := ih hr (c13.good hg) v3 (hms k mem_cons_self) fun j hj =>
      hms j (mem_cons_of_mem _ hj)
    exact ⟨c13.trans c4, v4⟩

theorem computes_compareRequest {right : Operand} (hr : Returns (compareRequest cmp name left right) env s r s')
    (hg : s.Good) (hleft : left.name ∈ s.scopes.visible) (hright : right.name ∈ s.scopes.visible) :
    Computes N s {} s' {} ∧ r.Seen s' := by
  simp only [compareRequest, returns_bind, returns_defaultOp] at hr
  obtain ⟨op, t, ⟨o, -, -, rfl⟩, q, s₁, hq, hr⟩ := hr
  obtain ⟨c1, v1⟩ := computes_binaryRequest (N := N) hq hg hleft hright
  split at hr
  · simp only [returns_bind, returns_defaultOp, returns_pure] at hr
    obtain ⟨tmp, s₂, hf, u, s₃, he, op', t, ⟨o', -, -, rfl⟩, rfl, rfl⟩ := hr
    obtain ⟨c2, v2⟩ := computes_fresh_request (N := N) hf he (c1.good hg) (fun _ => by simp) v1
    exact ⟨c1.trans c2, forall_mem_singleton.2 (.inr v2), by simp [GraphFunction.HasGraphs]⟩
  · cases hr
    exact ⟨c1, v1⟩

/-! ### Calls -/

/-- A set of the default domain that is taken into use is the default set, or of the version of the one that is there. -/
theorem returns_useOpset (hr : Returns (useOpset o) env s u s') :
    s = s' ∧ (o.isDefaultDomain → ∃ c ∈ s.defaultOpset, c.domain = o.domain ∧ c.version = o.version) ∨
      s.defaultOpset = none ∧ s' = { s with defaultOpset := some o } := by
  unfold useOpset at hr
  split at hr
  · simp only [returns_bind, returns_get] at hr
    obtain ⟨t, t', ⟨rfl, rfl⟩, hr⟩ := hr
    split at hr
    · rename_i hnone
      exact .inr ⟨hnone, (returns_modify.1 hr).symm⟩
    · rename_i c hc
      split at hr
      · exact absurd hr returns_throw
      · rename_i hsame
        push Not at hsame
        exact .inl ⟨(returns_pure.1 hr).2, fun _ => ⟨c, hc, hsame⟩⟩
  · rename_i hother
    exact .inl ⟨(returns_pure.1 hr).2, fun h => absurd h hother⟩

theorem scopes_useOpset (hr : Returns (useOpset o) env s u s') : s'.scopes = s.scopes := by
  obtain ⟨rfl, -⟩ | ⟨-, rfl⟩ := returns_useOpset hr <;> rfl

theorem computes_useOpset (hr : Returns (useOpset o) env s u s') : Computes N s {} s' {} := by
  obtain ⟨rfl, -⟩ | ⟨hnone, rfl⟩ := returns_useOpset hr
  · exact .refl _ _ _
  · exact .of_same rfl rfl fun o ho => by rw [hnone] at ho; cases ho

theorem returns_opsetOf (hr : Returns (opsetOf e) env s o s') : s = s' := by
  unfold opsetOf at hr
  split at hr
  all_goals
    simp only [returns_bind, returns_lookup?, returns_map, returns_evalValue] at hr
    obtain ⟨v, t, hv, hr⟩ := hr
    split at hr
    · cases hr
      grind
    · cases hr

theorem computes_addCalled {g : Except Error Interchange.Function}
    (hr : Returns (modifyFunction (·.addCalled name g)) env s u s') : Computes N s {} s' {} := by
  have e := edits_modifyFunction hr
  refine ⟨e.grows_note rfl rfl (fun _ hx => hx) (fun _ hx => .inl hx) fun inner hb => ?_, e.bindings, ?_, ?_⟩
  · exact .note _ s.current.doc hb
  · rw [e.current]
    rfl
  · rw [e.current]
    rfl

theorem quiet_warnIf {α : Type} {c : Prop} [Decidable c] {message : String} {a b : α}
    (hr : Returns (if c then do warn message pos; pure a else pure a) env s b s') : a = b ∧ Quiet s s' := by
  split at hr
  · obtain ⟨u, t, hw, ⟨⟩⟩ := returns_bind.1 hr
    exact ⟨rfl, quiet_warn hw⟩
  · cases hr
    exact ⟨rfl, rfl, rfl, rfl⟩

/-- What the callee of a call is found to be, and in which state the search ends. -/
inductive Finds (env : Env) (s : State) : Expr → Callee → State → Prop
  | member {pos : Position} {value : Expr} {name : String} {o : Opset} {u : Unit} {t t' : State}
    (set : Returns (opsetOf value) env s o s) (use : Returns (useOpset o) env s u t) (quiet : Quiet t t') :
    Finds env s (.attr pos value name) (.op (o.op name)) t'
  | script {pos : Position} {id : String} {i : Option ℕ} {f : ScriptFunction} {u : Unit} {t : State}
    (bound : Returns (lookup? id) env s (some (.value (.function i f))) s)
    (call : Returns (modifyFunction (·.addCalled f.name f.fn.toFunction)) env s u t) :
    Finds env s (.name pos id) (.script f) t
  | op {pos : Position} {id : String} {i : Option ℕ} {o : Op} (bound : Returns (lookup? id) env s (some (.value (.op i o))) s) :
    Finds env s (.name pos id) (.op o) s
  | nested {pos : Position} {id : String} {i : ℕ} {fn : GraphFunction} {captured : List (String × Identity)}
    (bound : Returns (lookup? id) env s (some (.function i fn captured)) s) :
    Finds env s (.name pos id) (.nested fn captured) s
  | unbound {pos : Position} {id : String} {o : Opset} {t : State} (bound : Returns (lookup? id) env s none s)
    (set : s.defaultOpset = some o) (quiet : Quiet s t) : Finds env s (.name pos id) (.op (o.op id)) t

theorem finds_calleeOf (hr : Returns (calleeOf e) env s c s') : Finds env s e c s' := by
  unfold calleeOf at hr
  split at hr
  · simp only [returns_bind] at hr
    obtain ⟨o, t, ho, u, s₁, hu, hr⟩ := hr
    obtain rfl := returns_opsetOf ho
    obtain ⟨rfl, hquiet⟩ := quiet_warnIf hr
    exact .member ho hu hquiet
  · obtain ⟨b, t, hb, hr⟩ := returns_bind.1 hr
    obtain rfl := (returns_lookup?.1 hb).2
    split at hr
    · obtain ⟨u, s₁, hu, ⟨⟩⟩ := returns_bind.1 hr
      exact .script hb hu
    · cases hr
      exact .op hb
    · cases hr
      exact .nested hb
    · simp only [returns_bind, returns_requireDefaultOpset] at hr
      obtain ⟨o, t, ⟨ho, rfl⟩, hr⟩ := hr
      obtain ⟨rfl, hquiet⟩ := quiet_warnIf hr
      exact .unbound hb ho hquiet
    · cases hr
  · cases hr

theorem computes_calleeOf (hr : Returns (calleeOf e) env s c s') : Computes N s {} s' {} := by
  cases finds_calleeOf hr with
  | member _ use quiet => exact (computes_useOpset use).trans quiet.computes
  | script _ call => exact computes_addCalled call
  | op => exact .refl _ _ _
  | nested => exact .refl _ _ _
  | unbound _ _ quiet => exact quiet.computes

theorem returns_checkCaptured {function : String} : ∀ {captured : List (String × Identity)} {s : State} {u : Unit},
    Returns (checkCaptured function pos captured) env s u s' → s = s' := by
  intro captured
  induction captured with
  | nil => exact fun hr => (returns_pure.1 hr).2
  | cons c captured ih =>
    intro s u hr
    simp only [checkCaptured, returns_bind, returns_lookup?] at hr
    obtain ⟨b, t, ⟨-, rfl⟩, hr⟩ := hr
    split at hr
    · split at hr
      · exact ih hr
      · cases hr
    · cases hr

theorem ofLiteral_value {a : Interchange.Attribute} (h : Interchange.Attribute.ofLiteral name v = .ok a) :
    a.name = name ∧ (∀ g, a.value ≠ .graph g) ∧ ∀ x, a.value ≠ .reference x := by
  unfold Interchange.Attribute.ofLiteral at h
  split at h
  case h_6 =>
    unfold Interchange.Attribute.ofList at h
    split at h
    · cases h
    split at h
    · cases h
    split at h <;> cases h <;> simp
  all_goals cases h <;> simp

theorem ofLiteral_ne_graph {a : Interchange.Attribute} (h : Interchange.Attribute.ofLiteral name v = .ok a) :
    ∀ g, a.value ≠ .graph g :=
  (ofLiteral_value h).2.1

/-- An attribute holds the literal that an expression of the module is. -/
def HoldsLiteral (globals : Globals) (name : String) (e : Expr) (a : Option NodeAttribute) : Prop :=
  ∃ v, Evaluation.evalLiteral globals e = .ok v ∧
    (v = .none ∧ a = none ∨ ∃ w, Interchange.Attribute.ofLiteral name v = .ok w ∧ a = some ⟨w, []⟩)

theorem returns_literalAttribute_iff :
    Returns (literalAttribute name e) env s a s' ↔ HoldsLiteral env.globals name e a ∧ s = s' := by
  simp only [literalAttribute, returns_bind, returns_evalLiteral, HoldsLiteral]
  constructor
  · rintro ⟨v, t, ⟨hv, rfl⟩, hr⟩
    split at hr
    · cases hr
      exact ⟨⟨_, hv, .inl ⟨rfl, rfl⟩⟩, rfl⟩
    · simp only [returns_bind, returns_relocate, returns_pure] at hr
      obtain ⟨w, t, ⟨hw, rfl⟩, rfl, rfl⟩ := hr
      exact ⟨⟨v, hv, .inr ⟨w, hw, rfl⟩⟩, rfl⟩
  · rintro ⟨⟨v, hv, ⟨rfl, rfl⟩ | ⟨w, hw, rfl⟩⟩, rfl⟩
    · exact ⟨_, s, ⟨hv, rfl⟩, returns_pure.2 ⟨rfl, rfl⟩⟩
    · refine ⟨v, s, ⟨hv, rfl⟩, ?_⟩
      split
      · cases hw
      · simp only [returns_bind, returns_relocate, returns_pure]
        exact ⟨w, s, ⟨hw, rfl⟩, rfl, rfl⟩

theorem returns_literalAttribute {P : List GraphFunction} (hr : Returns (literalAttribute name e) env s a s') :
    s = s' ∧ GraphFunction.HasGraphs P a.toList := by
  obtain ⟨⟨v, -, ⟨-, rfl⟩ | ⟨w, hw, rfl⟩⟩, rfl⟩ := returns_literalAttribute_iff.1 hr
  · exact ⟨rfl, by simp [GraphFunction.HasGraphs]⟩
  · exact ⟨rfl, by simp [GraphFunction.HasGraphs, ofLiteral_ne_graph hw]⟩

theorem returns_attributeOf (hg : s.Good) (hr : Returns (attributeOf name e) env s a s') :
    s = s' ∧ GraphFunction.HasGraphs s.scopes.surroundings.functions a.toList := by
  unfold attributeOf at hr
  split at hr
  · simp only [returns_bind, returns_lookup] at hr
    obtain ⟨b, t, ⟨hb, rfl⟩, hr⟩ := hr
    split at hr
    · cases hr
      exact ⟨rfl, by simp [GraphFunction.HasGraphs, Interchange.Attribute.reference]⟩
    · rename_i fn captured
      simp only [returns_bind, returns_lift, returns_pure] at hr
      obtain ⟨u, t, hc, w, t', ⟨hw, rfl⟩, rfl, rfl⟩ := hr
      refine ⟨returns_checkCaptured hc, forall_mem_singleton.2 fun g hgraph => ?_⟩
      exact ⟨fn, has_of_lookup hg hb, GraphFunction.graph_of_toAttribute hw hgraph⟩
    · cases hr
    · exact returns_literalAttribute hr
  · exact returns_literalAttribute hr

theorem returns_attributes {ks : List (String × Part)} (hg : s.Good) : ∀ {as : List NodeAttribute},
    Returns (ks.filterMapM fun k => attributeOf k.1 k.2.expr) env s as s' →
    s = s' ∧ GraphFunction.HasGraphs s.scopes.surroundings.functions as := by
  induction ks with
  | nil =>
    intro as hr
    cases hr
    exact ⟨rfl, by simp [GraphFunction.HasGraphs]⟩
  | cons k ks ih =>
    intro as hr
    simp only [filterMapM_cons, returns_bind] at hr
    obtain ⟨a, t, ha, hr⟩ := hr
    obtain ⟨rfl, h1⟩ := returns_attributeOf hg ha
    split at hr
    · exact ih hr
    · obtain ⟨bs, t, hbs, ⟨⟩⟩ := returns_bind.1 hr
      obtain ⟨rfl, h2⟩ := ih hbs
      exact ⟨rfl, forall_mem_cons.2 ⟨h1 _ (by simp), h2⟩⟩

theorem returns_targetOf (hr : Returns (targetOf c pos) env s t s') : s = s' := by
  unfold targetOf at hr
  split at hr
  · exact (returns_pure.1 hr).2
  · exact (returns_pure.1 hr).2
  · simp only [returns_bind, returns_read, returns_lift, returns_pure] at hr
    obtain ⟨u, t, hc, e, t', ⟨-, rfl⟩, f, t', ⟨-, rfl⟩, -, rfl⟩ := hr
    exact returns_checkCaptured hc

theorem returns_splitArguments {r : Arguments Part} (hr : Returns (splitArguments pos t args keywords) env s r s') :
    Arguments.split t.params args keywords t.op.text = .ok r ∧ s = s' := by
  unfold splitArguments at hr
  cases hp : t.params with
  | none =>
    rw [hp] at hr
    cases hr
    exact ⟨rfl, rfl⟩
  | some params =>
    rw [hp] at hr
    exact returns_relocate.1 hr

theorem computes_argument {p : Part} {x : Operand} (hr : Returns (argument p) env s x s') (hg : s.Good)
    (hp : Yields N p.lower) : Computes N s {} s' {} ∧ (x = .omitted ∨ x.name ∈ s'.scopes.visible) := by
  unfold argument at hr
  split at hr
  · cases hr
    exact ⟨.refl _ _ _, .inl rfl⟩
  · exact (hp hg hr).imp_right .inr

theorem computes_operands {ps : List (Option Part)} {xs : List Operand} (hr : Returns (ps.mapM fun x => match x with
      | none => pure Operand.omitted
      | some p => argument p) env s xs s') (hg : s.Good) (hp : ∀ p, some p ∈ ps → Yields N p.lower) :
    Computes N s {} s' {} ∧ ∀ x ∈ xs, x = .omitted ∨ x.name ∈ s'.scopes.visible := by
  induction ps generalizing s xs with
  | nil =>
    cases hr
    exact ⟨.refl _ _ _, by simp⟩
  | cons p ps ih =>
    simp only [mapM_cons, returns_bind, returns_pure] at hr
    obtain ⟨x, s₁, hx, rest, s₂, hrest, rfl, rfl⟩ := hr
    have h1 : Computes N s {} s₁ {} ∧ (x = .omitted ∨ x.name ∈ s₁.scopes.visible) := by
      cases p with
      | none =>
        cases hx
        exact ⟨.refl _ _ _, .inl rfl⟩
      | some p => exact computes_argument hx hg (hp p mem_cons_self)
    obtain ⟨c1, v1⟩ := h1
    have hg1 := c1.good hg
    obtain ⟨c2, v2⟩ := ih hrest hg1 fun q hq => hp q (mem_cons_of_mem _ hq)
    exact ⟨c1.trans c2, forall_mem_cons.2 ⟨v1.imp_right (c2.visible hg1.opened), v2⟩⟩

/-- **A call is computed** if its arguments yield values. -/
theorem requests_call {func : Expr} (hargs : ∀ p ∈ args, Yields N p.lower)
    (hkeywords : ∀ k ∈ keywords, Yields N k.2.lower) : Requests N (call pos func args keywords) := by
  intro env s r s' hg hr
  simp only [call, returns_bind, returns_pure] at hr
  obtain ⟨c, s₁, hcallee, t, s₂, ht, split, s₃, hsplit, operands, s₄, hops, as, s₅, has, inputs, s₆, hp, rfl, rfl⟩ := hr
  have c1 := computes_calleeOf (N := N) hcallee
  have hg1 := c1.good hg
  obtain rfl := returns_targetOf ht
  obtain ⟨hmatched, rfl⟩ := returns_splitArguments hsplit
  obtain ⟨c2, v2⟩ := computes_operands (N := N) hops hg1 (Arguments.forall_split hargs hkeywords hmatched).1
  have hg2 := c2.good hg1
  obtain ⟨rfl, hgraphs⟩ := returns_attributes hg2 has
  obtain ⟨c3, v3⟩ := computes_promote (N := N) hp hg2 fun a ha => (v2 a ha).imp_left (by rintro rfl; rfl)
  exact ⟨c1.trans (c2.trans c3), v3, hgraphs.mono fun _ => c3.functions hg2.opened⟩

/-! ### Expressions -/

theorem notMem_append {xs ys : List String} (h : N → x ∉ xs ++ ys) : (N → x ∉ xs) ∧ (N → x ∉ ys) :=
  ⟨fun hn hx => h hn (mem_append_left _ hx), fun hn hy => h hn (mem_append_right _ hy)⟩

theorem lowers_fail {f : LoweringFault} : Lowers N (fail f pos) :=
  fun _ _ _ _ _ hr => absurd hr returns_fail

theorem lowers_constantOr {m : Lower Lowered} (hm : Lowers N m) (hc : N → candidate ≠ some "") :
    Lowers N (if e.isConstant then do
      return .operand (← constant (← evalLiteral e) candidate e.pos) else m) := by
  intro env s l s' hg hr
  split at hr
  · simp only [returns_bind, returns_evalLiteral, returns_pure] at hr
    obtain ⟨v, t, ⟨-, rfl⟩, x, s₁, hx, rfl, rfl⟩ := hr
    obtain ⟨c, f⟩ := computes_constant (N := N) hx hc
    exact ⟨c, f.visible (c.opened hg.opened)⟩
  · exact hm hg hr

theorem lowers_binary {r : Lower Operand} (op : BinaryOp) (hl : Yields N l) (hr : Yields N r) :
    Lowers N (do
      let attributes ← remainderAttributes op right
      let o ← defaultOp name
      let x ← l
      let y ← r
      return .request (← binaryRequest o x y attributes)) := by
  intro env s q s' hg hrun
  simp only [returns_bind, returns_defaultOp, returns_pure] at hrun
  obtain ⟨as, t, has, op, t', ⟨o, -, -, rfl⟩, x, s₁, hx, y, s₂, hy, q, s₃, hq, rfl, rfl⟩ := hrun
  obtain ⟨rfl, hplain⟩ := returns_remainderAttributes has
  obtain ⟨c1, v1⟩ := hl hg hx
  have hg1 := c1.good hg
  obtain ⟨c2, v2⟩ := hr hg1 hy
  obtain ⟨c3, v3⟩ := computes_binaryRequest (N := N) hq (c2.good hg1) (c2.visible hg1.opened v1) v2 hplain
  exact ⟨c1.trans (c2.trans c3), v3⟩

theorem lowers_boolean {op : BoolOp} {ps : List Part} (hps : ∀ p ∈ ps, Yields N p.lower) : Lowers N (do
      let o ← defaultOp op.label
      match ps with
      | first :: second :: rest =>
        return .request (← joinOperands o (← first.lower) second.lower (rest.map (·.lower)))
      | _ => fail .emptyBoolean pos) := by
  intro env s q s' hg hr
  simp only [returns_bind, returns_defaultOp] at hr
  obtain ⟨op, t, ⟨o, -, -, rfl⟩, hr⟩ := hr
  split at hr
  · rename_i first second rest
    simp only [returns_bind, returns_pure] at hr
    obtain ⟨x, s₁, hx, q, s₂, hq, rfl, rfl⟩ := hr
    obtain ⟨c1, v1⟩ := hps first (by simp) hg hx
    obtain ⟨c2, v2⟩ := computes_joinOperands hq (c1.good hg) v1 (hps second (by simp))
      (forall_mem_map.2 fun p hp => hps p (by simp [hp]))
    exact ⟨c1.trans c2, v2⟩
  · cases hr

theorem lowers_unary (hm : Yields N m) : Lowers N (do
      let x ← m
      return .request { op := opName (← defaultOp name), inputs := [x.name] }) := by
  intro env s q s' hg hr
  simp only [returns_bind, returns_defaultOp, returns_pure] at hr
  obtain ⟨x, s₁, hx, op, t, ⟨o, -, -, rfl⟩, rfl, rfl⟩ := hr
  obtain ⟨c1, v1⟩ := hm hg hx
  exact ⟨c1, forall_mem_singleton.2 (.inr v1), by simp [GraphFunction.HasGraphs]⟩

theorem lowers_compare {r : Lower Operand} (hl : Yields N l) (hr : Yields N r) :
    Lowers N (do
      let x ← l
      return .request (← compareRequest cmp name x (← r))) := by
  intro env s q s' hg hrun
  simp only [returns_bind, returns_pure] at hrun
  obtain ⟨x, s₁, hx, y, s₂, hy, q, s₃, hq, rfl, rfl⟩ := hrun
  obtain ⟨c1, v1⟩ := hl hg hx
  have hg1 := c1.good hg
  obtain ⟨c2, v2⟩ := hr hg1 hy
  obtain ⟨c3, v3⟩ := computes_compareRequest (N := N) hq (c2.good hg1) (c2.visible hg1.opened v1) v2
  exact ⟨c1.trans (c2.trans c3), v3⟩

theorem yields_part (he : Lowers N (lowerExpr e none)) : Yields N (lowerExpr e none >>= finish none) :=
  yields_finish he (by simp)

mutual
/-- **Lowering an expression computes**: nodes are added to the innermost function, and the value is visible. -/
theorem lowers_lowerExpr (e : Expr) {candidate : Option String} (hN : N → "" ∉ e.reads) (hc : N → candidate ≠ some "") :
    Lowers N (lowerExpr e candidate) := by
  rw [lowerExpr.eq_def]
  refine lowers_constantOr ?_ hc
  cases e with
  | call pos func args keywords =>
    refine lowers_request (requests_call ?_ ?_)
    · exact yields_lowerParts args (notMem_append hN).1
    · exact yields_lowerKeywords keywords (notMem_append hN).2
  | binary pos l op r =>
    dsimp only
    split
    · exact lowers_fail
    · have hl := yields_part (lowers_lowerExpr l (notMem_append hN).1 (by simp))
      have hr := yields_part (lowers_lowerExpr r (notMem_append hN).2 (by simp))
      simpa only [bind_assoc] using lowers_binary op hl hr
  | boolean pos op es => exact lowers_boolean (yields_lowerParts es hN)
  | unary pos op e =>
    dsimp only
    split
    · exact lowers_fail
    · simpa only [bind_assoc] using lowers_unary (yields_part (lowers_lowerExpr e hN (by simp)))
  | compare pos l ops es =>
    dsimp only
    split
    · rename_i cmp right rest hes
      split
      · exact lowers_fail
      · have hl := yields_part (lowers_lowerExpr l (notMem_append hN).1 (by simp))
        have hr := yields_lowerParts es (notMem_append hN).2 right (by rw [hes]; simp)
        simpa only [bind_assoc] using lowers_compare hl hr
    · exact lowers_fail
  | name pos id =>
    refine lowers_operand (yields_operandOfName fun hn h => hN hn ?_)
    simp [Expr.reads, h]
  | subscript pos value i =>
    have hvalue := yields_part (lowers_lowerExpr value (notMem_append hN).1 (by simp))
    have hi : N → "" ∉ i.reads := (notMem_append hN).2
    dsimp only
    split
    · rename_i es
      exact lowers_operand (yields_subscript hvalue (yields_lowerIndices es hi) hc)
    · rename_i l u st
      have hl := yields_lowerOption l (notMem_append (notMem_append hi).1).1
      have hu := yields_lowerOption u (notMem_append (notMem_append hi).1).2
      exact lowers_operand (yields_subscript hvalue (forall_mem_singleton.2 ⟨hl, hu⟩) hc)
    · have hpart := yields_part (lowers_lowerExpr i hi (by simp))
      exact lowers_operand (yields_subscript hvalue (forall_mem_singleton.2 hpart) hc)
  | _ => exact lowers_fail
theorem yields_lowerParts : ∀ (es : List Expr), (N → "" ∉ Expr.readsAll es) → ∀ p ∈ lowerParts es, Yields N p.lower
  | [], _ => by simp [lowerParts]
  | e :: es, hN => by
    rw [lowerParts, forall_mem_cons]
    refine ⟨?_, yields_lowerParts es (notMem_append hN).2⟩
    exact yields_part (lowers_lowerExpr e (notMem_append hN).1 (by simp))
theorem yields_lowerOption : ∀ (e : Option Expr), (N → "" ∉ Expr.readsOption e) →
    ∀ p, lowerOption e = some p → Yields N p.lower
  | none, _ => by simp [lowerOption]
  | some e, hN => by
    intro p hp
    rw [lowerOption] at hp
    cases hp
    exact yields_part (lowers_lowerExpr e hN (by simp))
theorem yields_lowerKeywords : ∀ (ks : List Keyword), (N → "" ∉ Expr.readsKeywords ks) →
    ∀ k ∈ lowerKeywords ks, Yields N k.2.lower
  | [], _ => by simp [lowerKeywords]
  | ⟨_, name, e⟩ :: ks, hN => by
    rw [lowerKeywords, forall_mem_cons]
    refine ⟨?_, yields_lowerKeywords ks (notMem_append hN).2⟩
    exact yields_part (lowers_lowerExpr e (notMem_append hN).1 (by simp))
theorem yields_lowerIndices : ∀ (es : List Expr), (N → "" ∉ Expr.readsAll es) →
    ∀ i ∈ lowerIndices es, Subscript.IndexEach (Yields N) i
  | [], _ => by simp [lowerIndices]
  | e :: es, hN => by
    have hrest := yields_lowerIndices es (notMem_append hN).2
    have he : N → "" ∉ e.reads := (notMem_append hN).1
    rw [lowerIndices.eq_def]
    split
    · simp
    · rename_i l u st es' heq
      cases heq
      refine forall_mem_cons.2 ⟨⟨?_, ?_⟩, hrest⟩
      · exact yields_lowerOption l (notMem_append (notMem_append he).1).1
      · exact yields_lowerOption u (notMem_append (notMem_append he).1).2
    · rename_i e' es' _ heq
      cases heq
      exact forall_mem_cons.2 ⟨yields_part (lowers_lowerExpr e he (by simp)), hrest⟩
end

theorem yields_lowerOperand (hN : N → "" ∉ e.reads) (hc : N → candidate ≠ some "") :
    Yields N (lowerOperand e candidate) :=
  yields_finish (lowers_lowerExpr e hN hc) hc

end OpGraph.Lowering
