import OpGraph.Proofs.Analysis.Liveness
import OpGraph.Proofs.Lowering.ControlFlow
import OpGraph.Proofs.Lowering.Origins

/-!
Statements advance the state, and a function body finishes with the outputs it returns. A nested function is built in a
scope of its own.
-/

namespace OpGraph

open List
open GraphFunction (outputNames inputNames outputNames_congr inputNames_congr)

namespace Lowering

variable {N : Prop} {env : Env} {s s' : State} {pos : Position}
variable {e target : Expr} {fn : GraphFunction} {types : Option (List DeclaredType)} {type : Option DeclaredType}
variable {returns value : Option Expr} {p : Param} {s₁ s₂ : State} {name x : String} {u v : Unit}
variable {candidate : ℕ → String}
variable {b : Binding} {h : Held} {defaults es : List Expr} {params : List Param} {cs ids xs : List String}
variable {header : LoopHeader} {captured : NameSet} {t : Option DeclaredType}

/-! ### Assignments -/

theorem returns_annotationType? {what : String} (hr : Returns (annotationType? e what) env s t s') : Quiet s s' := by
  have hunusable : ∀ {t : Option DeclaredType} {s : State}, Returns (do
      warn s!"Unsupported type annotation for {what}." e.pos
      return none) env s t s' → Quiet s s' := by
    intro t s hr
    simp only [returns_bind, returns_pure] at hr
    obtain ⟨u, s₁, hw, -, rfl⟩ := hr
    exact quiet_warn hw
  simp only [annotationType?, returns_bind, returns_evalValue] at hr
  obtain ⟨v, t, ⟨-, rfl⟩, hr⟩ := hr
  split at hr
  · split at hr
    · cases hr
      exact ⟨rfl, rfl, rfl⟩
    · exact hunusable (by simpa only [returns_bind] using hr)
  · exact hunusable (by simpa only [returns_bind] using hr)

theorem advances_bind (hr : Returns (bind name b) env s u s') (hg : s.Good) (hv : s.scopes.surroundings.Has b) :
    Advances N s s' := by
  have e := edits_bind hr
  exact ⟨grows_bind hr, bound_bind hr hg.bound hv, by rw [e.current], by rw [e.current]⟩

theorem computes_freshAll (hr : Returns (cs.mapM fresh) env s xs s') (hN : N → "" ∉ cs) :
    Computes N s h s' ⟨xs ++ h.names, h.parts⟩ ∧ xs.length = cs.length ∧ s'.scopes = s.scopes := by
  induction cs generalizing xs s h with
  | nil =>
    cases hr
    exact ⟨.refl _ _ _, rfl, rfl⟩
  | cons c cs ih =>
    simp only [mapM_cons, returns_bind, returns_pure] at hr
    obtain ⟨x, s₁, hf, rest, s₂, hrest, rfl, rfl⟩ := hr
    obtain ⟨c1, -, -⟩ := computes_fresh (N := N) hf (fun hn h => hN hn (by simp [h])) h
    obtain ⟨c2, hlen, hscopes⟩ := ih (h := ⟨x :: h.names, h.parts⟩) hrest fun hn h => hN hn (mem_cons_of_mem _ h)
    obtain ⟨-, rfl⟩ := returns_fresh.1 hf
    exact ⟨c1.trans (c2.trans (.swap perm_middle rfl)), by simp [hlen], hscopes⟩

theorem computes_lowerOutputs (hr : Returns (lowerOutputs e cs) env s xs s') (hg : s.Good) (he : N → "" ∉ e.reads)
    (hN : N → "" ∉ cs) : Computes N s {} s' {} ∧ ∀ x ∈ xs, x ∈ s'.scopes.visible := by
  unfold lowerOutputs at hr
  split at hr
  · rename_i pos func args keywords
    simp only [returns_bind, returns_pure] at hr
    obtain ⟨r, s₁, hcall, names, s₂, hf, u, s₃, hemit, rfl, rfl⟩ := hr
    obtain ⟨c1, v1⟩ := requests_call (N := N)
      (yields_lowerParts args (notMem_append he).1)
      (yields_lowerKeywords keywords (notMem_append he).2) hg hcall
    have hg1 := c1.good hg
    obtain ⟨c2, -⟩ := computes_freshAll (N := N) (h := {}) hf hN
    obtain ⟨c3, v3⟩ := computes_emit_plain (N := N) hemit rfl (fun y hy => c2.sees hg1.opened (v1.inputs y hy)) {}
      (v1.graphs.mono fun _ => c2.functions hg1.opened)
    exact ⟨c1.trans (c2.trans c3), v3⟩
  · cases hr

theorem returns_targetNames (hr : Returns (es.mapM targetName) env s ids s') :
    s = s' ∧ ∀ x ∈ ids, x ∈ Expr.targetsAll es := by
  induction es generalizing ids s with
  | nil =>
    cases hr
    exact ⟨rfl, by simp⟩
  | cons e es ih =>
    simp only [mapM_cons, returns_bind, returns_pure] at hr
    obtain ⟨id, s₁, hid, rest, s₂, hrest, rfl, rfl⟩ := hr
    obtain ⟨rfl, hmem⟩ := ih hrest
    unfold targetName at hid
    split at hid
    · cases hid
      refine ⟨rfl, fun x hx => ?_⟩
      rcases mem_cons.1 hx with rfl | hx
      · exact mem_append_left _ (by simp [Expr.targets])
      · exact mem_append_right _ (hmem x hx)
    · cases hid

theorem advances_bindAll {results : List String}
    (hr : Returns ((ids.zip results).forM fun (id, result) => bind id (.graph result .intermediate none)) env s u s')
    (hg : s.Good) (hv : ∀ x ∈ results, x ∈ s.scopes.visible) : Advances N s s' := by
  induction ids generalizing results s u with
  | nil =>
    cases hr
    exact (Computes.refl _ _ _).advances hg
  | cons id ids ih =>
    cases results with
    | nil =>
      cases hr
      exact (Computes.refl _ _ _).advances hg
    | cons r rs =>
      obtain ⟨v, s₁, hb, hr⟩ := returns_bind.1 hr
      have a1 := advances_bind (N := N) hb hg (hv r mem_cons_self)
      exact a1.trans (ih hr (a1.good hg) fun x hx => a1.visible hg.opened (hv x (mem_cons_of_mem _ hx)))

theorem performs_assign {value : Expr} (ht : N → "" ∉ target.targets) (hv : N → "" ∉ value.reads) :
    Performs N (assign target value type) := by
  intro env s u s' hg hr
  unfold assign at hr
  split at hr
  · rename_i id
    obtain ⟨x, s₁, hx, hb⟩ := returns_bind.1 hr
    obtain ⟨c1, v1⟩ := yields_lowerOperand hv (fun hn h => ht hn (by simp [Expr.targets, Option.some.inj h])) hg hx
    exact (c1.advances hg).trans (advances_bind hb (c1.good hg) v1)
  · rename_i elts
    simp only [returns_bind] at hr
    obtain ⟨ids, t, hids, results, s₁, hres, hr⟩ := hr
    obtain ⟨rfl, hmem⟩ := returns_targetNames hids
    obtain ⟨c1, v1⟩ := computes_lowerOutputs hres hg hv fun hn h => ht hn (hmem _ h)
    exact (c1.advances hg).trans (advances_bindAll hr (c1.good hg) v1)
  · cases hr

theorem performs_assignPairs {ps : List (Expr × Expr)} (hN : N → ∀ p ∈ ps, "" ∉ p.1.targets ∧ "" ∉ p.2.reads) :
    Performs N (ps.forM fun (t, v) => assign t v none) := by
  induction ps with
  | nil => exact .pure _
  | cons p ps ih =>
    rw [forM_eq_forM, forM_cons]
    exact (performs_assign (fun hn => (hN hn p mem_cons_self).1) fun hn => (hN hn p mem_cons_self).2).andThen
      fun _ => ih fun hn q hq => hN hn q (mem_cons_of_mem _ hq)

theorem targets_subset {x : String} {e : Expr} : ∀ {es : List Expr}, e ∈ es → x ∈ e.targets → x ∈ Expr.targetsAll es
  | _ :: _, he, hx => by
    rcases mem_cons.1 he with rfl | he
    · exact mem_append_left _ hx
    · exact mem_append_right _ (targets_subset he hx)

theorem reads_subset {x : String} {e : Expr} : ∀ {es : List Expr}, e ∈ es → x ∈ e.reads → x ∈ Expr.readsAll es
  | _ :: _, he, hx => by
    rcases mem_cons.1 he with rfl | he
    · exact mem_append_left _ hx
    · exact mem_append_right _ (reads_subset he hx)

theorem performs_assignAny {value : Expr} (ht : N → "" ∉ target.targets) (hv : N → "" ∉ value.reads) :
    Performs N (assignAny pos target value type) := by
  unfold assignAny
  split
  · rename_i values
    split
    · rename_i targets
      split
      · exact .fail
      · refine performs_assignPairs fun hn p hp => ?_
        obtain ⟨h1, h2⟩ := of_mem_zip hp
        exact ⟨fun h => ht hn (targets_subset h1 h), fun h => hv hn (reads_subset h2 h)⟩
    · exact .fail
  · exact performs_assign ht hv

theorem performs_assignAnnotated {typeExpr : Expr} (ht : N → "" ∉ target.targets) (hv : N → "" ∉ Expr.readsOption value) :
    Performs N (assignAnnotated pos target typeExpr value) := by
  unfold assignAnnotated
  split
  · exact .fail
  · exact (performs_of_quiet fun _ _ _ _ => returns_annotationType?).andThen fun _ => performs_assignAny ht hv

/-! ### Results -/

/-- The outputs of the innermost function so far are different names that are taken, and none is an input. -/
structure State.OutputsApart (s : State) : Prop extends s.current.OutputsApart where
  taken : ∀ x ∈ s.current.outputNames, x ∈ s.names.used

theorem State.outputsApart_of_nil (h : s.current.outputNames = []) : s.OutputsApart :=
  ⟨⟨by simp [h], by simp [h]⟩, by simp [h]⟩

/-- The statements of a function body: the state grows, and no parameter is declared. The outputs stay apart, and at
the top level the function owns them. -/
structure Finishes (N : Prop) (s s' : State) : Prop extends Grows N s {} s' {} where
  bound : s'.scopes.Bound
  params : s'.current.params = s.current.params
  owns : s.around = [] → s.current.OwnsOutputs → s'.current.OwnsOutputs
  apart : s.OutputsApart → s'.OutputsApart

theorem Finishes.trans (a : Finishes N s s₁) (b : Finishes N s₁ s₂) : Finishes N s s₂ :=
  ⟨a.toGrows.trans b.toGrows, b.bound, b.params.trans a.params, fun ha ho =>
    b.owns (by rw [a.around, ha]) (a.owns ha ho), fun ha => b.apart (a.apart ha)⟩

theorem Finishes.good (a : Finishes N s s') (hg : s.Good) : s'.Good :=
  a.toGrows.good hg a.bound

theorem Advances.finishes (a : Advances N s s') : Finishes N s s' := by
  have hout := outputNames_congr a.outputs
  have hin := inputNames_congr a.params
  refine ⟨a.toGrows, a.bound, a.params, fun _ ho => ?_, fun ha => ?_⟩
  · exact ⟨by rw [hout]; exact ho.nodup, by rw [hout]; exact fun x hx => a.toGrows.assigned (ho.assigned x hx),
      by rw [hout, hin]; exact ho.notInput⟩
  · exact ⟨⟨by rw [hout]; exact ha.nodup, by rw [hout, hin]; exact ha.notInput⟩,
      by rw [hout]; exact fun x hx => a.toGrows.used x (ha.taken x hx)⟩

theorem computes_copyIf {p : Bool} {value candidate : String}
    (hr : Returns (if p = true then copy value candidate else pure value) env s x s') (hg : s.Good)
    (hv : value ∈ s.scopes.visible) (hc : N → candidate ≠ "") :
    Computes N s {} s' {} ∧ ((x = value ∧ p = false ∧ s = s') ∨ Fresh s x s') := by
  split at hr
  · obtain ⟨c, f⟩ := computes_copy (N := N) hr hg (.inr hv) hc
    exact ⟨c, .inr f⟩
  · rename_i hp
    cases hr
    exact ⟨.refl _ _ _, .inl ⟨rfl, by simpa using hp, rfl⟩⟩

theorem any_name_eq_false {vs : List GraphVar} (h : vs.any (·.name == x) = false) : x ∉ vs.map (·.name) := by
  intro hmem
  obtain ⟨v, hv, rfl⟩ := mem_map.1 hmem
  simpa using any_eq_false.1 h v hv

theorem outputNames_addOutput (fn : GraphFunction) (name : String) (type : Option DeclaredType) :
    (fn.addOutput name type).outputNames = fn.outputNames ++ [name] := by
  simp [outputNames, GraphFunction.addOutput]

theorem outputsApart_addOutput (ha : fn.OutputsApart) (hin : name ∉ fn.inputNames) (hnew : name ∉ fn.outputNames) :
    (fn.addOutput name type).OutputsApart := by
  have hout := outputNames_addOutput fn name type
  constructor
  · rw [hout]
    exact nodup_append'.2 ⟨ha.nodup, nodup_singleton _, by simpa using hnew⟩
  · rw [hout]
    exact forall_mem_append.2 ⟨ha.notInput, forall_mem_singleton.2 hin⟩

theorem ownsOutputs_addOutput (ho : fn.OwnsOutputs) (hassigned : name ∈ fn.assigned) (hin : name ∉ fn.inputNames)
    (hnew : name ∉ fn.outputNames) : (fn.addOutput name type).OwnsOutputs := by
  obtain ⟨hnodup, hnotInput⟩ : (fn.addOutput name type).OutputsApart :=
    outputsApart_addOutput ⟨ho.nodup, ho.notInput⟩ hin hnew
  refine ⟨hnodup, ?_, hnotInput⟩
  rw [outputNames_addOutput]
  exact forall_mem_append.2 ⟨ho.assigned, forall_mem_singleton.2 hassigned⟩

/-- At the top level, a visible value that is no input is one that a node writes. -/
theorem assigned_of_visible (hg : s.Good) (ha : s.around = []) (hx : x ∈ s.scopes.visible)
    (hin : x ∉ s.current.inputNames) : x ∈ s.current.assigned := by
  rw [State.visible_eq hg.opened, ha] at hx
  simp only [Scopes.visible, flatMap_nil, append_nil, GraphFunction.values] at hx
  exact (mem_append.1 hx).resolve_left hin

theorem used_of_input (hg : s.Good h) (hx : x ∈ s.current.inputNames) : x ∈ s.names.used :=
  hg.taken.1 x (State.visible_of_current hg.opened (mem_append_left _ hx))

/-- Steps that compute what is returned for an expression: a visible value that is no input and is not returned before.
It is new, or the expression is a name bound to it. -/
structure Returnable (N : Prop) (e : Expr) (s : State) (x : String) (s' : State) : Prop
    extends Computes N s {} s' {} where
  visible' : x ∈ s'.scopes.visible
  notInput : x ∉ s'.current.inputNames
  notOutput : (∀ y ∈ s.current.outputNames, y ∈ s.names.used) → x ∉ s'.current.outputNames
  origin : x ∉ s.names.used ∨ s.Names e x

/-- A value and its copies: the first copy makes it one of the function, the second one makes it a new output. -/
theorem returnable_copies {c₁ : Option String} {c₂ : String} {x : Operand} {y z : String}
    (hx : Returns (lowerOperand e c₁) env s x s₁)
    (hy : Returns (if s₁.current.inputs.any (·.name == x.name) then copy x.name c₂ else pure x.name) env s₁ y s₂)
    (hz : Returns (if s₂.current.outputs.any (·.name == y) then copy y (y ++ "_copy") else pure y) env s₂ z s')
    (hg : s.Good) (hN : N → "" ∉ e.reads) (hc₁ : N → c₁ ≠ some "") (hc₂ : N → c₂ ≠ "") : Returnable N e s z s' := by
  obtain ⟨c1, v1⟩ := yields_lowerOperand (N := N) hN hc₁ hg hx
  have hg1 := c1.good hg
  obtain ⟨c2, hcase2⟩ := computes_copyIf (N := N) hy hg1 v1 hc₂
  have hg2 := c2.good hg1
  have v2 : y ∈ s₂.scopes.visible := by
    rcases hcase2 with ⟨rfl, -, rfl⟩ | f
    · exact v1
    · exact f.visible hg2.opened
  obtain ⟨c3, hcase3⟩ := computes_copyIf (N := N) hz hg2 v2 fun _ => by simp
  have hg3 := c3.good hg2
  have c12 := c1.trans c2
  have hin2 := inputNames_congr c2.params
  have hin3 := inputNames_congr c3.params
  have hout2 := outputNames_congr c12.outputs
  have hout3 := outputNames_congr c3.outputs
  have hy' : y ∉ s₂.current.inputNames := by
    rcases hcase2 with ⟨rfl, hany, rfl⟩ | f
    · exact any_name_eq_false hany
    · rw [hin2]
      exact fun hmem => f.free (used_of_input hg1 hmem)
  refine ⟨c12.trans c3, ?_, ?_, fun htaken => ?_, ?_⟩
  · rcases hcase3 with ⟨rfl, -, rfl⟩ | f
    · exact v2
    · exact f.visible hg3.opened
  · rw [hin3]
    rcases hcase3 with ⟨rfl, -, -⟩ | f
    · exact hy'
    · exact fun hmem => f.free (used_of_input hg2 hmem)
  · rw [hout3]
    rcases hcase3 with ⟨rfl, hany, -⟩ | f
    · exact any_name_eq_false hany
    · rw [hout2]
      exact fun hmem => f.free (c12.used z (htaken z hmem))
  · rcases hcase3 with ⟨rfl, -, -⟩ | f
    · rcases hcase2 with ⟨rfl, -, -⟩ | f
      · exact new_or_named hg hx
      · exact .inl fun hmem => f.free (c1.used _ hmem)
    · exact .inl fun hmem => f.free (c12.used _ hmem)

theorem returns_returnValues_cons {i : ℕ} (hc : ∀ i, candidate i ≠ "")
    (hr : Returns (returnValues pos types candidate i (e :: es)) env s u s') (hg : s.Good) (hN : N → "" ∉ e.reads) :
    ∃ x s₁ v s₂, Returnable N e s x s₁ ∧ Returns (modifyFunction (·.addOutput x (types.bind (·[i]?)))) env s₁ v s₂ ∧
      Returns (returnValues pos types candidate (i + 1) es) env s₂ u s' := by
  simp only [returnValues, returns_bind, returns_ite_bind] at hr
  obtain ⟨x, s₁, hx, f, t, hf, y, s₂, hy, f', t', hf', z, s₃, hz, v, s₄, hadd, hr⟩ := hr
  obtain ⟨rfl, rfl⟩ := returns_currentFunction hf
  obtain ⟨rfl, rfl⟩ := returns_currentFunction hf'
  exact ⟨z, s₃, v, s₄, returnable_copies hx hy hz hg hN (fun _ h => hc i (Option.some.inj h)) fun _ => hc i, hadd, hr⟩

theorem Returnable.finishes (r : Returnable N e s x s₁) (hg : s.Good)
    (hadd : Returns (modifyFunction (·.addOutput x type)) env s₁ v s') : Finishes N s s' := by
  have hg1 := r.good hg
  have edit := edits_modifyFunction hadd
  refine ⟨r.toGrows.trans (grows_addOutput hadd r.visible'), ?_, ?_, fun ha ho => ?_, fun ha => ?_⟩
  · exact edit.bound hg1.bound (fun _ hx => hx) (fun _ hq => hq) fun x b hx => .inl hx
  · rw [edit.current]
    exact r.params
  · have ho1 := (r.advances hg).finishes.owns ha ho
    rw [edit.current]
    exact ownsOutputs_addOutput ho1 (assigned_of_visible hg1 (by rw [r.around, ha]) r.visible' r.notInput) r.notInput
      (r.notOutput fun y hy => State.used_of_assigned hg (ho.assigned y hy))
  · have ha1 := (r.advances hg).finishes.apart ha
    constructor
    · rw [edit.current]
      exact outputsApart_addOutput ha1.toOutputsApart r.notInput (r.notOutput ha.taken)
    · rw [edit.current, outputNames_addOutput, edit.names]
      exact forall_mem_append.2 ⟨ha1.taken, forall_mem_singleton.2 (hg1.taken.1 _ r.visible')⟩

/-- **Returned values**: each is no input and is not returned before; at the top level it is a value of the function
itself. -/
theorem finishes_returnValues (hc : ∀ i, candidate i ≠ "") : ∀ {es : List Expr} {i : ℕ} {s : State} {u : Unit},
    Returns (returnValues pos types candidate i es) env s u s' → s.Good → (N → "" ∉ Expr.readsAll es) →
    Finishes N s s' := by
  intro es
  induction es with
  | nil =>
    intro i s u hr hg _
    rw [returnValues] at hr
    cases hr
    exact ((Computes.refl _ _ _).advances hg).finishes
  | cons e es ih =>
    intro i s u hr hg hN
    obtain ⟨x, s₁, v, s₂, r, hadd, hr⟩ := returns_returnValues_cons hc hr hg (notMem_append hN).1
    have f := r.finishes hg hadd
    exact f.trans (ih hr (f.good hg) (notMem_append hN).2)

/-- What is returned for an expression: a value that a node of the innermost function writes, or a value of a scope
around it if the expression is a name bound to that. -/
def OutputOf (s s' : State) (e : Expr) (x : String) : Prop :=
  x ∈ s'.current.assigned ∨ x ∈ s.around.visible ∧ s.Names e x

theorem Returnable.outputOf (r : Returnable N e s x s₁) (hg : s.Good)
    (ha : ∀ y ∈ s₁.current.assigned, y ∈ s'.current.assigned) : OutputOf s s' e x := by
  by_cases hx : x ∈ s₁.current.assigned
  · exact .inl (ha x hx)
  · have hv := r.visible'
    rw [State.visible_eq (r.opened hg.opened), r.around] at hv
    refine .inr ⟨(mem_append.1 hv).resolve_left fun h => ?_, ?_⟩
    · exact (mem_append.1 h).elim r.notInput hx
    · exact r.origin.resolve_left fun hnew => hx (assigned_of_new r.toComputes hg r.visible' hnew)

theorem outputs_returnValues (hc : ∀ i, candidate i ≠ "") : ∀ {es : List Expr} {i : ℕ} {s : State} {u : Unit},
    Returns (returnValues pos types candidate i es) env s u s' → s.Good →
    ∃ xs, s'.current.outputNames = s.current.outputNames ++ xs ∧ Forall₂ (OutputOf s s') es xs := by
  intro es
  induction es with
  | nil =>
    intro i s u hr _
    rw [returnValues] at hr
    cases hr
    exact ⟨[], by simp, .nil⟩
  | cons e es ih =>
    intro i s u hr hg
    obtain ⟨x, s₁, v, s₂, r, hadd, hr⟩ := returns_returnValues_cons (N := False) hc hr hg fun h => h.elim
    have f := r.finishes hg hadd
    have hg2 := f.good hg
    have edit := edits_modifyFunction hadd
    have hrest := finishes_returnValues (N := False) hc hr hg2 fun h => h.elim
    obtain ⟨xs, hxs, hall⟩ := ih hr hg2
    refine ⟨x :: xs, ?_, .cons (r.outputOf hg fun y hy => hrest.toGrows.assigned ?_) (hall.imp fun e y hy => ?_)⟩
    · rw [hxs, edit.current, outputNames_addOutput, outputNames, r.outputs]
      simp [outputNames]
    · rw [edit.current]
      exact hy
    · -- no step in between binds a name
      refine hy.imp_right fun h => ⟨f.around ▸ h.1, ?_⟩
      obtain ⟨pos, id, rfl, p, t, hl⟩ := h.2
      exact ⟨pos, id, rfl, p, t, by rw [← r.lookup hg.opened, ← edit.lookup, hl]⟩

/-- The expressions that are returned, and the names that are suggested for their values. -/
def returned : Expr → List Expr × (ℕ → String)
  | .tuple _ es => (es, fun i => s!"return_val{i}")
  | e => ([e], fun _ => "return_val")

theorem returned_ne_empty (e : Expr) (i : ℕ) : (returned e).2 i ≠ "" := by
  unfold returned
  split
  · intro h
    have := congrArg String.length h
    simp only [String.length_append, String.length_empty, Nat.add_eq_zero_iff] at this
    exact absurd this.1 (by decide)
  · simp

theorem readsAll_returned (e : Expr) : Expr.readsAll (returned e).1 = e.reads := by
  unfold returned
  split
  · simp [Expr.reads]
  · simp [Expr.readsAll]

theorem returns_returnFrom (hr : Returns (returnFrom pos value) env s u s') :
    ∃ e, value = some e ∧
      Returns (returnValues pos s.returnTypes (returned e).2 0 (returned e).1) env s u s' := by
  unfold returnFrom at hr
  split at hr
  · cases hr
  · rename_i e
    refine ⟨e, rfl, ?_⟩
    cases e
    all_goals
      simp only [returns_bind, returns_get] at hr
      obtain ⟨t, t', ⟨rfl, rfl⟩, hr⟩ := hr
      split at hr
      · split at hr
        · simp at hr
        · exact hr
      · exact hr

theorem finishes_returnFrom (hr : Returns (returnFrom pos value) env s u s') (hg : s.Good)
    (hN : N → "" ∉ Expr.readsOption value) : Finishes N s s' := by
  obtain ⟨e, rfl, hr'⟩ := returns_returnFrom hr
  exact finishes_returnValues (returned_ne_empty e) hr' hg (by rw [readsAll_returned]; exact hN)

theorem outputs_returnFrom (hr : Returns (returnFrom pos value) env s u s') (hg : s.Good) :
    ∃ e xs, value = some e ∧ s'.current.outputNames = s.current.outputNames ++ xs ∧
      Forall₂ (OutputOf s s') (returned e).1 xs := by
  obtain ⟨e, rfl, hr'⟩ := returns_returnFrom hr
  obtain ⟨xs, hxs, hall⟩ := outputs_returnValues (returned_ne_empty e) hr' hg
  exact ⟨e, xs, rfl, hxs, hall⟩

/-! ### Signatures -/

/-- Parameters are declared and nothing else. -/
structure Declares (N : Prop) (s s' : State) : Prop extends Grows N s {} s' {} where
  bound : s'.scopes.Bound
  sameNodes : s'.current.nodes = s.current.nodes
  sameNested : s'.current.nested = s.current.nested
  outputs : s'.current.outputs = s.current.outputs

theorem Declares.trans (a : Declares N s s₁) (b : Declares N s₁ s₂) : Declares N s s₂ :=
  ⟨a.toGrows.trans b.toGrows, b.bound, b.sameNodes.trans a.sameNodes, b.sameNested.trans a.sameNested,
    b.outputs.trans a.outputs⟩

theorem Declares.good (a : Declares N s s') (hg : s.Good) : s'.Good :=
  a.toGrows.good hg a.bound

theorem Quiet.declares (q : Quiet s s') (hg : s.Good) : Declares N s s' := by
  have hc : s'.current = s.current := by
    unfold State.current
    rw [q.scopes]
  have c := q.computes (N := N) (h := {})
  exact ⟨c.toGrows, c.bound hg.opened hg.bound, by rw [hc], by rw [hc], by rw [hc]⟩

theorem grows_reserve (hs : s' = { s with names := s.names.reserve name }) : Grows N s {} s' {} := by
  subst hs
  have r := Grows.refl N s {}
  exact { r with
    used := fun x hx => Names.mem_reserve.2 (.inr hx)
    taken := fun _ ht => ⟨fun x hx => Names.mem_reserve.2 (.inr (ht.1 x hx)), by simp⟩
    tally_le := fun x _ => le_rfl }

/-- Names that are held throughout and are taken need not be held. -/
theorem Grows.release {names : List String} (a : Grows N s ⟨names, []⟩ s' ⟨names, []⟩)
    (hn : ∀ x ∈ names, x ∈ s.names.used) : Grows N s {} s' {} := by
  have ht : ∀ (t : State) (x : String), t.tally ⟨names, []⟩ x = t.tally {} x + names.count x := by
    intro t x
    simp only [State.tally, Held.tally, count_nil]
    omega
  exact { a with
    taken := fun hs hv => ⟨(a.taken hs ⟨hv.1, hn⟩).1, by simp⟩
    tally_le_succ := fun x => by
      have := a.tally_le_succ x
      rw [ht, ht] at this
      omega
    tally_le := fun x hx => by
      have := a.tally_le x hx
      rw [ht, ht] at this
      omega }

theorem declares_input (hadd : Returns (modifyFunction (·.addInput name type)) env s u s₁)
    (hb : Returns (bind name (.graph name .input type)) env { s₁ with names := s₁.names.reserve name } v s')
    (hg : s.Good) : Declares N s s' := by
  have e := edits_modifyFunction hadd
  have e' := edits_bind hb
  -- the name could as well be taken before the input is declared
  set t : State := { s with names := s.names.reserve name } with ht
  set t₁ : State := { s₁ with names := s₁.names.reserve name } with ht₁
  have et : Edits t (s.current.addInput name type) s.bindings t₁ :=
    ⟨e.opened, e.depth, e.current, e.bindings, e.around, by rw [ht, ht₁, e.names], e.opset⟩
  have hvalues : ∀ x ∈ s.current.values, x ∈ (s.current.addInput name type).values :=
    fun x hx => GraphFunction.mem_values_param hx
  have g0 : Grows N t ⟨[name], []⟩ t₁ ⟨[name], []⟩ := by
    refine et.grows_note rfl rfl hvalues (fun x hx => ?_) fun inner hb => .param _ hb
    rw [GraphFunction.values, inputNames_addInput] at hx
    simp only [mem_append, mem_singleton] at hx
    rcases hx with (hx | rfl) | hx
    · exact .inl (mem_append_left _ hx)
    · exact .inr mem_cons_self
    · exact .inl (mem_append_right _ hx)
  have g1 : Grows N t {} t₁ {} := g0.release (forall_mem_singleton.2 (Names.mem_reserve.2 (.inl rfl)))
  have hbound : t₁.scopes.Bound := et.bound hg.bound hvalues (fun _ hq => hq) fun x b hx => .inl hx
  have hcur : s'.current = s.current.addInput name type := e'.current.trans e.current
  refine ⟨(grows_reserve ht).trans (g1.trans (grows_bind hb)), bound_bind hb hbound ?_, ?_, ?_, ?_⟩
  · refine State.visible_of_current et.opened' (mem_append_left _ ?_)
    rw [et.current, inputNames_addInput]
    exact mem_append_right _ mem_cons_self
  · rw [hcur]
    rfl
  · rw [hcur]
    rfl
  · rw [hcur]
    rfl

theorem declares_attr {p : AttributeParam} (hadd : Returns (modifyFunction (·.addAttrParam p)) env s u s₁)
    (hb : Returns (bind p.name b) env s₁ v s') (hg : s.Good) (hhas : s₁.scopes.surroundings.Has b) :
    Declares N s s' := by
  have e := edits_modifyFunction hadd
  have e' := edits_bind hb
  have hin : (s.current.addAttrParam p).values = s.current.values := by
    simp [GraphFunction.values, inputNames, GraphFunction.inputs, GraphFunction.addAttrParam,
      GraphFunction.assigned]
  have g1 : Grows N s {} s₁ {} := e.grows_note rfl rfl (fun x hx => by rwa [hin]) (fun x hx => by rw [hin] at hx; exact .inl hx)
    fun inner hb => .param _ hb
  have hbound : s₁.scopes.Bound := e.bound hg.bound (fun x hx => by rwa [hin]) (fun _ hq => hq)
    fun x b hx => .inl hx
  have hcur : s'.current = s.current.addAttrParam p := e'.current.trans e.current
  refine ⟨g1.trans (grows_bind hb), bound_bind hb hbound hhas, ?_, ?_, ?_⟩
  · rw [hcur]
    rfl
  · rw [hcur]
    rfl
  · rw [hcur]
    rfl

def paramDefault : Option Expr → Lower (Option Literal)
  | some e => some <$> evalLiteral e
  | none => pure none

def paramType (p : Param) : Lower (Option DeclaredType) :=
  match p.typeExpr with
  | some e => annotationType? e s!"argument {p.name}"
  | none => pure none

/-- Declares a graph input with that default and type. -/
def declareInput (p : Param) (value : Option Literal) (type : Option DeclaredType) : Lower Unit := do
  if value.isSome then warn s!"Default value of input {p.name} is ignored." p.pos
  modifyFunction (·.addInput p.name type)
  modify fun s => { s with names := s.names.reserve p.name }
  bind p.name (.graph p.name .input type)

/-- Declares a parameter with that default and type. -/
def declareAs (p : Param) (value : Option Literal) (type : Option DeclaredType) : Lower Unit := do
  match type with
  | some t =>
    if t.isAttr then
      let default := match value with
        | some .none => none
        | v => v
      modifyFunction (·.addAttrParam ⟨p.name, t.attributeType, default⟩)
      bind p.name (.attr p.name t)
    else declareInput p value type
  | none => declareInput p value type

theorem declareParam_eq (p : Param) (default : Option Expr) :
    declareParam p default = paramDefault default >>= fun value => paramType p >>= declareAs p value := by
  unfold declareParam paramType
  cases default <;> cases p.typeExpr <;> rfl

theorem quiet_paramDefault {e : Option Expr} {v : Option Literal} (hr : Returns (paramDefault e) env s v s') :
    s = s' := by
  unfold paramDefault at hr
  split at hr
  · simp only [returns_map, returns_evalLiteral] at hr
    obtain ⟨w, ⟨-, rfl⟩, -⟩ := hr
    rfl
  · exact (returns_pure.1 hr).2

theorem quiet_paramType (hr : Returns (paramType p) env s t s') : Quiet s s' := by
  unfold paramType at hr
  split at hr
  · exact returns_annotationType? hr
  · cases hr
    exact ⟨rfl, rfl, rfl⟩

theorem returns_declareInput {value : Option Literal} (hr : Returns (declareInput p value type) env s u s') :
    ∃ s₁ s₂, Quiet s s₁ ∧
      Returns (modifyFunction (·.addInput p.name type)) env s₁ () s₂ ∧
      Returns (bind p.name (.graph p.name .input type)) env { s₂ with names := s₂.names.reserve p.name } u s' := by
  unfold declareInput at hr
  dsimp only at hr
  split at hr
  · simp only [returns_bind, returns_modify] at hr
    obtain ⟨v, s₁, hw, v', s₂, hadd, v'', t, rfl, hb⟩ := hr
    exact ⟨s₁, s₂, quiet_warn hw, hadd, hb⟩
  · simp only [returns_bind, returns_modify] at hr
    obtain ⟨v', s₂, hadd, v'', t, rfl, hb⟩ := hr
    exact ⟨s, s₂, ⟨rfl, rfl, rfl⟩, hadd, hb⟩

theorem returns_declareAs {value : Option Literal} (hr : Returns (declareAs p value type) env s u s') :
    (∃ t d s₁, type = some t ∧ t.isAttr = true ∧
      Returns (modifyFunction (·.addAttrParam ⟨p.name, t.attributeType, d⟩)) env s () s₁ ∧
      Returns (bind p.name (.attr p.name t)) env s₁ u s') ∨
    Returns (declareInput p value type) env s u s' := by
  cases type with
  | none => exact .inr hr
  | some t =>
    unfold declareAs at hr
    dsimp only at hr
    split at hr
    · rename_i hattr
      obtain ⟨v, s₁, hadd, hb⟩ := returns_bind.1 hr
      exact .inl ⟨t, _, s₁, rfl, hattr, hadd, hb⟩
    · exact .inr hr

theorem declares_declareParam {default : Option Expr} (hr : Returns (declareParam p default) env s u s') (hg : s.Good) :
    Declares N s s' := by
  rw [declareParam_eq] at hr
  simp only [returns_bind] at hr
  obtain ⟨value, t, hv, type, s₁, ht, hr⟩ := hr
  obtain rfl := quiet_paramDefault hv
  have d1 := (quiet_paramType ht).declares (N := N) hg
  have hg1 := d1.good hg
  refine d1.trans ?_
  rcases returns_declareAs hr with ⟨t, d, s₂, -, -, hadd, hb⟩ | hr
  · exact declares_attr hadd hb hg1 trivial
  · obtain ⟨s₂, s₃, q, hadd, hb⟩ := returns_declareInput hr
    have d2 := q.declares (N := N) hg1
    exact d2.trans (declares_input hadd hb (d2.good hg1))

theorem declares_params {ps : List (Param × Option Expr)}
    (hr : Returns (ps.forM fun (p, default) => declareParam p default) env s u s') (hg : s.Good) : Declares N s s' := by
  induction ps generalizing s u with
  | nil =>
    cases hr
    exact Quiet.declares ⟨rfl, rfl, rfl⟩ hg
  | cons p ps ih =>
    obtain ⟨v, s₁, h1, hr⟩ := returns_bind.1 hr
    have d1 := declares_declareParam (N := N) h1 hg
    exact d1.trans (ih hr (d1.good hg))

theorem quiet_warnings {message : DeclaredType → String} {ts : List DeclaredType}
    (hr : Returns (ts.forM fun t => warn (message t) pos) env s u s') : Quiet s s' := by
  induction ts generalizing s u with
  | nil =>
    cases hr
    exact ⟨rfl, rfl, rfl⟩
  | cons t ts ih =>
    obtain ⟨v, s₁, h1, hr⟩ := returns_bind.1 hr
    have q1 := quiet_warn h1
    have q2 := ih hr
    exact ⟨q2.names.trans q1.names, q2.scopes.trans q1.scopes, q2.opset.trans q1.opset⟩

theorem quiet_returnTypesOf {ts : Option (List DeclaredType)} (hr : Returns (returnTypesOf name returns) env s ts s') :
    Quiet s s' := by
  unfold returnTypesOf at hr
  split at hr
  · cases hr
    exact ⟨rfl, rfl, rfl⟩
  · simp only [returns_bind, returns_evalValue] at hr
    obtain ⟨v, t, ⟨-, rfl⟩, hr⟩ := hr
    split at hr
    · simp only [returns_bind, returns_pure] at hr
      obtain ⟨u, s₁, hw, -, rfl⟩ := hr
      exact quiet_warnings hw
    · simp only [returns_bind, returns_pure] at hr
      obtain ⟨u, s₁, hw, -, rfl⟩ := hr
      exact quiet_warn hw

theorem declares_signature (hr : Returns (signature name params defaults returns) env s u s') (hg : s.Good) :
    Declares N s s' := by
  simp only [signature, returns_bind, returns_modify] at hr
  obtain ⟨u₁, s₁, htrace, u₂, s₂, hparams, u₃, t, rfl, ts, s₃, hts, rfl⟩ := hr
  have d1 := (quiet_trace htrace).declares (N := N) hg
  have hg1 := d1.good hg
  have d2 := declares_params (N := N) hparams hg1
  have q := quiet_returnTypesOf hts
  exact d1.trans (d2.trans (Quiet.declares ⟨q.names, q.scopes, q.opset⟩ (d2.good hg1)))

/-! ### Nested functions -/

theorem returns_captured : ∀ {names : List String} {s : State} {cs : List (String × Identity)},
    Returns (names.mapM fun name => do return (name, (← lookup name pos).identity)) env s cs s' → s = s' := by
  intro names
  induction names with
  | nil => exact fun hr => (returns_pure.1 hr).2
  | cons name names ih =>
    intro s cs hr
    simp only [mapM_cons, returns_bind, returns_lookup, returns_pure] at hr
    obtain ⟨c, t, ⟨b, t', ⟨-, rfl⟩, rfl, rfl⟩, rest, t'', hrest, rfl, rfl⟩ := hr
    exact ih hrest

theorem grows_bindNested (hr : Returns (bindNested pos fn captured) env s u s') (hg : s.Good) (ha : fn.OutputsApart) :
    Grows N s ⟨[], [fn]⟩ s' {} ∧ s'.scopes.Bound ∧ s'.current = s.current.addNested fn := by
  simp only [bindNested, returns_bind, returns_modifyGet] at hr
  obtain ⟨cs, t, hcs, id, s₁, hid, v, s₂, hb, hadd⟩ := hr
  obtain rfl := returns_captured hcs
  cases hid
  have c1 : Computes N s {} { s with next := s.next + 1 } {} := .of_same rfl rfl fun o ho => ho
  have eb := edits_bind hb
  have e := edits_modifyFunction hadd
  have hcur : s₂.current = s.current := eb.current
  have g3 : Grows N s₂ ⟨[], [fn]⟩ s' {} := by
    refine e.grows prefix_rfl (prefix_append _ _) (fun _ hx => hx) ?_ (by simp) ?_ ?_ ?_
    · exact fun x hx => hx.elim .inl (by simp)
    · intro x
      rw [GraphFunction.tally_addNested]
      simp [Held.tally]
    · exact fun inner hin hbuilt => .nested hbuilt (hin fn mem_cons_self)
    · exact fun hs hh => hs.addNested ha (hh fn mem_cons_self)
  have g : Grows N s ⟨[], [fn]⟩ s' {} := (c1.toGrows.frame _).trans ((grows_bind hb).trans g3)
  refine ⟨g, ?_, by rw [e.current, hcur]⟩
  -- the name is bound before the function is there, so the binding is right only now
  have hbound := (State.bound_iff hg.opened).1 hg.bound
  rw [State.bound_iff e.opened', e.bindings, eb.bindings, e.around, eb.around]
  refine ⟨fun x b hx => ?_, hbound.2⟩
  rw [Members.get?_set] at hx
  split at hx
  · cases hx
    rw [State.surroundings_eq e.opened', e.current]
    exact mem_append_left _ (mem_append_right _ mem_cons_self)
  · exact (hbound.1 x b hx).mono (fun _ => g.visible hg.opened) fun _ => g.functions hg.opened

/-! ### Statements -/

theorem returns_forHeader {iter : Expr} (hr : Returns (forHeader pos target iter) env s header s') (hg : s.Good)
    (hiter : N → "" ∉ iter.reads) :
    Computes N s {} s' {} ∧ s'.Sees header.bound ∧ header.counter ∈ target.targets ∧ header.test = none := by
  unfold forHeader at hr
  split at hr
  · split at hr
    · split at hr
      · obtain ⟨x, s₁, hx, ⟨⟩⟩ := returns_bind.1 hr
        obtain ⟨c, v⟩ := yields_lowerOperand (N := N)
          (fun hn h => hiter hn (by simpa [Expr.reads, Expr.readsAll, Expr.readsKeywords] using h)) (by simp) hg hx
        exact ⟨c, .inr v, by simp [Expr.targets], rfl⟩
      · cases hr
    · cases hr
  · cases hr

theorem returns_whileHeader {test : Expr} (hr : Returns (whileHeader pos test) env s header s') :
    s = s' ∧ header.bound = "" ∧ header.counter ≠ "" ∧ ∃ x ∈ test.reads, header.test = some x := by
  unfold whileHeader at hr
  split at hr
  · cases hr
    exact ⟨rfl, rfl, by simp, _, by simp [Expr.reads], rfl⟩
  · cases hr

theorem performs_expressionStmt {place : Place} {stmt : Stmt NameSet} : Performs N (expressionStmt place stmt) := by
  intro env s u s' hg hr
  unfold expressionStmt at hr
  split at hr
  · have e := edits_modifyFunction hr
    refine ⟨e.grows_note rfl rfl (fun _ hx => hx) (fun _ hx => .inl hx) fun inner hb => .note s.current.called _ hb,
      e.bound hg.bound (fun _ hx => hx) (fun _ hq => hq) fun x b hx => .inl hx, ?_, ?_⟩
    · rw [e.current]
      rfl
    · rw [e.current]
      rfl
  · split at hr
    · cases hr
      exact (Computes.refl _ _ _).advances hg
    · cases hr

theorem assigned_of_carried {after : NameSet} {body : List (Stmt NameSet)} (h : x ∈ carried after body) :
    x ∈ Stmt.assignsAll body :=
  NameSet.mem_ofList.1 (NameSet.mem_toList.2 (mem_of_mem_filter h))

theorem performs_nested {body : Lower Unit}
    (hbody : ∀ ⦃env : Env⦄ ⦃s : State⦄ ⦃u : Unit⦄ ⦃s' : State⦄, s.Good → Returns body env s u s' → Finishes N s s') :
    Performs N (do
        let types := (← get).returnTypes
        enter name (← read).domain
        signature name params defaults returns
        body
        let fn ← leave
        modify fun s => { s with returnTypes := types }
        bindNested pos fn captured) := by
  intro env s u s' hg hr
  simp only [returns_bind, returns_get, returns_read, returns_modify] at hr
  obtain ⟨t, t', ⟨rfl, rfl⟩, e, t', ⟨rfl, rfl⟩, u₁, s₀, henter, u₂, s₁, hsig, u₃, s₂, hb, fn, s₃, hleave, u₄, s₄, hs₄,
    hbind⟩ := hr
  have e := enters_enter henter
  have l := leaves_leave hleave
  have hg0 := e.good hg.bound hg.taken.1
  have d := declares_signature (N := N) hsig hg0
  have f := hbody (d.good hg0) hb
  have c3 := Computes.scope e (d.toGrows.trans f.toGrows) l hg.opened
  have c4 : Computes N s₃ ⟨[], [fn]⟩ s₄ ⟨[], [fn]⟩ := by
    subst hs₄
    exact .of_same rfl rfl fun o ho => ho
  have c34 := c3.trans c4
  have hout : s₁.current.outputNames = [] := by
    rw [outputNames, d.outputs, e.current]
    rfl
  have hapart : fn.OutputsApart := by
    rw [l.fn]
    exact (f.apart (State.outputsApart_of_nil hout)).toOutputsApart
  obtain ⟨g5, hbound, hcur⟩ := grows_bindNested (N := N) hbind (c34.good hg).drop hapart
  refine ⟨c34.toGrows.trans g5, hbound, ?_, ?_⟩
  · rw [hcur]
    exact c34.params
  · rw [hcur]
    exact c34.outputs

mutual
/-- **Lowering a statement advances the state.** -/
theorem performs_lowerStmt : ∀ (place : Place) (stmt : Stmt NameSet), (∀ m v, stmt = .ret m v → place = .block) →
    (N → "" ∉ stmt.identifiers) → Performs N (lowerStmt place stmt)
  | _, .assign m targets value, _, hN => by
    intro env s u s' hg hr
    rw [lowerStmt.eq_def] at hr
    dsimp only at hr
    split at hr
    · refine performs_assignAny (fun hn h => (notMem_append hN).1 hn ?_) (notMem_append hN).2 hg hr
      simpa [Expr.targetsAll] using h
    · cases hr
  | _, .annAssign m target typeExpr value, _, hN => by
    rw [lowerStmt]
    exact performs_assignAnnotated (notMem_append hN).1 (notMem_append hN).2
  | _, .ret m value, hret, _ => by
    obtain rfl := hret m value rfl
    rw [lowerStmt]
    exact .fail
  | _, .cond m test body orelse, _, hN => by
    rw [lowerStmt]
    have hblocks := notMem_append (notMem_append hN).2
    refine performs_conditional (notMem_append hN).1 (fun hn h => ?_)
      (performs_lowerBlock body hblocks.1) (performs_lowerBlock orelse hblocks.2)
    have h := NameSet.mem_ofList.1 (NameSet.mem_toList.2 (mem_of_mem_filter h))
    rcases mem_append.1 h with h | h
    · exact hblocks.1 hn (Stmt.mem_identifiersAll_of_assignsAll h)
    · exact hblocks.2 hn (Stmt.mem_identifiersAll_of_assignsAll h)
  | _, .forLoop m target iter body orelse, _, hN => by
    intro env s u s' hg hr
    rw [lowerStmt] at hr
    split at hr
    · simp at hr
    obtain ⟨header, s₁, hh, hr⟩ := returns_bind.1 hr
    have hrest := notMem_append (notMem_append hN).2
    obtain ⟨c1, hbound, hcounter, htest⟩ := returns_forHeader hh hg hrest.1
    refine (c1.advances hg).trans (advances_loop hr (c1.good hg) (performs_lowerLoop body hrest.2)
      (fun hn h => (notMem_append hN).1 hn (h ▸ hcounter)) (by simp [htest]) hbound fun hn h => ?_)
    exact hrest.2 hn (Stmt.mem_identifiersAll_of_assignsAll (assigned_of_carried h))
  | _, .whileLoop m test body orelse, _, hN => by
    intro env s u s' hg hr
    rw [lowerStmt] at hr
    split at hr
    · simp at hr
    obtain ⟨header, s₁, hh, hr⟩ := returns_bind.1 hr
    obtain ⟨rfl, hbound, hcounter, x, hx, htest⟩ := returns_whileHeader hh
    refine advances_loop hr hg (performs_lowerLoop body (notMem_append hN).2) (fun _ => hcounter)
      (fun hn h => ?_) (.inl hbound) fun hn h => ?_
    · rw [htest] at h
      exact (notMem_append hN).1 hn (Option.some.inj h ▸ hx)
    · exact (notMem_append hN).2 hn (Stmt.mem_identifiersAll_of_assignsAll (assigned_of_carried h))
  | _, .expr m value, _, _ => by
    rw [lowerStmt]
    exact performs_expressionStmt
  | _, .function m ⟨_, _, _, body, _⟩, _, hN => by
    rw [lowerStmt]
    exact performs_nested fun env s u s' hg hr =>
      finishes_lowerBody true body (fun hn h => hN hn (mem_cons_of_mem _ h)) hg hr
  | _, .pass _, _, _ => by
    rw [lowerStmt]
    exact .pure _
  | _, .brk m, _, _ | _, .imports m _, _, _ | _, .importFrom m _ _, _, _ => by
    rw [lowerStmt]
    exact .fail
theorem performs_lowerBlock : ∀ (ss : List (Stmt NameSet)), (N → "" ∉ Stmt.identifiersAll ss) →
    Performs N (lowerBlock ss)
  | [], _ => by
    rw [lowerBlock]
    exact .pure _
  | stmt :: ss, hN => by
    rw [lowerBlock]
    exact (performs_lowerStmt .block stmt (fun _ _ _ => rfl) (notMem_append hN).1).andThen
      fun _ => performs_lowerBlock ss (notMem_append hN).2
theorem performs_lowerLoop : ∀ (ss : List (Stmt NameSet)), (N → "" ∉ Stmt.identifiersAll ss) →
    PerformsLoop N (lowerLoop ss)
  | [], _ => by
    rw [lowerLoop]
    exact .pure_none
  | stmt :: ss, hN => by
    by_cases hbreak : ∃ m test mark, stmt = .cond m test [.brk mark] []
    · obtain ⟨m, test, mark, rfl⟩ := hbreak
      rw [lowerLoop]
      exact performsLoop_break
    · rw [lowerLoop.eq_3 _ _ fun m test mark h => hbreak ⟨m, test, mark, h⟩]
      exact .cons (performs_lowerStmt .block stmt (fun _ _ _ => rfl) (notMem_append hN).1)
        (performs_lowerLoop ss (notMem_append hN).2)
/-- **Lowering a function body finishes the function.** -/
theorem finishes_lowerBody : ∀ (first : Bool) (ss : List (Stmt NameSet)), (N → "" ∉ Stmt.identifiersAll ss) →
    ∀ ⦃env : Env⦄ ⦃s : State⦄ ⦃u : Unit⦄ ⦃s' : State⦄, s.Good → Returns (lowerBody first ss) env s u s' →
    Finishes N s s'
  | _, [], _ => by
    intro env s u s' hg hr
    rw [lowerBody] at hr
    cases hr
    exact ((Computes.refl _ _ _).advances hg).finishes
  | first, stmt :: ss, hN => by
    intro env s u s' hg hr
    by_cases hret : ∃ m v, stmt = .ret m v
    · obtain ⟨m, v, rfl⟩ := hret
      rw [lowerBody] at hr
      split at hr
      · exact finishes_returnFrom hr hg (notMem_append hN).1
      · cases hr
    · rw [lowerBody.eq_3 _ _ _ fun m v h => hret ⟨m, v, h⟩, returns_bind] at hr
      obtain ⟨v, s₁, h1, hr⟩ := hr
      have a1 := performs_lowerStmt (.body first) stmt (fun m v h => absurd ⟨m, v, h⟩ hret)
        (notMem_append hN).1 hg h1
      exact a1.finishes.trans (finishes_lowerBody false ss (notMem_append hN).2 (a1.good hg) hr)
end

end Lowering

end OpGraph
