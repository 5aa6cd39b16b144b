import OpGraph.Proofs.Lowering.Growth

/-!
The single steps of a lowering as growth: taking a name, emitting a node, binding a name, and opening and closing a
scope. Steps that only note something change nothing that growth speaks of.
-/

namespace OpGraph.Lowering

open List
open State (surroundings_eq)

variable {N : Prop} {env : Env} {s s' : State} {h h' : Held}
variable {b : Binding} {fn : GraphFunction} {n : GraphNode} {candidate domain name x : String} {u : Unit}
variable {attributes : List NodeAttribute} {inputs names outputs : List String} {s₀ s₁ : State} {message : String}

/-- A name that a node may refer to: that of a visible value, or the empty one, which stands for an omitted input. -/
def State.Sees (s : State) (x : String) : Prop :=
  x = "" ∨ x ∈ s.scopes.visible

theorem Grows.sees (a : Grows N s h s' h') (hs : s.scopes ≠ []) (hx : s.Sees x) : s'.Sees x :=
  hx.imp_right fun hx => a.visible hs hx

theorem State.visible_of_current (hs : s.scopes ≠ []) (hx : x ∈ s.current.values) : x ∈ s.scopes.visible := by
  rw [visible_eq hs]
  exact mem_append_left _ hx

/-! ### Notes -/

theorem Computes.of_same (hn : s'.names = s.names) (hs : s'.scopes = s.scopes)
    (ho : ∀ o, s.defaultOpset = some o → s'.defaultOpset = some o) : Computes N s h s' h := by
  have hc : s'.current = s.current := by unfold State.current; rw [hs]
  have ha : s'.around = s.around := by unfold State.around; rw [hs]
  have hb : s'.bindings = s.bindings := by unfold State.bindings; rw [hs]
  have ht : ∀ x, s'.tally h x = s.tally h x := fun x => by unfold State.tally; rw [hc]
  exact {
    depth := by rw [hs]
    around := ha
    used := fun x hx => by rwa [hn]
    nodes := by rw [hc]
    nested := by rw [hc]
    values := fun x hx => by rwa [hc]
    opset := ho
    taken := fun _ ht => by unfold State.Taken; rw [hs, hn]; exact ht
    tally_le_succ := fun x => by rw [ht]; exact Nat.le_succ _
    tally_le := fun x _ => (ht x).le
    built := fun inner hin hb => ⟨inner, fun _ hg => hg, hin, by rwa [hc]⟩
    shaped := fun hs hh => ⟨by rwa [hc], hh⟩
    bindings := hb
    params := by rw [hc]
    outputs := by rw [hc] }

theorem Computes.swap {parts : List GraphFunction} (hn : h.names.Perm names) (hp : h.parts = parts) :
    Computes N s h s ⟨names, parts⟩ := by
  have ht : ∀ x, s.tally ⟨names, parts⟩ x = s.tally h x := fun x => by
    simp only [State.tally, Held.tally, hn.count_eq, hp]
  have r := Computes.refl N s h
  exact { r with
    taken := fun _ ht => ⟨ht.1, fun x hx => ht.2 x (hn.symm.subset hx)⟩
    tally_le_succ := fun x => by rw [ht]; exact Nat.le_succ _
    tally_le := fun x _ => (ht x).le
    built := fun inner hin hb => ⟨inner, fun _ hg => hg, fun g hg => hin g (hp ▸ hg), hb⟩
    shaped := fun hs hh => ⟨hs, fun g hg => hh g (hp ▸ hg)⟩ }

/-- The states differ in messages only. -/
structure Quiet (s s' : State) : Prop where
  names : s'.names = s.names
  scopes : s'.scopes = s.scopes
  opset : s'.defaultOpset = s.defaultOpset

theorem Quiet.computes (q : Quiet s s') : Computes N s h s' h :=
  .of_same q.names q.scopes fun o ho => by rw [q.opset, ho]

theorem performs_of_quiet {α : Type} {m : Lower α} (h : ∀ ⦃env s a s'⦄, Returns m env s a s' → Quiet s s') :
    Performs N m :=
  fun _ _ _ _ hg hr => (h hr).computes.advances hg

theorem quiet_record {entry : LogEntry} (hr : Returns (record entry) env s u s') : Quiet s s' := by
  simp only [record, returns_modify] at hr
  subst hr
  exact ⟨rfl, rfl, rfl⟩

theorem quiet_trace (hr : Returns (trace message) env s u s') : Quiet s s' := by
  simp only [trace, returns_bind, returns_read] at hr
  obtain ⟨e, t, ⟨rfl, rfl⟩, hr⟩ := hr
  split at hr
  · exact quiet_record hr
  · cases hr
    exact ⟨rfl, rfl, rfl⟩

theorem quiet_warn {pos : Position} (hr : Returns (warn message pos) env s u s') : Quiet s s' := by
  simp only [warn, returns_bind, returns_location, returns_modify, returns_read] at hr
  obtain ⟨l, t, ⟨-, rfl⟩, u, t, rfl, e, t, ⟨-, rfl⟩, hr⟩ := hr
  obtain ⟨hn, hs, ho⟩ := quiet_record hr
  exact ⟨hn, hs, ho⟩

/-! ### Names -/

/-- A name that the supply gives is held until a node defines it. -/
theorem Computes.generate (hc : N → candidate ≠ "") (hs : s' = { s with names := (s.names.generate candidate).2 })
    (hn : h'.names.Perm ((s.names.generate candidate).1 :: h.names)) (hp : h'.parts = h.parts) :
    Computes N s h s' h' := by
  set name := (s.names.generate candidate).1 with hname
  have hused : s'.names.used = name :: s.names.used := by rw [hs]; exact Names.used_generate _ _
  have hfree : name ∉ s.names.used := Names.generate_notMem _ _
  have hscopes : s'.scopes = s.scopes := by rw [hs]
  have hcur : s'.current = s.current := by unfold State.current; rw [hscopes]
  have ht : ∀ x, s'.tally h' x = s.tally h x + if name = x then 1 else 0 := by
    intro x
    simp only [State.tally, Held.tally, hcur, hp, hn.count_eq, count_cons, beq_iff_eq]
    omega
  exact {
    depth := by rw [hscopes]
    around := by unfold State.around; rw [hscopes]
    used := fun x hx => by rw [hused]; exact mem_cons_of_mem _ hx
    nodes := by rw [hcur]
    nested := by rw [hcur]
    values := fun x hx => by rwa [hcur]
    opset := fun o ho => by rw [hs]; exact ho
    taken := by
      rintro - ⟨hv, hh⟩
      unfold State.Taken
      rw [hscopes, hused]
      refine ⟨fun x hx => mem_cons_of_mem _ (hv x hx), fun x hx => ?_⟩
      rcases mem_cons.1 (hn.subset hx) with rfl | hx
      · exact mem_cons_self
      · exact mem_cons_of_mem _ (hh x hx)
    tally_le_succ := by
      intro x
      rw [ht]
      split <;> omega
    tally_le := by
      intro x hx
      rw [ht, if_neg, Nat.add_zero]
      rintro rfl
      rcases hx with hx | hx | ⟨hnamed, hx⟩
      · exact hfree hx
      · exact hx (by rw [hused]; exact mem_cons_self)
      · exact Names.generate_ne_empty s.names (hc hnamed) hx
    built := fun inner hin hb => ⟨inner, fun _ hg => hg, fun g hg => hin g (hp ▸ hg), by rwa [hcur]⟩
    shaped := fun hs hh => ⟨by rwa [hcur], fun g hg => hh g (hp ▸ hg)⟩
    bindings := by unfold State.bindings; rw [hscopes]
    params := by rw [hcur]
    outputs := by rw [hcur] }

theorem returns_fresh : Returns (fresh candidate) env s x s' ↔
    (s.names.generate candidate).1 = x ∧ { s with names := (s.names.generate candidate).2 } = s' := by
  simp [fresh]

/-- **Taking a name**: it was free, it is taken afterwards, and it is held. -/
theorem computes_fresh (hr : Returns (fresh candidate) env s x s') (hc : N → candidate ≠ "") (h : Held) :
    Computes N s h s' ⟨x :: h.names, h.parts⟩ ∧ x ∉ s.names.used ∧ x ∈ s'.names.used := by
  obtain ⟨rfl, rfl⟩ := returns_fresh.1 hr
  refine ⟨.generate hc rfl (.refl _) rfl, Names.generate_notMem _ _, ?_⟩
  change _ ∈ (s.names.generate candidate).2.used
  rw [Names.used_generate]
  exact mem_cons_self

/-! ### The innermost scope -/

/-- The innermost scope is changed to have that function and these bindings. -/
structure Edits (s : State) (fn : GraphFunction) (bindings : List (String × Binding)) (s' : State) : Prop where
  opened : s.scopes ≠ []
  depth : s'.scopes.length = s.scopes.length
  current : s'.current = fn
  bindings : s'.bindings = bindings
  around : s'.around = s.around
  names : s'.names = s.names
  opset : s'.defaultOpset = s.defaultOpset

theorem edits_modifyFunction {g : GraphFunction → GraphFunction} (hr : Returns (modifyFunction g) env s u s') :
    Edits s (g s.current) s.bindings s' := by
  simp only [modifyFunction, returns_bind, returns_get, returns_lift, returns_modify] at hr
  obtain ⟨t, t', ⟨rfl, rfl⟩, scopes, t', ⟨hm, rfl⟩, rfl⟩ := hr
  cases hs : s.scopes with
  | nil =>
    rw [hs] at hm
    cases hm
  | cons f rest =>
    rw [hs] at hm
    cases hm
    refine ⟨by rw [hs]; simp, by rw [hs]; rfl, ?_, ?_, ?_, rfl, rfl⟩
    · simp [State.current, hs]
    · simp [State.bindings, hs]
    · simp [State.around, hs]

theorem edits_bind (hr : Returns (bind name b) env s u s') : Edits s s.current (Members.set s.bindings name b) s' := by
  simp only [bind, returns_bind, returns_get, returns_lift, returns_modify] at hr
  obtain ⟨t, t', ⟨rfl, rfl⟩, scopes, t', ⟨hm, rfl⟩, v, t₁, rfl, hr⟩ := hr
  have q : Quiet { s with scopes } s' := by
    split at hr
    · exact quiet_trace hr
    · cases hr
      exact ⟨rfl, rfl, rfl⟩
  have hq : s'.scopes = scopes := q.scopes
  cases hs : s.scopes with
  | nil =>
    rw [hs] at hm
    cases hm
  | cons f rest =>
    rw [hs] at hm
    cases hm
    refine ⟨by rw [hs]; simp, by rw [hq, hs]; rfl, ?_, ?_, ?_, q.names, q.opset⟩
    · simp [State.current, hq, hs]
    · simp [State.bindings, hq, hs]
    · simp [State.around, hq, hs]

namespace Edits

variable {bs : List (String × Binding)}

theorem opened' (e : Edits s fn bs s') : s'.scopes ≠ [] := by
  intro h0
  have := e.depth
  rw [h0] at this
  exact e.opened (eq_nil_of_length_eq_zero this.symm)

theorem lookup (e : Edits s fn s.bindings s') (x : String) : s'.scopes.lookup x = s.scopes.lookup x := by
  rw [State.lookup_eq e.opened, State.lookup_eq e.opened', e.bindings, e.around]

/-- A change of the innermost function is growth if it adds what is held, once, and uses values that exist. -/
theorem grows (e : Edits s fn bs s') (hnodes : s.current.nodes <+: fn.nodes)
    (hnested : s.current.nested <+: fn.nested)
    (hvalues : ∀ x ∈ s.current.values, x ∈ fn.values)
    (hheld : ∀ x, x ∈ fn.values ∨ x ∈ h'.names → x ∈ s.current.values ∨ x ∈ h.names)
    (hparts : ∀ g ∈ h'.parts, g ∈ h.parts)
    (htally : ∀ x, fn.tally x + h'.tally x ≤ s.current.tally x + h.tally x)
    (hbuilt : ∀ inner, (∀ g ∈ h.parts, g ∈ inner) → s.current.Built s.around.surroundings inner →
      fn.Built s.around.surroundings inner)
    (hshaped : s.current.Shaped → (∀ g ∈ h.parts, g.Shaped) → fn.Shaped) : Grows N s h s' h' where
  depth := e.depth
  around := e.around
  used := fun x hx => by rwa [e.names]
  nodes := by rwa [e.current]
  nested := by rwa [e.current]
  values := by rwa [e.current]
  opset := fun o ho => by rw [e.opset, ho]
  taken := by
    rintro - ⟨hv, hh⟩
    have hold : ∀ x, x ∈ fn.values ∨ x ∈ h'.names → x ∈ s'.names.used := by
      intro x hx
      rw [e.names]
      rcases hheld x hx with hx | hx
      · exact hv x (State.visible_of_current e.opened hx)
      · exact hh x hx
    refine ⟨fun x hx => ?_, fun x hx => hold x (.inr hx)⟩
    rw [State.visible_eq e.opened', e.current, e.around] at hx
    rcases mem_append.1 hx with hx | hx
    · exact hold x (.inl hx)
    · rw [e.names]
      exact hv x (by rw [State.visible_eq e.opened]; exact mem_append_right _ hx)
  tally_le_succ := fun x => by
    simp only [State.tally, e.current]
    have := htally x
    omega
  tally_le := fun x _ => by
    simp only [State.tally, e.current]
    exact htally x
  built := fun inner hin hb => ⟨inner, fun _ hg => hg, fun g hg => hin g (hparts g hg), by
    rw [e.current]
    exact hbuilt inner hin hb⟩
  shaped := fun hs hh => ⟨by rw [e.current]; exact hshaped hs hh, fun g hg => hh g (hparts g hg)⟩

theorem grows_note (e : Edits s fn bs s') (hn : fn.nodes = s.current.nodes) (hs : fn.nested = s.current.nested)
    (hvalues : ∀ x ∈ s.current.values, x ∈ fn.values)
    (hheld : ∀ x ∈ fn.values, x ∈ s.current.values ∨ x ∈ h.names)
    (hbuilt : ∀ inner, s.current.Built s.around.surroundings inner → fn.Built s.around.surroundings inner) :
    Grows N s h s' h := by
  refine e.grows (by rw [hn]) (by rw [hs]) hvalues ?_ (fun _ hg => hg) ?_ (fun inner _ => hbuilt inner) ?_
  · exact fun x hx => hx.elim (hheld x) .inr
  · exact fun x => by rw [GraphFunction.tally_congr hn hs]
  · exact fun hshape _ => hshape.congr hn hs

theorem bound (e : Edits s fn bs s') (hb : s.scopes.Bound) (hv : ∀ x ∈ s.current.values, x ∈ fn.values)
    (hn : ∀ g ∈ s.current.nested, g ∈ fn.nested)
    (hbs : ∀ x b, Members.get? bs x = some b → Members.get? s.bindings x = some b ∨ s'.scopes.surroundings.Has b) :
    s'.scopes.Bound := by
  rw [State.bound_iff e.opened] at hb
  rw [State.bound_iff e.opened', e.bindings, e.around]
  refine ⟨fun x b hx => (hbs x b hx).elim (fun hx => ?_) id, hb.2⟩
  refine (hb.1 x b hx).mono (fun y hy => ?_) fun g hg => ?_
  · change y ∈ s.scopes.visible at hy
    change y ∈ s'.scopes.visible
    rw [State.visible_eq e.opened] at hy
    rw [State.visible_eq e.opened', e.current, e.around]
    exact (mem_append.1 hy).elim (fun h1 => mem_append_left _ (hv y h1)) (mem_append_right _)
  · rw [surroundings_eq e.opened] at hg
    rw [surroundings_eq e.opened', e.current, e.around]
    exact (mem_append.1 hg).elim (fun h1 => mem_append_left _ (hn g h1)) (mem_append_right _)

end Edits

/-! ### Nodes, bindings and declarations -/

theorem values_emit (hr : Returns (emit n) env s u s') : s'.current.values = s.current.values ++ n.outputs := by
  rw [(edits_modifyFunction hr).current, GraphFunction.values_addNode]

theorem nodes_emit (hr : Returns (emit n) env s u s') : s'.current.nodes = s.current.nodes ++ [n] := by
  rw [(edits_modifyFunction hr).current]
  rfl

/-- **Emitting a node**: it defines names that were held, from values that are visible. -/
theorem computes_emit (hr : Returns (emit n) env s u s') (hin : ∀ x ∈ n.inputs, s.Sees x)
    (hnames : h.names.Perm (n.defines ++ h'.names)) (hparts : h.parts.Perm (n.blocks ++ h'.parts)) (hshape : n.Shaped)
    (hgraphs : GraphFunction.HasGraphs (n.blocks ++ s.scopes.surroundings.functions) n.attributes) :
    Computes N s h s' h' := by
  have e := edits_modifyFunction hr
  have hblocks : ∀ b ∈ n.blocks, b ∈ h.parts := fun b hb => hparts.symm.subset (mem_append_left _ hb)
  refine ⟨e.grows (prefix_append _ _) prefix_rfl ?_ ?_ ?_ ?_ ?_ ?_, e.bindings, ?_, ?_⟩
  · intro x hx
    rw [GraphFunction.values_addNode]
    exact mem_append_left _ hx
  · intro x hx
    rw [GraphFunction.values_addNode, mem_append] at hx
    rcases hx with (hx | hx) | hx
    · exact .inl hx
    · exact .inr (hnames.symm.subset (mem_append_left _ (mem_append_left _ hx)))
    · exact .inr (hnames.symm.subset (mem_append_right _ hx))
  · exact fun g hg => hparts.symm.subset (mem_append_right _ hg)
  · intro x
    rw [GraphFunction.tally_addNode]
    simp only [Held.tally, hnames.count_eq, (hparts.map _).sum_eq, count_append, map_append,
      sum_append]
    omega
  · intro inner hinner hb
    refine .node n hb (fun x hx => ?_) (fun b hb => hinner b (hblocks b hb)) ?_
    · rw [← surroundings_eq e.opened]
      exact hin x hx
    · rwa [← surroundings_eq e.opened]
  · exact fun hs hh => hs.addNode hshape fun b hb => hh b (hblocks b hb)
  · rw [e.current]
    rfl
  · rw [e.current]
    rfl

theorem returns_requireDefaultOpset {o : Opset} :
    Returns requireDefaultOpset env s o s' ↔ s.defaultOpset = some o ∧ s = s' := by
  simp only [requireDefaultOpset, returns_bind, returns_get]
  constructor
  · rintro ⟨t, t', ⟨rfl, rfl⟩, hr⟩
    split at hr
    · rename_i o' ho
      cases hr
      exact ⟨ho, rfl⟩
    · exact absurd hr returns_throw
  · rintro ⟨ho, rfl⟩
    refine ⟨s, s, ⟨rfl, rfl⟩, ?_⟩
    rw [ho]
    exact returns_pure.2 ⟨rfl, rfl⟩

theorem returns_defaultOp {op : Op} :
    Returns (defaultOp name) env s op s' ↔ ∃ o, s.defaultOpset = some o ∧ o.op name = op ∧ s = s' := by
  simp only [defaultOp, returns_bind, returns_requireDefaultOpset, returns_pure]
  constructor
  · rintro ⟨o, t, ⟨ho, rfl⟩, hop, rfl⟩
    exact ⟨o, ho, hop, rfl⟩
  · rintro ⟨o, ho, hop, rfl⟩
    exact ⟨o, s, ⟨ho, rfl⟩, hop, rfl⟩

theorem returns_emitDefault :
    Returns (emitDefault outputs name inputs attributes) env s u s' ↔
    ∃ o, s.defaultOpset = some o ∧
      Returns (emit { outputs, op := opName (o.op name), inputs, attributes }) env s u s' := by
  simp only [emitDefault, returns_bind, returns_defaultOp]
  constructor
  · rintro ⟨op, t, ⟨o, ho, rfl, rfl⟩, hr⟩
    exact ⟨o, ho, hr⟩
  · rintro ⟨o, ho, hr⟩
    exact ⟨_, s, ⟨o, ho, rfl, rfl⟩, hr⟩

theorem computes_emit_plain (hr : Returns (emit n) env s u s') (hb : n.blocks = []) (hin : ∀ x ∈ n.inputs, s.Sees x)
    (h : Held) (hgraphs : GraphFunction.HasGraphs s.scopes.surroundings.functions n.attributes := by
      simp [GraphFunction.HasGraphs]) :
    Computes N s ⟨n.outputs ++ h.names, h.parts⟩ s' h ∧ ∀ x ∈ n.outputs, x ∈ s'.scopes.visible := by
  have e := edits_modifyFunction hr
  refine ⟨computes_emit hr hin ?_ ?_ (.plain hb) ?_, fun x hx => ?_⟩
  · simp [GraphNode.defines, hb]
  · simp [hb]
  · rwa [hb]
  · refine State.visible_of_current e.opened' ?_
    rw [values_emit hr]
    exact mem_append_right _ hx

theorem computes_emitDefault (hr : Returns (emitDefault outputs name inputs attributes) env s u s')
    (hin : ∀ x ∈ inputs, s.Sees x) (h : Held)
    (hplain : GraphFunction.HasGraphs [] attributes := by simp [GraphFunction.HasGraphs]) :
    Computes N s ⟨outputs ++ h.names, h.parts⟩ s' h ∧ ∀ x ∈ outputs, x ∈ s'.scopes.visible := by
  obtain ⟨o, -, hr⟩ := returns_emitDefault.1 hr
  exact computes_emit_plain hr rfl hin h (hplain.mono (by simp))

theorem grows_bind (hr : Returns (bind name b) env s u s') : Grows N s h s' h :=
  (edits_bind hr).grows_note rfl rfl (fun _ hx => hx) (fun _ hx => .inl hx) fun _ hb => hb

theorem bound_bind (hr : Returns (bind name b) env s u s') (hb : s.scopes.Bound) (hv : s.scopes.surroundings.Has b) :
    s'.scopes.Bound := by
  have e := edits_bind hr
  refine e.bound hb (fun _ hx => hx) (fun _ hg => hg) fun x b' hx => ?_
  rw [Members.get?_set] at hx
  split at hx
  · cases hx
    rw [surroundings_eq e.opened] at hv
    rw [surroundings_eq e.opened', e.current, e.around]
    exact .inr hv
  · exact .inl hx

theorem grows_addOutput {type : Option DeclaredType} (hr : Returns (modifyFunction (·.addOutput name type)) env s u s')
    (hv : name ∈ s.scopes.visible) : Grows N s h s' h := by
  have e := edits_modifyFunction hr
  refine e.grows_note rfl rfl (fun _ hx => hx) (fun _ hx => .inl hx) fun inner hb => .output ⟨name, type⟩ hb ?_
  rwa [← surroundings_eq e.opened]

/-! ### Opening and closing a scope -/

/-- A scope with an empty function is opened. -/
structure Enters (s : State) (name domain : String) (s' : State) : Prop where
  scopes : s'.scopes = { name, fn := { name, domain } } :: s.scopes
  names : s'.names = s.names
  opset : s'.defaultOpset = s.defaultOpset

theorem enters_enter (hr : Returns (enter name domain) env s u s') : Enters s name domain s' := by
  simp only [enter, returns_bind, returns_modify, returns_get] at hr
  obtain ⟨v, t, rfl, t₁, t₂, ⟨-, rfl⟩, hr⟩ := hr
  have q := quiet_trace hr
  exact ⟨q.scopes, q.names, q.opset⟩

/-- The innermost scope is closed with the function that was built in it. -/
structure Leaves (s : State) (fn : GraphFunction) (s' : State) : Prop where
  opened : s.scopes ≠ []
  fn : fn = s.current
  scopes : s'.scopes = s.around
  names : s'.names = s.names
  opset : s'.defaultOpset = s.defaultOpset

theorem leaves_leave (hr : Returns leave env s fn s') : Leaves s fn s' := by
  simp only [leave, returns_bind, returns_get, returns_lift, returns_modify, returns_pure] at hr
  obtain ⟨t, t', ⟨rfl, rfl⟩, ⟨f, rest⟩, t', ⟨hpop, rfl⟩, u, t₁, rfl, v, t₂, htrace, rfl, rfl⟩ := hr
  have q := quiet_trace htrace
  cases hs : s.scopes with
  | nil =>
    rw [hs] at hpop
    cases hpop
  | cons f' rest' =>
    rw [hs] at hpop
    cases hpop
    refine ⟨by rw [hs]; simp, by simp [State.current, hs], ?_, q.names, q.opset⟩
    rw [q.scopes]
    simp [State.around, hs]

namespace Enters

theorem current (e : Enters s name domain s') : s'.current = { name, domain } := by
  unfold State.current
  rw [e.scopes]

theorem around (e : Enters s name domain s') : s'.around = s.scopes := by
  unfold State.around
  rw [e.scopes]
  rfl

theorem tally (e : Enters s name domain s') (x : String) : s'.current.tally x = 0 := by
  rw [e.current, GraphFunction.tally_eq]
  rfl

theorem visible (e : Enters s name domain s') : s'.scopes.visible = s.scopes.visible := by
  rw [e.scopes]
  rfl

theorem good (e : Enters s name domain s') (hb : s.scopes.Bound) (ht : ∀ x ∈ s.scopes.visible, x ∈ s.names.used) :
    s'.Good := by
  refine ⟨by rw [e.scopes]; simp, ?_, ?_, by simp⟩
  · rw [e.scopes]
    exact ⟨by simp [Members.get?], hb⟩
  · rw [e.visible, e.names]
    exact ht

end Enters

theorem Leaves.scopes_eq (l : Leaves s₁ fn s') (b : Grows N s₀ h s₁ h') (e : Enters s name domain s₀) :
    s'.scopes = s.scopes := by
  rw [l.scopes, b.around, e.around]

/-- **What is built in a scope of its own** is held when the scope is closed, and the scopes around are as before. -/
theorem Computes.scope (e : Enters s name domain s₀) (b : Grows N s₀ {} s₁ ⟨names, []⟩) (l : Leaves s₁ fn s')
    (hs : s.scopes ≠ []) : Computes N s {} s' ⟨names, [fn]⟩ := by
  have hscopes : s'.scopes = s.scopes := l.scopes_eq b e
  have hc : s'.current = s.current := by unfold State.current; rw [hscopes]
  have ha : s'.around = s.around := by unfold State.around; rw [hscopes]
  have hempty : ∀ x, s₀.tally {} x = 0 := by
    intro x
    rw [State.tally, e.tally]
    rfl
  have htally : ∀ x, s'.tally ⟨names, [fn]⟩ x = s.tally {} x + s₁.tally ⟨names, []⟩ x := by
    intro x
    simp only [State.tally, hc, Held.tally, l.fn, map_cons, map_nil, sum_cons, sum_nil,
      count_nil]
    omega
  exact {
    depth := by rw [hscopes]
    around := ha
    used := fun x hx => by rw [l.names]; exact b.used x (by rwa [e.names])
    nodes := by rw [hc]
    nested := by rw [hc]
    values := fun x hx => by rwa [hc]
    opset := fun o ho => by rw [l.opset]; exact b.opset o (by rwa [e.opset])
    taken := by
      rintro - ⟨hv, -⟩
      obtain ⟨h1, h2⟩ := b.taken (by rw [e.scopes]; simp) ⟨by rw [e.visible, e.names]; exact hv, by simp⟩
      refine ⟨fun x hx => ?_, by rw [l.names]; exact h2⟩
      rw [hscopes] at hx
      rw [l.names]
      exact b.used x (by rw [e.names]; exact hv x hx)
    tally_le_succ := by
      intro x
      have := b.tally_le_succ x
      rw [hempty] at this
      rw [htally]
      omega
    tally_le := by
      intro x hx
      rw [← e.names, l.names] at hx
      have := b.tally_le x hx
      rw [hempty] at this
      rw [htally]
      omega
    built := by
      intro inner _ hb
      obtain ⟨within, -, -, hfn⟩ := b.built [] (by simp) (by rw [e.current]; exact .start _ _ _)
      rw [e.around, surroundings_eq hs, ← l.fn] at hfn
      exact ⟨fn :: inner, fun g hg => mem_cons_of_mem _ hg, by simp, by rw [hc]; exact .inside hb hfn⟩
    shaped := by
      intro hs _
      have h0 : s₀.current.Shaped := by
        rw [e.current, GraphFunction.shaped_iff]
        simp
      refine ⟨by rwa [hc], fun g hg => ?_⟩
      obtain rfl := mem_singleton.1 hg
      rw [l.fn]
      exact (b.shaped h0 (by simp)).1
    bindings := by unfold State.bindings; rw [hscopes]
    params := by rw [hc]
    outputs := by rw [hc] }

end OpGraph.Lowering
