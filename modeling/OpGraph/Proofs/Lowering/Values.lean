import OpGraph.Proofs.Lowering.Steps
import OpGraph.Proofs.Promotion

/-!
Steps that give a graph value: copies, constants, the values of names, and promoted arguments. Each computes without
holding anything at the end, and its result is visible.
-/

namespace OpGraph.Lowering

open List
open Promotion (addOperand operandType)

variable {N : Prop} {env : Env} {s s' : State}
variable {schema : Option (List Formal)} {pairs : List (Operand × Option Operand)}
variable {b : Binding} {args : List Operand} {inputs : List String} {pos : Position} {candidate name x : String}
variable {casts : List CastLike} {done : List Operand} {c : Promotion.Casts} {s₁ : State}

/-- Steps that compute a visible value from any good state. -/
def Yields (N : Prop) (m : Lower Operand) : Prop :=
  ∀ ⦃env : Env⦄ ⦃s : State⦄ ⦃x : Operand⦄ ⦃s' : State⦄, s.Good → Returns m env s x s' →
    Computes N s {} s' {} ∧ x.name ∈ s'.scopes.visible

/-- A value that was computed in between: its name was free, and a node of the innermost function writes it. -/
structure Fresh (s : State) (x : String) (s' : State) : Prop where
  free : x ∉ s.names.used
  assigned : x ∈ s'.current.assigned

theorem Fresh.of_grows {h h₁ : Held} (f : Fresh s₁ x s') (a : Grows N s h s₁ h₁) : Fresh s x s' :=
  ⟨fun hx => f.free (a.used x hx), f.assigned⟩

theorem Fresh.visible (f : Fresh s x s') (hs : s'.scopes ≠ []) : x ∈ s'.scopes.visible :=
  State.visible_of_current hs (mem_append_right _ f.assigned)

theorem computes_fresh_emitDefault {attributes : List NodeAttribute} {u : Unit}
    (hf : Returns (fresh candidate) env s x s₁) (he : Returns (emitDefault [x] name inputs attributes) env s₁ u s')
    (hc : N → candidate ≠ "") (hin : ∀ y ∈ inputs, s₁.Sees y)
    (hplain : GraphFunction.HasGraphs [] attributes := by simp [GraphFunction.HasGraphs]) :
    Computes N s {} s' {} ∧ Fresh s x s' := by
  obtain ⟨c1, hfree, -⟩ := computes_fresh hf hc {}
  refine ⟨c1.trans (computes_emitDefault he hin {} hplain).1, hfree, ?_⟩
  obtain ⟨o, -, he⟩ := returns_emitDefault.1 he
  simp [GraphFunction.assigned, nodes_emit he]

theorem computes_copy {value : String} (hr : Returns (copy value candidate) env s x s') (hg : s.Good)
    (hv : s.Sees value) (hc : N → candidate ≠ "") : Computes N s {} s' {} ∧ Fresh s x s' := by
  simp only [copy, returns_bind, returns_pure] at hr
  obtain ⟨name, s₁, hf, u, s₂, he, rfl, rfl⟩ := hr
  have hsees := (computes_fresh hf hc {}).1.sees hg.opened hv
  exact computes_fresh_emitDefault hf he hc (forall_mem_singleton.2 hsees)

theorem constantName_ne_empty (v : Literal) : constantName v ≠ "" := by
  have hint : ∀ i : Int, constantName.integerName i ≠ "" := by
    intro i h
    have := congrArg String.length h
    unfold constantName.integerName at this
    split at this
    all_goals
      simp only [String.length_append, String.length_empty, Nat.add_eq_zero_iff] at this
      exact absurd this.1 (by decide)
  intro h
  unfold constantName at h
  split at h
  · exact hint _ h
  · exact hint _ (String.append_eq_empty_iff.1 h).1
  · simp at h

theorem getD_ne_empty {candidate : Option String} (hc : candidate ≠ some "") (hn : name ≠ "") :
    candidate.getD name ≠ "" := by
  cases candidate with
  | none => exact hn
  | some c => exact fun h => hc (congrArg some h)

theorem computes_constant {v : Literal} {candidate : Option String} {x : Operand}
    (hr : Returns (constant v candidate pos) env s x s') (hc : N → candidate ≠ some "") :
    Computes N s {} s' {} ∧ Fresh s x.name s' := by
  simp only [constant, returns_bind, returns_pure, returns_liftAt] at hr
  obtain ⟨name, s₁, hf, tensor, s₂, ⟨-, rfl⟩, u, s₃, he, rfl, rfl⟩ := hr
  exact computes_fresh_emitDefault hf he (fun hn => getD_ne_empty (hc hn) (constantName_ne_empty v)) (by simp)

theorem computes_attributeValue {param : String} {type : DeclaredType} {x : Operand}
    (hr : Returns (attributeValue param type candidate pos) env s x s') (hg : s.Good) (hc : N → candidate ≠ "") :
    Computes N s {} s' {} ∧ Fresh s x.name s' := by
  unfold attributeValue at hr
  split at hr
  · cases hr
  · simp only [returns_bind] at hr
    obtain ⟨name, s₁, hf, u, s₂, he, hr⟩ := hr
    obtain ⟨c1, f1⟩ := computes_fresh_emitDefault (N := N) hf he hc (by simp)
      (by simp [GraphFunction.HasGraphs, Interchange.Attribute.reference])
    split at hr
    · simp only [returns_bind, returns_pure] at hr
      obtain ⟨cast, s₃, hf', u', s₄, he', rfl, rfl⟩ := hr
      obtain ⟨c2, f2⟩ := computes_fresh_emitDefault (N := N) hf' he' (fun _ => by simp) (by
        refine forall_mem_singleton.2 ((computes_fresh (N := False) hf' (fun h => h.elim) {}).1.sees (c1.good hg).opened (.inr ?_))
        exact f1.visible (c1.good hg).opened)
      exact ⟨c1.trans c2, f2.of_grows c1.toGrows⟩
    · cases hr
      exact ⟨c1, f1⟩

/-! ### Values of names -/

/-- The value of a binding is the one it is bound to, or a new one. -/
theorem computes_operandOf {x : Operand} (hr : Returns (operandOf b name pos) env s x s') (hg : s.Good)
    (hc : N → name ≠ "") : Computes N s {} s' {} ∧ ((∃ p t, b = .graph x.name p t ∧ s' = s) ∨ Fresh s x.name s') := by
  unfold operandOf at hr
  split at hr
  · exact (computes_attributeValue hr hg hc).imp_right .inr
  · rename_i value provenance type
    cases hr
    exact ⟨.refl N s {}, .inl ⟨provenance, type, rfl, rfl⟩⟩
  · cases hr
  · split at hr
    · exact (computes_constant hr fun hn h => hc hn (Option.some.inj h)).imp_right .inr
    · cases hr

theorem returns_lookup? {b : Option Binding} : Returns (lookup? name) env s b s' ↔
    (s.scopes.lookup name).or ((Members.get? env.globals name).map .value) = b ∧ s = s' := by
  simp only [lookup?, returns_bind, returns_get]
  constructor
  · rintro ⟨t, t', ⟨rfl, rfl⟩, hr⟩
    split at hr
    · rename_i b' hb
      cases hr
      rw [hb]
      exact ⟨rfl, rfl⟩
    · rename_i hb
      simp only [returns_bind, returns_read, returns_pure] at hr
      obtain ⟨e, t, ⟨rfl, rfl⟩, rfl, rfl⟩ := hr
      rw [hb]
      exact ⟨rfl, rfl⟩
  · rintro ⟨rfl, rfl⟩
    refine ⟨s, s, ⟨rfl, rfl⟩, ?_⟩
    cases hb : s.scopes.lookup name <;> simp

theorem returns_lookup {name : String} {pos : Position} {b : Binding} : Returns (lookup name pos) env s b s' ↔
    (s.scopes.lookup name).or ((Members.get? env.globals name).map .value) = some b ∧ s = s' := by
  simp only [lookup, returns_bind, returns_lookup?]
  constructor
  · rintro ⟨b', t, ⟨hb, rfl⟩, hr⟩
    split at hr
    · cases hr
      exact ⟨hb, rfl⟩
    · cases hr
  · rintro ⟨hb, rfl⟩
    exact ⟨some b, s, ⟨hb, rfl⟩, returns_pure.2 ⟨rfl, rfl⟩⟩

theorem has_of_lookup (hg : s.Good)
    (hb : (s.scopes.lookup name).or ((Members.get? env.globals name).map .value) = some b) :
    s.scopes.surroundings.Has b := by
  rcases Option.or_eq_some_iff.1 hb with hb | ⟨-, hb⟩
  · exact hg.bound.lookup hb
  · obtain ⟨w, -, rfl⟩ := Option.map_eq_some_iff.1 hb
    trivial

theorem returns_operandOfName {x : Operand} (hl : s.scopes.lookup name = some b) :
    Returns (operandOfName name pos) env s x s' ↔ Returns (operandOf b name pos) env s x s' := by
  simp only [operandOfName, returns_bind, returns_lookup, hl, Option.some_or]
  constructor
  · rintro ⟨b', t, ⟨hb, rfl⟩, hr⟩
    cases hb
    exact hr
  · exact fun hr => ⟨b, s, ⟨rfl, rfl⟩, hr⟩

theorem yields_operandOfName (hc : N → name ≠ "") : Yields N (operandOfName name pos) := by
  intro env s x s' hg hr
  simp only [operandOfName, returns_bind, returns_lookup] at hr
  obtain ⟨b, t, ⟨hb, rfl⟩, hr⟩ := hr
  obtain ⟨c, ⟨p, t, rfl, rfl⟩ | f⟩ := computes_operandOf (N := N) hr hg hc
  · exact ⟨c, has_of_lookup hg hb⟩
  · exact ⟨c, f.visible (c.good hg).opened⟩

/-! ### Promoted arguments -/

theorem mem_of_assign
    (hp : Promotion.assign operandType schema args = .ok pairs) :
    ∀ p ∈ pairs, p.1 ∈ args ∧ ∀ y, p.2 = some y → y ∈ args ∧ y.isConst = false ∧ y.name ≠ "" := by
  intro p hmem
  refine ⟨Promotion.fst_of_assign hp ▸ mem_map_of_mem hmem, fun y hy => ?_⟩
  obtain ⟨z, hz, hzy⟩ := Promotion.exists_of_assign hp hmem hy
  unfold operandType at hzy
  split at hzy
  · cases hzy
  · rename_i hknown
    cases hzy
    exact ⟨hz, by simp_all⟩

theorem exists_of_forall₂ {α β : Type} {R : α → β → Prop} {ys : List β} {y : β} (hy : y ∈ ys) :
    ∀ {xs : List α}, Forall₂ R xs ys → ∃ x ∈ xs, R x y := by
  induction ys with
  | nil => exact absurd hy not_mem_nil
  | cons z ys ih =>
    intro xs h
    obtain ⟨x, xs, hx, hrest, rfl⟩ := forall₂_cons_right_iff.1 h
    rcases mem_cons.1 hy with rfl | hy
    · exact ⟨x, mem_cons_self, hx⟩
    · obtain ⟨w, hw, hwy⟩ := ih hy hrest
      exact ⟨w, mem_cons_of_mem _ hw, hwy⟩

/-- An argument becomes an input as it is, or by a cast if it is a literal. -/
def BecomesInput (casts : List CastLike) (a : Operand) (x : String) : Prop :=
  a.name = x ∨ a.isConst ∧ ∃ k ∈ casts, k.input = a.name ∧ k.output = x

theorem BecomesInput.mono {casts' : List CastLike} {a : Operand} (h : BecomesInput casts a x)
    (hsub : ∀ k ∈ casts, k ∈ casts') : BecomesInput casts' a x :=
  h.imp_right fun ⟨hc, k, hk, h⟩ => ⟨hc, k, hsub k hk, h⟩

/-- What promotion has found for some of the arguments: a cast is one of a literal to the type of an argument that is
given, and each argument has become an input. -/
structure CastsOf (args done : List Operand) (c : Promotion.Casts) : Prop where
  casts : ∀ k ∈ c.casts, (∃ a ∈ args, a.name = k.input ∧ a.isConst) ∧ ∃ a ∈ args, a.name = k.like ∧ a.isConst = false ∧ a.name ≠ ""
  inputs : List.Forall₂ (BecomesInput c.casts) done c.inputs

theorem castsOf_addOperand {p : Operand × Option Operand} (hc : CastsOf args done c)
    (hp : p.1 ∈ args ∧ ∀ y, p.2 = some y → y ∈ args ∧ y.isConst = false ∧ y.name ≠ "") :
    CastsOf args (done ++ [p.1]) (addOperand c p) ∧
      Computes N { s with names := c.names } ⟨c.casts.map (·.output), []⟩
        { s with names := (addOperand c p).names }
        ⟨(addOperand c p).casts.map (·.output), []⟩ := by
  obtain ⟨x, y⟩ := p
  have hplain : CastsOf args (done ++ [x]) { c with inputs := c.inputs ++ [x.name] } :=
    ⟨hc.casts, rel_append hc.inputs (.cons (.inl rfl) .nil)⟩
  cases y with
  | none => exact ⟨hplain, .refl _ _ _⟩
  | some y =>
    by_cases hx : x.isConst
    · simp only [addOperand, hx, if_true]
      refine ⟨⟨fun k hk => ?_, rel_append (hc.inputs.imp fun a z h => ?_) (.cons (.inr ?_) .nil)⟩, ?_⟩
      · rcases mem_append.1 hk with hk | hk
        · exact hc.casts k hk
        · obtain rfl := mem_singleton.1 hk
          exact ⟨⟨x, hp.1, rfl, hx⟩, y, (hp.2 y rfl).1, rfl, (hp.2 y rfl).2⟩
      · exact h.mono fun k hk => mem_append_left _ hk
      · exact ⟨hx, _, mem_append_right _ mem_cons_self, rfl, rfl⟩
      · have hc : N → x.name ++ "_cast" ≠ "" := fun _ => by simp
        refine .generate hc rfl ?_ rfl
        simp only [map_append, map_cons, map_nil]
        exact perm_append_singleton _ _
    · simp only [addOperand, hx, Bool.false_eq_true, if_false]
      exact ⟨hplain, .refl _ _ _⟩

theorem castsOf_foldl (hc : CastsOf args done c)
    (hp : ∀ p ∈ pairs, p.1 ∈ args ∧ ∀ y, p.2 = some y → y ∈ args ∧ y.isConst = false ∧ y.name ≠ "") :
    CastsOf args (done ++ pairs.map Prod.fst) (pairs.foldl addOperand c) ∧
      Computes N { s with names := c.names } ⟨c.casts.map (·.output), []⟩
        { s with names := (pairs.foldl addOperand c).names }
        ⟨(pairs.foldl addOperand c).casts.map (·.output), []⟩ := by
  induction pairs generalizing done c with
  | nil =>
    rw [map_nil, append_nil]
    exact ⟨hc, .refl _ _ _⟩
  | cons p pairs ih =>
    obtain ⟨hc1, c1⟩ := castsOf_addOperand (N := N) (s := s) hc (hp p mem_cons_self)
    obtain ⟨hc2, c2⟩ := ih hc1 fun q hq => hp q (mem_cons_of_mem _ hq)
    rw [append_assoc] at hc2
    exact ⟨hc2, c1.trans c2⟩

/-- **The casts of a promotion**: each argument becomes an input, and the outputs of the casts are held. -/
theorem castsOf_assign
    (hp : Promotion.assign operandType schema args = .ok pairs) (s : State) {r : Promotion.Casts}
    (hr : r = pairs.foldl addOperand ⟨[], [], s.names⟩) :
    CastsOf args args r ∧ Computes N s {} { s with names := r.names } ⟨r.casts.map (·.output), []⟩ := by
  subst hr
  obtain ⟨hcasts, c⟩ := castsOf_foldl (N := N) (s := s) (c := ⟨[], [], s.names⟩)
    (⟨by simp, .nil⟩ : CastsOf args [] _) (mem_of_assign hp)
  rw [nil_append, Promotion.fst_of_assign hp] at hcasts
  exact ⟨hcasts, c⟩

theorem computes_casts {u : PUnit} (hr : Returns (forIn casts PUnit.unit fun c _ => do
      emitDefault [c.output] "CastLike" [c.input, c.like]
      pure (ForInStep.yield PUnit.unit)) env s u s') (hs : s.scopes ≠ [])
    (hsees : ∀ c ∈ casts, s.Sees c.input ∧ s.Sees c.like) :
    Computes N s ⟨casts.map (·.output), []⟩ s' {} ∧ ∀ c ∈ casts, c.output ∈ s'.scopes.visible := by
  induction casts generalizing s u with
  | nil =>
    cases hr
    exact ⟨.refl _ _ _, by simp⟩
  | cons c casts ih =>
    simp only [forIn_cons, bind_assoc, pure_bind, returns_bind] at hr
    obtain ⟨v, s₁, he, hr⟩ := hr
    obtain ⟨c1, hv⟩ := computes_emitDefault (N := N) he (forall_mem_cons.2
      ((hsees c mem_cons_self).imp_right forall_mem_singleton.2)) ⟨casts.map (·.output), []⟩
    have hs1 := c1.opened hs
    obtain ⟨c2, hall⟩ := ih hr hs1 fun k hk =>
      (hsees k (mem_cons_of_mem _ hk)).imp (c1.sees hs) (c1.sees hs)
    exact ⟨c1.trans c2, forall_mem_cons.2 ⟨c2.visible hs1 (hv _ mem_cons_self), hall⟩⟩

theorem returns_promote {schema : Option OpSchema} (hr : Returns (promote schema args) env s inputs s') : ∃ pairs r u,
      Promotion.assign operandType (schema.map (·.inputs)) args = .ok pairs ∧
      r = pairs.foldl addOperand ⟨[], [], s.names⟩ ∧ inputs = r.inputs ∧
      Returns (forIn r.casts PUnit.unit fun c _ => do
        emitDefault [c.output] "CastLike" [c.input, c.like]
        pure (ForInStep.yield PUnit.unit)) env { s with names := r.names } u s' := by
  simp only [promote, returns_bind, returns_get, returns_lift, returns_modify, returns_pure] at hr
  obtain ⟨t, t', ⟨rfl, rfl⟩, r, t', ⟨hof, rfl⟩, v, s₁, rfl, u, s₂, hfor, rfl, rfl⟩ := hr
  rw [Promotion.ofOperands_eq] at hof
  obtain ⟨pairs, hpairs, rfl⟩ := map_eq_ok.1 hof
  exact ⟨pairs, _, u, hpairs, rfl, rfl, hfor⟩

theorem computes_promote {schema : Option OpSchema} (hr : Returns (promote schema args) env s inputs s') (hg : s.Good)
    (hargs : ∀ a ∈ args, s.Sees a.name) : Computes N s {} s' {} ∧ ∀ x ∈ inputs, s'.Sees x := by
  obtain ⟨pairs, r, u, hpairs, hfold, rfl, hfor⟩ := returns_promote hr
  obtain ⟨hcasts, c1⟩ := castsOf_assign (N := N) hpairs s hfold
  have hsees : ∀ a ∈ args, State.Sees { s with names := r.names } a.name :=
    fun a ha => c1.sees hg.opened (hargs a ha)
  obtain ⟨c2, hv⟩ := computes_casts (N := N) hfor (c1.opened hg.opened) fun k hk => by
    obtain ⟨⟨a, ha, hin, -⟩, b, hb, hlike, -⟩ := hcasts.casts k hk
    rw [← hin, ← hlike]
    exact ⟨hsees a ha, hsees b hb⟩
  refine ⟨c1.trans c2, fun x hx => ?_⟩
  obtain ⟨a, ha, hax⟩ := exists_of_forall₂ hx hcasts.inputs
  rcases hax with rfl | ⟨-, k, hk, -, rfl⟩
  · exact c2.sees (c1.opened hg.opened) (hsees a ha)
  · exact .inr (hv k hk)

end OpGraph.Lowering
