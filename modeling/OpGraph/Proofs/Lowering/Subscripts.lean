import OpGraph.Proofs.Lowering.Values

/-!
Subscripts compute: if the parts of a subscript yield values, so does the subscript. Its result is held from the start
and written by the last node.
-/

namespace OpGraph.Lowering

open List

variable {N : Prop} {env : Env} {s s' : State} {pos : Position}
variable {i : Int} {base result x : String} {e : Expr} {h h' : Held} {value : Lower Operand} {P : Lower Operand → Prop}
variable {candidate : Option String} {is : List Index}

namespace Subscript

variable {cache : Cache} {bs : List Bounds} {ks : List Range} {b : Option Bound} {r : String × Cache}

/-! ### Parts -/

theorem returns_constantIndex? {i : Option Int} (hr : Returns (constantIndex? e) env s i s') : s = s' := by
  unfold constantIndex? at hr
  split at hr
  · simp only [returns_bind, returns_evalLiteral] at hr
    obtain ⟨v, t, ⟨-, rfl⟩, hr⟩ := hr
    split at hr <;> exact (returns_pure.1 hr).2
  · exact (returns_pure.1 hr).2

/-- The steps that lower the parts of an index have a property. A step of a range is always a literal. -/
def IndexEach (P : Lower Operand → Prop) : Index → Prop
  | .range l u _ => (∀ q, l = some q → P q.lower) ∧ ∀ q, u = some q → P q.lower
  | .point p => P p.lower

def BoundEach (P : Lower Operand → Prop) (b : Option Bound) : Prop :=
  ∀ p, b = some (.part p) → P p.lower

def RangeEach (P : Lower Operand → Prop) (r : Range) : Prop :=
  BoundEach P r.lower ∧ BoundEach P r.upper

theorem boundEach_known (P : Lower Operand → Prop) (i : Int) : BoundEach P (some (.known i)) := by
  intro p hp
  cases hp

theorem rangeEach_pointRange (P : Lower Operand → Prop) (axis : ℕ) (i : Int) : RangeEach P (pointRange axis i) :=
  ⟨boundEach_known P _, boundEach_known P _⟩

theorem boundEach_map {p : Option Part} (hp : ∀ q, p = some q → P q.lower) : BoundEach P (p.map .part) := by
  intro q hq
  obtain ⟨r, rfl, hr⟩ := Option.map_eq_some_iff.1 hq
  obtain rfl := Bound.part.inj hr
  exact hp r rfl

theorem each_classify {axis : ℕ} {r : List Range × List Point} (hr : Returns (classify axis is) env s r s')
    (hi : ∀ i ∈ is, IndexEach P i) : s = s' ∧ (∀ k ∈ r.1, RangeEach P k) ∧ ∀ p ∈ r.2, P p.part.lower := by
  induction is generalizing axis r with
  | nil =>
    rw [classify] at hr
    cases hr
    exact ⟨rfl, by simp, by simp⟩
  | cons i is ih =>
    have hrest : ∀ j ∈ is, IndexEach P j := fun j hj => hi j (mem_cons_of_mem _ hj)
    have hfirst := hi i mem_cons_self
    cases i with
    | point p =>
      simp only [classify, returns_bind, returns_pure] at hr
      obtain ⟨v, t, hv, q, t', hq, rfl, rfl⟩ := hr
      obtain rfl := returns_constantIndex? hv
      obtain ⟨rfl, h1, h2⟩ := ih hq hrest
      exact ⟨rfl, h1, forall_mem_cons.2 ⟨hfirst, h2⟩⟩
    | range l u st =>
      by_cases hnone : l = none ∧ u = none ∧ st = none
      · obtain ⟨rfl, rfl, rfl⟩ := hnone
        rw [classify] at hr
        exact ih hr hrest
      · rw [classify.eq_3 _ _ _ _ _ (by tauto)] at hr
        obtain ⟨q, t', hq, ⟨⟩⟩ := returns_bind.1 hr
        obtain ⟨rfl, h1, h2⟩ := ih hq hrest
        exact ⟨rfl, forall_mem_cons.2 ⟨⟨boundEach_map hfirst.1, boundEach_map hfirst.2⟩, h1⟩, h2⟩

/-! ### Bounds -/

/-- The constants that were emitted are visible. -/
def CacheVisible (s : State) (cache : Cache) : Prop :=
  ∀ c ∈ cache, c.2 ∈ s.scopes.visible

theorem CacheVisible.mono (hc : CacheVisible s cache) (a : Grows N s h s' h') (hs : s.scopes ≠ []) :
    CacheVisible s' cache :=
  fun c hmem => a.visible hs (hc c hmem)

theorem computes_constant1d (hr : Returns (constant1d pos i cache) env s r s') (hg : s.Good) (hc : CacheVisible s cache) :
    Computes N s {} s' {} ∧ r.1 ∈ s'.scopes.visible ∧ CacheVisible s' r.2 := by
  unfold constant1d at hr
  split at hr
  · rename_i j name hfind
    cases hr
    exact ⟨.refl _ _ _, hc _ (mem_of_find?_eq_some hfind), hc⟩
  · obtain ⟨x, t, hx, ⟨⟩⟩ := returns_bind.1 hr
    obtain ⟨c, f⟩ := computes_constant (N := N) hx (by simp)
    have hv := f.visible (c.opened hg.opened)
    have hold := fun k hk => c.visible hg.opened (hc k hk)
    exact ⟨c, hv, forall_mem_append.2 ⟨hold, forall_mem_singleton.2 hv⟩⟩

theorem returns_constantPart (hr : Returns (constantPart e) env s i s') : s = s' := by
  simp only [constantPart, returns_bind, returns_evalLiteral] at hr
  obtain ⟨v, t, ⟨-, rfl⟩, hr⟩ := hr
  split at hr
  · exact (returns_pure.1 hr).2
  · cases hr

theorem computes_boundValue {default : Int} (hr : Returns (boundValue pos b default cache) env s r s') (hg : s.Good)
    (hb : BoundEach (Yields N) b) (hc : CacheVisible s cache) :
    Computes N s {} s' {} ∧ r.1 ∈ s'.scopes.visible ∧ CacheVisible s' r.2 := by
  unfold boundValue at hr
  split at hr
  · exact computes_constant1d hr hg hc
  · exact computes_constant1d hr hg hc
  · rename_i p
    split at hr
    · obtain ⟨i, t, hi, hr⟩ := returns_bind.1 hr
      obtain rfl := returns_constantPart hi
      exact computes_constant1d hr hg hc
    · simp only [returns_bind, returns_defaultOp, returns_pure] at hr
      obtain ⟨x, s₁, hx, name, s₂, hf, op, s₂, ⟨o, -, -, rfl⟩, ⟨one, cache'⟩, s₃, h1, u, s₄, he, rfl, rfl⟩ := hr
      obtain ⟨c1, hxv⟩ := hb p rfl hg hx
      have hg1 := c1.good hg
      obtain ⟨c2, -, -⟩ := computes_fresh (N := N) hf (fun _ => by simp) {}
      have hg2 := (c2.good hg1).drop
      obtain ⟨c3, hone, hcache⟩ := computes_constant1d (N := N) h1 hg2
        ((hc.mono c1.toGrows hg.opened).mono c2.toGrows hg1.opened)
      have hs3 := c3.opened hg2.opened
      obtain ⟨c4, hv⟩ := computes_emit_plain (N := N) he rfl (forall_mem_cons.2
        ⟨.inr (c3.visible hg2.opened (c2.visible hg1.opened hxv)), forall_mem_singleton.2 (.inr hone)⟩) {}
      exact ⟨c1.trans (c2.trans ((c3.frame _).trans c4)), hv _ mem_cons_self, hcache.mono c4.toGrows hs3⟩

theorem returns_stepOf (hr : Returns (stepOf b) env s i s') : s = s' := by
  unfold stepOf at hr
  split at hr
  · exact (returns_pure.1 hr).2
  · exact (returns_pure.1 hr).2
  · split at hr
    · cases hr
    · obtain ⟨j, t, hj, hr⟩ := returns_bind.1 hr
      obtain rfl := returns_constantPart hj
      split at hr
      · cases hr
      · exact (returns_pure.1 hr).2

/-- The values of the bounds of a range are visible. -/
structure BoundsVisible (s : State) (b : Bounds) : Prop where
  start : b.start ∈ s.scopes.visible
  stop : b.stop ∈ s.scopes.visible
  axis : b.axis ∈ s.scopes.visible
  step : b.step ∈ s.scopes.visible

theorem BoundsVisible.mono {b : Bounds} (hb : BoundsVisible s b) (a : Grows N s h s' h') (hs : s.scopes ≠ []) :
    BoundsVisible s' b :=
  ⟨a.visible hs hb.start, a.visible hs hb.stop, a.visible hs hb.axis, a.visible hs hb.step⟩

theorem computes_rangeBounds {k : Range} {r : Bounds × Cache} (hr : Returns (rangeBounds pos k cache) env s r s')
    (hg : s.Good) (hk : RangeEach (Yields N) k) (hc : CacheVisible s cache) :
    Computes N s {} s' {} ∧ BoundsVisible s' r.1 ∧ CacheVisible s' r.2 := by
  simp only [rangeBounds, returns_bind, returns_pure] at hr
  obtain ⟨⟨axis, cache₁⟩, s₁, haxis, i, t, hi, ⟨step, cache₂⟩, s₂, hstep, ⟨start, cache₃⟩, s₃, hstart,
    ⟨stop, cache₄⟩, s₄, hstop, rfl, rfl⟩ := hr
  obtain ⟨c1, v1, k1⟩ := computes_constant1d (N := N) haxis hg hc
  obtain rfl := returns_stepOf hi
  have hg1 := c1.good hg
  obtain ⟨c2, v2, k2⟩ := computes_boundValue (N := N) hstep hg1 (boundEach_known _ _) k1
  have hg2 := c2.good hg1
  obtain ⟨c3, v3, k3⟩ := computes_boundValue hstart hg2 hk.1 k2
  have hg3 := c3.good hg2
  obtain ⟨c4, v4, k4⟩ := computes_boundValue hstop hg3 hk.2 k3
  have c34 := c3.trans c4
  have c24 := c2.trans c34
  exact ⟨c1.trans c24, ⟨c4.visible hg3.opened v3, v4, c24.visible hg1.opened v1, c34.visible hg2.opened v2⟩, k4⟩

theorem computes_allBounds (hr : Returns (allBounds pos ks cache) env s bs s') (hg : s.Good)
    (hk : ∀ k ∈ ks, RangeEach (Yields N) k) (hc : CacheVisible s cache) :
    Computes N s {} s' {} ∧ ∀ b ∈ bs, BoundsVisible s' b := by
  induction ks generalizing cache s bs with
  | nil =>
    rw [allBounds] at hr
    cases hr
    exact ⟨.refl _ _ _, by simp⟩
  | cons k ks ih =>
    simp only [allBounds, returns_bind, returns_pure] at hr
    obtain ⟨⟨b, cache'⟩, s₁, hb, rest, s₂, hrest, rfl, rfl⟩ := hr
    obtain ⟨c1, v1, k1⟩ := computes_rangeBounds hb hg (hk k mem_cons_self) hc
    have hg1 := c1.good hg
    obtain ⟨c2, v2⟩ := ih hrest hg1 (fun j hj => hk j (mem_cons_of_mem _ hj)) k1
    exact ⟨c1.trans c2, forall_mem_cons.2 ⟨v1.mono c2.toGrows hg1.opened, v2⟩⟩

/-! ### Nodes -/

theorem hasGraphs_axisAttribute (axis : Int) : GraphFunction.HasGraphs [] [axisAttribute axis] := by
  simp [GraphFunction.HasGraphs, axisAttribute]

theorem computes_concat {suffix : String} {values : List String} (hr : Returns (concat base suffix values) env s x s')
    (hg : s.Good) (hv : ∀ v ∈ values, v ∈ s.scopes.visible) : Computes N s {} s' {} ∧ x ∈ s'.scopes.visible := by
  simp only [concat, returns_bind, returns_pure] at hr
  obtain ⟨name, s₁, hf, u, s₂, he, rfl, rfl⟩ := hr
  have hc : N → base ++ "_" ++ suffix ≠ "" := fun _ => by simp
  obtain ⟨c, f⟩ := computes_fresh_emitDefault hf he hc (fun y hy =>
    .inr ((computes_fresh hf hc {}).1.visible hg.opened (hv y hy))) (hasGraphs_axisAttribute 0)
  exact ⟨c, f.visible (c.opened hg.opened)⟩

theorem computes_sliceInputs {xs : List String} (hr : Returns (sliceInputs base bs) env s xs s') (hg : s.Good)
    (hbase : base ∈ s.scopes.visible) (hbs : ∀ b ∈ bs, BoundsVisible s b) :
    Computes N s {} s' {} ∧ ∀ x ∈ xs, x ∈ s'.scopes.visible := by
  unfold sliceInputs at hr
  split at hr
  · rename_i b
    cases hr
    have hb := hbs b mem_cons_self
    refine ⟨.refl _ _ _, ?_⟩
    simp [hbase, hb.start, hb.stop, hb.axis, hb.step]
  · simp only [returns_bind, returns_pure] at hr
    obtain ⟨start, s₁, h1, stop, s₂, h2, axis, s₃, h3, step, s₄, h4, rfl, rfl⟩ := hr
    obtain ⟨c1, v1⟩ := computes_concat (N := N) h1 hg (forall_mem_map.2 fun b hb => (hbs b hb).start)
    have hg1 := c1.good hg
    have hbs1 : ∀ b ∈ bs, BoundsVisible s₁ b := fun b hb => (hbs b hb).mono c1.toGrows hg.opened
    obtain ⟨c2, v2⟩ := computes_concat (N := N) h2 hg1 (forall_mem_map.2 fun b hb => (hbs1 b hb).stop)
    have hg2 := c2.good hg1
    have hbs2 : ∀ b ∈ bs, BoundsVisible s₂ b := fun b hb => (hbs1 b hb).mono c2.toGrows hg1.opened
    obtain ⟨c3, v3⟩ := computes_concat (N := N) h3 hg2 (forall_mem_map.2 fun b hb => (hbs2 b hb).axis)
    have hg3 := c3.good hg2
    obtain ⟨c4, v4⟩ := computes_concat (N := N) h4 hg3
      (forall_mem_map.2 fun b hb => ((hbs2 b hb).mono c3.toGrows hg2.opened).step)
    have c34 := c3.trans c4
    have c24 := c2.trans c34
    refine ⟨c1.trans c24, ?_⟩
    simp [v4, c4.visible hg3.opened v3, c34.visible hg2.opened v2, c24.visible hg1.opened v1,
      (c1.trans c24).visible hg.opened hbase]

/-- What is held for the result of a subscript, if it is still to be written. -/
def heldIf (result : String) (b : Bool) : Held :=
  ⟨if b then [result] else [], []⟩

theorem computes_nextName {last : Bool} {candidate : String}
    (hr : Returns (if last then fresh candidate else pure result) env s x s') (hc : N → candidate ≠ "") :
    Computes N s (heldIf result !last) s' ⟨[x], []⟩ := by
  cases last with
  | false =>
    cases hr
    exact .refl _ _ _
  | true => exact (computes_fresh hr hc {}).1

theorem computes_slice {constants : List (ℕ × Int)} {remain : Bool}
    (hr : Returns (slice pos base result ks constants remain) env s x s') (hg : s.Good)
    (hbase : base ∈ s.scopes.visible) (hk : ∀ k ∈ ks, RangeEach (Yields N) k) :
    Computes N s (heldIf result !remain) s' {} ∧ x ∈ s'.scopes.visible := by
  have hks : ∀ k ∈ ks ++ constants.map (fun c => pointRange c.1 c.2), RangeEach (Yields N) k :=
    forall_mem_append.2 ⟨hk, forall_mem_map.2 fun c _ => rangeEach_pointRange _ _ _⟩
  simp only [slice, returns_bind] at hr
  obtain ⟨bs, s₁, hbs, inputs, s₂, hin, hr⟩ := hr
  obtain ⟨c1, v1⟩ := computes_allBounds hbs hg hks (by simp [CacheVisible])
  have hg1 := c1.good hg
  obtain ⟨c2, v2⟩ := computes_sliceInputs (N := N) hin hg1 (c1.visible hg.opened hbase) v1
  have hg2 := c2.good hg1
  have c12 := c1.trans c2
  split at hr
  · simp only [returns_ite_bind, returns_bind, returns_pure] at hr
    obtain ⟨name, s₃, hname, u, s₄, he, rfl, rfl⟩ := hr
    have c3 := computes_nextName (N := N) hname fun _ => by simp
    obtain ⟨c4, v4⟩ := computes_emitDefault (N := N) he
      (fun y hy => .inr (c3.visible hg2.opened (v2 y hy))) {}
    exact ⟨(c12.frame _).trans (c3.trans c4), v4 _ mem_cons_self⟩
  · simp only [returns_ite_bind, returns_bind, returns_pure] at hr
    obtain ⟨sliced, s₃, hf, u, s₄, he, axes, s₅, hax, name, s₆, hname, w, s₇, he', rfl, rfl⟩ := hr
    have hc : N → base ++ "_sliced" ≠ "" := fun _ => by simp
    obtain ⟨c3, f3⟩ := computes_fresh_emitDefault hf he hc fun y hy =>
      .inr ((computes_fresh hf hc {}).1.visible hg2.opened (v2 y hy))
    have hg3 := c3.good hg2
    have hsliced := f3.visible hg3.opened
    obtain ⟨c4, f4⟩ := computes_constant (N := N) hax (by simp)
    have hg4 := c4.good hg3
    have c5 := computes_nextName (N := N) hname fun _ => by simp
    obtain ⟨c6, v6⟩ := computes_emitDefault (N := N) he' (forall_mem_cons.2
      ⟨.inr (c5.visible hg4.opened (c4.visible hg3.opened hsliced)),
        forall_mem_singleton.2 (.inr (c5.visible hg4.opened (f4.visible hg4.opened)))⟩) {}
    exact ⟨((c12.trans (c3.trans c4)).frame _).trans (c5.trans c6), v6 _ mem_cons_self⟩

theorem computes_gather {ps : List Point} {value : String} (hr : Returns (gather base result value ps) env s x s')
    (hg : s.Good (heldIf result !ps.isEmpty)) (hv : value ∈ s.scopes.visible) (hp : ∀ p ∈ ps, Yields N p.part.lower) :
    Computes N s (heldIf result !ps.isEmpty) s' {} ∧ x ∈ s'.scopes.visible := by
  induction ps generalizing value x s with
  | nil =>
    rw [gather] at hr
    cases hr
    exact ⟨.refl _ _ _, hv⟩
  | cons p ps ih =>
    simp only [gather, returns_ite_bind, returns_bind] at hr
    obtain ⟨index, s₁, hi, name, s₂, hname, u, s₃, he, hr⟩ := hr
    obtain ⟨c1, v1⟩ := hp p mem_cons_self hg.drop hi
    have hg1 := (c1.frame _).good hg
    -- the result stays held while nodes remain
    have c2 : Computes N s₁ (heldIf result true) s₂ ⟨name :: (heldIf result !ps.isEmpty).names, []⟩ := by
      cases hps : ps.isEmpty with
      | true =>
        rw [hps, if_pos rfl] at hname
        cases hname
        exact .refl _ _ _
      | false =>
        rw [hps, if_neg (by simp)] at hname
        exact (computes_fresh hname (fun _ => by simp) _).1
    obtain ⟨c3, v3⟩ := computes_emitDefault (N := N) he (forall_mem_cons.2
      ⟨.inr (c2.visible hg1.opened (c1.visible hg.opened hv)),
        forall_mem_singleton.2 (.inr (c2.visible hg1.opened v1))⟩) (heldIf result !ps.isEmpty) (hasGraphs_axisAttribute p.axis)
    have c23 := c2.trans c3
    obtain ⟨c4, v4⟩ := ih hr (c23.good hg1) (v3 _ mem_cons_self) fun q hq => hp q (mem_cons_of_mem _ hq)
    exact ⟨(c1.frame _).trans (c23.trans c4), v4⟩

end Subscript

theorem returns_subscript {x : Operand} :
    Returns (subscript pos value is candidate) env s x s' ↔
      ∃ b t, Returns value env s b t ∧ Returns (subscript pos (pure b) is candidate) env t x s' := by
  simp only [subscript, pure_bind, returns_bind]

open Subscript in
theorem computes_subscript {b : Operand} {is : List Index} {candidate : Option String} {x : Operand}
    (hr : Returns (subscript pos (pure b) is candidate) env s x s') (hg : s.Good) (hb : b.name ∈ s.scopes.visible)
    (his : ∀ i ∈ is, IndexEach (Yields N) i) (hc : N → candidate ≠ some "") :
    Computes N s {} s' {} ∧ x.name ∈ s'.scopes.visible := by
  simp only [subscript, pure_bind, returns_bind] at hr
  obtain ⟨result, s₂, hf, ⟨ks, ps⟩, s₃, hcl, hr⟩ := hr
  obtain ⟨c2, -, -⟩ := computes_fresh (N := N) hf (fun hN => getD_ne_empty (hc hN) (by simp)) {}
  have hg2 := c2.good hg
  have hbase := c2.visible hg.opened hb
  obtain ⟨rfl, hks, hps⟩ := each_classify hcl his
  dsimp only at hr hks hps
  split at hr
  · obtain ⟨u, s₄, he, ⟨⟩⟩ := returns_bind.1 hr
    obtain ⟨c3, v3⟩ := computes_emitDefault (N := N) he (forall_mem_singleton.2 (.inr hbase)) {}
    exact ⟨c2.trans c3, v3 _ mem_cons_self⟩
  · rename_i hsome
    split at hr
    · simp only [returns_bind, returns_pure] at hr
      obtain ⟨sliced, s₄, hsl, last, s₅, hga, rfl, rfl⟩ := hr
      set computed := ps.filter (·.value.isNone) with hcomputed
      have hpc : ∀ p ∈ computed, Yields N p.part.lower := fun p hp => hps p (mem_of_mem_filter hp)
      obtain ⟨c3, v3⟩ := computes_slice (N := N) hsl hg2.drop hbase hks
      -- the slice writes the result if no computed index remains, and the last gather does otherwise
      cases hem : computed.isEmpty with
      | true =>
        rw [hem] at c3
        have hg3 : s₄.Good := c3.good hg2
        obtain ⟨c4, v4⟩ := computes_gather hga (by rw [hem]; exact hg3) v3 hpc
        rw [hem] at c4
        exact ⟨c2.trans (c3.trans c4), v4⟩
      | false =>
        rw [hem] at c3
        have c3' := Computes.frame c3 (heldIf result true)
        obtain ⟨c4, v4⟩ := computes_gather hga (by rw [hem]; exact c3'.good hg2) v3 hpc
        rw [hem] at c4
        exact ⟨c2.trans (c3'.trans c4), v4⟩
    · rename_i hranges
      obtain ⟨last, s₄, hga, ⟨⟩⟩ := returns_bind.1 hr
      have hne : ps.isEmpty = false := by grind
      obtain ⟨c3, v3⟩ := computes_gather (N := N) hga (by rw [hne]; exact hg2) hbase hps
      rw [hne] at c3
      exact ⟨c2.trans c3, v3⟩

/-- **A subscript yields a value** if its base and its indices do. -/
theorem yields_subscript (hvalue : Yields N value) (his : ∀ i ∈ is, Subscript.IndexEach (Yields N) i)
    (hc : N → candidate ≠ some "") : Yields N (subscript pos value is candidate) := by
  intro env s x s' hg hr
  obtain ⟨b, t, hb, hr⟩ := returns_subscript.1 hr
  obtain ⟨c1, v1⟩ := hvalue hg hb
  obtain ⟨c2, v2⟩ := computes_subscript hr (c1.good hg) v1 his hc
  exact ⟨c1.trans c2, v2⟩

end OpGraph.Lowering
