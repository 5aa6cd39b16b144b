import OpGraph.Proofs.Simulation.Loops

/-!
Statements mean the same in the graph. The induction over the statements follows two analyses of the same statements:
one from the names whose values are needed, and one from the names that the lowering takes to be needed. They differ in
the names that only decide whether a loop goes on.
-/

namespace OpGraph

open List
open Stmt (assignsAll outerReadsAll identifiersAll exposed allCore)
open Interpretation (exec execAll keeps_execAll)
open NameSet (mem_union mem_ofList)

variable {V : Type}

namespace Lowering

variable {I : Interpretation V} {fuel : ℕ} {c : Setting} {env : Env} {pos : Position} {s s' s₁ : State}
  {ρ ρ' σ σ' : Values V} {A B A' B' : String → Prop} {run : Values V → Outcome (Completion V)}
variable {target test value : Expr} {m : Lower Unit} {N : NameSet} {type : Option DeclaredType} {place : Place}
variable {p : Position} {A₁ B₁ : String → Prop}
variable {e func typeExpr : Expr} {args targets : List Expr} {keywords : List Keyword} {ids xs : List String}
variable {id x : String} {A₁' B₁' : String → Prop} {u : Unit} {run' : Values V → Outcome (Completion V)}

/-! ### Rules -/

theorem Executes.mono (h : Executes I c fuel A B A' B' m run) (hA : ∀ x, A x → A₁ x) (hB : ∀ x, B x → B₁ x)
    (hA' : ∀ x, A₁' x → A' x) (hB' : ∀ x, B₁' x → B' x) : Executes I c fuel A₁ B₁ A₁' B₁' m run := by
  refine ⟨h.performs, fun env s u s' ρ σ hI hm hr hw => ?_⟩
  refine (h.runs hI (hm.mono hA hB) hr hw).mono (fun _ hx => hx) ?_
  rintro ρ' d - - ⟨σ', rfl, hm'⟩
  exact ⟨σ', rfl, hm'.mono hA' hB'⟩

theorem executes_of_fails (h : ∀ ⦃env s u s'⦄, ¬Returns m env s u s') : Executes I c fuel A B A' B' m run :=
  ⟨.of_fails h, fun _ _ _ _ _ _ _ _ hr _ => absurd hr (h ·)⟩

theorem Executes.after_quiet {α : Type} {m : Lower α} {k : α → Lower Unit}
    (hm : ∀ ⦃env s a s'⦄, Returns m env s a s' → Quiet s s') (h : ∀ a, Executes I c fuel A B A' B' (k a) run) :
    Executes I c fuel A B A' B' (m >>= k) run := by
  refine ⟨(performs_of_quiet hm).andThen fun a => (h a).performs, fun env s u s' ρ σ hI ht hr hw => ?_⟩
  obtain ⟨a, s₁, h1, hr⟩ := returns_bind.1 hr
  have q := hm h1
  have c1 : Computes True s {} s₁ {} := q.computes
  have ht1 := ht.computes c1 (fun _ _ => rfl) (ht.defined.of_scopes_eq q.scopes)
  exact (((h a).runs hI ht1 hr hw).of_nodes_eq (by rw [State.current_of_scopes q.scopes])).mono c1.used
    fun _ _ _ _ h => h

theorem Runs.before {β : Type} {keep : String → Prop} {r : Outcome β} {Q Q' : Values V → β → Prop}
    (h : Runs I fuel keep s s₁ ρ r Q) (hn : s'.current.nodes = s₁.current.nodes)
    (hQ : ∀ ρ' b, (∀ x, keep x → ρ' x = ρ x) → s₁.Defined ρ' → Q ρ' b → s'.Defined ρ' ∧ Q' ρ' b) :
    Runs I fuel keep s s' ρ r Q' := by
  obtain ⟨ns, hns, hm⟩ := h
  exact ⟨ns, hn.trans hns, hm.mono fun ρ' b hb => ⟨hb.1, hQ ρ' b hb.1 hb.2.1 hb.2.2⟩⟩

/-! ### Assignments -/

theorem evaluates_lowerOperand {candidate : Option String} (hp : e.isPlain) (hx : ∀ x ∈ e.reads, x ≠ "" ∧ A x)
    (hc : candidate ≠ some "") : Evaluates I c fuel A (lowerOperand e candidate) fun σ => I.evalExpr c σ e :=
  evaluates_finish (denotes_lowerExpr e hp hx hc) hc

theorem Tracks.bind {p : Provenance} {t : Option DeclaredType} {v : V} (hm : Tracks I c A B s ρ σ)
    (hr : Returns (bind id (.graph x p t)) env s u s') (hx : x ∈ s.scopes.visible) (hv : ρ x = some v) :
    Tracks I c (fun y => y = id ∨ A y) (fun y => y = id ∨ B y) s' ρ (σ.set id v) := by
  have hd : s'.Defined ρ := by
    unfold State.Defined
    rw [visible_bind hr]
    exact hm.defined
  have hread : I.read? c (σ.set id v) id = some v := by
    rw [Interpretation.read?, Values.set_self]
    rfl
  have hother : ∀ y ∉ [id], σ.set id v y = σ y := fun y hy => Values.set_of_ne (by simpa using hy)
  refine hm.rebound (advances_bind hr hm.ready.good hx) (.cons (lookup_bind hr) (.refl s')) (fun _ _ => rfl) hd
    (.cons hv .nil) (.cons (.of_eq hread.symm) .nil) (fun y hy h => ?_) fun y hy h => ?_
  · exact ⟨h.resolve_left (by simpa using hy), hother y hy⟩
  · exact ⟨h.resolve_left (by simpa using hy), hother y hy⟩

theorem tracks_bindAll {vs : List V}
    (hr : Returns ((ids.zip xs).forM fun (id, result) => bind id (.graph result .intermediate none)) env s u s')
    (hm : Tracks I c A B s ρ σ) (hlen : ids.length = xs.length) (hxs : ∀ x ∈ xs, x ∈ s.scopes.visible)
    (hvs : Forall₂ (fun x v => ρ x = some v) xs vs) :
    ∃ σ', σ.setAll ids vs = .ok σ' ∧ Tracks I c (fun y => y ∈ ids ∨ A y) (fun y => y ∈ ids ∨ B y) s' ρ σ' := by
  induction ids generalizing xs vs s u σ A B with
  | nil =>
    cases hr
    obtain rfl := eq_nil_of_length_eq_zero hlen.symm
    cases hvs
    exact ⟨σ, rfl, hm.mono (by simp) (by simp)⟩
  | cons id ids ih =>
    cases hvs with
    | nil => cases hlen
    | @cons x v xs vs hx hvs =>
      obtain ⟨w, s₁, hb, hr⟩ := returns_bind.1 hr
      have hm1 := hm.bind hb (hxs x mem_cons_self) hx
      obtain ⟨σ', hσ', hm'⟩ := ih hr hm1 (Nat.succ.inj hlen)
        (fun y hy => by rw [visible_bind hb]; exact hxs y (mem_cons_of_mem _ hy)) hvs
      refine ⟨σ', hσ', hm'.mono (fun y hy => ?_) fun y hy => ?_⟩
      · exact hy.elim (fun hy => (mem_cons.1 hy).elim (fun h => .inr (.inl h)) .inl) fun hy => .inr (.inr hy)
      · exact hy.elim (fun hy => (mem_cons.1 hy).elim (fun h => .inr (.inl h)) .inl) fun hy => .inr (.inr hy)

theorem current_bindAll
    (hr : Returns ((ids.zip xs).forM fun (id, result) => bind id (.graph result .intermediate none)) env s u s') :
    s'.current = s.current := by
  induction ids generalizing xs s u with
  | nil =>
    cases hr
    rfl
  | cons id ids ih =>
    cases xs with
    | nil =>
      cases hr
      rfl
    | cons x xs =>
      obtain ⟨w, s₁, hb, hr⟩ := returns_bind.1 hr
      exact (ih hr).trans (edits_bind hb).current

theorem executes_assignName (hp : value.isPlain) (hreads : ∀ x ∈ value.reads, x ≠ "" ∧ A x) (hid : id ≠ "")
    (hA : ∀ x, A' x → x = id ∨ A x) (hB : ∀ x, B' x → x = id ∨ B x) :
    Executes I c fuel A B A' B' (assign (.name p id) value type)
      fun σ => .next <$> I.assign c σ (.name p id) value := by
  have hvalue : Evaluates I c fuel A (lowerOperand value (some id)) _ := evaluates_lowerOperand hp hreads (by simpa)
  refine ⟨performs_assign (by simpa [Expr.targets] using Ne.symm hid) fun _ h => (hreads "" h).1 rfl,
    fun env s u s' ρ σ hI hm hr hw => ?_⟩
  simp only [assign, returns_bind] at hr
  obtain ⟨x, s₁, hx, hb⟩ := hr
  obtain ⟨c1, v1⟩ := hvalue.yields hm.ready.good hx
  have e := edits_bind hb
  have hw1 : s₁.Within c := fun o ho => hw o (by rw [e.opset, ho])
  have hruns := hvalue.runs hI hm.mirrors hx hw1
  have hset : RunsFresh I fuel s s' ρ (I.evalExpr c σ value) fun ρ' v =>
      Tracks I c A' B' s' ρ' (σ.set id v) := by
    refine hruns.before (by rw [e.current]) fun ρ₁ v hkept hd1 hv => ?_
    have hm' := ((hm.computes c1 hkept hd1).bind hb v1 hv).mono hA hB
    exact ⟨hm'.defined, hm'⟩
  rw [Interpretation.assign, Functor.map_map]
  exact hset.map fun ρ' v _ _ h => ⟨σ.set id v, rfl, h⟩

theorem returns_targetNames? {ts : List Expr} (hr : Returns (ts.mapM targetName) env s ids s') :
    targetNames? ts = some ids := by
  induction ts generalizing ids s with
  | nil =>
    cases hr
    rfl
  | cons t ts ih =>
    simp only [mapM_cons, returns_bind, returns_pure] at hr
    obtain ⟨id, s₁, hid, rest, s₂, hrest, rfl, rfl⟩ := hr
    unfold targetName at hid
    split at hid
    · cases hid
      have := ih hrest
      unfold targetNames? at this ⊢
      rw [mapM_cons, this]
      rfl
    · cases hid

/-- **A call with several outputs.** -/
theorem runs_lowerOutputs (hr : Returns (lowerOutputs (.call p func args keywords) ids) env s xs s')
    (hI : I.Suits c env) (hm : Mirrors I c A s ρ σ) (hw : s'.Within c) (hp : (Expr.call p func args keywords).isPlain)
    (hreads : ∀ x ∈ (Expr.call p func args keywords).reads, x ≠ "" ∧ A x) (hids : "" ∉ ids) :
    ids.length = xs.length ∧ RunsFresh I fuel s s' ρ (do
        σ.setAll ids (← I.call c func (I.evalArgs c σ args) (I.evalKeywords c σ keywords) ids.length))
      fun ρ' σ' => ∃ vs, Forall₂ (fun x v => ρ' x = some v) xs vs ∧ σ.setAll ids vs = .ok σ' := by
  simp only [lowerOutputs, returns_bind, returns_pure] at hr
  obtain ⟨q, s₁, hcall, names, s₂, hf, u, s₃, hemit, hxs, rfl⟩ := hr
  obtain rfl := hxs
  simp only [Expr.isPlain, Expr.isConstant, Bool.false_or, Bool.and_eq_true] at hp
  have hargs : ∀ e ∈ args, Evaluates I c fuel A (part e).lower fun σ => I.evalExpr c σ e :=
    evaluates_parts args hp.1 fun x h => hreads x (mem_append_left _ h)
  have hkeywords : ∀ k ∈ keywords, Evaluates I c fuel A (part k.value).lower fun σ => I.evalExpr c σ k.value :=
    evaluates_keywords keywords hp.2 fun x h => hreads x (mem_append_right _ h)
  obtain ⟨c1, -⟩ := requests_call_parts hargs hkeywords hm.ready.good hcall
  obtain ⟨c2, hlen, hscopes⟩ := computes_freshAll (N := True) (h := {}) hf fun _ => hids
  rw [append_nil] at c2
  have hw2 : s₂.Within c := by
    have e : Edits s₂ _ _ _ := edits_modifyFunction (show Returns (emit _) env s₂ u _ from hemit)
    exact fun o ho => hw o (by rw [e.opset, ho])
  refine ⟨hlen.symm, ?_⟩
  rw [← hlen]
  refine (comesTo_call hargs hkeywords hI hm hcall (c2.within hw2) names.length).emit names c1 c2 hscopes hemit
    (fun ρ' vs hvs => ?_) fun vs hne => ?_
  · rcases σ.setAll_eq ids vs with ⟨-, σ', hσ'⟩ | ⟨hne, -⟩
    · exact ⟨σ', hσ', vs, hvs, hσ'⟩
    · exact absurd (hlen.symm.trans hvs.length_eq) hne
  · rcases σ.setAll_eq ids vs with ⟨heq, -⟩ | ⟨-, herror⟩
    · exact absurd (hlen.trans heq) hne
    · exact herror

theorem executes_assignTuple {q : Position} (hp : (Expr.call q func args keywords).isPlain)
    (hreads : ∀ x ∈ (Expr.call q func args keywords).reads, x ≠ "" ∧ A x) (hids : "" ∉ Expr.targetsAll targets)
    (hA : ∀ x, A' x → x ∈ Expr.targetsAll targets ∨ A x) (hB : ∀ x, B' x → x ∈ Expr.targetsAll targets ∨ B x) :
    Executes I c fuel A B A' B' (assign (.tuple p targets) (.call q func args keywords) type)
      fun σ => .next <$> I.assign c σ (.tuple p targets) (.call q func args keywords) := by
  refine ⟨performs_assign (fun _ => hids) fun _ h => (hreads "" h).1 rfl, fun env s u s' ρ σ hI hm hr hw => ?_⟩
  simp only [assign, returns_bind] at hr
  obtain ⟨ids, t, hnames, xs, s₁, hx, hb⟩ := hr
  obtain ⟨rfl, -⟩ := returns_targetNames hnames
  have hsome := returns_targetNames? hnames
  obtain rfl := Interpretation.targetNames?_targets hsome
  obtain ⟨c1, v1⟩ := computes_lowerOutputs (N := True) hx hm.ready.good (fun _ h => (hreads "" h).1 rfl) fun _ => hids
  have a := advances_bindAll (N := True) hb (c1.good hm.ready.good) v1
  obtain ⟨hlen, hruns⟩ : _ ∧ Runs I fuel _ s s₁ ρ _ _ :=
    runs_lowerOutputs hx hI hm.mirrors (a.within hw) hp hreads hids
  have hset : RunsFresh I fuel s s' ρ (I.assign c σ (.tuple p targets) (.call q func args keywords))
      (Tracks I c A' B' s') := by
    rw [Interpretation.assign, hsome]
    refine hruns.before (by rw [current_bindAll hb]) ?_
    rintro ρ₁ σ' hkept hd1 ⟨vs, hvs, hσ'⟩
    obtain ⟨σ'', hσ'', hm'⟩ := tracks_bindAll hb (hm.computes c1 hkept hd1) hlen v1 hvs
    obtain rfl := Except.ok.inj (hσ'.symm.trans hσ'')
    exact ⟨hm'.defined, hm'.mono hA hB⟩
  exact hset.map fun ρ' σ' _ _ h => ⟨σ', rfl, h⟩

theorem executes_assignAny (h : Executes I c fuel A B A' B' (assign target value type) run)
    (ht : ∀ p ts, target = .tuple p ts → ∀ q vs, value ≠ .tuple q vs) :
    Executes I c fuel A B A' B' (assignAny pos target value type) run := by
  unfold assignAny
  split
  · rename_i q vs
    split
    · rename_i p ts
      exact absurd rfl (ht p ts rfl q vs)
    · exact executes_of_fails fun _ _ _ _ => returns_fail
  · exact h

theorem executes_assignAnnotated (h : ∀ type, Executes I c fuel A B A' B' (assignAny pos target value type) run) :
    Executes I c fuel A B A' B' (assignAnnotated pos target typeExpr (some value)) run :=
  .after_quiet (fun _ _ _ _ => returns_annotationType?) h

/-! ### Other simple statements -/

theorem executes_pass : Executes I c fuel A B A B (pure ()) fun σ => .ok (.next σ) := by
  refine ⟨.pure _, fun env s u s' ρ σ hI hm hr hw => ?_⟩
  cases hr
  exact .done rfl hm.defined ⟨σ, rfl, hm⟩

theorem executes_expressionStmt {ν : Type} {m : Mark NameSet} {k : Mark ν} :
    Executes I c fuel A B A B (expressionStmt place (.expr m e)) (I.exec c fuel (.expr k e)) := by
  refine ⟨performs_expressionStmt, fun env s u s' ρ σ hI hm hr hw => ?_⟩
  have a := performs_expressionStmt (N := True) hm.ready.good hr
  have hdoc : (Stmt.expr m e).docstring? = (Stmt.expr k e).docstring? := by
    cases e with
    | constant p v => cases v <;> rfl
    | _ => rfl
  have hprint : (Stmt.expr m e).isPrint → (Stmt.expr k e).isPrint := by
    intro h
    unfold Stmt.isPrint at h
    split at h
    · rename_i heq
      cases heq
      rfl
    · cases h
  rw [exec]
  unfold expressionStmt at hr
  split at hr
  · rename_i doc hsome
    have e' := edits_modifyFunction hr
    have hd : s'.Defined ρ := by
      intro x hx
      rw [State.visible_eq e'.opened', e'.current, e'.around] at hx
      refine hm.defined x ?_
      rwa [State.visible_eq e'.opened]
    rw [← hdoc, hsome, Option.isSome_some, Bool.true_or, if_pos rfl]
    refine .done (by rw [e'.current]; rfl) hd ⟨σ, rfl, ?_⟩
    exact hm.rebound a (fun x => .inr ⟨not_mem_nil, e'.lookup x⟩) (fun _ _ => rfl) hd .nil .nil
      (fun x _ h => ⟨h, rfl⟩) fun x _ h => ⟨h, rfl⟩
  · split at hr
    · rename_i h
      cases hr
      rw [hprint h, Bool.or_true, if_pos rfl]
      exact .done rfl hm.defined ⟨σ, rfl, hm⟩
    · cases hr

/-! ### Statements in a row -/

theorem executes_cons {m' : Lower Unit} (h : Executes I c fuel A B A₁ B₁ m run)
    (h' : Executes I c fuel A₁ B₁ A' B' m' run') :
    Executes I c fuel A B A' B' (do m; m') fun σ => run σ >>= Interpretation.followedBy run' := by
  refine ⟨h.performs.andThen fun _ => h'.performs, fun env s u s' ρ σ hI hm hr hw => ?_⟩
  obtain ⟨v, s₁, h1, hr⟩ := returns_bind.1 hr
  have a := h.performs hm.ready.good h1
  have a' := h'.performs (a.good hm.ready.good) hr
  refine (h.runs hI hm h1 (a'.within hw)).seq a.toGrows a'.toGrows ?_
  rintro ρ₁ d - - ⟨σ', rfl, hm'⟩
  exact h'.runs hI hm' hr hw

theorem executesLoop_cons {m' : Lower (Option String)} (h : Executes I c fuel A B A₁ B₁ m run)
    (h' : ExecutesLoop I c fuel A₁ B₁ A' B' m' run') :
    ExecutesLoop I c fuel A B A' B' (do m; m') fun σ => run σ >>= Interpretation.followedBy run' := by
  refine ⟨.cons h.performs h'.performs, fun env s stop s' ρ σ hI hm hr hw => ?_⟩
  obtain ⟨v, s₁, h1, hr⟩ := returns_bind.1 hr
  have a := h.performs hm.ready.good h1
  obtain ⟨a', -⟩ := h'.performs (a.good hm.ready.good) hr
  refine (h.runs hI hm h1 (a'.within hw)).seq a.toGrows a'.toGrows ?_
  rintro ρ₁ d - - ⟨σ', rfl, hm'⟩
  exact h'.runs hI hm' hr hw

theorem executesLoop_nil : ExecutesLoop I c fuel A B A B (pure none) fun σ => .ok (.next σ) := by
  refine ⟨.pure_none, fun env s stop s' ρ σ hI hm hr hw => ?_⟩
  cases hr
  exact .done rfl hm.defined ⟨σ, rfl, hm⟩

theorem ExecutesLoop.mono {m : Lower (Option String)} (h : ExecutesLoop I c fuel A B A' B' m run)
    (hA' : ∀ x, A₁' x → A' x) (hB' : ∀ x, B₁' x → B' x) : ExecutesLoop I c fuel A B A₁' B₁' m run := by
  refine ⟨h.performs, fun env s stop s' ρ σ hI hm hr hw => ?_⟩
  refine (h.runs hI hm hr hw).mono (fun _ hx => hx) ?_
  rintro ρ' d - - ⟨σ', hends, hm'⟩
  exact ⟨σ', hends, hm'.mono hA' hB'⟩

theorem executesLoop_of_fails {m : Lower (Option String)} (h : ∀ ⦃env s stop s'⦄, ¬Returns m env s stop s') :
    ExecutesLoop I c fuel A B A' B' m run :=
  ⟨fun _ _ _ _ _ hr => absurd hr (h ·), fun _ _ _ _ _ _ _ _ hr _ => absurd hr (h ·)⟩

theorem executesLoop_break {last : Bool} (hreads : ∀ x ∈ test.reads, A x) :
    ExecutesLoop I c fuel A B A B (do return some (← breakCondition pos test last)) fun σ => (do
      if I.truth (← I.evalExpr c σ test) then return .brk σ else return .next σ) := by
  refine ⟨performsLoop_break, fun env s stop s' ρ σ hI hm hr hw => ?_⟩
  obtain ⟨x, t, hx, ⟨⟩⟩ := returns_bind.1 hr
  obtain ⟨rfl, -, q, id, p, t, rfl, hb⟩ := returns_breakCondition hx
  obtain ⟨v, hv⟩ := hm.defined.exists_value (visible_of_bindings hm.ready.good hb)
  have hread : I.read? c σ id = some v := by
    rw [← (hm.agrees id).same (hreads id (by simp [Expr.reads])), valueOf?, State.lookup_of_bindings hb]
    exact hv
  have hvalue : I.evalExpr c σ (.name q id) = .ok v := by
    rw [Interpretation.evalExpr, hread]
    rfl
  rw [hvalue]
  change Runs I fuel _ s s ρ (if I.truth v then .ok (Completion.brk σ) else .ok (Completion.next σ)) _
  split
  · rename_i h
    exact .done rfl hm.defined ⟨σ, ⟨v, hv, by rw [if_pos h]⟩, hm⟩
  · rename_i h
    exact .done rfl hm.defined ⟨σ, ⟨v, hv, by rw [if_neg h]⟩, hm⟩

/-! ### Statements that can be lowered -/

theorem returns_conditional_blocks {names : List String} {body orelse : Block}
    (hr : Returns (conditional pos test names body orelse) env s u s') :
    (∃ t v t', Returns body.lower env t v t') ∧ ∃ t v t', Returns orelse.lower env t v t' := by
  simp only [conditional, returns_bind] at hr
  obtain ⟨cond, s₁, -, thenGraph, s₂, hthen, elseGraph, s₃, helse, -⟩ := hr
  simp only [branch, returns_bind] at hthen helse
  obtain ⟨u₁, t₁, -, v₁, t₁', hbody, -⟩ := hthen
  obtain ⟨u₂, t₂, -, v₂, t₂', horelse, -⟩ := helse
  exact ⟨⟨t₁, v₁, t₁', hbody⟩, t₂, v₂, t₂', horelse⟩

mutual
/-- A block has no break and no return of its own. -/
theorem falls_of_returns : ∀ {stmt : Stmt NameSet} {place : Place} {env : Env} {s s' : State} {u : Unit},
    (∀ m v, stmt = .ret m v → place = .block) → Returns (lowerStmt place stmt) env s u s' → stmt.falls
  | .ret m v, place, env, s, s', u, hret, hr => by
    obtain rfl := hret m v rfl
    rw [lowerStmt] at hr
    cases hr
  | .brk m, place, env, s, s', u, _, hr => by
    rw [lowerStmt] at hr
    cases hr
  | .cond m test body orelse, place, env, s, s', u, _, hr => by
    rw [lowerStmt] at hr
    obtain ⟨⟨t, v, t', hbody⟩, w, v', w', horelse⟩ := returns_conditional_blocks hr
    rw [Stmt.falls, Bool.and_eq_true]
    exact ⟨fallsAll_of_returns hbody, fallsAll_of_returns horelse⟩
  | .function .., _, _, _, _, _, _, _ | .assign .., _, _, _, _, _, _, _ | .annAssign .., _, _, _, _, _, _, _
  | .forLoop .., _, _, _, _, _, _, _ | .whileLoop .., _, _, _, _, _, _, _ | .pass _, _, _, _, _, _, _, _
  | .expr .., _, _, _, _, _, _, _ | .imports .., _, _, _, _, _, _, _ | .importFrom .., _, _, _, _, _, _, _ => rfl
theorem fallsAll_of_returns : ∀ {ss : List (Stmt NameSet)} {env : Env} {s s' : State} {u : Unit},
    Returns (lowerBlock ss) env s u s' → Stmt.fallsAll ss
  | [], _, _, _, _, _ => rfl
  | stmt :: ss, env, s, s', u, hr => by
    rw [lowerBlock, returns_bind] at hr
    obtain ⟨v, s₁, h1, hr⟩ := hr
    rw [Stmt.fallsAll, Bool.and_eq_true]
    exact ⟨falls_of_returns (fun _ _ _ => rfl) h1, fallsAll_of_returns hr⟩
end

/-! ### The two analyses -/

open Liveness

variable {ν : Type} {elsewhere reads reads' ids' : List String} {L M E F : NameSet}

/-- What is known around statements with these reads and identifiers: `L` and `M` are live after them, `E` and `F` are
live after the innermost loop. Everything that is live or read is among the names that no loop around may count with. -/
structure Around (elsewhere reads ids : List String) (L M E F : NameSet) : Prop where
  after : ∀ x ∈ L, x ∈ M
  exit : ∀ x ∈ E, x ∈ F
  afterKnown : ∀ x ∈ M, x ∈ elsewhere
  exitKnown : ∀ x ∈ F, x ∈ elsewhere
  reads : ∀ x ∈ reads, x ∈ elsewhere
  named : ∀ x ∈ elsewhere, x ≠ "" ∧ x ≠ "infinite_loop"
  spelled : ∀ x ∈ ids, x ≠ "" ∧ x ≠ "infinite_loop"

namespace Around

theorem sub (h : Around elsewhere reads ids L M E F) (hreads : ∀ x ∈ reads', x ∈ reads) (hids : ∀ x ∈ ids', x ∈ ids) :
    Around elsewhere reads' ids' L M E F :=
  { h with reads := fun x hx => h.reads x (hreads x hx), spelled := fun x hx => h.spelled x (hids x hx) }

theorem notMem (h : Around elsewhere reads ids L M E F) : "" ∉ ids :=
  fun hmem => (h.spelled "" hmem).1 rfl

theorem before (h : Around elsewhere reads ids L M E F) {live : NameSet → NameSet → NameSet}
    (hlive : Regular live reads') (hreads : ∀ x ∈ reads', x ∈ reads) :
    Around elsewhere reads ids (live L E) (live M F) E F :=
  { h with
    after := fun x hx => hlive.pointwise (h.after x) (h.exit x) hx
    afterKnown := fun x hx => by
      rcases hlive.pointwise.cases hx with hx | hx | hx
      · exact h.reads x (hreads x (hlive.reads x hx))
      · exact h.afterKnown x hx
      · exact h.exitKnown x hx }

variable {stmt : Stmt ν} {ss : List (Stmt ν)}
  (h : Around elsewhere (outerReadsAll (stmt :: ss)) (identifiersAll (stmt :: ss)) L M E F)
include h

theorem first :
    Around elsewhere stmt.outerReads stmt.identifiers (analyzeAll L E ss).live (analyzeAll M F ss).live E F :=
  (h.before (regular_analyzeAll ss) fun _ => mem_append_right _).sub (fun _ => mem_append_left _)
    fun _ => mem_append_left _

theorem rest : Around elsewhere (outerReadsAll ss) (identifiersAll ss) L M E F :=
  h.sub (fun _ => mem_append_right _) fun _ => mem_append_right _

end Around

theorem identifiers_analyze (stmt : Stmt ν) : (analyze M F stmt).part.identifiers = stmt.identifiers := by
  simpa [analyzeAll, identifiersAll] using identifiersAll_analyzeAll M F [stmt]

/-- The steps of a statement mean what the statement means. -/
abbrev Simulates (I : Interpretation V) (c : Setting) (fuel : ℕ) (place : Place) (stmt : Stmt ν) (L M E F : NameSet) :
    Prop :=
  Executes I c fuel (· ∈ (analyze L E stmt).live) (· ∈ (analyze M F stmt).live) (· ∈ L) (· ∈ M)
    (lowerStmt place (analyze M F stmt).part) (I.exec c fuel stmt)

theorem simulates_assign {m : Mark ν} (hcore : (Stmt.assign m targets value).isCore elsewhere)
    (h : Around elsewhere (Stmt.assign m targets value).outerReads (Stmt.assign m targets value).identifiers L M E F) :
    Simulates I c fuel place (.assign m targets value) L M E F := by
  have hlive : ∀ (N G : NameSet) x, x ∈ N → x ∈ Expr.targetsAll targets ∨
      x ∈ (analyze N G (.assign m targets value)).live := by
    intro N G x hx
    simp only [analyze, mem_union, NameSet.mem_diff, mem_ofList]
    by_cases ht : x ∈ Expr.targetsAll targets
    · exact .inl ht
    · exact .inr (.inl ⟨hx, ht⟩)
  have hreads : ∀ x ∈ value.reads, x ≠ "" ∧ x ∈ (analyze L E (.assign m targets value)).live := by
    intro x hx
    simp only [analyze, mem_union, Expr.mem_uses]
    exact ⟨(h.named x (h.reads x hx)).1, .inr hx⟩
  have hids := h.notMem
  rw [Stmt.identifiers] at hids
  obtain ⟨hp, ⟨p, id, rfl⟩ | ⟨p, ts, q, func, args, keywords, rfl, rfl⟩⟩ := Stmt.isCore_assign hcore
  · simp only [Expr.targetsAll, Expr.targets, append_nil, mem_singleton] at hlive hids
    have hexec : I.exec c fuel (.assign m [.name p id] value) = fun σ => .next <$> I.assign c σ (.name p id) value := by
      funext σ
      rw [exec]
    have hlower : lowerStmt place (analyze M F (.assign m [.name p id] value)).part =
        assignAny m.pos (.name p id) value none := by
      rw [analyze, lowerStmt]
    unfold Simulates
    rw [hexec, hlower]
    exact executes_assignAny (executes_assignName hp hreads (fun he => hids (by simp [he])) (hlive L E) (hlive M F))
      (by simp)
  · simp only [Expr.targetsAll, Expr.targets, append_nil] at hlive hids
    have hexec : I.exec c fuel (.assign m [.tuple p ts] (.call q func args keywords)) =
        fun σ => .next <$> I.assign c σ (.tuple p ts) (.call q func args keywords) := by
      funext σ
      rw [exec]
    have hlower : lowerStmt place (analyze M F (.assign m [.tuple p ts] (.call q func args keywords))).part =
        assignAny m.pos (.tuple p ts) (.call q func args keywords) none := by
      rw [analyze, lowerStmt]
    unfold Simulates
    rw [hexec, hlower]
    have hids' := fun h => hids (mem_append_left _ h)
    exact executes_assignAny (executes_assignTuple hp hreads hids' (hlive L E) (hlive M F)) (by simp)

theorem simulates_annAssign {m : Mark ν} {value : Option Expr}
    (hcore : (Stmt.annAssign m target typeExpr value).isCore elsewhere)
    (h : Around elsewhere (Stmt.annAssign m target typeExpr value).outerReads
      (Stmt.annAssign m target typeExpr value).identifiers L M E F) :
    Simulates I c fuel place (.annAssign m target typeExpr value) L M E F := by
  obtain ⟨p, id, v, rfl, rfl, hp⟩ := Stmt.isCore_annAssign hcore
  have hlive : ∀ (N G : NameSet) x, x ∈ N → x = id ∨
      x ∈ (analyze N G (.annAssign m (.name p id) typeExpr (some v))).live := by
    intro N G x hx
    simp only [analyze, mem_union, NameSet.mem_diff, mem_ofList, Expr.targets, mem_singleton]
    by_cases ht : x = id
    · exact .inl ht
    · exact .inr (.inl ⟨hx, ht⟩)
  have hreads : ∀ x ∈ v.reads, x ≠ "" ∧ x ∈ (analyze L E (.annAssign m (.name p id) typeExpr (some v))).live := by
    intro x hx
    simp only [analyze, mem_union, Expr.mem_usesOption]
    exact ⟨(h.named x (h.reads x hx)).1, .inr hx⟩
  have hid : id ≠ "" := (h.spelled id (by simp [Stmt.identifiers, Expr.targets])).1
  have hexec : I.exec c fuel (.annAssign m (.name p id) typeExpr (some v)) =
      fun σ => .next <$> I.assign c σ (.name p id) v := by
    funext σ
    rw [exec]
  have hlower : lowerStmt place (analyze M F (.annAssign m (.name p id) typeExpr (some v))).part =
      assignAnnotated m.pos (.name p id) typeExpr (some v) := by
    rw [analyze, lowerStmt]
  unfold Simulates
  rw [hexec, hlower]
  exact executes_assignAnnotated fun type =>
    executes_assignAny (executes_assignName hp hreads hid (hlive L E) (hlive M F)) (by simp)

theorem simulates_cond {m : Mark ν} {body orelse : List (Stmt ν)} (hp : test.isPlain)
    (h : Around elsewhere (Stmt.cond m test body orelse).outerReads (Stmt.cond m test body orelse).identifiers L M E F)
    (hbody : Executes I c fuel (· ∈ (analyzeAll L E body).live) (· ∈ (analyzeAll M F body).live) (· ∈ L) (· ∈ M)
      (lowerBlock (analyzeAll M F body).part) (I.execAll c fuel body))
    (horelse : Executes I c fuel (· ∈ (analyzeAll L E orelse).live) (· ∈ (analyzeAll M F orelse).live) (· ∈ L) (· ∈ M)
      (lowerBlock (analyzeAll M F orelse).part) (I.execAll c fuel orelse)) :
    Simulates I c fuel place (.cond m test body orelse) L M E F := by
  by_cases hf : (Stmt.cond m test body orelse).falls
  · have hmem : ∀ (N G : NameSet) x, x ∈ (analyze N G (.cond m test body orelse)).live ↔
        (x ∈ (analyzeAll N G body).live ∨ x ∈ (analyzeAll N G orelse).live) ∨ x ∈ test.reads := fun N G x => by
      simp only [analyze, mem_union, Expr.mem_uses]
    have hnames : ∀ x ∉ (NameSet.ofList (assignsAll body ++ assignsAll orelse)).toList.filter (· ∈ M),
        x ∈ M → x ∉ assignsAll body ++ assignsAll orelse := by
      intro x hx hM hassigned
      exact hx (mem_filter.2 ⟨NameSet.mem_toList.1 (mem_ofList.2 hassigned), by simpa using hM⟩)
    have hnonempty : "" ∉ (NameSet.ofList (assignsAll body ++ assignsAll orelse)).toList.filter (· ∈ M) := by
      intro hx
      exact (h.named "" (h.afterKnown "" (by simpa using (mem_filter.1 hx).2))).1 rfl
    have hkeepBody : ∀ σ d, I.execAll c fuel body σ = .ok d →
        d.Keeps (assignsAll body ++ assignsAll orelse) σ :=
      fun σ d hd => (keeps_execAll hd).mono fun x => mem_append_left _
    have hkeepElse : ∀ σ d, I.execAll c fuel orelse σ = .ok d →
        d.Keeps (assignsAll body ++ assignsAll orelse) σ :=
      fun σ d hd => (keeps_execAll hd).mono fun x => mem_append_right _
    have hexec : I.exec c fuel (.cond m test body orelse) = fun σ => (do
        if I.truth (← I.evalExpr c σ test) then I.execAll c fuel body σ else I.execAll c fuel orelse σ) := by
      funext σ
      rw [exec]
    have hreads : ∀ x ∈ test.reads, x ≠ "" ∧ x ∈ (analyze L E (.cond m test body orelse)).live := fun x hx =>
      ⟨(h.named x (h.reads x (mem_append_left _ hx))).1, (hmem L E x).2 (.inr hx)⟩
    have hlower : lowerStmt place (analyze M F (.cond m test body orelse)).part =
        conditional m.pos test
          ((NameSet.ofList (assignsAll body ++ assignsAll orelse)).toList.filter (· ∈ M))
          ⟨blockPos m.pos (analyzeAll M F body).part, lowerBlock (analyzeAll M F body).part⟩
          ⟨blockPos m.pos (analyzeAll M F orelse).part, lowerBlock (analyzeAll M F orelse).part⟩ := by
      rw [analyze, lowerStmt, assignsAll_analyzeAll, assignsAll_analyzeAll]
    unfold Simulates
    rw [hexec, hlower]
    refine executes_conditional (evaluates_lowerOperand hp hreads (by simp)) (fun hx => (hreads "" hx).1 rfl) hnonempty
      (hbody.mono (fun x hx => (hmem L E x).2 (.inl (.inl hx))) (fun x hx => (hmem M F x).2 (.inl (.inl hx)))
        (fun _ hx => hx) fun _ hx => hx)
      (horelse.mono (fun x hx => (hmem L E x).2 (.inl (.inr hx))) (fun x hx => (hmem M F x).2 (.inl (.inr hx)))
        (fun _ hx => hx) fun _ hx => hx) hkeepBody hkeepElse ?_ ?_
    · exact fun x hx hL => ⟨mem_live_of_falls hf hL (hnames x hx (h.after x hL)), hnames x hx (h.after x hL)⟩
    · exact fun x hx hM => ⟨mem_live_of_falls hf hM (hnames x hx hM), hnames x hx hM⟩
  · refine executes_of_fails fun env s u s' hr => hf ?_
    have hfalls := falls_of_returns (fun m' v hm => by simp [analyze] at hm) hr
    rwa [falls_analyze] at hfalls

theorem mem_carried {body : List (Stmt ν)} {G : NameSet} :
    x ∈ carried M (analyzeAll N G body).part ↔ x ∈ assignsAll body ∧ (x ∈ exposed body ∨ x ∈ M) := by
  simp only [carried, mem_filter, Stmt.defsAll, assignsAll_analyzeAll, exposed_analyzeAll, Bool.or_eq_true,
    decide_eq_true_eq]
  rw [← NameSet.mem_toList, mem_ofList]

/-- The steps of a loop body mean what the statements of the body mean. -/
abbrev SimulatesBody (I : Interpretation V) (c : Setting) (fuel : ℕ) (body : List (Stmt ν)) (L M E F : NameSet) : Prop :=
  ExecutesLoop I c fuel (· ∈ (analyzeAll L E body).live) (· ∈ (analyzeAll M F body).live) (· ∈ L) (· ∈ M)
    (lowerLoop (analyzeAll M F body).part) (I.execAll c fuel body)

section Loops

variable {m : Mark ν} {body orelse : List (Stmt ν)}
  (hbody : ∀ {elsewhere' : List String} {N O : NameSet}, Stmt.allCore elsewhere' body →
    Around elsewhere' (Stmt.outerReadsAll body) (Stmt.identifiersAll body) N O L M → SimulatesBody I c fuel body N O L M)
include hbody

theorem simulates_forLoop {iter : Expr} (hcore : (Stmt.forLoop m target iter body orelse).isCore elsewhere)
    (h : Around elsewhere (Stmt.forLoop m target iter body orelse).outerReads
      (Stmt.forLoop m target iter body orelse).identifiers L M E F) :
    Simulates I c fuel place (.forLoop m target iter body orelse) L M E F := by
  cases orelse with
  | cons e orelse =>
    refine executes_of_fails fun env s u s' hr => ?_
    rw [analyze, blankAll, lowerStmt] at hr
    simp at hr
  | nil =>
  obtain ⟨p, i, q, r, n, rfl, rfl, hn, hi, hassigned, hcore'⟩ := Stmt.isCore_forLoop hcore
  have hregular := regular_analyzeAll body
  obtain ⟨out, -, hout⟩ := settle_for (.name p i) hregular L
  obtain ⟨out', hsettle, hout'⟩ := settle_for (.name p i) hregular M
  simp only [Expr.targets, mem_singleton] at hout hout'
  have hlive : ∀ (N G : NameSet) x, x ∈ (analyze N G (.forLoop m (.name p i) (.call q (.name r "range") [n] []) body
      [])).live ↔ (x ∈ N ∨ x ∈ exposed body) ∧ x ≠ i ∨ x ∈ n.reads := by
    intro N G x
    rw [mem_live_for m _ _ _ hregular]
    simp [Expr.targets, Expr.reads, Expr.readsAll, Expr.readsKeywords]
  have hne : ∀ x ∈ M, x ≠ i := fun x hx he => hi (he ▸ h.afterKnown x hx)
  have hinside : Around (i :: elsewhere) (outerReadsAll body) (identifiersAll body) out out' L M := by
    refine ⟨fun x hx => ?_, h.after, fun x hx => ?_, fun x hx => mem_cons_of_mem _ (h.afterKnown x hx),
      fun x hx => ?_, fun x hx => ?_, fun x hx => ?_⟩
    · exact (hout' x).2 (((hout x).1 hx).imp_left (h.after x))
    · rcases (hout' x).1 hx with hx | ⟨hx, hxi⟩
      · exact mem_cons_of_mem _ (h.afterKnown x hx)
      · refine mem_cons_of_mem _ (h.reads x (mem_append_right _ (mem_filter.2 ⟨hregular.reads x hx, ?_⟩)))
        simpa [Expr.targets] using hxi
    · by_cases hxi : x = i
      · exact hxi ▸ mem_cons_self
      · refine mem_cons_of_mem _ (h.reads x (mem_append_right _ (mem_filter.2 ⟨hx, ?_⟩)))
        simpa [Expr.targets] using hxi
    · rcases mem_cons.1 hx with rfl | hx
      · exact h.spelled x (by simp [Stmt.identifiers, Expr.targets])
      · exact h.named x hx
    · exact h.spelled x (mem_append_right _ (mem_append_right _ hx))
  have hexec := hbody hcore' hinside
  have hperforms : Performs True (lowerStmt place (analyze M F (.forLoop m (.name p i)
      (.call q (.name r "range") [n] []) body [])).part) :=
    performs_lowerStmt place _ (by simp [analyze]) fun _ => by rw [identifiers_analyze]; exact h.notMem
  have hreads : ∀ x ∈ n.reads, x ≠ "" ∧ x ∈ (analyze L E (.forLoop m (.name p i)
      (.call q (.name r "range") [n] []) body [])).live := fun x hx =>
    ⟨(h.named x (h.reads x (mem_append_left _ (by simpa [Expr.reads, Expr.readsAll, Expr.readsKeywords])))).1,
      (hlive L E x).2 (.inr hx)⟩
  have hbound : Evaluates I c fuel _ (lowerOperand n (some "loop_bound")) _ := evaluates_lowerOperand hn hreads (by simp)
  refine ⟨hperforms, fun env s u s' ρ σ hI hm hr hw => ?_⟩
  rw [analyze, hsettle, blankAll, lowerStmt] at hr
  split at hr
  · simp at hr
  simp only [returns_bind, forHeader, returns_pure] at hr
  obtain ⟨header, s₁, ⟨x, s₂, hx, rfl, rfl⟩, hr⟩ := hr
  obtain ⟨c1, v1⟩ := hbound.yields hm.ready.good hx
  have hcounter : i ≠ "" := (h.spelled i (by simp [Stmt.identifiers, Expr.targets])).1
  have hN : "" ∉ carried M (analyzeAll out' M body).part := fun hx =>
    h.notMem (mem_append_right _ (mem_append_right _
      (Stmt.mem_identifiersAll_of_assignsAll (mem_carried.1 hx).1)))
  have a2 := advances_loop (N := True) hr (c1.good hm.ready.good) hexec.performs (fun _ => hcounter) (by simp) (.inr v1)
    fun _ => hN
  rw [exec]
  refine (hbound.runs hI hm.mirrors hx (a2.within hw)).seq c1.toGrows a2.toGrows fun ρ₁ v hkept hd1 hv => ?_
  -- a name that lives through the loop is not the counter, and is carried if it is assigned
  have hstart : ∀ (N G : NameSet), (∀ x, x ∈ N ↔ x ∈ G ∨ x ∈ exposed body ∧ x ≠ i) →
      ∀ x ∈ (analyzeAll N G body).live, x = i ∨ x ∈ N := by
    intro N G hN x hx
    rw [hN]
    rcases hregular.pointwise.cases hx with hx | hx | hx
    · exact (em (x = i)).imp_right fun hxi => .inr ⟨hx, hxi⟩
    · exact .inr ((hN x).1 hx)
    · exact .inr (.inl hx)
  refine runs_forLoop hexec (fun σ d hd => keeps_execAll hd) hI hcounter hN
    (fun x hx => (hlive L E x).2 (.inl ?_)) (fun x hx => (hlive M F x).2 (.inl ?_)) rfl
    (fun hx => hassigned (mem_carried.1 hx).1) (hstart out L hout) (hstart out' M hout') (fun x hx hlives => ?_) hr
    (hm.computes c1 hkept hd1) hw v1 hv (fun x hx => (hout x).2 (.inl hx)) fun x hx => (hout' x).2 (.inl hx)
  · rcases (hout x).1 hx with hx | hx
    · exact ⟨.inl hx, hne x (h.after x hx)⟩
    · exact ⟨.inr hx.1, hx.2⟩
  · rcases (hout' x).1 hx with hx | hx
    · exact ⟨.inl hx, hne x hx⟩
    · exact ⟨.inr hx.1, hx.2⟩
  · have hlives : x ∈ M ∨ x ∈ exposed body ∧ x ≠ i :=
      hlives.elim (fun hx => ((hout x).1 hx).imp_left (h.after x)) (hout' x).1
    rw [mem_cons, not_or]
    exact ⟨hlives.elim (hne x) (·.2), fun hmem => hx (mem_carried.2 ⟨hmem, hlives.elim .inr fun hx => .inl hx.1⟩)⟩

/-- The script may go on with another value of the name that is tested than the graph, so in the first analysis the name
is not live at the end of the body only because it is tested. -/
theorem simulates_whileLoop (hcore : allCore elsewhere body)
    (h : Around elsewhere (Stmt.whileLoop m test body orelse).outerReads
      (Stmt.whileLoop m test body orelse).identifiers L M E F) :
    Simulates I c fuel place (.whileLoop m test body orelse) L M E F := by
  cases orelse with
  | cons e orelse =>
    refine executes_of_fails fun env s u s' hr => ?_
    rw [analyze, blankAll, lowerStmt] at hr
    simp at hr
  | nil =>
  have hregular := regular_analyzeAll body
  obtain ⟨out, hsettle, hout⟩ := settle_while test hregular M
  have hlower : lowerStmt place (analyze M F (.whileLoop m test body [])).part = (do
      let header ← whileHeader m.pos test
      loop m.pos header (carried M (analyzeAll out M body).part) (lowerLoop (analyzeAll out M body).part)) := by
    rw [analyze, hsettle, blankAll, lowerStmt]
    rfl
  by_cases hname : ∃ q t, test = .name q t
  · obtain ⟨q, t, rfl⟩ := hname
    have hlive : ∀ (N G : NameSet) x, x ∈ (analyze N G (.whileLoop m (.name q t) body [])).live ↔
        x ∈ N ∨ x ∈ exposed body ∨ x = t := by
      intro N G x
      rw [mem_live_while m _ _ hregular]
      simp [Expr.reads]
    simp only [Expr.reads, mem_singleton] at hout
    have hreads : ∀ x ∈ outerReadsAll body, x ∈ elsewhere :=
      fun x hx => h.reads x (mem_append_right _ hx)
    have ht : t ∈ elsewhere := h.reads t (mem_append_left _ (by simp [Expr.reads]))
    have hknown : ∀ x ∈ out, x ∈ elsewhere := by
      intro x hx
      rcases (hout x).1 hx with (hx | rfl) | hx
      · exact h.afterKnown x hx
      · exact ht
      · exact hreads x (hregular.reads x hx)
    have hinside : Around elsewhere (outerReadsAll body) (identifiersAll body)
        (L.union (exposed body)) out L M := by
      refine ⟨fun x hx => (hout x).2 ?_, h.after, hknown, h.afterKnown, hreads, h.named,
        fun x hx => h.spelled x (mem_append_right _ hx)⟩
      exact (mem_union.1 hx).imp_left fun hx => .inl (h.after x hx)
    have hexec := hbody hcore hinside
    have hN : "" ∉ carried M (analyzeAll out M body).part := fun hx =>
      h.notMem (mem_append_right _ (Stmt.mem_identifiersAll_of_assignsAll (mem_carried.1 hx).1))
    have hperforms : Performs True (lowerStmt place (analyze M F (.whileLoop m (.name q t) body [])).part) :=
      performs_lowerStmt place _ (by simp [analyze]) fun _ => by rw [identifiers_analyze]; exact h.notMem
    have htest : (fun σ => I.truth <$> I.evalExpr c σ (.name q t)) = holds I c t := by
      funext σ
      rw [Interpretation.evalExpr]
      rfl
    refine ⟨hperforms, fun env s u s' ρ σ hI hm hr hw => ?_⟩
    rw [hlower, whileHeader, pure_bind] at hr
    rw [exec, htest]
    -- what is live at the start of the body is live at its end, and has not the name of the counter
    have hstart : ∀ N G : NameSet, (∀ x ∈ G, x ∈ N) → (∀ x ∈ exposed body, x ∈ N) → (∀ x ∈ N, x ∈ elsewhere) →
        ∀ x ∈ (analyzeAll N G body).live, x ≠ "infinite_loop" ∧ x ∈ N := by
      intro N G hG hexposed hN x hx
      have hmem : x ∈ N := by
        rcases hregular.pointwise.cases hx with hx | hx | hx
        · exact hexposed x hx
        · exact hx
        · exact hG x hx
      exact ⟨(h.named x (hN x hmem)).2, hmem⟩
    have hcarried : ∀ x ∉ carried M (analyzeAll out M body).part, x ∈ M ∨ x ∈ exposed body →
        x ∉ assignsAll body := fun x hx hlives hmem => hx (mem_carried.2 ⟨hmem, hlives.symm⟩)
    refine runs_whileLoop hexec (fun σ d hd => keeps_execAll hd) hI (by simp) hN
      (fun x hx => (hlive L E x).2 ((mem_union.1 hx).imp_right .inl)) (fun x hx => (hlive M F x).2 ?_) rfl
      (hstart _ L (fun x hx => mem_union.2 (.inl hx)) (fun x hx => mem_union.2 (.inr hx))
        fun x hx => hknown x (hinside.after x hx))
      (hstart out M (fun x hx => (hout x).2 (.inl (.inl hx))) (fun x hx => (hout x).2 (.inr hx)) hknown)
      (fun x hx hlives => ?_) ((hout t).2 (.inl (.inr rfl))) hr hm hw rfl (fun x hx => mem_union.2 (.inl hx))
      (fun x hx => (hout x).2 (.inl (.inl hx))) (fun x hx hlives => hcarried x hx ?_)
      ((hlive L E t).2 (.inr (.inr rfl))) (h.named t ht).1
    · rcases (hout x).1 hx with (hx | hx) | hx
      · exact .inl hx
      · exact .inr (.inr hx)
      · exact .inr (.inl hx)
    · rcases (hout x).1 hlives with (hlives | hlives) | hlives
      · exact .inl (hcarried x hx (.inl hlives))
      · exact .inr hlives
      · exact .inl (hcarried x hx (.inr hlives))
    · exact hlives.elim (fun hx => (mem_union.1 hx).imp_left (h.after x)) .inl
  · refine executes_of_fails fun env s u s' hr => ?_
    rw [hlower, returns_bind] at hr
    obtain ⟨header, s₁, hh, -⟩ := hr
    unfold whileHeader at hh
    split at hh
    · rename_i q t
      exact hname ⟨q, t, rfl⟩
    · exact returns_fail hh

end Loops

/-! ### All statements -/

theorem break_of_blank {stmt : Stmt ν} {m k : Mark NameSet} (h : blank stmt = .cond m test [.brk k] []) :
    ∃ m' k', stmt = .cond m' test [.brk k'] [] := by
  cases stmt with
  | cond m' test' body orelse =>
    simp only [blank, Stmt.cond.injEq] at h
    obtain ⟨-, rfl, hbody, horelse⟩ := h
    obtain rfl : orelse = [] := by cases orelse <;> simp_all [blankAll]
    rcases body with _ | ⟨b, _ | _⟩ <;> simp only [blankAll, List.cons.injEq, reduceCtorEq, and_true, and_false] at hbody
    cases b with
    | brk k' => exact ⟨m', k', rfl⟩
    | function _ fn =>
      cases fn
      cases hbody
    | _ => cases hbody
  | function _ fn =>
    cases fn
    cases h
  | _ => cases h

theorem simulates_break {m k : Mark ν} (ss : List (Stmt ν)) :
    SimulatesBody I c fuel (.cond m test [.brk k] [] :: ss) L M E F := by
  unfold SimulatesBody
  simp only [analyzeAll, analyze, lowerLoop]
  cases ss with
  | cons s ss =>
    refine executesLoop_of_fails fun env t stop t' hr => ?_
    simp only [returns_bind, returns_pure] at hr
    obtain ⟨x, t₁, hx, -⟩ := hr
    obtain ⟨-, hlast, -⟩ := returns_breakCondition hx
    simp [analyzeAll] at hlast
  | nil =>
    have hexec : I.execAll c fuel [.cond m test [.brk k] []] = fun σ => (do
        if I.truth (← I.evalExpr c σ test) then return .brk σ else return .next σ) := by
      funext σ
      simp only [execAll, exec]
      cases I.evalExpr c σ test with
      | error h => rfl
      | ok v =>
        change (if I.truth v = true then _ else _) >>= _ = if I.truth v = true then _ else _
        cases I.truth v <;> rfl
    rw [hexec]
    refine (executesLoop_break fun x hx => ?_).mono (fun x hx => ?_) fun x hx => ?_
    all_goals simp only [mem_union, Expr.mem_uses]
    · exact .inr hx
    · exact .inl (.inr hx)
    · exact .inl (.inr hx)

mutual
/-- **A statement means the same in the graph.** -/
theorem simulates_lowerStmt : ∀ (stmt : Stmt ν) {place : Place} {elsewhere : List String} {L M E F : NameSet},
    stmt.isCore elsewhere → (∀ m v, stmt = .ret m v → place = .block) →
    Around elsewhere stmt.outerReads stmt.identifiers L M E F → Simulates I c fuel place stmt L M E F
  | .assign m targets value, _, _, _, _, _, _, hcore, _, h => simulates_assign hcore h
  | .annAssign m target typeExpr value, _, _, _, _, _, _, hcore, _, h => simulates_annAssign hcore h
  | .ret m value, place, _, _, _, _, _, _, hret, _ => by
    obtain rfl := hret m value rfl
    refine executes_of_fails fun env s u s' hr => ?_
    rw [analyze, lowerStmt] at hr
    exact returns_fail hr
  | .cond m test body orelse, _, _, _, _, _, _, hcore, _, h => by
    simp only [Stmt.isCore, Bool.and_eq_true] at hcore
    refine simulates_cond hcore.1.1 h (executes_lowerBlock body hcore.1.2 ?_) (executes_lowerBlock orelse hcore.2 ?_)
    · exact h.sub (fun x hx => mem_append_right _ (mem_append_left _ hx))
        fun x hx => mem_append_right _ (mem_append_left _ hx)
    · exact h.sub (fun x hx => mem_append_right _ (mem_append_right _ hx))
        fun x hx => mem_append_right _ (mem_append_right _ hx)
  | .forLoop m target iter body orelse, _, _, _, _, _, _, hcore, _, h =>
    simulates_forLoop (fun hcore' h' => simulates_lowerLoop body hcore' h') hcore h
  | .whileLoop m test body orelse, _, _, _, _, _, _, hcore, _, h => by
    simp only [Stmt.isCore, Bool.and_eq_true] at hcore
    exact simulates_whileLoop (fun hcore' h' => simulates_lowerLoop body hcore' h') hcore.2 h
  | .brk m, _, _, _, _, _, _, _, _, _ => by
    refine executes_of_fails fun env s u s' hr => ?_
    rw [analyze, lowerStmt] at hr
    exact returns_fail hr
  | .pass m, place, _, L, M, E, F, _, _, _ => by
    have hexec : I.exec c fuel (.pass m) = fun σ => .ok (.next σ) := by
      funext σ
      rw [exec]
    unfold Simulates
    rw [hexec]
    simp only [analyze, lowerStmt]
    exact executes_pass
  | .expr m e, place, _, L, M, E, F, _, _, _ => by
    unfold Simulates
    simp only [analyze, lowerStmt]
    exact executes_expressionStmt.mono (fun x hx => mem_union.2 (.inl hx))
      (fun x hx => mem_union.2 (.inl hx)) (fun _ hx => hx) fun _ hx => hx
  | .function .., _, _, _, _, _, _, hcore, _, _ | .imports .., _, _, _, _, _, _, hcore, _, _
  | .importFrom .., _, _, _, _, _, _, hcore, _, _ => by simp [Stmt.isCore] at hcore
theorem executes_lowerBlock : ∀ (ss : List (Stmt ν)) {elsewhere : List String} {L M E F : NameSet},
    allCore elsewhere ss → Around elsewhere (outerReadsAll ss) (identifiersAll ss) L M E F →
    Executes I c fuel (· ∈ (analyzeAll L E ss).live) (· ∈ (analyzeAll M F ss).live) (· ∈ L) (· ∈ M)
      (lowerBlock (analyzeAll M F ss).part) (I.execAll c fuel ss)
  | [], _, L, M, E, F, _, _ => by
    rw [Interpretation.execAll_nil]
    simp only [analyzeAll, lowerBlock]
    exact executes_pass
  | stmt :: ss, elsewhere, L, M, E, F, hcore, h => by
    rw [allCore, Bool.and_eq_true] at hcore
    rw [Interpretation.execAll_cons]
    simp only [analyzeAll, lowerBlock]
    exact executes_cons (simulates_lowerStmt stmt hcore.1 (fun _ _ _ => rfl) h.first)
      (executes_lowerBlock ss hcore.2 h.rest)
theorem simulates_lowerLoop : ∀ (ss : List (Stmt ν)) {elsewhere : List String} {L M E F : NameSet},
    allCore elsewhere ss → Around elsewhere (outerReadsAll ss) (identifiersAll ss) L M E F →
    SimulatesBody I c fuel ss L M E F
  | [], _, L, M, E, F, _, _ => by
    unfold SimulatesBody
    rw [Interpretation.execAll_nil]
    simp only [analyzeAll, lowerLoop]
    exact executesLoop_nil
  | stmt :: ss, elsewhere, L, M, E, F, hcore, h => by
    rw [allCore, Bool.and_eq_true] at hcore
    by_cases hbreak : ∃ m test k, stmt = .cond m test [.brk k] []
    · obtain ⟨m, test, k, hstmt⟩ := hbreak
      rw [hstmt]
      exact simulates_break ss
    · have hlower : lowerLoop (analyzeAll M F (stmt :: ss)).part = (do
          lowerStmt .block (analyze (analyzeAll M F ss).live F stmt).part
          lowerLoop (analyzeAll M F ss).part) := by
        refine lowerLoop.eq_3 _ _ fun m test k hpart => hbreak ?_
        have hblank := blank_analyze (analyzeAll M F ss).live F stmt
        rw [hpart] at hblank
        obtain ⟨m', k', hstmt⟩ := break_of_blank hblank.symm
        exact ⟨m', test, k', hstmt⟩
      unfold SimulatesBody
      rw [Interpretation.execAll_cons, hlower]
      exact executesLoop_cons (simulates_lowerStmt stmt hcore.1 (fun _ _ _ => rfl) h.first)
        (simulates_lowerLoop ss hcore.2 h.rest)
end

end Lowering

end OpGraph
