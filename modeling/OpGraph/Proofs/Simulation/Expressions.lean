import OpGraph.Proofs.Semantics.Core
import OpGraph.Proofs.Simulation.Operators

/-!
Expressions mean in the graph what they mean in the script. The arguments of a call are matched with parameters in the
same way for the steps that lower them and for their values, since matching does not look at what it matches.
-/

namespace OpGraph

open List
open Interpretation (evalExpr)

variable {e func : Expr} {es : List Expr} {ks : List Keyword} {name : String}
variable {params : Option (List CallParam)} {a : Option NodeAttribute}

/-! ### Matching of arguments -/

namespace Arguments

variable {α β : Type} (f : α → β)

/-- Named arguments with other contents. -/
def mapNamed (ks : List (String × α)) : List (String × β) :=
  ks.map fun k => (k.1, f k.2)

def map (a : Arguments α) : Arguments β :=
  ⟨a.inputs.map (Option.map f), mapNamed f a.attrs⟩

def Taken.map (t : Taken α) : Taken β :=
  ⟨t.inputs.map (Option.map f), mapNamed f t.attrs, t.rest.map f, t.used⟩

theorem get?_mapNamed (ks : List (String × α)) (name : String) :
    Members.get? (mapNamed f ks) name = (Members.get? ks name).map f := by
  simp only [Members.get?, mapNamed, find?_map, Option.map_map]
  rfl

theorem set_mapNamed (ks : List (String × α)) (name : String) (x : α) :
    Members.set (mapNamed f ks) name (f x) = mapNamed f (Members.set ks name x) := by
  induction ks with
  | nil => rfl
  | cons k ks ih =>
    obtain ⟨key, y⟩ := k
    change Members.set ((key, f y) :: mapNamed f ks) name (f x) = _
    rw [Members.set, Members.set]
    split
    · rfl
    · rw [ih]
      rfl

theorem foldl_set_mapNamed (ks : List (String × α)) : ∀ ms : List (String × α),
    (mapNamed f ks).foldl (fun ks (name, x) => Members.set ks name x) (mapNamed f ms) =
      mapNamed f (ks.foldl (fun ks (name, x) => Members.set ks name x) ms) := by
  induction ks with
  | nil => exact fun ms => rfl
  | cons k ks ih =>
    intro ms
    change (mapNamed f ks).foldl _ (Members.set (mapNamed f ms) k.1 (f k.2)) = _
    rw [set_mapNamed]
    exact ih _

theorem put_map (t : Taken α) (p : CallParam) (x : α) : (t.map f).put p (f x) = (t.put p x).map f := by
  unfold Taken.put Taken.map
  split <;> simp [mapNamed]

theorem take_map (ks : List (String × α)) (callee : String) (t : Taken α) (p : CallParam) :
    take (mapNamed f ks) callee (t.map f) p = (take ks callee t p).map (Taken.map f) := by
  obtain ⟨inputs, attrs, rest, used⟩ := t
  unfold take
  split
  · cases rest with
    | nil =>
      by_cases hp : p.required
      · simp [Taken.map, hp, error, Except.map]
      · simp [Taken.map, hp, Except.map]
    | cons x rest => simp [Taken.map, Except.map]
  · cases rest with
    | nil =>
      simp only [Taken.map, map_nil, get?_mapNamed]
      cases Members.get? ks p.name with
      | some x => exact congrArg Except.ok (put_map f ⟨inputs, attrs, [], used ++ [p.name]⟩ p x)
      | none =>
        simp only [Option.map_none]
        split
        · rfl
        · split
          · simp [Except.map, Taken.map]
          · rfl
    | cons x rest => exact congrArg Except.ok (put_map f ⟨inputs, attrs, rest, used⟩ p x)

theorem foldlM_take_map (ks : List (String × α)) (callee : String) (ps : List CallParam) : ∀ t : Taken α,
    ps.foldlM (take (mapNamed f ks) callee) (t.map f) = (ps.foldlM (take ks callee) t).map (Taken.map f) := by
  induction ps with
  | nil => exact fun t => rfl
  | cons p ps ih =>
    intro t
    rw [foldlM_cons, foldlM_cons, take_map]
    cases take ks callee t p with
    | error e => rfl
    | ok t₁ => exact ih t₁

theorem trim_map (xs : List (Option α)) : trim (xs.map (Option.map f)) = (trim xs).map (Option.map f) := by
  unfold trim
  rw [← map_reverse, dropWhile_map, ← map_reverse]
  congr 3
  funext x
  cases x <;> rfl

theorem separate_map (ps : List CallParam) (args : List α) (ks : List (String × α)) (callee : String) :
    separate ps (args.map f) (mapNamed f ks) callee = (separate ps args ks callee).map (Arguments.map f) := by
  unfold separate
  rw [show ({ rest := args.map f } : Taken β) = Taken.map f { rest := args } from rfl, foldlM_take_map]
  cases ps.foldlM (take ks callee) { rest := args } with
  | error e => rfl
  | ok t =>
    change (if _ then _ else _) = (if _ then _ else _ : Except Error (Arguments α)).map _
    simp only [Taken.map, isEmpty_map, length_map, mapNamed, find?_map, trim_map]
    split
    · rfl
    · rw [show ((fun k : String × β => !t.used.contains k.1) ∘ fun k : String × α => (k.1, f k.2)) =
        fun k => !t.used.contains k.1 from rfl]
      cases ks.find? fun k => !t.used.contains k.1 with
      | some k => rfl
      | none => rfl

/-- **Matching does not look at what it matches.** -/
theorem split_map (params : Option (List CallParam)) (args : List α) (ks : List (String × α)) (callee : String) :
    split params (args.map f) (mapNamed f ks) callee = (split params args ks callee).map (Arguments.map f) := by
  cases params with
  | none =>
    simp only [split, Except.map, Arguments.map, map_map]
    rfl
  | some ps =>
    simp only [split]
    rw [← separate_map]
    exact congrArg (fun ks => separate ps (args.map f) ks callee) (foldl_set_mapNamed f ks [])

theorem split_map_eq_ok {args : List α} {ks : List (String × α)} {callee : String} {r : Arguments β}
    (h : split params (args.map f) (mapNamed f ks) callee = .ok r) :
    ∃ a, split params args ks callee = .ok a ∧ r = a.map f := by
  rw [split_map] at h
  obtain ⟨a, ha, rfl⟩ := map_eq_ok.1 h
  exact ⟨a, ha, rfl⟩

end Arguments

namespace Lowering

variable {V : Type} {I : Interpretation V} {fuel : ℕ} {c : Setting} {env : Env} {s s' s₁ : State} {ρ σ : Values V}
  {live : String → Prop} {pos : Position}

/-! ### Callees -/

theorem State.Ready.cases {id : String} {b : Binding} (hready : s.Ready)
    (h : (s.scopes.lookup id).or ((Members.get? env.globals id).map .value) = some b) :
    (∃ v p t, b = .graph v p t) ∨ ∃ w, Members.get? env.globals id = some w ∧ b = .value w := by
  rcases Option.or_eq_some_iff.1 h with h | ⟨-, h⟩
  · exact .inl (hready.graphs id b h)
  · obtain ⟨w, hw, rfl⟩ := Option.map_eq_some_iff.1 h
    exact .inr ⟨w, hw, rfl⟩

theorem eval_of_opsetOf {o : Opset} (hr : Returns (opsetOf e) env s o s') (hready : s.Ready) :
    ∃ i, Evaluation.eval env.globals e = .ok (.opset i o) := by
  unfold opsetOf at hr
  split at hr
  · rename_i id
    simp only [returns_bind, returns_lookup?] at hr
    obtain ⟨b, t, ⟨hb, rfl⟩, hr⟩ := hr
    split at hr
    · rename_i i o'
      cases hr
      obtain ⟨v, p, t, h⟩ | ⟨w, hw, h⟩ := hready.cases hb
      · cases h
      · cases h
        refine ⟨i, ?_⟩
        rw [Evaluation.eval, hw]
    · cases hr
  · simp only [returns_bind, returns_map, returns_evalValue] at hr
    obtain ⟨b, t, ⟨v, ⟨hv, rfl⟩, rfl⟩, hr⟩ := hr
    split at hr
    · rename_i i o' heq
      cases hr
      cases heq
      exact ⟨i, hv⟩
    · cases hr

theorem nodes_calleeOf {f : Callee} (hr : Returns (calleeOf e) env s f s') : s'.current.nodes = s.current.nodes := by
  have hsame : s'.scopes = s.scopes → s'.current.nodes = s.current.nodes := by
    intro h
    unfold State.current
    rw [h]
  cases finds_calleeOf hr with
  | member _ use quiet => exact hsame (quiet.scopes.trans (scopes_useOpset use))
  | script _ call =>
    rw [(edits_modifyFunction call).current]
    rfl
  | op => rfl
  | nested => rfl
  | unbound _ _ quiet => exact hsame quiet.scopes

/-- What a call needs of a callee that is not nested. -/
def Callee.target? : Callee → Option (Op × Option (List CallParam))
  | .op o => some (o, o.params?)
  | .script f => some (⟨f.op.domain, f.op.version, f.op.name, some f.schema⟩, some f.params)
  | .nested .. => none

/-- **The callee of a call** is the same in the script: no name of the script hides it. -/
theorem callee_of_returns {f : Callee} (hr : Returns (calleeOf func) env s f s') (hI : I.Suits c env) (hready : s.Ready)
    (hw : s.Within c) : c.callee? func = f.target? ∧ f.target?.isSome := by
  have hglobal : ∀ {id : String} {w : Value}, Returns (lookup? id) env s (some (.value w)) s →
      Members.get? env.globals id = some w := by
    intro id w hb
    obtain ⟨v, p, t, h⟩ | ⟨w', hget, h⟩ := hready.cases (returns_lookup?.1 hb).1
    · cases h
    · cases h
      exact hget
  cases finds_calleeOf hr with
  | member set =>
    obtain ⟨i, hi⟩ := eval_of_opsetOf set hready
    rw [Setting.callee?, hI.globals, hi]
    exact ⟨rfl, rfl⟩
  | script bound | op bound =>
    rw [Setting.callee?, hI.globals, hglobal bound]
    exact ⟨rfl, rfl⟩
  | nested bound => obtain ⟨v, p, t, h⟩ | ⟨w, -, h⟩ := hready.cases (returns_lookup?.1 bound).1 <;> cases h
  | unbound bound set =>
    obtain ⟨-, hnone⟩ := Option.or_eq_none_iff.1 (returns_lookup?.1 bound).1
    rw [Setting.callee?, hI.globals, Option.map_eq_none_iff.1 hnone, hw _ set]
    exact ⟨rfl, rfl⟩

theorem target_of_returns {f : Callee} {t : Target} (hr : Returns (targetOf f pos) env s t s')
    (hf : f.target?.isSome) : f.target? = some (t.op, t.params) ∧ t.functions = [] := by
  cases f with
  | op o | script f =>
    cases hr
    exact ⟨rfl, rfl⟩
  | nested fn captured => cases hf

theorem attributeOf_literal {v : Literal} {a : Interchange.Attribute} (hv : Evaluation.evalLiteral c.globals e = .ok v)
    (hne : v ≠ .none) (ha : Interchange.Attribute.ofLiteral name v = .ok a) : c.attributeOf name e = .ok (some a) := by
  rw [Setting.attributeOf, hv]
  cases v with
  | none => exact absurd rfl hne
  | list vs =>
    change Interchange.Attribute.ofLiteral name (.list vs) >>= _ = _
    rw [ha]
    rfl
  | _ =>
    cases ha
    rfl

theorem attribute_of_literalAttribute (hI : I.Suits c env) (hr : Returns (literalAttribute name e) env s a s') :
    c.attributeOf name e = .ok (a.map (·.value)) ∧ ∀ b, a = some b → ∀ g, b.value.value ≠ .graph g := by
  simp only [literalAttribute, returns_bind, returns_evalLiteral] at hr
  obtain ⟨v, t, ⟨hv, rfl⟩, hr⟩ := hr
  rw [← hI.globals] at hv
  split at hr
  · cases hr
    rw [Setting.attributeOf, hv]
    exact ⟨rfl, by simp⟩
  · rename_i hnone
    simp only [returns_bind, returns_relocate, returns_pure] at hr
    obtain ⟨w, t, ⟨hw, rfl⟩, rfl, rfl⟩ := hr
    refine ⟨attributeOf_literal hv hnone hw, fun b hb g => ?_⟩
    cases hb
    exact ofLiteral_ne_graph hw g

/-- An attribute of a call is the same in the script, and no graph. -/
theorem attribute_of_returns (hI : I.Suits c env) (hready : s.Ready) (hr : Returns (attributeOf name e) env s a s') :
    c.attributeOf name e = .ok (a.map (·.value)) ∧ ∀ b, a = some b → ∀ g, b.value.value ≠ .graph g := by
  unfold attributeOf at hr
  split at hr
  · simp only [returns_bind, returns_lookup] at hr
    obtain ⟨b, t, ⟨hb, rfl⟩, hr⟩ := hr
    obtain ⟨v, p, t, rfl⟩ | ⟨w, -, rfl⟩ := hready.cases hb
    · cases hr
    · exact attribute_of_literalAttribute hI hr
  · exact attribute_of_literalAttribute hI hr

/-! ### Calls -/

open Arguments (mapNamed)

def part (e : Expr) : Part :=
  ⟨e, lowerExpr e none >>= finish none⟩

/-- An argument has the value of its expression in the graph. -/
abbrev Faithful (I : Interpretation V) (c : Setting) (fuel : ℕ) (live : String → Prop) (e : Expr) : Prop :=
  Evaluates I c fuel live (part e).lower fun σ => I.evalExpr c σ e

def actual (I : Interpretation V) (c : Setting) (σ : Values V) (e : Expr) : Actual V :=
  ⟨e, I.evalExpr c σ e⟩

def named (ks : List Keyword) : List (String × Expr) :=
  ks.map fun k => (k.arg, k.value)

theorem lowerParts_eq (es : List Expr) : lowerParts es = es.map part := by
  induction es with
  | nil => rw [lowerParts, map_nil]
  | cons e es ih => rw [lowerParts, map_cons, ih, part]

theorem lowerKeywords_eq (ks : List Keyword) : lowerKeywords ks = mapNamed part (named ks) := by
  induction ks with
  | nil => rw [lowerKeywords, named, map_nil, mapNamed, map_nil]
  | cons k ks ih =>
    obtain ⟨_, name, e⟩ := k
    rw [lowerKeywords, ih]
    rfl

theorem evalArgs_eq (σ : Values V) (es : List Expr) : I.evalArgs c σ es = es.map (actual I c σ) := by
  induction es with
  | nil => rw [Interpretation.evalArgs, map_nil]
  | cons e es ih => rw [Interpretation.evalArgs, map_cons, ih, actual]

theorem evalKeywords_eq (σ : Values V) (ks : List Keyword) :
    I.evalKeywords c σ ks = mapNamed (actual I c σ) (named ks) := by
  induction ks with
  | nil => rw [Interpretation.evalKeywords, named, map_nil, mapNamed, map_nil]
  | cons k ks ih =>
    obtain ⟨_, name, e⟩ := k
    rw [Interpretation.evalKeywords, ih]
    rfl

theorem attributes_of_returns (hI : I.Suits c env) (hready : s.Ready) (σ : Values V) {ks : List (String × Expr)}
    {as : List NodeAttribute}
    (hr : Returns ((mapNamed part ks).filterMapM fun k => attributeOf k.1 k.2.expr) env s as s') :
    ((mapNamed (actual I c σ) ks).filterMapM fun k => c.attributeOf k.1 k.2.expr) = .ok (as.map (·.value)) ∧
      ∀ a ∈ as.map (·.value), ∀ g, a.value ≠ .graph g := by
  induction ks generalizing as with
  | nil =>
    cases hr
    exact ⟨rfl, by simp⟩
  | cons k ks ih =>
    simp only [mapNamed, map_cons, filterMapM_cons, returns_bind] at hr ⊢
    obtain ⟨a, t, ha, hr⟩ := hr
    obtain ⟨rfl, -⟩ := returns_attributeOf hready.good ha
    obtain ⟨heq, hplain⟩ := attribute_of_returns hI hready ha
    change (c.attributeOf k.1 k.2 >>= _) = _ ∧ _
    change c.attributeOf k.1 k.2 = _ at heq
    rw [heq]
    cases a with
    | none => exact ih hr
    | some b =>
      obtain ⟨bs, t, hbs, ⟨⟩⟩ := returns_bind.1 hr
      obtain ⟨heqs, hplains⟩ := ih hbs
      refine ⟨?_, forall_mem_cons.2 ⟨hplain b rfl, hplains⟩⟩
      change ((mapNamed (actual I c σ) ks).filterMapM fun k => c.attributeOf k.1 k.2.expr) >>= _ = _
      rw [heqs]
      rfl

/-- The value of an input of a call; an argument that is left out has none. -/
def inputOf (I : Interpretation V) (c : Setting) (σ : Values V) : Option Expr → Outcome (Option V)
  | none => .ok none
  | some e => (actual I c σ e).input

theorem runs_argument {y : Operand} (he : Faithful I c fuel live e)
    (hI : I.Suits c env) (hm : Mirrors I c live s ρ σ) (hr : Returns (argument (part e)) env s y s') (hw : s'.Within c) :
    RunsFresh I fuel s s' ρ (inputOf I c σ (some e)) fun ρ' v => ρ'.input y.name = .ok v := by
  unfold argument at hr
  change Runs I fuel _ s s' ρ (actual I c σ e).input _
  unfold Actual.input
  split at hr
  · rename_i p he'
    cases hr
    obtain rfl : e = .constant p .none := he'
    exact .done rfl hm.defined rfl
  · rename_i hnone
    have hne := ((he.yields hm.ready.good hr).1.ready hm.ready).ne_empty (he.yields hm.ready.good hr).2
    dsimp only [actual]
    split
    · rename_i p
      exact (hnone p rfl).elim
    · exact (he.runs hI hm hr hw).map fun ρ' v _ _ hv => Values.input_of_eq hne hv

theorem runs_operands (hI : I.Suits c env) (hw : s'.Within c) {xs : List (Option Expr)} {ys : List Operand}
    (hr : Returns ((xs.map (Option.map part)).mapM fun x => match x with
      | none => pure Operand.omitted
      | some p => argument p) env s ys s') (hm : Mirrors I c live s ρ σ)
    (hes : ∀ e, some e ∈ xs → Faithful I c fuel live e) :
    RunsFresh I fuel s s' ρ (xs.mapM (inputOf I c σ)) fun ρ' vs =>
      ys.mapM (fun y => ρ'.input y.name) = .ok vs := by
  induction xs generalizing ys s ρ with
  | nil =>
    cases hr
    exact .done rfl hm.defined rfl
  | cons x xs ih =>
    simp only [map_cons, mapM_cons, returns_bind, returns_pure] at hr
    obtain ⟨y, s₁, hy, rest, s₂, hrest, rfl, rfl⟩ := hr
    have hg := hm.ready.good
    have hes' : ∀ e, some e ∈ xs → Faithful I c fuel live e :=
      fun e he => hes e (mem_cons_of_mem _ he)
    have h1 : Computes True s {} s₁ {} ∧ (y = .omitted ∨ y.name ∈ s₁.scopes.visible) := by
      cases x with
      | none =>
        cases hy
        exact ⟨.refl _ _ _, .inl rfl⟩
      | some e => exact computes_argument hy hg (hes e mem_cons_self).yields
    obtain ⟨c1, v1⟩ := h1
    obtain ⟨c2, -⟩ := computes_operands (N := True) hrest (c1.good hg) (by
      intro p hp
      obtain ⟨o, ho, hop⟩ := mem_map.1 hp
      obtain ⟨e, rfl, rfl⟩ := Option.map_eq_some_iff.1 hop
      exact (hes' e ho).yields)
    have hfirst : RunsFresh I fuel s s₁ ρ (inputOf I c σ x) fun ρ' v => ρ'.input y.name = .ok v := by
      cases x with
      | none =>
        cases hy
        exact .done rfl hm.defined rfl
      | some e => exact runs_argument (hes e mem_cons_self) hI hm hy (c2.within hw)
    rw [mapM_cons]
    refine hfirst.seq c1.toGrows c2.toGrows fun ρ₁ v hk1 hd1 hv => ?_
    rw [← map_eq_pure_bind]
    refine (ih hrest (hm.computes c1 hk1 hd1) hes').map fun ρ₂ vs hk2 _ hvs => ?_
    refine Outcome.mapM_eq_ok.2 (.cons ?_ (Outcome.mapM_eq_ok.1 hvs))
    rw [← hv]
    refine Values.input_of_kept fun hne => hk2 _ ?_
    rcases v1 with rfl | v1
    · exact (hne rfl).elim
    · exact (c1.good hg).taken.1 _ v1

theorem call_eq {op : Op} {r : Arguments Expr} {attributes : List Interchange.Attribute}
    (hcallee : c.callee? func = some (op, params)) (hr : Arguments.split params es (named ks) op.text = .ok r)
    (hattributes : ((mapNamed (actual I c σ) r.attrs).filterMapM fun k => c.attributeOf k.1 k.2.expr) = .ok attributes)
    (count : ℕ) :
    I.call c func (I.evalArgs c σ es) (I.evalKeywords c σ ks) count =
      r.inputs.mapM (inputOf I c σ) >>= fun vs => I.outputs op.domain op.name attributes vs count := by
  have hsplit : Arguments.split params (I.evalArgs c σ es) (I.evalKeywords c σ ks) op.text =
      .ok (r.map (actual I c σ)) := by
    rw [evalArgs_eq, evalKeywords_eq, Arguments.split_map, hr]
    rfl
  have hinputs : ∀ f : Option (Actual V) → Outcome (Option V), f none = .ok none → (∀ a, f (some a) = a.input) →
      (r.map (actual I c σ)).inputs.mapM f = r.inputs.mapM (inputOf I c σ) := by
    intro f hnone hsome
    refine Outcome.mapM_congr (forall₂_map_left_iff.2 (forall₂_same.2 fun x _ => ?_))
    cases x with
    | none => exact hnone
    | some e => exact hsome _
  unfold Interpretation.call
  rw [hcallee]
  change Interpretation.settled (Arguments.split params _ _ op.text) >>= _ = _
  rw [hsplit]
  change ((r.map (actual I c σ)).inputs.mapM _ : Outcome (List (Option V))) >>= _ = _
  rw [hinputs _ rfl fun _ => rfl]
  congr 1
  funext vs
  change Interpretation.settled ((mapNamed (actual I c σ) r.attrs).filterMapM fun k =>
    c.attributeOf k.1 k.2.expr) >>= _ = _
  rw [hattributes]
  rfl

section Calls

variable (hes : ∀ e ∈ es, Faithful I c fuel live e) (hks : ∀ k ∈ ks, Faithful I c fuel live k.value)
include hes hks

/-- **A call means the same in the graph**: it applies the same operator to the same attributes and inputs. -/
theorem comesTo_call {q : Request} (hI : I.Suits c env) (hm : Mirrors I c live s ρ σ)
    (hr : Returns (call pos func (lowerParts es) (lowerKeywords ks)) env s q s') (hw : s'.Within c)
    (count : ℕ) :
    q.ComesTo I fuel s s' ρ count (I.call c func (I.evalArgs c σ es) (I.evalKeywords c σ ks) count) := by
  rw [lowerParts_eq, lowerKeywords_eq] at hr
  simp only [call, returns_bind, returns_pure] at hr
  obtain ⟨f, s₁, hf, t, s₂, ht, split, s₃, hsplit, ys, s₄, hys, as, s₅, has, inputs, s₆, hp, rfl, rfl⟩ := hr
  have c1 := computes_calleeOf (N := True) hf
  have hg1 := c1.good hm.ready.good
  obtain rfl := returns_targetOf ht
  obtain ⟨hmatched, rfl⟩ := returns_splitArguments hsplit
  obtain ⟨r, hr, rfl⟩ := Arguments.split_map_eq_ok part hmatched
  have hmem := (Arguments.forall_split hes (forall_mem_map.2 hks) hr).1
  obtain ⟨c2, v2⟩ := computes_operands (N := True) hys hg1 (by
    intro p hp
    obtain ⟨o, ho, hop⟩ := mem_map.1 hp
    obtain ⟨e, rfl, rfl⟩ := Option.map_eq_some_iff.1 hop
    exact (hmem e ho).yields)
  have hg2 := c2.good hg1
  obtain ⟨rfl, -⟩ := returns_attributes hg2 has
  have hready2 := (c1.trans c2).ready hm.ready
  have hsees : ∀ a ∈ ys, s₄.Sees a.name := fun a ha => (v2 a ha).imp_left (by rintro rfl; rfl)
  obtain ⟨c3, -⟩ := computes_promote (N := True) hp hg2 hsees
  have hw2 := c3.within hw
  obtain ⟨hcallee, hsome⟩ := callee_of_returns hf hI hm.ready (c1.within (c2.within hw2))
  obtain ⟨htarget, -⟩ := target_of_returns ht hsome
  obtain ⟨hattributes, hplain⟩ := attributes_of_returns hI hready2 σ has
  have hn1 := nodes_calleeOf hf
  have hm1 := hm.computes c1 (fun _ _ => rfl) (hm.defined.of_computes c1 hm.ready.good.opened hn1)
  refine ⟨hplain, r.inputs.mapM (inputOf I c σ), ?_, ?_⟩
  · have hoperands := ((runs_operands hI hw2 hys hm1 hmem).of_nodes_eq hn1).mono c1.used fun _ _ _ _ h => h
    rw [← bind_pure (r.inputs.mapM (inputOf I c σ))]
    refine hoperands.seq (c1.trans c2).toGrows c3.toGrows fun ρ₁ vs _ hd hvs => ?_
    refine (runs_promote hp hI hw hready2 hd hsees fun a ha hconst => ?_).map (f := fun _ => vs) fun ρ₂ _ _ _ h => ?_
    · rcases v2 a ha with rfl | hv
      · cases hconst
      · exact hready2.ne_empty hv
    · rw [h, hvs]
  · exact call_eq (hcallee.trans htarget) hr hattributes count

theorem requests_call_parts : Requests True (call pos func (lowerParts es) (lowerKeywords ks)) := by
  refine requests_call (fun p hp => ?_) fun k hk => ?_
  · rw [lowerParts_eq] at hp
    obtain ⟨e, he, rfl⟩ := mem_map.1 hp
    exact (hes e he).yields
  · rw [lowerKeywords_eq] at hk
    obtain ⟨n, hn, rfl⟩ := mem_map.1 hk
    obtain ⟨d, hd, rfl⟩ := mem_map.1 hn
    exact (hks d hd).yields

theorem denotes_call :
    Denotes I c fuel live (return .request (← call pos func (lowerParts es) (lowerKeywords ks)))
      fun σ => I.call c func (I.evalArgs c σ es) (I.evalKeywords c σ ks) 1 >>= Interpretation.single := by
  refine ⟨lowers_request (requests_call_parts hes hks), fun env s l s' ρ σ hI hm hr hw => ?_⟩
  obtain ⟨q, t, hq, ⟨⟩⟩ := returns_bind.1 hr
  exact ⟨_, comesTo_call hes hks hI hm hq hw 1, rfl⟩

end Calls

/-! ### Expressions -/

theorem evaluates_part (he : Denotes I c fuel live (lowerExpr e none) fun σ => I.evalExpr c σ e) :
    Faithful I c fuel live e :=
  evaluates_finish he (by simp)

mutual
/-- **An expression has the same value in the graph.** -/
theorem denotes_lowerExpr (e : Expr) {candidate : Option String} (hp : e.isPlain) (hx : ∀ x ∈ e.reads, x ≠ "" ∧ live x)
    (hc : candidate ≠ some "") : Denotes I c fuel live (lowerExpr e candidate) fun σ => I.evalExpr c σ e := by
  rw [lowerExpr.eq_def]
  unfold evalExpr
  refine denotes_constantOr (fun hconst => ?_) hc
  cases e with
  | call pos func args keywords =>
    rw [Expr.isPlain, hconst, Bool.false_or, Bool.and_eq_true] at hp
    obtain ⟨hxa, hxk⟩ := forall_mem_append.1 hx
    have hargs := evaluates_parts args hp.1 hxa
    have hkeywords := evaluates_keywords keywords hp.2 hxk
    exact denotes_call hargs hkeywords
  | binary pos l op r =>
    rw [Expr.isPlain, hconst, Bool.false_or, Bool.and_eq_true] at hp
    obtain ⟨hxl, hxr⟩ := forall_mem_append.1 hx
    have hl := evaluates_part (denotes_lowerExpr l hp.1 hxl (by simp))
    have hr := evaluates_part (denotes_lowerExpr r hp.2 hxr (by simp))
    dsimp only
    cases binaryOp? op with
    | none => exact denotes_fail
    | some name => simpa only [part, bind_assoc] using denotes_binary op hl hr
  | boolean pos op es =>
    rw [Expr.isPlain, hconst, Bool.false_or] at hp
    simp only [lowerParts_eq, evalArgs_eq]
    have hes := denotes_boolean op pos (evaluates_parts es hp hx)
    match es, hes with
    | [], hes | [_], hes | _ :: _ :: _, hes => simpa [actual, Function.comp_def] using hes
  | unary pos op e =>
    rw [Expr.isPlain, hconst, Bool.false_or] at hp
    have he := evaluates_part (denotes_lowerExpr e hp hx (by simp))
    dsimp only
    cases unaryOp? op with
    | none => exact denotes_fail
    | some name => simpa only [part, bind_assoc] using denotes_unary he
  | compare pos l ops es =>
    rw [Expr.isPlain, hconst, Bool.false_or, Bool.and_eq_true] at hp
    obtain ⟨hxl, hxr⟩ := forall_mem_append.1 hx
    have hl := evaluates_part (denotes_lowerExpr l hp.1 hxl (by simp))
    have hes := evaluates_parts es hp.2 hxr
    match ops, es, hes with
    | [cmp], e :: _, hes =>
      cases hop : compareOp? cmp with
      | none =>
        simp only [lowerParts_eq, map_cons, hop]
        exact denotes_fail
      | some name =>
        simp only [lowerParts_eq, evalArgs_eq, map_cons, hop]
        simpa only [part, actual, bind_assoc] using denotes_compare hop hl (hes e mem_cons_self)
    | [], _, _ | _ :: _ :: _, _, _ | [_], [], _ => exact denotes_fail
  | name pos id =>
    obtain ⟨hne, hlive⟩ := hx id (by simp [Expr.reads])
    exact denotes_operand (evaluates_operandOfName hne hlive)
  | subscript => simp [Expr.isPlain, Expr.isConstant] at hp
  | _ => exact denotes_fail
theorem evaluates_parts : ∀ (es : List Expr), Expr.allPlain es → (∀ x ∈ Expr.readsAll es, x ≠ "" ∧ live x) →
    ∀ e ∈ es, Faithful I c fuel live e
  | [], _, _ => by simp
  | e :: es, hp, hx => by
    rw [Expr.allPlain, Bool.and_eq_true] at hp
    obtain ⟨hxe, hxs⟩ := forall_mem_append.1 hx
    exact forall_mem_cons.2 ⟨evaluates_part (denotes_lowerExpr e hp.1 hxe (by simp)), evaluates_parts es hp.2 hxs⟩
theorem evaluates_keywords : ∀ (ks : List Keyword), Expr.keywordsPlain ks →
    (∀ x ∈ Expr.readsKeywords ks, x ≠ "" ∧ live x) →
    ∀ k ∈ ks, Faithful I c fuel live k.value
  | [], _, _ => by simp
  | ⟨p, name, e⟩ :: ks, hp, hx => by
    rw [Expr.keywordsPlain, Bool.and_eq_true] at hp
    obtain ⟨hxe, hxs⟩ := forall_mem_append.1 hx
    exact forall_mem_cons.2 ⟨evaluates_part (denotes_lowerExpr e hp.1 hxe (by simp)), evaluates_keywords ks hp.2 hxs⟩
end

end Lowering

end OpGraph
