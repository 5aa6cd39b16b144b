import OpGraph.Proofs.Simulation.Values

/-!
The operators of expressions mean in the graph what they mean in the script. A graph mirrors the variables of the script
that are still needed; from such a state, the steps that lower an expression add nodes whose evaluation comes to the
value of the expression.
-/

namespace OpGraph

open List
open Interpretation (operate single)

variable {V : Type}
variable {as : List NodeAttribute} {l r : Lower Operand} {op : Op} {left right : Operand} {candidate : Option String}
variable {name : String} {run runL runR : Values V → Outcome V}
variable {cmp : CompareOp} {e : Expr} {m : Lower Operand} {o : Opset} {pos : Position} {α : Type} {u : Unit} {v : V}

namespace Interpretation

theorem matches_outputs (I : Interpretation V) (domain operator : String) (attributes : List Interchange.Attribute)
    (inputs : List (Option V)) (count : ℕ) : Outcome.Matches Eq (I.outputs domain operator attributes inputs count)
      (I.outputs domain operator attributes inputs count) := by
  unfold outputs
  cases I.apply domain operator attributes inputs count with
  | none => exact Outcome.matches_error (by simp)
  | some vs => exact rfl

end Interpretation

namespace Lowering

variable {I : Interpretation V} {fuel : ℕ} {c : Setting} {env : Env} {s s' s₁ s₂ : State} {ρ ρ' σ : Values V}
  {live : String → Prop} {q : Request}

/-! ### Variables -/

/-- The graph has the values of the variables that are live. -/
structure Mirrors (I : Interpretation V) (c : Setting) (live : String → Prop) (s : State) (ρ σ : Values V) : Prop where
  ready : s.Ready
  defined : s.Defined ρ
  agrees : ∀ x, live x → valueOf? I c s ρ x = I.read? c σ x

theorem Mirrors.of_lookup (hm : Mirrors I c live s ρ σ) (hr : s'.Ready) (hd : s'.Defined ρ')
    (hl : ∀ x, s'.scopes.lookup x = s.scopes.lookup x) (hkept : ∀ x ∈ s.names.used, ρ' x = ρ x) :
    Mirrors I c live s' ρ' σ :=
  ⟨hr, hd, fun x hx => (valueOf?_congr hm.ready.good (hl x) hkept).trans (hm.agrees x hx)⟩

theorem Mirrors.computes {h : Held} (hm : Mirrors I c live s ρ σ) (a : Computes True s {} s' h)
    (hkept : ∀ x ∈ s.names.used, ρ' x = ρ x) (hd : s'.Defined ρ') : Mirrors I c live s' ρ' σ :=
  hm.of_lookup (a.ready hm.ready) hd (a.lookup hm.ready.good.opened) hkept

/-! ### Values and requests -/

/-- Steps that compute the value that `run` gives from those of the variables. -/
structure Evaluates (I : Interpretation V) (c : Setting) (fuel : ℕ) (live : String → Prop) (m : Lower Operand)
    (run : Values V → Outcome V) : Prop where
  yields : Yields True m
  runs : ∀ ⦃env : Env⦄ ⦃s : State⦄ ⦃x : Operand⦄ ⦃s' : State⦄ ⦃ρ σ : Values V⦄, I.Suits c env →
    Mirrors I c live s ρ σ → Returns m env s x s' → s'.Within c →
    RunsFresh I fuel s s' ρ (run σ) fun ρ' v => ρ' x.name = some v

/-- The nodes from `s` to `s'` compute the inputs of a node that is asked for, and its outputs are those that `r` says. -/
structure Request.ComesTo (I : Interpretation V) (fuel : ℕ) (q : Request) (s s' : State) (ρ : Values V) (count : ℕ)
    (r : Outcome (List V)) : Prop where
  plain : ∀ a ∈ q.attributes.map (·.value), ∀ g, a.value ≠ .graph g
  inputs : ∃ r₀, RunsFresh I fuel s s' ρ r₀ (fun ρ' vs => q.inputs.mapM ρ'.input = .ok vs) ∧
    r = r₀ >>= fun vs => I.outputs q.op.domain q.op.name (q.attributes.map (·.value)) vs count

/-- Steps that compute a value or the request for it. -/
def Lowered.ComesTo (I : Interpretation V) (fuel : ℕ) (l : Lowered) (s s' : State) (ρ : Values V) (r : Outcome V) :
    Prop :=
  match l with
  | .operand x => RunsFresh I fuel s s' ρ r fun ρ' v => ρ' x.name = some v
  | .request q => ∃ rs, q.ComesTo I fuel s s' ρ 1 rs ∧ r = rs >>= Interpretation.single

/-- Steps that lower an expression with the value that `run` gives. -/
structure Denotes (I : Interpretation V) (c : Setting) (fuel : ℕ) (live : String → Prop) (m : Lower Lowered)
    (run : Values V → Outcome V) : Prop where
  lowers : Lowers True m
  runs : ∀ ⦃env : Env⦄ ⦃s : State⦄ ⦃l : Lowered⦄ ⦃s' : State⦄ ⦃ρ σ : Values V⦄, I.Suits c env →
    Mirrors I c live s ρ σ → Returns m env s l s' → s'.Within c → l.ComesTo I fuel s s' ρ (run σ)

theorem denotes_fail {f : LoweringFault} : Denotes I c fuel live (fail f pos) run :=
  ⟨lowers_fail, fun _ _ _ _ _ _ _ _ hr _ => absurd hr returns_fail⟩

theorem denotes_operand (hm : Evaluates I c fuel live m run) : Denotes I c fuel live (return .operand (← m)) run := by
  refine ⟨lowers_operand hm.yields, fun env s l s' ρ σ hI hmirror hr hw => ?_⟩
  obtain ⟨x, t, hx, ⟨⟩⟩ := returns_bind.1 hr
  exact hm.runs hI hmirror hx hw

/-- **A request is emitted**: its outputs get their values, if the operator gives as many. -/
theorem Request.ComesTo.emit {γ : Type} (xs : List String) {r : Outcome (List V)} {k : List V → Outcome γ}
    {S : Values V → γ → Prop} (hq : q.ComesTo I fuel s s₁ ρ xs.length r) (a : Computes True s {} s₁ {})
    (b : Computes True s₁ {} s₂ ⟨xs, []⟩) (hscopes : s₂.scopes = s₁.scopes) (he : Returns (q.emit xs) env s₂ u s')
    (hk : ∀ ρ' vs, Forall₂ (fun x v => ρ' x = some v) xs vs → ∃ d, k vs = .ok d ∧ S ρ' d)
    (hk' : ∀ vs, xs.length ≠ vs.length → k vs = .error .undefined) : RunsFresh I fuel s s' ρ (r >>= k) S := by
  have hcurrent : s₂.current = s₁.current := by
    unfold State.current
    rw [hscopes]
  obtain ⟨hfree, hnodup⟩ := b.fresh_held (append_nil _).symm rfl fun x => by rw [hcurrent]
  obtain ⟨r₀, hruns, rfl⟩ := hq.inputs
  rw [bind_assoc]
  refine hruns.bind ?_ (fun _ hx => hx) fun ρ₁ vs _ hd hin => ?_
  · rw [nodes_emit he, ← hcurrent]
    exact prefix_append _ _
  have hmatch : Outcome.Matches S (I.evalNode fuel (GraphNode.node
      { outputs := xs, op := q.op, inputs := q.inputs, attributes := q.attributes, functions := q.functions }) ρ₁)
      (I.outputs q.op.domain q.op.name (q.attributes.map (·.value)) vs xs.length >>= k) := by
    rw [Interpretation.evalNode_plain hin hq.plain]
    refine (I.matches_outputs _ _ _ _ _).bind fun ws ws' h => ?_
    obtain rfl := h
    rcases Values.setAll_eq ρ₁ xs ws with ⟨-, ρ', hset⟩ | ⟨hlen, hset⟩
    · obtain ⟨d, hd, hS⟩ := hk ρ' ws (Values.setAll_values hset hnodup)
      change Outcome.Matches S (ρ₁.setAll xs ws) (k ws)
      rw [hset, hd]
      exact hS
    · change Outcome.Matches S (ρ₁.setAll xs ws) (k ws)
      rw [hset, hk' ws hlen]
      exact Outcome.matches_error (by simp)
  have hrun : Runs I fuel _ s₂ s' ρ₁ _ S := runs_emit he (hd.of_scopes_eq hscopes) hmatch
  refine (hrun.of_nodes_eq (by rw [hcurrent])).mono (fun x hx hmem => ?_) fun _ _ _ _ h => h
  exact (hfree x hmem).1 (a.used x hx)

theorem Request.ComesTo.fresh_emit {candidate x : String} {r : Outcome (List V)} (hq : q.ComesTo I fuel s s₁ ρ 1 r)
    (a : Computes True s {} s₁ {}) (hf : Returns (fresh candidate) env s₁ x s₂) (hc : candidate ≠ "")
    (he : Returns (q.emit [x]) env s₂ u s') : RunsFresh I fuel s s' ρ (r >>= single) fun ρ' v => ρ' x = some v := by
  obtain ⟨b, -, -⟩ := computes_fresh (N := True) hf (fun _ => hc) {}
  have hscopes : s₂.scopes = s₁.scopes := by
    obtain ⟨-, rfl⟩ := returns_fresh.1 hf
    rfl
  refine hq.emit [x] a b hscopes he (fun ρ' vs h => ?_) fun vs h => ?_
  · obtain ⟨v, ws, hv, hws, rfl⟩ := forall₂_cons_left_iff.1 h
    obtain rfl := forall₂_nil_left_iff.1 hws
    exact ⟨v, rfl, hv⟩
  · match vs, h with
    | [], _ => rfl
    | _ :: _ :: _, _ => rfl
    | [_], h => exact absurd rfl h

theorem evaluates_finish {m : Lower Lowered} (hm : Denotes I c fuel live m run) (hc : candidate ≠ some "") :
    Evaluates I c fuel live (m >>= finish candidate) run := by
  refine ⟨yields_finish hm.lowers fun _ => hc, fun env s x s' ρ σ hI hmirror hr hw => ?_⟩
  obtain ⟨l, s₁, hl, hr⟩ := returns_bind.1 hr
  obtain ⟨c1, v1⟩ := hm.lowers hmirror.ready.good hl
  cases l with
  | operand y =>
    cases hr
    exact hm.runs hI hmirror hl hw
  | request q =>
    simp only [finish, returns_bind, returns_pure] at hr
    obtain ⟨name, s₂, hf, u, s₃, he, rfl, rfl⟩ := hr
    have hname : candidate.getD "tmp" ≠ "" := getD_ne_empty hc (by simp)
    obtain ⟨c2, -⟩ := computes_fresh_request (N := True) hf he (c1.good hmirror.ready.good) (fun _ => hname) v1
    obtain ⟨rs, hq, hrun⟩ := hm.runs hI hmirror hl (c2.within hw)
    rw [hrun]
    exact hq.fresh_emit c1 hf hname he

/-! ### Operators -/

theorem evaluates_operandOfName (hname : name ≠ "") (hlive : live name) :
    Evaluates I c fuel live (operandOfName name pos) fun σ => .ofOption .stuck (I.read? c σ name) := by
  refine ⟨yields_operandOfName fun _ => hname, fun env s x s' ρ σ hI hm hr hw => ?_⟩
  obtain ⟨c1, -⟩ := yields_operandOfName (N := True) (fun _ => hname) hm.ready.good hr
  obtain ⟨v, hv, hruns⟩ := runs_operandOfName hr hI (c1.within hw) hm.defined hm.ready
  rw [← hm.agrees name hlive, hv]
  exact hruns.map (f := fun _ => v) fun ρ' _ _ _ h => h

theorem evaluates_constant (hc : candidate ≠ some "") :
    Evaluates I c fuel live (do constant (← evalLiteral e) candidate e.pos) fun _ =>
      I.literal <$> Interpretation.settled (Evaluation.evalLiteral c.globals e) := by
  refine ⟨fun env s x s' hg hr => ?_, fun env s x s' ρ σ hI hm hr hw => ?_⟩
  · simp only [returns_bind, returns_evalLiteral] at hr
    obtain ⟨l, t, ⟨-, rfl⟩, hr⟩ := hr
    obtain ⟨c1, f1⟩ := computes_constant (N := True) hr fun _ => hc
    exact ⟨c1, f1.visible (c1.opened hg.opened)⟩
  · simp only [returns_bind, returns_evalLiteral] at hr
    obtain ⟨l, t, ⟨hl, rfl⟩, hr⟩ := hr
    obtain ⟨c1, -⟩ := computes_constant (N := True) hr fun _ => hc
    rw [hI.globals, hl]
    exact (runs_constant hr hI (c1.within hw) hm.defined).map (f := fun _ => I.literal l) fun ρ' _ _ _ h => h

theorem denotes_constantOr {m : Lower Lowered} (hm : e.isConstant = false → Denotes I c fuel live m run)
    (hc : candidate ≠ some "") : Denotes I c fuel live
      (if e.isConstant then do
        return .operand (← constant (← evalLiteral e) candidate e.pos) else m)
      (fun σ => if e.isConstant then I.literal <$> Interpretation.settled (Evaluation.evalLiteral c.globals e)
        else run σ) := by
  cases he : e.isConstant with
  | true => simpa only [bind_assoc, if_true] using denotes_operand (evaluates_constant hc)
  | false => simpa only [Bool.false_eq_true, if_false] using hm he

theorem comesTo_home {attributes : List Interchange.Attribute} {r₀ : Outcome (List (Option V))} (ho : o.domain = I.home)
    (hop : q.op = opName (o.op name)) (hattributes : q.attributes.map (·.value) = attributes)
    (hplain : ∀ a ∈ attributes, ∀ g, a.value ≠ .graph g)
    (hruns : RunsFresh I fuel s s' ρ r₀ fun ρ' vs => q.inputs.mapM ρ'.input = .ok vs) :
    q.ComesTo I fuel s s' ρ 1 (r₀ >>= fun vs => I.outputs I.home name attributes vs 1) := by
  refine ⟨by rwa [hattributes], r₀, hruns, ?_⟩
  have hdomain : q.op.domain = I.home := by
    rw [hop]
    exact ho
  rw [hdomain, hattributes, hop]
  rfl

theorem returns_binaryRequest (hr : Returns (binaryRequest op left right as) env s q s') :
    q.op = opName op ∧ q.attributes = as ∧ Returns (promote op.schema [left, right]) env s q.inputs s' := by
  simp only [binaryRequest, returns_bind, returns_pure] at hr
  obtain ⟨inputs, t, hp, rfl, rfl⟩ := hr
  exact ⟨rfl, rfl, hp⟩

theorem runs_binaryRequest {w : V} (hr : Returns (binaryRequest op left right as) env s q s') (hI : I.Suits c env)
    (hw : s'.Within c) (hready : s.Ready) (hd : s.Defined ρ) (hleft : left.name ∈ s.scopes.visible)
    (hright : right.name ∈ s.scopes.visible) (hv : ρ left.name = some v) (hw' : ρ right.name = some w) :
    RunsFresh I fuel s s' ρ (.ok [some v, some w]) fun ρ' vs => q.inputs.mapM ρ'.input = .ok vs := by
  obtain ⟨-, -, hp⟩ := returns_binaryRequest hr
  have hargs : ∀ a ∈ [left, right], a.name ∈ s.scopes.visible := by simp [hleft, hright]
  have hruns : Runs I fuel _ s s' ρ (.ok ()) _ := runs_promote hp hI hw hready hd (fun a ha => .inr (hargs a ha))
    fun a ha _ => hready.ne_empty (hargs a ha)
  have hvalues : [left, right].mapM (fun a => ρ.input a.name) = .ok [some v, some w] :=
    Outcome.mapM_eq_ok.2 (.cons (Values.input_of_eq (hready.ne_empty hleft) hv)
      (.cons (Values.input_of_eq (hready.ne_empty hright) hw') .nil))
  refine hruns.map (f := fun _ => [some v, some w]) fun ρ' _ _ _ h => ?_
  rw [h, hvalues]

theorem attributes_remainder {op : BinaryOp} {right : Expr} (hr : Returns (remainderAttributes op right) env s as s')
    (hI : I.Suits c env) :
    as.map (·.value) = c.operatorAttributes op right ∧ ∀ a ∈ as.map (·.value), ∀ g, a.value ≠ .graph g := by
  unfold remainderAttributes at hr
  unfold Setting.operatorAttributes
  split at hr
  · rename_i hmod
    rw [if_pos hmod]
    simp only [returns_bind, returns_evalLiteral] at hr
    obtain ⟨v, t, ⟨hv, rfl⟩, hr⟩ := hr
    rw [hI.globals, hv]
    split at hr
    · cases hr
      simp
    · rename_i hfloat
      cases hr
      cases v with
      | float x => exact (hfloat x rfl).elim
      | _ => simp
  · rename_i hmod
    rw [if_neg hmod]
    cases hr
    simp

theorem runs_operands₂ {x y : Operand} (hl : Evaluates I c fuel live l runL) (hr : Evaluates I c fuel live r runR)
    (hI : I.Suits c env) (hm : Mirrors I c live s ρ σ) (hx : Returns l env s x s₁) (hy : Returns r env s₁ y s₂)
    (hq : Returns (binaryRequest op x y as) env s₂ q s') (hw : s'.Within c) :
    RunsFresh I fuel s s' ρ (do let v ← runL σ; let w ← runR σ; return [some v, some w])
      fun ρ' vs => q.inputs.mapM ρ'.input = .ok vs := by
  have hg := hm.ready.good
  obtain ⟨c1, v1⟩ := hl.yields hg hx
  have hg1 := c1.good hg
  obtain ⟨c2, v2⟩ := hr.yields hg1 hy
  have v1' := c2.visible hg1.opened v1
  obtain ⟨-, -, hp⟩ := returns_binaryRequest hq
  obtain ⟨c3, -⟩ := computes_promote (N := True) hp (c2.good hg1) (by simp [State.Sees, v1', v2])
  have hw2 := c3.within hw
  refine (hl.runs hI hm hx (c2.within hw2)).seq c1.toGrows (c2.trans c3).toGrows fun ρ₁ v hk1 hd1 hv => ?_
  have hm1 := hm.computes c1 hk1 hd1
  refine (hr.runs hI hm1 hy hw2).seq c2.toGrows c3.toGrows fun ρ₂ w hk2 hd2 hw' => ?_
  have hm2 := hm1.computes c2 hk2 hd2
  refine runs_binaryRequest hq hI hw hm2.ready hd2 v1' v2 ?_ hw'
  rw [hk2 _ (hg1.taken.1 _ v1), hv]

theorem denotes_binary (op : BinaryOp) {right : Expr} (hl : Evaluates I c fuel live l runL)
    (hr : Evaluates I c fuel live r runR) :
    Denotes I c fuel live
      (do
        let attributes ← remainderAttributes op right
        let o ← defaultOp name
        let x ← l
        let y ← r
        return .request (← binaryRequest o x y attributes))
      (fun σ => do
        let v ← runL σ
        let w ← runR σ
        I.operate name [v, w] (c.operatorAttributes op right)) := by
  refine ⟨lowers_binary op hl.yields hr.yields, fun env s q s' ρ σ hI hm hrun hw => ?_⟩
  have hw0 := ((lowers_binary op hl.yields hr.yields) hm.ready.good hrun).1.within hw
  simp only [returns_bind, returns_defaultOp, returns_pure] at hrun
  obtain ⟨as, t, has, op', t', ⟨o, ho, rfl, rfl⟩, x, s₁, hx, y, s₂, hy, q, s₃, hq, rfl, rfl⟩ := hrun
  obtain ⟨rfl, -⟩ := returns_remainderAttributes has
  obtain ⟨hattributes, hplain⟩ := attributes_remainder has hI
  obtain ⟨hop, rfl, -⟩ := returns_binaryRequest hq
  rw [hattributes] at hplain
  refine ⟨_, comesTo_home (hI.domain hw0 ho) hop hattributes hplain (runs_operands₂ hl hr hI hm hx hy hq hw), ?_⟩
  simp only [operate, bind_assoc]
  rfl

theorem denotes_unary (hm : Evaluates I c fuel live m run) : Denotes I c fuel live
      (do
        let x ← m
        return .request { op := opName (← defaultOp name), inputs := [x.name] })
      (fun σ => do
        let v ← run σ
        I.operate name [v]) := by
  refine ⟨lowers_unary hm.yields, fun env s q s' ρ σ hI hmirror hr hw => ?_⟩
  simp only [returns_bind, returns_defaultOp, returns_pure] at hr
  obtain ⟨x, s₁, hx, op, t, ⟨o, ho, rfl, rfl⟩, rfl, rfl⟩ := hr
  obtain ⟨c1, v1⟩ := hm.yields hmirror.ready.good hx
  have hne := (c1.ready hmirror.ready).ne_empty v1
  have hinput : Runs I fuel _ s s₁ ρ ((fun v => [some v]) <$> run σ) fun ρ' vs => [x.name].mapM ρ'.input = .ok vs :=
    (hm.runs hI hmirror hx hw).map fun ρ' v _ _ hv => Outcome.mapM_eq_ok.2 (.cons (Values.input_of_eq hne hv) .nil)
  refine ⟨_, comesTo_home (q := { op := opName (o.op name), inputs := [x.name] }) (hI.domain hw ho) rfl rfl (by simp)
    hinput, ?_⟩
  simp only [operate, map_eq_pure_bind, bind_assoc]
  rfl

/-- The inputs of the last node of a chain that joins values from the left. -/
def joinInputs (I : Interpretation V) (operator : String) : V → Outcome V → List (Outcome V) → Outcome (List (Option V))
  | v, r, [] => do
    let w ← r
    return [some v, some w]
  | v, r, next :: rest => do
    let w ← r
    let u ← I.operate operator [v, w]
    joinInputs I operator u next rest

theorem join_eq (I : Interpretation V) (operator : String) : ∀ (rs : List (Outcome V)) (v : V) (r : Outcome V),
    I.join operator v (r :: rs) =
      joinInputs I operator v r rs >>= fun vs => I.outputs I.home operator [] vs 1 >>= single := by
  intro rs
  induction rs with
  | nil =>
    intro v r
    rw [Interpretation.join, joinInputs, bind_assoc]
    congr 1
    funext w
    exact bind_pure (I.operate operator [v, w])
  | cons next rest ih =>
    intro v r
    rw [Interpretation.join, joinInputs, bind_assoc]
    congr 1
    funext w
    rw [bind_assoc]
    congr 1
    funext u
    exact ih u next

theorem returns_joinOperands {ms : List (Lower Operand)} (hr : Returns (joinOperands op left m ms) env s q s') :
    q.op = opName op ∧ q.attributes = [] := by
  induction ms generalizing m left q s with
  | nil =>
    simp only [joinOperands, returns_bind] at hr
    obtain ⟨x, s₁, -, hq⟩ := hr
    obtain ⟨hop, has, -⟩ := returns_binaryRequest hq
    exact ⟨hop, has⟩
  | cons k ms ih =>
    simp only [joinOperands, returns_bind] at hr
    obtain ⟨x, s₁, -, q₁, s₂, -, tmp, s₃, -, u, s₄, -, hr⟩ := hr
    exact ih hr

theorem runs_joinOperands {m : α → Lower Operand} {val : α → Values V → Outcome V} (ho : o.domain = I.home)
    (hI : I.Suits c env) (hw : s'.Within c) {as : List α} {a : α}
    (hr : Returns (joinOperands (o.op name) left (m a) (as.map m)) env s q s') (hm : Mirrors I c live s ρ σ)
    (hleft : left.name ∈ s.scopes.visible) (hv : ρ left.name = some v)
    (hes : ∀ b ∈ a :: as, Evaluates I c fuel live (m b) (val b)) :
    RunsFresh I fuel s s' ρ (joinInputs I name v (val a σ) (as.map fun b => val b σ)) fun ρ' vs =>
      q.inputs.mapM ρ'.input = .ok vs := by
  induction as generalizing a left q s ρ v with
  | nil =>
    have he := hes a mem_cons_self
    simp only [map_nil, joinOperands, returns_bind] at hr
    obtain ⟨x, s₁, hx, hq⟩ := hr
    have hg := hm.ready.good
    obtain ⟨c1, v1⟩ := he.yields hg hx
    have hleft1 := c1.visible hg.opened hleft
    obtain ⟨c2, -⟩ := computes_binaryRequest (N := True) hq (c1.good hg) hleft1 v1
    refine (he.runs hI hm hx (c2.within hw)).seq c1.toGrows c2.toGrows fun ρ₁ w hk1 hd1 hw' => ?_
    refine runs_binaryRequest hq hI hw (c1.ready hm.ready) hd1 hleft1 v1 ?_ hw'
    rw [hk1 _ (hg.taken.1 _ hleft), hv]
  | cons b as ih =>
    have he := hes a mem_cons_self
    have hrest : ∀ d ∈ b :: as, Evaluates I c fuel live (m d) (val d) := fun d hd => hes d (mem_cons_of_mem _ hd)
    simp only [map_cons, joinOperands, returns_bind] at hr
    obtain ⟨x, s₁, hx, q₁, s₂, hq, tmp, s₃, hf, u, s₄, hemit, hr⟩ := hr
    have hg := hm.ready.good
    obtain ⟨c1, v1⟩ := he.yields hg hx
    have hg1 := c1.good hg
    have hleft1 := c1.visible hg.opened hleft
    obtain ⟨c2, seen2⟩ := computes_binaryRequest (N := True) hq hg1 hleft1 v1
    obtain ⟨c3, v3⟩ := computes_fresh_request (N := True) hf hemit (c2.good hg1) (fun _ => by simp) seen2
    have c24 := c2.trans c3
    obtain ⟨c5, -⟩ := computes_joinOperands hr (c24.good hg1) v3 (hrest b mem_cons_self).yields
      (forall_mem_map.2 fun d hd => (hrest d (mem_cons_of_mem _ hd)).yields)
    have hw4 := c5.within hw
    have hw2 := c3.within hw4
    obtain ⟨hop, has, -⟩ := returns_binaryRequest hq
    refine (he.runs hI hm hx (c2.within hw2)).seq c1.toGrows (c24.trans c5).toGrows fun ρ₁ w hk1 hd1 hw' => ?_
    have hm1 := hm.computes c1 hk1 hd1
    -- the node of the first two values
    have hfirst : q₁.ComesTo I fuel s₁ s₂ ρ₁ 1 (.ok [some v, some w] >>= fun vs => I.outputs I.home name [] vs 1) := by
      refine comesTo_home ho hop (by rw [has]; rfl) (by simp) (runs_binaryRequest hq hI hw2 hm1.ready hd1 hleft1 v1 ?_ hw')
      rw [hk1 _ (hg.taken.1 _ hleft), hv]
    refine (hfirst.fresh_emit c2 hf (by simp) hemit).seq c24.toGrows c5.toGrows fun ρ₂ d hk2 hd2 hd => ?_
    exact ih hr (hm1.computes c24 hk2 hd2) v3 hd hrest

theorem denotes_boolean {part : α → Part} {val : α → Values V → Outcome V} (op : BoolOp) (pos : Position) {es : List α}
    (hes : ∀ e ∈ es, Evaluates I c fuel live (part e).lower (val e)) : Denotes I c fuel live
      (do
        let o ← defaultOp op.label
        match es.map part with
        | first :: second :: rest =>
          return .request (← joinOperands o (← first.lower) second.lower (rest.map (·.lower)))
        | _ => fail .emptyBoolean pos)
      (fun σ => match es.map (val · σ) with
        | first :: second :: rest => do
          let v ← first
          I.join op.label v (second :: rest)
        | _ => .error .stuck) := by
  refine ⟨lowers_boolean (forall_mem_map.2 fun e he => (hes e he).yields), fun env s l s' ρ σ hI hm hr hw => ?_⟩
  simp only [returns_bind, returns_defaultOp] at hr
  obtain ⟨op', t, ⟨o, ho, rfl, rfl⟩, hr⟩ := hr
  rcases es with _ | ⟨first, _ | ⟨second, rest⟩⟩
  · cases hr
  · cases hr
  · simp only [map_cons, map_map, returns_bind, returns_pure] at hr
    obtain ⟨x, s₁, hx, q, s₂, hq, rfl, rfl⟩ := hr
    have he := hes first mem_cons_self
    have hrest : ∀ d ∈ second :: rest, Evaluates I c fuel live (part d).lower (val d) :=
      fun d hd => hes d (mem_cons_of_mem _ hd)
    have hg := hm.ready.good
    obtain ⟨c1, v1⟩ := he.yields hg hx
    obtain ⟨c2, -⟩ := computes_joinOperands hq (c1.good hg) v1 (hrest second mem_cons_self).yields
      (forall_mem_map.2 fun d hd => (hrest d (mem_cons_of_mem _ hd)).yields)
    have hw1 := c2.within hw
    have hdomain := hI.domain (c1.within hw1) ho
    obtain ⟨hop, has⟩ := returns_joinOperands hq
    have hinputs : RunsFresh I fuel s s₂ ρ
        (val first σ >>= fun v => joinInputs I op.label v (val second σ) (rest.map fun b => val b σ))
        fun ρ' vs => q.inputs.mapM ρ'.input = .ok vs := by
      refine (he.runs hI hm hx hw1).seq c1.toGrows c2.toGrows fun ρ₁ v hk1 hd1 hv => ?_
      exact runs_joinOperands (m := fun e => (part e).lower) hdomain hI hw hq (hm.computes c1 hk1 hd1) v1 hv hrest
    have hnone : q.attributes.map (·.value) = [] := by
      rw [has]
      rfl
    refine ⟨_, comesTo_home hdomain hop hnone (by simp) hinputs, ?_⟩
    simp only [map_cons, bind_assoc, join_eq]

theorem returns_compareRequest (hr : Returns (compareRequest cmp name left right) env s q s') :
    ∃ o q₁ s₁, s.defaultOpset = some o ∧
      Returns (binaryRequest (o.op name) left right) env s q₁ s₁ ∧
      (cmp = .notEq ∧ (∃ tmp s₂, Returns (fresh "tmp") env s₁ tmp s₂ ∧ Returns (q₁.emit [tmp]) env s₂ () s' ∧
          ∃ o', s'.defaultOpset = some o' ∧ q = { op := opName (o'.op "Not"), inputs := [tmp] }) ∨
        cmp ≠ .notEq ∧ q = q₁ ∧ s' = s₁) := by
  simp only [compareRequest, returns_bind, returns_defaultOp] at hr
  obtain ⟨op, t, ⟨o, ho, rfl, rfl⟩, q₁, s₁, hq, hr⟩ := hr
  refine ⟨o, q₁, s₁, ho, hq, ?_⟩
  split at hr
  · rename_i hne
    simp only [returns_bind, returns_defaultOp, returns_pure] at hr
    obtain ⟨tmp, s₂, hf, u, s₃, he, op', t, ⟨o', ho', rfl, rfl⟩, rfl, rfl⟩ := hr
    exact .inl ⟨hne, tmp, s₂, hf, he, o', ho', rfl⟩
  · rename_i hne
    cases hr
    exact .inr ⟨hne, rfl, rfl⟩

theorem denotes_compare (hcmp : compareOp? cmp = some name) (hl : Evaluates I c fuel live l runL)
    (hr : Evaluates I c fuel live r runR) :
    Denotes I c fuel live
      (do
        let x ← l
        return .request (← compareRequest cmp name x (← r)))
      (fun σ => do
        let v ← runL σ
        let w ← runR σ
        I.compare cmp v w) := by
  refine ⟨lowers_compare hl.yields hr.yields, fun env s q s' ρ σ hI hm hrun hw => ?_⟩
  simp only [returns_bind, returns_pure] at hrun
  obtain ⟨x, s₁, hx, y, s₂, hy, q, s₃, hq, rfl, rfl⟩ := hrun
  obtain ⟨o, q₁, s₄, ho, hq₁, hcase⟩ := returns_compareRequest hq
  obtain ⟨hop, has, -⟩ := returns_binaryRequest hq₁
  have hnone : q₁.attributes.map (·.value) = [] := by
    rw [has]
    rfl
  have hg := hm.ready.good
  obtain ⟨c1, v1⟩ := hl.yields hg hx
  have hg1 := c1.good hg
  obtain ⟨c2, v2⟩ := hr.yields hg1 hy
  obtain ⟨c3, seen3⟩ := computes_binaryRequest (N := True) hq₁ (c2.good hg1) (c2.visible hg1.opened v1) v2
  have c13 := c1.trans (c2.trans c3)
  rcases hcase with ⟨rfl, tmp, s₅, hf, he, o', ho', rfl⟩ | ⟨hne, rfl, rfl⟩
  · obtain ⟨c4, v4⟩ := computes_fresh_request (N := True) hf he (c13.good hg) (fun _ => by simp) seen3
    have hw4 := c4.within hw
    have hdomain := hI.domain (c3.within hw4) ho
    have hfirst := comesTo_home hdomain hop hnone (by simp) (runs_operands₂ hl hr hI hm hx hy hq₁ hw4)
    have hne := ((c13.trans c4).ready hm.ready).ne_empty v4
    have hinput := (hfirst.fresh_emit c13 hf (by simp) he).map (f := fun u => [some u])
      (S := fun ρ' vs => [tmp].mapM ρ'.input = .ok vs) fun ρ' u _ _ hu =>
        Outcome.mapM_eq_ok.2 (.cons (Values.input_of_eq hne hu) .nil)
    refine ⟨_, comesTo_home (q := { op := opName (o'.op "Not"), inputs := [tmp] }) (hI.domain hw ho') rfl rfl (by simp)
      hinput, ?_⟩
    simp only [Interpretation.compare, hcmp, operate, map_eq_pure_bind, bind_assoc, if_true]
    rfl
  · have hdomain := hI.domain (c3.within hw) ho
    refine ⟨_, comesTo_home hdomain hop hnone (by simp) (runs_operands₂ hl hr hI hm hx hy hq₁ hw), ?_⟩
    simp only [Interpretation.compare, hcmp, operate, bind_assoc, if_neg hne, bind_pure]
    rfl

end Lowering

end OpGraph
