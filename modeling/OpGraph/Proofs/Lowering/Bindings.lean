import OpGraph.Proofs.Lowering.Reach

/-!
What names are bound to at the points of a lowering. A parameter is bound to an input or an attribute parameter, a
definition binds a nested function with what it captured, and all other names are bound to graph values. A value that
counts as a literal is one that a `Constant` node of an open scope holds.
-/

namespace OpGraph

open List

/-- A function computes a literal: a `Constant` node holds it, or it is a `Cast` of one that does. -/
def GraphFunction.HasLiteral (f : GraphFunction) (v : String) : Prop :=
  ∃ n ∈ f.nodes, n.outputs = [v] ∧ (n.op.name = "Constant" ∨
    n.op.name = "Cast" ∧ ∃ c ∈ f.nodes, c.op.name = "Constant" ∧ c.outputs = n.inputs)

theorem GraphFunction.HasLiteral.mono {f g : GraphFunction} {v : String} (h : f.HasLiteral v) (hn : f.nodes <+: g.nodes) :
    g.HasLiteral v := by
  obtain ⟨n, hmem, hout, hop⟩ := h
  exact ⟨n, hn.subset hmem, hout, hop.imp_right fun h => ⟨h.1, h.2.imp fun c hc => ⟨hn.subset hc.1, hc.2⟩⟩⟩

namespace Lowering

variable {N : Prop} {env : Env} {s s' : State} {pos : Position}
variable {b : Binding} {P : Binding → Prop} {h h' : Held} {kinds : List ScopeKind} {x : Operand}
variable {candidate : Option String} {place : Place} {domain name : String} {A : String → Binding → Prop} {u : Unit}
variable {Q : Binding → Prop} {target value : Expr} {names : List String} {header : LoopHeader}
variable {type : Option DeclaredType} {s₀ : State} {v : String} {task : Task}

/-! ### Literals -/

namespace State

def Literal (s : State) (v : String) : Prop :=
  ∃ f ∈ s.scopes, f.fn.HasLiteral v

theorem Literal.grows (hl : s.Literal v) (a : Grows N s h s' h') : s'.Literal v := by
  obtain ⟨f, hf, hv⟩ := hl
  have hs : s.scopes ≠ [] := ne_nil_of_mem hf
  obtain ⟨g, hg, hcur, -⟩ := scopes_eq_cons hs
  obtain ⟨g', hg', hcur', -⟩ := scopes_eq_cons (a.opened hs)
  have hnodes := a.nodes
  rw [hcur, hcur'] at hnodes
  rw [hg] at hf
  rw [Literal, hg', a.around]
  rcases mem_cons.1 hf with rfl | hf
  · exact ⟨g', mem_cons_self, hv.mono hnodes⟩
  · exact ⟨f, mem_cons_of_mem _ hf, hv⟩

/-- What the names of the open scopes are bound to. -/
def All (P : Binding → Prop) (s : State) : Prop :=
  ∀ f ∈ s.scopes, ∀ x b, Members.get? f.bindings x = some b → P b

theorem All.lookup {x : String} (h : s.All P) (hx : s.scopes.lookup x = some b) : P b := by
  obtain ⟨f, hf, hb⟩ := exists_of_findSome?_eq_some hx
  exact h f hf x b hb

theorem All.grows (hall : s.All P) (hs : s.scopes ≠ []) (a : Grows N s h s' h') (hPQ : ∀ b, P b → Q b)
    (hA : ∀ x b, A x b → Q b) (hb : ∀ x, Members.get? s'.bindings x = Members.get? s.bindings x ∨
      ∃ b, Members.get? s'.bindings x = some b ∧ A x b) : s'.All Q := by
  obtain ⟨g, hg, -, hold⟩ := scopes_eq_cons hs
  obtain ⟨g', hg', -, hnew⟩ := scopes_eq_cons (a.opened hs)
  intro f hf x b hx
  rw [hg', a.around] at hf
  rcases mem_cons.1 hf with rfl | hf
  · rw [← hnew] at hx
    rcases hb x with hsame | ⟨b', hb', hA'⟩
    · rw [hsame, hold] at hx
      exact hPQ b (hall g (by rw [hg]; exact mem_cons_self) x b hx)
    · rw [hx] at hb'
      cases hb'
      exact hA x b hA'
  · exact hPQ b (hall f (by rw [hg]; exact mem_cons_of_mem _ hf) x b hx)

theorem All.enters (hall : s.All P) (e : Enters s name domain s') (hPQ : ∀ b, P b → Q b) : s'.All Q := by
  intro f hf x b hx
  rw [e.scopes] at hf
  rcases mem_cons.1 hf with rfl | hf
  · cases hx
  · exact hPQ b (hall f hf x b hx)

/-- The names that count as literals are bound to literals. -/
def Literals (s : State) : Prop :=
  s.All fun b => ∀ v t, b = .graph v .constant t → s.Literal v

end State

theorem hasLast_emitDefault {outputs inputs : List String} {attributes : List NodeAttribute}
    (hr : Returns (emitDefault outputs name inputs attributes) env s u s') :
    ∃ f n, s'.scopes = f :: s.around ∧ f.fn.nodes = s.current.nodes ++ [n] ∧ n.op.name = name ∧ n.outputs = outputs ∧
      n.inputs = inputs := by
  obtain ⟨o, -, he⟩ := returns_emitDefault.1 hr
  have e := edits_modifyFunction he
  have hs : s'.scopes ≠ [] := by
    intro h0
    have := e.depth
    rw [h0] at this
    exact e.opened (eq_nil_of_length_eq_zero this.symm)
  obtain ⟨f, hf, hcur, -⟩ := State.scopes_eq_cons hs
  rw [e.around] at hf
  exact ⟨f, _, hf, by rw [← hcur, nodes_emit he], rfl, rfl, rfl⟩

theorem literal_constant {v : Literal} (hr : Returns (constant v candidate pos) env s x s') : s'.Literal x.name := by
  simp only [constant, returns_bind, returns_pure, returns_liftAt] at hr
  obtain ⟨name, s₁, -, tensor, s₂, ⟨-, rfl⟩, u, s₃, he, rfl, rfl⟩ := hr
  obtain ⟨f, n, hf, hnodes, hop, hout, -⟩ := hasLast_emitDefault he
  exact ⟨f, by rw [hf]; exact mem_cons_self, n, by simp [hnodes], hout, .inl hop⟩

theorem literal_attributeValue {param candidate : String} {type : DeclaredType}
    (hr : Returns (attributeValue param type candidate pos) env s x s') : s'.Literal x.name := by
  unfold attributeValue at hr
  split at hr
  · cases hr
  · simp only [returns_bind] at hr
    obtain ⟨name, s₁, -, u, s₂, he, hr⟩ := hr
    obtain ⟨f, n, hf, hnodes, hop, hout, -⟩ := hasLast_emitDefault he
    split at hr
    · simp only [returns_bind, returns_pure] at hr
      obtain ⟨cast, s₃, hfresh, u', s₄, he', rfl, rfl⟩ := hr
      obtain ⟨g, k, hg, hnodes', hop', hout', hin⟩ := hasLast_emitDefault he'
      have hmem : n ∈ s₃.current.nodes := by
        obtain ⟨-, rfl⟩ := returns_fresh.1 hfresh
        rw [State.current, hf]
        simp [hnodes]
      refine ⟨g, by rw [hg]; exact mem_cons_self, k, by simp [hnodes'], hout', .inr ⟨hop', n, ?_, hop, ?_⟩⟩
      · rw [hnodes']
        exact mem_append_left _ hmem
      · rw [hout, hin]
    · cases hr
      exact ⟨f, by rw [hf]; exact mem_cons_self, n, by simp [hnodes], hout, .inl hop⟩

theorem literal_operandOf (hb : ∀ v t, b = .graph v .constant t → s.Literal v)
    (hr : Returns (operandOf b name pos) env s x s') (hx : x.isConst) : s'.Literal x.name := by
  unfold operandOf at hr
  split at hr
  · exact literal_attributeValue hr
  · rename_i value provenance type
    cases hr
    cases provenance with
    | constant => exact hb value type rfl
    | _ => cases hx
  · cases hr
  · split at hr
    · exact literal_constant hr
    · cases hr

theorem isConst_subscript {value : Lower Operand} {is : List Index}
    (hr : Returns (subscript pos value is candidate) env s x s') : x.isConst = false := by
  simp only [subscript, returns_bind] at hr
  obtain ⟨base, s₁, -, result, s₂, -, ⟨ks, ps⟩, s₃, -, hr⟩ := hr
  dsimp only at hr
  split at hr
  · simp only [returns_bind, returns_pure] at hr
    obtain ⟨u, s₄, -, rfl, -⟩ := hr
    rfl
  · split at hr
    · simp only [returns_bind, returns_pure] at hr
      obtain ⟨sliced, s₄, -, last, s₅, -, rfl, -⟩ := hr
      rfl
    · simp only [returns_bind, returns_pure] at hr
      obtain ⟨last, s₄, -, rfl, -⟩ := hr
      rfl

/-- **The value of an expression that counts as a literal is one.** -/
theorem literal_lowerOperand {e : Expr} (hl : s.Literals) (hr : Returns (lowerOperand e candidate) env s x s')
    (hx : x.isConst) : s'.Literal x.name := by
  simp only [lowerOperand, returns_bind] at hr
  obtain ⟨l, s₁, hr, hfin⟩ := hr
  cases l with
  | operand y =>
    cases hfin
    rcases operand_of_lowerExpr hr with ⟨v, hc⟩ | ⟨pos, id, rfl, hn⟩ | ⟨pos, value, is, hs⟩
    · exact literal_constant hc
    · simp only [operandOfName, returns_bind, returns_lookup] at hn
      obtain ⟨b, t, ⟨hb, rfl⟩, hn⟩ := hn
      refine literal_operandOf (fun v t hv => ?_) hn hx
      rcases Option.or_eq_some_iff.1 hb with hb | ⟨-, hb⟩
      · exact hl.lookup hb v t hv
      · rw [hv] at hb
        simp at hb
    · rw [isConst_subscript hs] at hx
      cases hx
  | request r =>
    simp only [finish, returns_bind, returns_pure] at hfin
    obtain ⟨name, s₂, -, u, s₃, -, rfl, -⟩ := hfin
    cases hx

/-! ### What statements bind -/

/-- Steps in a scope keep the names that count as literals bound to literals, if they bind no others. -/
theorem State.Literals.declaring (hl : s.Literals) (hs : s.scopes ≠ []) (a : Grows N s h s' h') (d : s.Declaring A s')
    (hA : ∀ x v t, A x (.graph v .constant t) → s'.Literal v) : s'.Literals :=
  hl.grows hs a (fun _ hb v t hv => (hb v t hv).grows a) (fun x _ hx v t hv => hA x v t (hv ▸ hx)) d.bindings

theorem State.Literals.computes (hl : s.Literals) (hs : s.scopes ≠ []) (c : Computes N s h s' h') : s'.Literals :=
  hl.grows (A := fun _ _ => False) hs c.toGrows (fun _ hb v t hv => (hb v t hv).grows c.toGrows) (fun _ _ h => h.elim)
    fun x => .inl (by rw [c.bindings])

theorem literals_assign (hg : s.Good) (hl : s.Literals) (hr : Returns (assign target value type) env s u s') :
    s'.Literals := by
  have a := performs_assign (N := False) (fun h => h.elim) (fun h => h.elim) hg hr
  unfold assign at hr
  split at hr
  · obtain ⟨x, s₁, hx, hbind⟩ := returns_bind.1 hr
    obtain ⟨c, hv⟩ := yields_lowerOperand (N := False) (fun h => h.elim) (fun h => h.elim) hg hx
    have hbound : s₁.Rebinding (fun _ b => ∃ p t, b = .graph x.name p t ∧ (p = .constant → x.isConst)) s' :=
      (acts_bind (K := .any) ⟨_, _, rfl, by simp⟩).also hbind
    have d := State.Framed.trans ((acts_lowerOperand (K := .any) ..).also hx) hbound
    refine hl.declaring hg.opened a.toGrows d.toDeclaring ?_
    rintro y v t ⟨p, t', hb, hp⟩
    obtain ⟨rfl, rfl, rfl⟩ := Binding.graph.inj hb
    exact (literal_lowerOperand hl hx (hp rfl)).grows (advances_bind (N := False) hbind (c.good hg) hv).toGrows
  · simp only [returns_bind] at hr
    obtain ⟨ids, s₁, hids, results, s₂, hres, hbind⟩ := hr
    obtain ⟨rfl, -⟩ := returns_targetNames hids
    have hsteps : Acts (State.Rebinding fun _ b => ∃ v, b = .graph v .intermediate none) .any env
        ((ids.zip results).forM fun p => bind p.1 (.graph p.2 .intermediate none)) :=
      .forM fun _ _ => acts_bind ⟨_, rfl⟩
    have hframes := (reads_lowerOutputs (R := .any) _ fun _ _ => trivial).frames s results s₂ s.closed_any hres
    have d := State.Framed.trans (State.Framed.of_frames hframes) (hsteps.also hbind)
    exact hl.declaring hg.opened a.toGrows d.toDeclaring fun x v t h => absurd h (by simp)
  · cases hr

theorem literals_assignPairs {ps : List (Expr × Expr)} (hg : s.Good) (hl : s.Literals)
    (hr : Returns (ps.forM fun (t, v) => assign t v none) env s u s') : s'.Literals := by
  induction ps generalizing s u with
  | nil =>
    cases hr
    exact hl
  | cons p ps ih =>
    obtain ⟨v, s₁, h1, hr⟩ := returns_bind.1 hr
    have a := performs_assign (N := False) (fun h => h.elim) (fun h => h.elim) hg h1
    exact ih (a.good hg) (literals_assign hg hl h1) hr

theorem literals_assignAny (hg : s.Good) (hl : s.Literals) (hr : Returns (assignAny pos target value type) env s u s') :
    s'.Literals := by
  unfold assignAny at hr
  split at hr
  · split at hr
    · split at hr
      · cases hr
      · exact literals_assignPairs hg hl hr
    · cases hr
  · exact literals_assign hg hl hr

theorem literals_lowerStmt {x : Stmt NameSet} (hg : s.Good) (hl : s.Literals)
    (hr : Returns (lowerStmt place x) env s u s') : s'.Literals := by
  have hother : (∀ y v t, ¬Makes x y (.graph v .constant t)) → s'.Literals := fun hx =>
    hl.declaring hg.opened (continues_lowerStmt hg hr).toGrows ((acts_lowerStmt (K := .any) place x).also hr).toDeclaring
      fun y v t h => absurd h (hx y v t)
  cases x with
  | assign m targets value =>
    rw [lowerStmt.eq_def] at hr
    dsimp only at hr
    split at hr
    · exact literals_assignAny hg hl hr
    · cases hr
  | annAssign m target typeExpr value =>
    rw [lowerStmt.eq_def] at hr
    dsimp only [assignAnnotated] at hr
    split at hr
    · cases hr
    · obtain ⟨type, s₁, htype, hr⟩ := returns_bind.1 hr
      have c := (returns_annotationType? htype).computes (N := False) (h := {})
      exact literals_assignAny (c.good hg) (hl.computes hg.opened c) hr
  | function m fn =>
    cases fn
    exact hother fun y v t h => absurd h.2 (by simp)
  | _ => exact hother fun y v t h => absurd h.2 (by simp)

/-! ### What is captured -/

/-- What a name stands for: what it is bound to in the open scopes, or a value of the module. -/
def State.binding? (s : State) (env : Env) (x : String) : Option Binding :=
  (s.scopes.lookup x).or ((Members.get? env.globals x).map .value)

/-- What a nested function remembers of a name that it reads: what the name stands for. -/
def State.Captures (s : State) (env : Env) (x : String) (p : String × Identity) : Prop :=
  p.1 = x ∧ ∃ b, s.binding? env x = some b ∧ p.2 = b.identity

theorem captures_mapM : ∀ {captured : List (String × Identity)},
    Returns (names.mapM fun name => do return (name, (← lookup name pos).identity)) env s captured s' →
    s' = s ∧ Forall₂ (s.Captures env) names captured := by
  induction names with
  | nil =>
    intro captured hr
    cases hr
    exact ⟨rfl, .nil⟩
  | cons x names ih =>
    intro captured hr
    simp only [mapM_cons, returns_bind, returns_lookup, returns_pure] at hr
    obtain ⟨p, s₁, ⟨b, s₂, ⟨hb, rfl⟩, rfl, rfl⟩, ps, s₃, hps, rfl, rfl⟩ := hr
    obtain ⟨rfl, hrest⟩ := ih hps
    exact ⟨rfl, .cons ⟨rfl, b, hb, rfl⟩ hrest⟩

/-- **A definition** binds its name to a function that remembers what the names it reads stood for before. -/
theorem bindings_definition {m : Mark NameSet} {d : FunctionDef NameSet}
    (hr : Returns (lowerStmt place (.function m d)) env s u s') : ∃ k fn captured, fn.name = d.name ∧
      s'.bindings = Members.set s.bindings d.name (.function k fn captured) ∧
      Forall₂ (s.Captures env) d.captured.toList captured := by
  obtain ⟨_, _, _, body, _⟩ := d
  rw [lowerStmt.eq_def] at hr
  obtain ⟨fn, t, rfl, hframes, hr⟩ := returns_nested (acts_lowerBody (K := .any) true body).also hr
  simp only [bindNested, returns_bind, returns_modifyGet, Prod.mk.injEq] at hr
  obtain ⟨captured, t₁, hcap, k, t₂, ⟨rfl, rfl⟩, u₁, t₃, hbind, hadd⟩ := hr
  obtain ⟨h1, hcap⟩ := captures_mapM hcap
  subst h1
  refine ⟨t₁.next, fn, captured, rfl, ?_, hcap.imp fun x p h => ?_⟩
  · rw [(edits_modifyFunction hadd).bindings, (edits_bind hbind).bindings]
    exact congrArg (Members.set · _ _) (State.bindings_of_frames hframes)
  · unfold State.Captures State.binding? at *
    rwa [State.lookup_of_frames hframes] at h

/-! ### Points -/

variable {start : State} {fn : FunctionDef NameSet}

/-- A binding at a point of the lowering of a function. A nested function comes from a point where it is defined. -/
inductive Legit (env : Env) (start : State) (fn : FunctionDef NameSet) (s : State) : Binding → Prop
  | value {v : String} {p : Provenance} {t : Option DeclaredType} (literal : p = .constant → s.Literal v) :
    Legit env start fn s (.graph v p t)
  | attr {name : String} {t : DeclaredType} (typed : t.isAttr) : Legit env start fn s (.attr name t)
  | function {k : ℕ} {g : GraphFunction} {captured : List (String × Identity)} {place : Place} {m : Mark NameSet}
    {d : FunctionDef NameSet} {s₀ : State} {kinds : List ScopeKind}
    (defined : Reaches env start fn (.stmt place (.function m d)) s₀ kinds) (name : g.name = d.name)
    (captures : List.Forall₂ (s₀.Captures env) d.captured.toList captured) :
    Legit env start fn s (.function k g captured)

theorem Legit.mono (h : Legit env start fn s b) (hl : ∀ v, s.Literal v → s'.Literal v) : Legit env start fn s' b := by
  cases h with
  | value literal => exact .value fun hp => hl _ (literal hp)
  | attr typed => exact .attr typed
  | function defined name captures => exact .function defined name captures

/-- All names of the open scopes are bound as they can be. -/
def State.Legit (s : State) (env : Env) (start : State) (fn : FunctionDef NameSet) : Prop :=
  s.All (Lowering.Legit env start fn s)

namespace State.Legit

theorem literals (hl : s.Legit env start fn) : s.Literals := by
  rintro f hf x b hx v t rfl
  cases hl f hf x _ hx with
  | value literal => exact literal rfl

theorem grows (hl : s.Legit env start fn) (hs : s.scopes ≠ []) (a : Grows N s h s' h') (d : s.Declaring A s')
    (hA : ∀ x b, A x b → Lowering.Legit env start fn s' b) : s'.Legit env start fn :=
  All.grows hl hs a (fun _ hb => hb.mono fun _ hv => hv.grows a) hA d.bindings

theorem computes (hl : s.Legit env start fn) (hs : s.scopes ≠ []) (c : Computes N s h s' h') : s'.Legit env start fn :=
  All.grows (A := fun _ _ => False) hl hs c.toGrows (fun _ hb => hb.mono fun _ hv => hv.grows c.toGrows)
    (fun _ _ h => h.elim) fun x => .inl (by rw [c.bindings])

theorem enters (hl : s.Legit env start fn) (e : Enters s name domain s') : s'.Legit env start fn := by
  refine All.enters hl e fun _ h => h.mono ?_
  rintro v ⟨f, hf, hv⟩
  exact ⟨f, by rw [e.scopes]; exact mem_cons_of_mem _ hf, hv⟩

theorem signature {params : List Param} {defaults : List Expr} {returns : Option Expr} (hl : s.Legit env start fn)
    (e : Enters s name domain s₀) (hg : s₀.Good) (hsig : Returns (signature name params defaults returns) env s₀ () s') :
    s'.Legit env start fn := by
  have d := declares_signature (N := False) hsig hg
  refine (hl.enters e).grows hg.opened d.toGrows ((acts_signature (K := .any) ..).also hsig) ?_
  rintro x b (⟨t, rfl⟩ | ⟨t, ht, rfl⟩)
  · exact .value (by simp)
  · exact .attr ht

theorem loopStart {c : String} (hl : s.Legit env start fn) (hs : s.Nested kinds) (e : Enters s name domain s₀)
    (hr : Returns (loopStart header names) env s₀ c s') : s'.Legit env start fn := by
  have hopened : s₀.scopes ≠ [] := by simp [e.scopes]
  refine (hl.enters e).grows hopened (grows_loopStart hs e hr).1
    ((acts_loopStart (K := .any) (A := fun _ b => ∃ v, b = .graph v .loopCarried none) (fun _ v => ⟨v, rfl⟩)
      ..).also hr) ?_
  rintro x b ⟨v, rfl⟩
  exact .value (by simp)

theorem lowerStmt {x : Stmt NameSet} (hl : s.Legit env start fn) (r : Reaches env start fn (.stmt place x) s kinds)
    (hg : s.Good) (hr : Returns (lowerStmt place x) env s u s') : s'.Legit env start fn := by
  have a := continues_lowerStmt hg hr
  have hlit := literals_lowerStmt hg hl.literals hr
  have moved := (acts_lowerStmt (K := .any) place x).also hr
  have hs' := a.opened hg.opened
  refine hl.grows (A := fun y b => Members.get? s'.bindings y = some b ∧ Makes x y b) hg.opened a.toGrows
    ⟨moved.toSameScope, fun y => (moved.bindings y).imp_right (Exists.imp fun _ hb => ⟨hb.1, hb⟩)⟩ ?_
  rintro y b ⟨hb, hm⟩
  obtain ⟨f, hf, -, hf'⟩ := State.scopes_eq_cons hs'
  have hvalue : ∀ v p t, b = .graph v p t → Lowering.Legit env start fn s' b := by
    rintro v p t rfl
    refine .value fun hp => hlit f (by rw [hf]; exact mem_cons_self) y _ (hf' ▸ hb) v t ?_
    rw [hp]
  cases x with
  | function m d =>
    obtain ⟨k, g, captured, hname, hset, hcap⟩ := bindings_definition hr
    obtain rfl : y = d.name := by simpa [Stmt.assigns] using hm.1
    rw [hset, Members.get?_set, if_pos rfl] at hb
    cases hb
    exact .function r hname hcap
  | assign m targets value | annAssign m target typeExpr value =>
    obtain ⟨v, p, t, h⟩ := hm.2
    exact hvalue v p t h
  | _ =>
    obtain ⟨v, h⟩ := hm.2
    exact hvalue v _ _ h

end State.Legit

theorem legit_loopCondition (hl : s.Legit env start fn) (hg : s.Good)
    (hr : Returns (loopCondition pos header) env s x s') : s'.Legit env start fn := by
  unfold loopCondition at hr
  split at hr
  · exact hl.computes hg.opened (computes_constant (N := False) hr fun h => h.elim).1
  · exact hl.computes hg.opened (yields_operandOfName (N := False) (fun h => h.elim) hg hr).1

/-- **One step.** -/
theorem Leads.legit {task' : Task} {opened : List ScopeKind} (l : Leads env task s opened task' s')
    (r : Reaches env start fn task s kinds) (hs : s.Nested kinds) (hl : s.Legit env start fn) :
    s'.Legit env start fn := by
  cases l with
  | blockHead | loopHead | bodyHead => exact hl
  | blockTail hr => exact hl.lowerStmt (.step r .blockHead) hs.good hr
  | loopTail hx hr => exact hl.lowerStmt (.step r (.loopHead hx)) hs.good hr
  | bodyTail hr => exact hl.lowerStmt (.step r .bodyHead) hs.good hr
  | thenBranch hc he =>
    have c := (yields_lowerOperand (N := False) (fun h => h.elim) (fun h => h.elim) hs.good hc).1
    exact (hl.computes hs.good.opened c).enters (enters_enter he)
  | elseBranch hc hb he =>
    have c := (yields_lowerOperand (N := False) (fun h => h.elim) (fun h => h.elim) hs.good hc).1
    have hg := c.good hs.good
    obtain ⟨c', -⟩ := computes_branch (N := False) hb hg (performs_lowerBlock _ fun h => h.elim) fun h => h.elim
    exact ((hl.computes hs.good.opened c).computes hg.opened c').enters (enters_enter he)
  | forBody hh hc he hstart =>
    have c := (returns_forHeader (N := False) hh hs.good fun h => h.elim).1
    have h1 := hs.computes c
    exact (legit_loopCondition (hl.computes hs.good.opened c) h1.good hc).loopStart (nested_loopCondition h1 hc)
      (enters_enter he) hstart
  | whileBody hh hc he hstart =>
    obtain ⟨rfl, -⟩ := returns_whileHeader hh
    exact (legit_loopCondition hl hs.good hc).loopStart (nested_loopCondition hs hc) (enters_enter he) hstart
  | nested he hsig =>
    have e := enters_enter he
    exact hl.signature e (e.good hs.good.bound hs.good.taken.1) hsig

/-- **Every point** of the lowering of a function at the top level. -/
theorem Reaches.legit (r : Reaches env start fn task s kinds) (hs : start.scopes = []) : s.Legit env start fn := by
  induction r with
  | start he hsig =>
    have e := enters_enter he
    have hempty : start.Legit env start fn := by
      intro f hf
      rw [hs] at hf
      cases hf
    exact hempty.signature e (e.good (by rw [hs]; trivial) (by rw [hs]; simp [Scopes.visible])) hsig
  | step r l ih => exact l.legit r (r.nested_of hs) ih

end Lowering

end OpGraph
