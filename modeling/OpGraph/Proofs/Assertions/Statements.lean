import OpGraph.Proofs.Locality.Statements
import OpGraph.Proofs.Lowering.Functions

/-!
The contracts of the lowering of statements. If the globals are as asked, so is the function that is lowered; and the
names that the lowering of a statement binds are those that the statement assigns. Blocks and nested functions are lowered
in scopes of their own, so that what they bind is gone when they end.
-/

namespace OpGraph

open List

namespace Lowering

open State

variable {A : String → Binding → Prop} {T : State → State → Prop} [Framed T] {K : Kinds} {env : Env}
  [hK : K.Lawful env] {H : Prop} {pos : Position}
variable {target : Expr} {names : List String} {body : Lower Unit}

/-! ### Blocks -/

theorem acts_ownOutput (declared : List String) (value name : String) :
    Acts T K env (ownOutput declared value name) := by
  refine .andThen acts_currentFunction fun f => ?_
  split
  · exact .done
  · exact acts_copy ..

theorem Kinds.shipped_blockFunctions {blocks : List GraphFunction} (hb : ∀ b ∈ blocks, K.Fn b)
    {fs : List (String × Interchange.Function)} (h : blockFunctions blocks = .ok fs) : ∀ g ∈ fs, K.Shipped g.2 := by
  suffices hfold : ∀ {blocks : List GraphFunction} {gs : List (String × Interchange.Function)},
      (∀ b ∈ blocks, K.Fn b) → (∀ g ∈ gs, K.Shipped g.2) →
      blocks.foldlM (fun fs b => do return (← b.functions).foldl (fun fs (name, f) => Members.set fs name f) fs) gs =
        .ok fs → ∀ g ∈ fs, K.Shipped g.2 from
    hfold hb (by simp) h
  intro blocks
  induction blocks with
  | nil =>
    intro gs _ hgs h
    obtain rfl : gs = fs := Except.ok.inj h
    exact hgs
  | cons b blocks ih =>
    intro gs hb hgs h
    obtain ⟨hfn, hblocks⟩ := forall_mem_cons.1 hb
    rw [foldlM_cons] at h
    obtain ⟨needs, hstep, h⟩ := bind_eq_ok.1 h
    obtain ⟨ns, hneeds, hstep⟩ := bind_eq_ok.1 hstep
    cases hstep
    refine ih hblocks (fun g hg => ?_) h
    rcases Members.mem_of_foldl_set hg with hg | hg
    · exact .need b hfn ns hneeds g.1 hg
    · exact hgs g hg

/-! ### Conditionals -/

theorem acts_branchOutputs : ∀ (names declared : List String),
    Acts T K env (branchOutputs pos declared names)
  | [], _ => .done
  | name :: names, declared => by
    have hadd : ∀ x type, Acts T K env (modifyFunction (·.addOutput x type)) := fun _ _ =>
      acts_edit fun _ => ⟨rfl, rfl, rfl, rfl, rfl⟩
    refine .andThen (acts_lookupLocal name) fun b => ?_
    split
    · refine .andThen (.of_abides (abides_operandOf ..)) fun _ => .andThen (acts_ownOutput ..) fun _ => ?_
      exact .andThen (hadd ..) fun _ => acts_branchOutputs names _
    · refine .andThen (acts_lookupOuter name) fun b => ?_
      split
      · exact .fail
      · refine .andThen (acts_fresh name) fun _ => .bind (.of_abides (abides_defaultOp _)) fun _ => ?_
        refine .andThen (.of_abides (abides_operandOf ..)) fun _ => .bind (.of_abides ((abides_emit _).of ?_)) fun _ => ?_
        · exact fun ⟨_, hop⟩ => ⟨hop, by simp, by simp, by simp⟩
        · exact .andThen (hadd ..) fun _ => (acts_branchOutputs names _).anywhere

theorem obeys_branch (name : String) (hbody : Acts SameScope K env body) (outputs : List String) :
    Obeys T K env H (branch name body outputs pos) K.Fn := by
  have houtputs : Acts SameScope K env (branchOutputs pos [] outputs) := acts_branchOutputs ..
  refine .of_frames ?_ fun s fn t hr => ?_
  · exact .andThen (keeps_enter ..) fun _ => .andThen hbody.toKeeps fun _ =>
      .andThen houtputs.toKeeps fun _ => keeps_leave
  · simp only [branch, returns_bind] at hr
    obtain ⟨u, s₀, henter, u₁, s₁, hb, u₂, s₂, hout, hleave⟩ := hr
    exact (frames_of_scope (enters_enter henter) (Framed.trans (hbody.also hb) (houtputs.also hout))
      (leaves_leave hleave)).1

omit hK in
theorem acts_bindOutputs {names : List String} (hA : ∀ x ∈ names, ∀ v, A x (.graph v .intermediate none)) :
    Acts (Rebinding A) K env (bindOutputs names) :=
  .mapM fun name hname => .andThen (acts_fresh name) fun _ => .andThen (acts_bind (hA name hname _)) fun _ => .done

theorem acts_conditional {test : Expr} {body orelse : Block} (hA : ∀ x ∈ names, ∀ v, A x (.graph v .intermediate none))
    (hbody : Acts SameScope K env body.lower) (helse : Acts SameScope K env orelse.lower) :
    Acts (Rebinding A) K env (conditional pos test names body orelse) := by
  refine .andThen (acts_lowerOperand ..) fun cond => .bind (obeys_branch _ hbody _) fun thenGraph => ?_
  refine .bind (obeys_branch _ helse _) fun elseGraph => .andThen (acts_bindOutputs hA) fun outputs => ?_
  refine .afterCheck (.afterCheck (.of_abides ?_))
  refine .bind (abides_defaultOp _) fun op => .bind (.lift _) fun thenBranch => .bind (.lift _) fun elseBranch => ?_
  refine .bind (.lift _) fun fs => (abides_emit _).of ?_
  rintro ⟨⟨⟨⟨⟨⟨_, hthen⟩, helse⟩, hop⟩, hthenBranch⟩, helseBranch⟩, hfs⟩
  have hblocks : ∀ b ∈ [thenGraph, elseGraph], K.Fn b := by simp [hthen, helse]
  refine { op := hop, attributes := ?_, functions := K.shipped_blockFunctions hblocks hfs, blocks := hblocks }
  have h1 : K.Attribute thenBranch := .graph _ hthen _ hthenBranch
  have h2 : K.Attribute elseBranch := .graph _ helse _ helseBranch
  simp [h1, h2]

/-! ### Loops -/

theorem acts_forHeader (target iter : Expr) : Acts T K env (forHeader pos target iter) := by
  unfold forHeader
  split
  · split
    · split
      · exact .andThen (acts_lowerOperand ..) fun _ => .done
      · exact .fail
    · exact .fail
  · exact .fail

omit hK in
theorem acts_whileHeader (test : Expr) : Acts T K env (whileHeader pos test) := by
  unfold whileHeader
  split
  · exact .done
  · exact .fail

omit hK in
theorem acts_bodyValue? (name : String) : Acts T K env (bodyValue? name) := by
  refine .andThen (acts_lookupLocal name) fun b => ?_
  split <;> exact .done

omit hK in
theorem acts_breakCondition (test : Expr) (last : Bool) : Acts T K env (breakCondition pos test last) := by
  unfold breakCondition
  split
  · split
    · exact .fail
    · refine .andThen (acts_bodyValue? _) fun v => ?_
      split
      · exact .done
      · exact .fail
  · exact .fail

theorem acts_loopInput {name : String} (hA : ∀ v, A name (.graph v .loopCarried none))
    (type : Option DeclaredType) : Acts (Declaring A) K env (loopInput name type) :=
  .andThen (acts_fresh _) fun _ => .andThen (acts_declare fun _ => ⟨rfl, rfl, rfl, rfl⟩) fun _ =>
    (acts_bind (hA _)).declaring

theorem acts_continueCondition (header : LoopHeader) (condIn condOut : String)
    (stop : Option String) : Acts T K env (continueCondition pos header condIn condOut stop) := by
  unfold continueCondition
  split
  · refine .andThen (acts_bodyValue? _) fun v => ?_
    split
    · exact .fail
    · split
      · exact acts_emitPlain ..
      · exact .andThen (acts_fresh _) fun _ => .andThen (acts_emitPlain ..) fun _ => acts_emitPlain ..
  · split <;> exact acts_emitPlain ..

theorem acts_loopOutputs : ∀ (names declared : List String),
    Acts T K env (loopOutputs pos declared names)
  | [], _ => .done
  | name :: names, declared => by
    refine .andThen (acts_operandOfName name) fun _ => .andThen (acts_ownOutput ..) fun _ => ?_
    exact .andThen (acts_edit fun _ => ⟨rfl, rfl, rfl, rfl, rfl⟩) fun _ => acts_loopOutputs names _

/-- The steps before the statements of a loop body: its inputs. -/
def loopStart (header : LoopHeader) (names : List String) : Lower String := do
  loopInput header.counter (some (.tensor .int64 none))
  let condIn ← fresh "cond_in"
  modifyFunction (·.addInput condIn (some (.tensor .bool none)))
  names.forM (loopInput · none)
  return condIn

/-- The steps after the statements of a loop body: its outputs. -/
def loopEnd (pos : Position) (header : LoopHeader) (names : List String) (condIn : String) (stop : Option String) :
    Lower Unit := do
  let condOut ← fresh "cond_out"
  continueCondition pos header condIn condOut stop
  modifyFunction (·.addOutput condOut (some (.tensor .bool none)))
  loopOutputs pos [] names

theorem loopBody_eq (header : LoopHeader) (names : List String) (body : Lower (Option String)) :
    loopBody pos header names body = (do
      enter "loop_body"
      let condIn ← loopStart header names
      let stop ← body
      loopEnd pos header names condIn stop
      leave) := by
  simp only [loopBody, loopStart, loopEnd, bind_assoc, pure_bind]

theorem acts_loopStart (hA : ∀ x v, A x (.graph v .loopCarried none)) (header : LoopHeader)
    (names : List String) : Acts (Declaring A) K env (loopStart header names) := by
  refine .andThen (acts_loopInput (hA _) _) fun _ => .andThen (acts_fresh _) fun _ => ?_
  refine .andThen (acts_declare fun _ => ⟨rfl, rfl, rfl, rfl⟩) fun _ => .andThen (.forM fun _ _ => ?_) fun _ => .done
  exact acts_loopInput (hA _) _

theorem acts_loopEnd (header : LoopHeader) (names : List String) (condIn : String)
    (stop : Option String) : Acts T K env (loopEnd pos header names condIn stop) := by
  refine .andThen (acts_fresh _) fun _ => .andThen (acts_continueCondition ..) fun _ => ?_
  exact .andThen (acts_edit fun _ => ⟨rfl, rfl, rfl, rfl, rfl⟩) fun _ => acts_loopOutputs ..

theorem obeys_loopBody (header : LoopHeader) (names : List String) {body : Lower (Option String)}
    (hbody : Acts SameScope K env body) : Obeys T K env H (loopBody pos header names body) K.Fn := by
  have hstart : Acts (Declaring fun _ _ => True) K env (loopStart header names) :=
    acts_loopStart (fun _ _ => trivial) header names
  have hend : ∀ condIn stop, Acts SameScope K env (loopEnd pos header names condIn stop) := acts_loopEnd header names
  rw [loopBody_eq]
  refine .of_frames ?_ fun s fn t hr => ?_
  · exact .andThen (keeps_enter ..) fun _ => .andThen hstart.toKeeps fun _ =>
      .andThen hbody.toKeeps fun _ => .andThen (hend ..).toKeeps fun _ => keeps_leave
  · simp only [returns_bind] at hr
    obtain ⟨u, s₀, henter, condIn, s₁, hstarted, stop, s₂, hb, u', s₃, hended, hleave⟩ := hr
    have hsteps := Framed.trans (Framed.trans (hstart.also hstarted).toSameScope (hbody.also hb))
      ((hend ..).also hended)
    exact (frames_of_scope (enters_enter henter) hsteps (leaves_leave hleave)).1

theorem acts_loopCondition (header : LoopHeader) : Acts T K env (loopCondition pos header) := by
  unfold loopCondition
  split
  · exact .of_abides (abides_constant ..)
  · exact acts_operandOfName _

theorem obeys_loopNode (hA : ∀ x ∈ names, ∀ v, A x (.graph v .intermediate none)) (header : LoopHeader)
    (initial : Operand) (fn : GraphFunction) :
    Obeys (Rebinding A) K env (K.Fn fn) (loopNode pos header names initial fn) fun _ => True := by
  refine .andThen (.mapM fun name _ => .andThen (acts_operandOfName name) fun _ => .done) fun _ => ?_
  refine .andThen (acts_bindOutputs hA) fun _ => .of_abides (.bind (abides_defaultOp _) fun op => ?_)
  refine .bind (.lift _) fun graph => .bind (.lift _) fun fs => (abides_emit _).of ?_
  rintro ⟨⟨⟨hfn, hop⟩, hgraph⟩, hfs⟩
  have hblocks : ∀ b ∈ [fn], K.Fn b := by simp [hfn]
  refine { op := hop, attributes := ?_, functions := K.shipped_blockFunctions hblocks hfs, blocks := hblocks }
  exact forall_mem_singleton.2 (.graph fn hfn _ hgraph)

theorem acts_loop {body : Lower (Option String)} (hA : ∀ x ∈ names, ∀ v, A x (.graph v .intermediate none))
    (hbody : Acts SameScope K env body) (header : LoopHeader) :
    Acts (Rebinding A) K env (loop pos header names body) := by
  rw [loop_eq]
  refine .andThen (acts_loopCondition _) fun _ => .bind (obeys_loopBody header names hbody) fun fn => ?_
  exact (obeys_loopNode hA ..).of And.right

/-! ### Assignments and results -/

omit hK in
theorem acts_annotationType? (e : Expr) (what : String) : Acts T K env (annotationType? e what) := by
  have hunusable : Acts T K env (do
      warn s!"Unsupported type annotation for {what}." e.pos
      return none : Lower (Option DeclaredType)) :=
    .andThen (.of_abides (abides_warn ..)) fun _ => .done
  refine .andThen (.evalValue e) fun v => ?_
  split
  · split
    · exact .done
    · exact hunusable
  · exact hunusable

omit hK in
theorem acts_targetName (e : Expr) : Acts T K env (targetName e) := by
  unfold targetName
  split
  · exact .done
  · exact .fail

theorem acts_assign (hA : ∀ x ∈ target.targets, ∀ v p t, A x (.graph v p t)) (value : Expr) (type : Option DeclaredType) :
    Acts (Rebinding A) K env (assign target value type) := by
  unfold assign
  split
  · exact .andThen (acts_lowerOperand ..) fun _ => acts_bind (hA _ (by simp [Expr.targets]) ..)
  · refine .bind_of (.mapM fun e _ => acts_targetName e) fun s ids t hids => .anywhere ?_
    refine .andThen (.of_abides (abides_lowerOutputs _ fun _ _ => trivial)) fun results => .forM fun p hp => ?_
    exact acts_bind (hA _ ((returns_targetNames hids).2 p.1 (of_mem_zip hp).1) ..)
  · exact .fail

theorem acts_assignAny (hA : ∀ x ∈ target.targets, ∀ v p t, A x (.graph v p t)) (value : Expr)
    (type : Option DeclaredType) : Acts (Rebinding A) K env (assignAny pos target value type) := by
  unfold assignAny
  split
  · split
    · split
      · exact .fail
      · refine .forM fun p hp => acts_assign (fun x hx => hA x ?_) ..
        exact targets_subset (of_mem_zip hp).1 hx
    · exact .fail
  · exact acts_assign hA ..

theorem acts_assignAnnotated (hA : ∀ x ∈ target.targets, ∀ v p t, A x (.graph v p t)) (typeExpr : Expr)
    (value : Option Expr) : Acts (Rebinding A) K env (assignAnnotated pos target typeExpr value) := by
  unfold assignAnnotated
  split
  · exact .fail
  · exact .andThen (acts_annotationType? ..) fun _ => acts_assignAny hA ..

theorem acts_returnValues (types : Option (List DeclaredType)) (candidate : ℕ → String) :
    ∀ (es : List Expr) (i : ℕ), Acts T K env (returnValues pos types candidate i es)
  | [], _ => .done
  | e :: es, i => by
    refine .andThen (acts_lowerOperand ..) fun x => .andThen acts_currentFunction fun f => ?_
    refine .ite_bind (acts_copy ..) .done fun name => .andThen acts_currentFunction fun f => ?_
    refine .ite_bind (acts_copy ..) .done fun name => .andThen (acts_edit fun _ => ⟨rfl, rfl, rfl, rfl, rfl⟩) fun _ => ?_
    exact acts_returnValues types candidate es (i + 1)

theorem acts_returnFrom (value : Option Expr) : Acts T K env (returnFrom pos value) := by
  unfold returnFrom
  split
  · exact .fail
  · refine .get_bind (fun _ _ _ => rfl) fun s => ?_
    dsimp only
    split
    · exact .maybeAfter (S := fun _ => True) .failAt (acts_returnValues ..)
    · exact acts_returnValues ..

/-! ### Signatures -/

theorem acts_declareInput {p : Param} (hA : ∀ t, A p.name (.graph p.name .input t))
    (value : Option Literal) (type : Option DeclaredType) : Acts (Declaring A) K env (declareInput p value type) := by
  refine .maybeAfter (.of_abides (abides_warn _)) (.andThen (acts_declare fun _ => ⟨rfl, rfl, rfl, rfl⟩) fun _ => ?_)
  refine .andThen (acts_modify (fun _ _ _ => rfl) (fun _ => rfl) fun _ => rfl) fun _ => ?_
  exact (acts_bind (hA _)).declaring

/-- What a parameter is bound to. -/
def Binding.IsParam (x : String) (b : Binding) : Prop :=
  (∃ t, b = .graph x .input t) ∨ ∃ t : DeclaredType, t.isAttr ∧ b = .attr x t

theorem acts_declareParam (p : Param) (default : Option Expr) :
    Acts (Declaring Binding.IsParam) K env (declareParam p default) := by
  have hinput : ∀ value type, Acts (Declaring Binding.IsParam) K env (declareInput p value type) :=
    acts_declareInput fun t => .inl ⟨t, rfl⟩
  rw [declareParam_eq]
  refine .andThen (P := fun _ => True) ?_ fun value => .andThen (P := fun _ => True) ?_ fun type => ?_
  · unfold paramDefault
    split
    · rw [map_eq_pure_bind]
      exact .andThen (.evalLiteral _) fun _ => .done
    · exact .done
  · unfold paramType
    split
    · exact acts_annotationType? ..
    · exact .done
  · unfold declareAs
    split
    · split
      · refine .andThen (acts_declare fun _ => ⟨rfl, rfl, rfl, rfl⟩) fun _ => ?_
        exact ((obeys_bind (b := .attr p.name _) (.inr ⟨_, ‹_›, rfl⟩)).of fun _ => trivial).declaring
      · exact hinput ..
    · exact hinput ..

omit hK in
theorem acts_returnTypesOf (name : String) (returns : Option Expr) : Acts T K env (returnTypesOf name returns) := by
  unfold returnTypesOf
  split
  · exact .done
  · refine .andThen (.evalValue _) fun v => ?_
    split
    · exact .andThen (.forM fun _ _ => .of_abides (abides_warn _)) fun _ => .done
    · exact .andThen (.of_abides (abides_warn _)) fun _ => .done

omit hK in
theorem acts_setReturnTypes (types : Option (List DeclaredType)) :
    Acts T K env (modify fun s => { s with returnTypes := types } : Lower Unit) :=
  acts_modify (fun _ _ _ => rfl) (fun _ => rfl) fun _ => rfl

theorem acts_signature (name : String) (params : List Param) (defaults : List Expr)
    (returns : Option Expr) : Acts (Declaring Binding.IsParam) K env (signature name params defaults returns) := by
  refine .andThen (.of_abides (abides_trace _)) fun _ => .andThen (.forM fun _ _ => ?_) fun _ => ?_
  · exact acts_declareParam ..
  · exact .andThen (acts_setReturnTypes _) fun _ => .andThen (acts_returnTypesOf ..) fun _ => acts_setReturnTypes _

theorem obeys_bindNested {fn : GraphFunction} (hA : ∀ k c, A fn.name (.function k fn c))
    (captured : NameSet) : Obeys (Rebinding A) K env (K.Fn fn) (bindNested pos fn captured) fun _ => True := by
  refine .andThen (.mapM fun _ _ => .andThen (.of_abides (abides_lookup trivial)) fun _ => .done) fun _ => ?_
  refine .andThen (P := fun _ => True) ?_ fun k => ?_
  · refine .of_scopes (.modifyGet (fun _ _ _ => rfl) (fun _ => rfl) fun _ _ hs => ⟨hs, trivial⟩) fun s _ t hr => ?_
    simp only [returns_modifyGet, Prod.mk.injEq] at hr
    obtain ⟨-, rfl⟩ := hr
    rfl
  · refine .bind (obeys_bind (hA ..)) fun _ => .of_abides ⟨keeps_modifyFunction.of ?_, reads_modifyFunction fun _ => ⟨rfl, rfl⟩⟩
    exact fun hfn f hf => hK.addNested f fn hf hfn.1

/-! ### Statements -/

theorem acts_expressionStmt (place : Place) (s : Stmt NameSet) :
    Acts T K env (expressionStmt place s) := by
  unfold expressionStmt
  split
  · exact acts_edit fun _ => ⟨rfl, rfl, rfl, rfl, rfl⟩
  · split
    · exact .done
    · exact .fail

theorem returns_nested {name : String} {params : List Param} {defaults : List Expr} {returns : Option Expr}
    {captured : NameSet} {s s' : State} {u : Unit} (hbody : Moves SameScope env body) (hr : Returns (do
      let types := (← get).returnTypes
      enter name (← read).domain
      signature name params defaults returns
      body
      let fn ← leave
      modify fun s => { s with returnTypes := types }
      bindNested pos fn captured) env s u s') :
    ∃ fn t, fn.name = name ∧ t.frames = s.frames ∧ Returns (bindNested pos fn captured) env t u s' := by
  simp only [returns_bind, returns_get, returns_read, returns_modify] at hr
  obtain ⟨_, _, ⟨rfl, rfl⟩, _, _, ⟨rfl, rfl⟩, u₀, s₀, henter, u₁, s₁, hsig, u₂, s₂, hb, fn, s₃, hleave, u₃, s₄, rfl,
    hnested⟩ := hr
  have hsigned := ((acts_signature (K := .any) ..).also hsig).toSameScope
  obtain ⟨hframes, hname⟩ := frames_of_scope (enters_enter henter) (Framed.trans hsigned (hbody hb))
    (leaves_leave hleave)
  exact ⟨fn, { s₃ with returnTypes := s.returnTypes }, hname, hframes, hnested⟩

/-- What a statement may bind a name to. Definitions bind nested functions, and what leaves a block is a new value. -/
def Makes (s : Stmt NameSet) (x : String) (b : Binding) : Prop :=
  x ∈ s.assigns ∧ match s with
    | .function .. => ∃ k fn captured, b = .function k fn captured
    | .assign .. | .annAssign .. => ∃ v p t, b = .graph v p t
    | _ => ∃ v, b = .graph v .intermediate none

mutual
theorem acts_lowerStmt (place : Place) (s : Stmt NameSet) : Acts (Rebinding (Makes s)) K env (lowerStmt place s) := by
  rw [lowerStmt.eq_def]
  cases s with
  | assign m targets value =>
    dsimp only
    split
    · exact acts_assignAny (fun x hx v p t => ⟨by simpa [Stmt.assigns, Expr.targetsAll] using hx, v, p, t, rfl⟩) ..
    · exact .fail
  | annAssign m target typeExpr value =>
    exact acts_assignAnnotated (fun x hx v p t => ⟨by simpa [Stmt.assigns] using hx, v, p, t, rfl⟩) ..
  | ret m value =>
    dsimp only
    split
    · exact .fail
    · exact acts_returnFrom _
  | cond m test body orelse =>
    refine acts_conditional (fun x hx v => ⟨?_, v, rfl⟩) (acts_lowerBlock body).within (acts_lowerBlock orelse).within
    exact NameSet.mem_ofList.1 (NameSet.mem_toList.2 (mem_of_mem_filter hx))
  | forLoop m target iter body orelse =>
    refine .afterCheck (.andThen (acts_forHeader ..) fun header => ?_)
    refine acts_loop (fun x hx v => ⟨?_, v, rfl⟩) (acts_lowerLoop body).within header
    exact mem_append_right _ (assigned_of_carried hx)
  | whileLoop m test body orelse =>
    refine .afterCheck (.andThen (acts_whileHeader _) fun header => ?_)
    exact acts_loop (fun x hx v => ⟨assigned_of_carried hx, v, rfl⟩) (acts_lowerLoop body).within header
  | expr m value => exact acts_expressionStmt ..
  | function m fn =>
    obtain ⟨_, _, _, body, _⟩ := fn
    have hbody := acts_lowerBody true body
    refine ⟨?_, fun s u t hr => ?_⟩
    · refine .get_bind (fun _ _ _ => rfl) fun s => .andThen .read fun e => .andThen (keeps_enter ..) fun _ => ?_
      refine .andThen (acts_signature ..).toKeeps fun _ => .andThen hbody.toKeeps fun _ => ?_
      refine .bind keeps_leave fun fn => .andThen (acts_setReturnTypes (T := SameScope) _).toKeeps fun _ => ?_
      exact (obeys_bindNested (A := fun _ _ => True) (fun _ _ => trivial) _).toKeeps.of And.right
    · obtain ⟨fn, t', rfl, hframes, hnested⟩ := returns_nested hbody.also hr
      refine Framed.trans (Framed.of_frames hframes)
        ((obeys_bindNested (K := .any) (fun k c => ⟨?_, k, fn, c, rfl⟩) _).also hnested)
      simp [Stmt.assigns]
  | pass => exact .done
  | _ => exact .fail
theorem acts_lowerBlock : ∀ ss : List (Stmt NameSet),
    Acts (Rebinding fun x _ => x ∈ Stmt.assignsAll ss) K env (lowerBlock ss)
  | [] => by
    rw [lowerBlock]
    exact .done
  | s :: ss => by
    rw [lowerBlock, Stmt.assignsAll]
    refine .andThen ((acts_lowerStmt .block s).mono fun _ _ h => h.mono fun _ _ hx => ?_) fun _ => ?_
    · exact mem_append_left _ hx.1
    · exact (acts_lowerBlock ss).mono fun _ _ h => h.mono fun _ _ => mem_append_right _
theorem acts_lowerLoop : ∀ ss : List (Stmt NameSet),
    Acts (Rebinding fun x _ => x ∈ Stmt.assignsAll ss) K env (lowerLoop ss)
  | [] => by
    rw [lowerLoop]
    exact .done
  | s :: ss => by
    rw [lowerLoop.eq_def]
    split
    · exact .done
    · exact .andThen (acts_breakCondition ..) fun _ => .done
    · rename_i heq
      cases heq
      rw [Stmt.assignsAll]
      refine .andThen ((acts_lowerStmt .block s).mono fun _ _ h => h.mono fun _ _ hx => ?_) fun _ => ?_
      · exact mem_append_left _ hx.1
      · exact (acts_lowerLoop ss).mono fun _ _ h => h.mono fun _ _ => mem_append_right _
theorem acts_lowerBody (first : Bool) : ∀ ss : List (Stmt NameSet),
    Acts SameScope K env (lowerBody first ss)
  | [] => by
    rw [lowerBody]
    exact .done
  | s :: ss => by
    rw [lowerBody.eq_def]
    split
    · exact .done
    · split
      · exact acts_returnFrom _
      · exact .fail
    · rename_i heq
      cases heq
      exact .andThen (acts_lowerStmt _ s).within fun _ => acts_lowerBody false ss
end

/-! ### Functions -/

/-- **The contract of a lowering**: whatever is asked, within the laws, a function that is lowered is as asked. -/
theorem keeps_function (fn : FunctionDef NameSet) :
    Keeps K env True (Lowering.function fn) K.Fn := by
  refine .andThen .read fun e => .andThen (keeps_enter ..) fun _ => .andThen (acts_signature ..).toKeeps fun _ => ?_
  refine .andThen (acts_lowerBody true fn.body).toKeeps fun _ => .bind keeps_leave fun graph => ?_
  refine .get_bind (fun _ _ _ => rfl) fun s => .maybeAfter (.throw (Q := fun _ => True) _) ?_
  exact .andThen (keeps_trace _) fun _ => .pure fun h => h.1.2

end Lowering

open Lowering in
/-- What is asked holds of compiled functions, if it holds of the operators of the default set that is left. -/
theorem Compiler.kinds_compile {K : Kinds} {t : Compiler} {stmt : Stmt Unit} {f : ScriptFunction}
    (hK : ∀ fn, K.Lawful (t.start fn).1) (h : (t.compile stmt).1 = .ok f)
    (ho : ∀ o ∈ (t.compile stmt).2.defaultOpset, K.Opset o) : K.Fn f.fn := by
  obtain ⟨m, fn, s', rfl, hrun, hdefault⟩ := returns_of_compile h
  rw [hdefault] at ho
  have hnone : K.Holds (t.start fn).2 := fun _ hf => absurd hf not_mem_nil
  have := hK fn
  exact ((keeps_function fn.analyze).kinds _ _ _ hrun ho trivial hnone).2

end OpGraph
