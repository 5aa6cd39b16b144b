import OpGraph.Proofs.Locality.Steps
import OpGraph.Proofs.Simulation.Expressions

/-!
The contracts of the lowering of expressions. Of a request for a node it is promised that the node will be as asked,
whatever its outputs are called. No names are looked up but those in the expression, the callees of its calls included,
and the ones that nested functions among them have captured.
-/

namespace OpGraph

open List

namespace Expr

mutual
/-- Names in an expression, those of callees included. -/
def mentions : Expr → List String
  | constant .. => []
  | name _ id => [id]
  | binary _ l _ r => l.mentions ++ r.mentions
  | unary _ _ e => e.mentions
  | boolean _ _ es => mentionsAll es
  | compare _ l _ es => l.mentions ++ mentionsAll es
  | call _ func args keywords => func.mentions ++ mentionsAll args ++ mentionsKeywords keywords
  | attr _ e _ => e.mentions
  | subscript _ e s => e.mentions ++ s.mentions
  | slice _ l u s => mentionsOption l ++ mentionsOption u ++ mentionsOption s
  | tuple _ es => mentionsAll es
  | list _ es => mentionsAll es
def mentionsAll : List Expr → List String
  | [] => []
  | e :: es => e.mentions ++ mentionsAll es
def mentionsOption : Option Expr → List String
  | none => []
  | some e => e.mentions
def mentionsKeywords : List Keyword → List String
  | [] => []
  | ⟨_, _, e⟩ :: ks => e.mentions ++ mentionsKeywords ks
end

end Expr

namespace Lowering

variable {α : Type} {K : Kinds} {R : Reading} {env : Env} {H : Prop} {pos : Position}

/-! ### Subscripts -/

namespace Subscript

theorem abides_constantIndex? (e : Expr) : Abiding K R env (constantIndex? e) := by
  unfold constantIndex?
  split
  · refine .andThen (.evalLiteral e) fun v => ?_
    split <;> exact .done
  · exact .done

theorem abides_classify (is : List Index) : ∀ axis : ℕ, Abiding K R env (classify axis is) := by
  induction is with
  | nil => exact fun _ => .done
  | cons i is ih =>
    intro axis
    rw [classify.eq_def]
    split
    · exact .done
    · rename_i heq
      obtain ⟨-, rfl⟩ := List.cons.inj heq
      exact ih _
    · rename_i heq
      obtain ⟨-, rfl⟩ := List.cons.inj heq
      exact .andThen (ih _) fun _ => .done
    · rename_i heq
      obtain ⟨-, rfl⟩ := List.cons.inj heq
      exact .andThen (abides_constantIndex? _) fun _ => .andThen (ih _) fun _ => .done

theorem abides_constantPart (e : Expr) : Abiding K R env (constantPart e) := by
  refine .andThen (.evalLiteral e) fun v => ?_
  split
  · exact .done
  · exact .fail

theorem abides_stepOf (b : Option Bound) : Abiding K R env (stepOf b) := by
  unfold stepOf
  split
  · exact .done
  · exact .done
  · split
    · exact .fail
    · refine .andThen (abides_constantPart _) fun i => ?_
      split
      · exact .fail
      · exact .done

variable [hK : K.Lawful env]

theorem abides_constant1d (i : Int) (cache : Cache) :
    Abiding K R env (constant1d pos i cache) := by
  unfold constant1d
  split
  · exact .done
  · exact .andThen (abides_constant ..) fun _ => .done

theorem abides_boundValue {b : Option Bound} (hb : BoundEach (Abiding K R env) b) (default : Int)
    (cache : Cache) : Abiding K R env (boundValue pos b default cache) := by
  unfold boundValue
  split
  · exact abides_constant1d ..
  · exact abides_constant1d ..
  · rename_i p
    split
    · exact .andThen (abides_constantPart _) fun _ => abides_constant1d ..
    · refine .andThen (hb p rfl) fun x => .andThen (abides_fresh _) fun _ => ?_
      refine .bind (abides_defaultOp _) fun op => .andThen (abides_constant1d ..) fun _ => ?_
      exact .bind ((abides_emit _).of fun ⟨_, hop⟩ => ⟨hop, by simp, by simp, by simp⟩) fun _ => .done

theorem abides_rangeBounds {r : Range} (hr : RangeEach (Abiding K R env) r) (cache : Cache) :
    Abiding K R env (rangeBounds pos r cache) := by
  refine .andThen (abides_constant1d ..) fun _ => .andThen (abides_stepOf _) fun i => ?_
  refine .andThen (abides_boundValue (boundEach_known _ i) ..) fun _ => ?_
  refine .andThen (abides_boundValue hr.1 ..) fun _ => ?_
  exact .andThen (abides_boundValue hr.2 ..) fun _ => .done

theorem abides_allBounds : ∀ (rs : List Range) (cache : Cache),
    (∀ r ∈ rs, RangeEach (Abiding K R env) r) → Abiding K R env (allBounds pos rs cache)
  | [], _, _ => .done
  | r :: rs, cache, h => by
    refine .andThen (abides_rangeBounds (h r mem_cons_self) cache) fun _ => ?_
    have hrest : ∀ k ∈ rs, RangeEach (Abiding K R env) k := fun k hk => h k (mem_cons_of_mem _ hk)
    exact .andThen (abides_allBounds rs _ hrest) fun _ => .done

theorem abides_concat (base suffix : String) (values : List String) :
    Abiding K R env (concat base suffix values) := by
  refine .andThen (abides_fresh _) fun _ => ?_
  exact .andThen (abides_emitWith _ _ _ fun _ => nofun) fun _ => .done

theorem abides_sliceInputs (base : String) (bs : List Bounds) :
    Abiding K R env (sliceInputs base bs) := by
  unfold sliceInputs
  split
  · exact .done
  · refine .andThen (abides_concat ..) fun _ => .andThen (abides_concat ..) fun _ => ?_
    exact .andThen (abides_concat ..) fun _ => .andThen (abides_concat ..) fun _ => .done

theorem abides_emitNamed {c : Prop} [Decidable c] {m m' : Lower String}
    (hm : Abiding K R env m) (hm' : Abiding K R env m') (name : String) (inputs : List String) :
    Abiding K R env (if c then do let x ← m; emitDefault [x] name inputs; return x
      else do let x ← m'; emitDefault [x] name inputs; return x) :=
  .ite_bind hm hm' fun _ => .andThen (abides_emitPlain ..) fun _ => .done

theorem abides_slice (base result : String) {ranges : List Range}
    (hr : ∀ r ∈ ranges, RangeEach (Abiding K R env) r) (constants : List (ℕ × Int)) (remain : Bool) :
    Abiding K R env (slice pos base result ranges constants remain) := by
  have hall : ∀ r ∈ ranges ++ constants.map fun p => pointRange p.1 p.2, RangeEach (Abiding K R env) r := by
    intro r hmem
    rcases mem_append.1 hmem with hmem | hmem
    · exact hr r hmem
    · obtain ⟨⟨axis, i⟩, -, rfl⟩ := mem_map.1 hmem
      exact rangeEach_pointRange _ axis i
  refine .andThen (abides_allBounds _ _ hall) fun _ => .andThen (abides_sliceInputs ..) fun _ => ?_
  split
  · exact abides_emitNamed (abides_fresh _) .done ..
  · refine .andThen (abides_fresh _) fun _ => .andThen (abides_emitPlain ..) fun _ => ?_
    refine .andThen (abides_constant ..) fun _ => ?_
    exact abides_emitNamed (abides_fresh _) .done ..

theorem abides_gather (base result : String) : ∀ (value : String) (ps : List Point),
    (∀ p ∈ ps, Abiding K R env p.part.lower) → Abiding K R env (gather base result value ps)
  | _, [], _ => .done
  | value, p :: ps, h => by
    refine .andThen (h p mem_cons_self) fun _ => ?_
    refine .ite_bind (P := fun _ => True) .done (abides_fresh _) fun name => ?_
    refine .andThen (abides_emitWith _ _ _ fun _ => nofun) fun _ => ?_
    have hrest : ∀ q ∈ ps, Abiding K R env q.part.lower := fun q hq => h q (mem_cons_of_mem _ hq)
    exact abides_gather base result name ps hrest

end Subscript

variable [hK : K.Lawful env]

open Subscript in
theorem abides_subscript {value : Lower Operand} (hv : Abiding K R env value) {indices : List Index}
    (hi : ∀ i ∈ indices, IndexEach (Abiding K R env) i) (candidate : Option String) :
    Abiding K R env (subscript pos value indices candidate) := by
  refine .andThen hv fun base => .andThen (abides_fresh _) fun result => ?_
  refine .bind_of (abides_classify _ _) fun s (ranges, points) t hr => ?_
  obtain ⟨-, hranges, hpoints⟩ := each_classify hr hi
  dsimp only
  split
  · exact .andThen (abides_emitPlain ..) fun _ => .done
  · split
    · refine .andThen (abides_slice _ _ hranges ..) fun _ => .andThen (abides_gather _ _ _ _ ?_) fun _ => ?_
      · exact fun p hp => hpoints p (mem_of_mem_filter hp)
      · exact .done
    · exact .andThen (abides_gather _ _ _ _ hpoints) fun _ => .done

/-! ### Requests -/

/-- The node that a request is for will be as asked. -/
structure Kinds.Requested (K : Kinds) (r : Request) : Prop where
  op : K.Op r.op
  attributes : ∀ a ∈ r.attributes, K.Attribute a
  functions : ∀ g ∈ r.functions, K.Shipped g.2

def Kinds.Result (K : Kinds) : Lowered → Prop
  | .operand _ => True
  | .request r => K.Requested r

theorem abides_emitRequest (r : Request) (outputs : List String) :
    Abides K R env (K.Requested r) (r.emit outputs) fun _ => True :=
  (abides_emit _).of fun h => ⟨h.op, h.attributes, h.functions, by simp⟩

theorem abides_finish (candidate : Option String) (l : Lowered) :
    Abides K R env (K.Result l) (finish candidate l) fun _ => True := by
  unfold finish
  split
  · exact .done
  · exact .andThen (abides_fresh _) fun _ => .bind (abides_emitRequest ..) fun _ => .done

omit hK in
theorem abides_remainderAttributes (op : BinaryOp) (right : Expr) :
    Abides K R env H (remainderAttributes op right) fun as => ∀ a ∈ as, K.Attribute a := by
  unfold remainderAttributes
  split
  · refine .andThen (.evalLiteral _) fun v => ?_
    split
    · exact .pure fun _ => forall_mem_singleton.2 (K.attribute_plain fun _ => nofun)
    · exact .pure fun _ => by simp
  · exact .pure fun _ => by simp

theorem abides_binaryRequest (op : Op) (left right : Operand) (attributes : List NodeAttribute) :
    Abides K R env (K.Op (opName op) ∧ ∀ a ∈ attributes, K.Attribute a) (binaryRequest op left right attributes)
      K.Requested :=
  .andThen (abides_promote ..) fun _ => .pure fun ⟨hop, ha⟩ => ⟨hop, ha, by simp⟩

theorem abides_joinOperands (op : Op) : ∀ (left : Operand) (right : Lower Operand)
    (rest : List (Lower Operand)), Abiding K R env right → (∀ m ∈ rest, Abiding K R env m) →
    Abides K R env (K.Op (opName op)) (joinOperands op left right rest) K.Requested
  | left, right, [], hr, _ =>
    .andThen hr fun _ => (abides_binaryRequest ..).of fun hop => ⟨hop, by simp⟩
  | left, right, next :: rest, hr, h => by
    refine .andThen hr fun _ => ?_
    refine .bind ((abides_binaryRequest ..).of fun hop => ⟨hop, by simp⟩) fun r => ?_
    refine .andThen (abides_fresh _) fun name => .bind ((abides_emitRequest ..).of And.right) fun _ => ?_
    have hrest : ∀ m ∈ rest, Abiding K R env m := fun m hm => h m (mem_cons_of_mem _ hm)
    exact (abides_joinOperands op _ next rest (h next mem_cons_self) hrest).of fun hop => hop.1.1

theorem abides_compareRequest (cmp : CompareOp) (name : String) (left right : Operand) :
    Abides K R env H (compareRequest cmp name left right) K.Requested := by
  refine .bind (abides_defaultOp _) fun op => ?_
  refine .bind ((abides_binaryRequest ..).of fun ⟨_, hop⟩ => ⟨hop, by simp⟩) fun r => ?_
  split
  · refine .andThen (abides_fresh _) fun _ => .bind ((abides_emitRequest ..).of And.right) fun _ => ?_
    exact .bind (abides_defaultOp _) fun _ => .pure fun ⟨_, hop⟩ => ⟨hop, by simp, by simp⟩
  · exact .pure And.right

/-! ### Callees -/

/-- The operators of a set that is taken into use are as asked: its version is that of the default set, or it is not of
the default domain. -/
theorem keeps_useOpset (o : Opset) : Keeps K env H (useOpset o) fun _ => K.Opset o where
  messages := by
    intro s ws es
    unfold useOpset
    split
    · have hafter : (s.after ws es).defaultOpset = s.defaultOpset := rfl
      rw [outcome_get_bind, outcome_get_bind, hafter]
      cases s.defaultOpset with
      | none => rfl
      | some c =>
        dsimp only
        split <;> rfl
    · rfl
  opset := by
    intro s
    unfold useOpset
    split
    · rename_i hdefault
      rw [outcome_get_bind]
      split
      · rename_i hnone
        exact .inr ⟨hnone, o, rfl, hdefault⟩
      · split <;> exact .inl rfl
    · exact .inl rfl
  kinds := by
    intro s u s' hr ho _ hs
    have hdefault : o.isDefaultDomain → ∃ c ∈ s'.defaultOpset, c.domain = o.domain ∧ c.version = o.version := by
      obtain ⟨rfl, h⟩ | ⟨-, rfl⟩ := returns_useOpset hr
      · exact h
      · exact fun _ => ⟨o, rfl, rfl, rfl⟩
    have hholds : K.Holds s' := fun f hf => hs f (scopes_useOpset hr ▸ hf)
    refine ⟨hholds, fun name => ?_⟩
    by_cases hd : o.isDefaultDomain
    · obtain ⟨c, hc, hdomain, hversion⟩ := hdefault hd
      have hop := ho c hc name
      unfold opName Opset.op at hop ⊢
      rwa [hdomain, hversion] at hop
    · refine hK.other _ fun h => hd ?_
      exact beq_iff_eq.2 h

theorem abides_opsetOf {e : Expr} (he : ∀ x ∈ e.mentions, R.named x) : Abiding K R env (opsetOf e) := by
  unfold opsetOf
  split
  · refine .andThen (abides_lookup? (.inl (he _ (by simp [Expr.mentions])))) fun value => ?_
    dsimp only
    split
    · exact .done
    · exact .fail
  · rw [map_eq_pure_bind]
    refine .andThen (.andThen (.evalValue _) fun _ => .pure (Q := fun _ => True) fun _ => trivial) fun value => ?_
    dsimp only
    split
    · exact .done
    · exact .fail

/-- What a callee names is as asked. -/
def Kinds.Called (K : Kinds) : Callee → Prop
  | .op o => K.Op (opName o)
  | .script f => K.Script f
  | .nested fn _ => K.Fn fn

theorem abides_calleeOf {e : Expr} (he : ∀ x ∈ e.mentions, R.named x) :
    Abides K R env H (calleeOf e) K.Called := by
  unfold calleeOf
  split
  · refine .andThen (abides_opsetOf (by simpa [Expr.mentions] using he)) fun o => ?_
    refine .bind ⟨keeps_useOpset o, reads_useOpset o⟩ fun _ => ?_
    exact .maybeAfter (abides_warn _) (.pure fun ⟨_, ho⟩ => ho _)
  · refine .bind (abides_lookup? (.inl (he _ (by simp [Expr.mentions])))) fun b => ?_
    split
    · rename_i f
      refine .bind ⟨keeps_modifyFunction.of ?_, reads_modifyFunction fun _ => ⟨rfl, rfl⟩⟩ fun _ => ?_
      · exact fun ⟨_, hb⟩ g hg => hK.addCalled g f hg (hb _ rfl)
      · exact .pure fun ⟨⟨_, hb⟩, _⟩ => hb _ rfl
    · exact .pure fun ⟨_, hb⟩ => hb _ rfl
    · exact .pure fun ⟨_, hb⟩ => hb _ rfl
    · exact .bind abides_requireDefaultOpset fun o => .maybeAfter (abides_warn _) (.pure fun ⟨_, ho⟩ => ho _)
    · exact .fail
  · exact .fail

theorem captured_of_calleeOf {e : Expr} (he : ∀ x ∈ e.mentions, R.named x) {s t : State} {fn : GraphFunction}
    {captured : List (String × Identity)} (hs : s.Closed R) (h : Returns (calleeOf e) env s (.nested fn captured) t) :
    ∀ p ∈ captured, R.captured p.1 := by
  cases finds_calleeOf h with
  | nested bound => exact captured_of_lookup? (he _ (by simp [Expr.mentions])) hs bound

theorem abides_checkCaptured (function : String) : ∀ captured : List (String × Identity),
    (∀ p ∈ captured, R.captured p.1) → Abiding K R env (checkCaptured function pos captured)
  | [], _ => .done
  | (name, identity) :: rest, h => by
    obtain ⟨hname, hrest⟩ := forall_mem_cons.1 h
    refine .andThen (abides_lookup? (.inr hname)) fun b => ?_
    split
    · split
      · exact abides_checkCaptured function rest hrest
      · exact .fail
    · exact .fail

/-! ### Calls -/

omit hK in
theorem abides_literalAttribute (name : String) (e : Expr) :
    Abides K R env H (literalAttribute name e) fun r => ∀ a ∈ r, K.Attribute a := by
  refine .andThen (.evalLiteral e) fun v => ?_
  split
  · exact .pure fun _ b hb => absurd hb (by simp)
  · refine .bind (.relocate _) fun a => .pure fun ha b hb => ?_
    cases hb
    exact K.attribute_plain (ofLiteral_ne_graph ha.2)

theorem abides_attributeOf (name : String) {e : Expr} (he : ∀ x ∈ e.mentions, R.named x) :
    Abides K R env H (attributeOf name e) fun r => ∀ a ∈ r, K.Attribute a := by
  unfold attributeOf
  split
  · refine .lookup_bind (he _ (by simp [Expr.mentions])) fun T b hcaptured => ?_
    split
    · refine .pure fun _ a ha => ?_
      cases ha
      exact K.attribute_plain fun _ => by simp [Interchange.Attribute.reference]
    · rename_i fn captured
      refine .andThen (abides_checkCaptured _ _ (hcaptured _ _ _ rfl)) fun _ => .bind (.lift _) fun a => .pure ?_
      rintro ⟨⟨_, hfn⟩, ha⟩ b hb
      cases hb
      exact .graph fn hfn name ha
    · exact .fail
    · exact abides_literalAttribute name _
  · exact abides_literalAttribute name _

/-- The operator of a target and the functions to ship with it are as asked. -/
structure Kinds.Targeted (K : Kinds) (t : Target) : Prop where
  op : K.Op (opName t.op)
  functions : ∀ g ∈ t.functions, K.Shipped g.2

theorem abides_targetOf {callee : Callee}
    (h : ∀ fn captured, callee = .nested fn captured → ∀ p ∈ captured, R.captured p.1) :
    Abides K R env (K.Called callee) (targetOf callee pos) K.Targeted := by
  unfold targetOf
  split
  · exact .pure fun hop => ⟨hop, by simp⟩
  · exact .pure fun hf => ⟨hK.script _ hf, by simp⟩
  · rename_i fn captured
    refine .andThen (abides_checkCaptured _ _ (h fn captured rfl)) fun _ => .bind .read fun e => ?_
    refine .bind (.lift _) fun g => .pure ?_
    rintro ⟨⟨hfn, rfl⟩, hg⟩
    exact { op := hK.module fn.name, functions := forall_mem_singleton.2 (.form fn hfn hg) }

theorem abides_target {func : Expr} (hf : ∀ x ∈ func.mentions, R.named x) :
    Abides K R env H (calleeOf func >>= fun callee => targetOf callee pos) K.Targeted where
  toKeeps := (abides_calleeOf hf).toKeeps.bind fun _ =>
    (abides_targetOf (R := .any) fun _ _ _ _ _ => trivial).toKeeps.of And.right
  also := (abides_calleeOf (K := K) (H := H) hf).also.bind_of fun _ _ _ hs hcallee =>
    (abides_targetOf (K := K) fun _ _ h => captured_of_calleeOf hf hs (h ▸ hcallee)).also

omit hK in
theorem abides_splitArguments (t : Target) (args : List Part) (keywords : List (String × Part)) :
    Abiding K R env (splitArguments pos t args keywords) := by
  unfold splitArguments
  split
  · exact .done
  · exact (Fulfils.relocate _).post fun _ _ _ => trivial

/-- A part of an expression with the names it may look up. -/
structure Part.Abides (K : Kinds) (R : Reading) (env : Env) (p : Part) : Prop where
  lower : Abiding K R env p.lower
  mentions : ∀ x ∈ p.expr.mentions, R.named x

omit hK in
theorem abides_argument {p : Part} (hp : p.Abides K R env) : Abiding K R env (argument p) := by
  unfold argument
  split
  · exact .done
  · exact hp.lower

theorem abides_call {func : Expr} (hf : ∀ x ∈ func.mentions, R.named x) {args : List Part}
    {keywords : List (String × Part)} (ha : ∀ p ∈ args, p.Abides K R env) (hk : ∀ k ∈ keywords, k.2.Abides K R env) :
    Abides K R env H (call pos func args keywords) K.Requested := by
  rw [call, ← bind_assoc]
  refine .bind (abides_target hf) fun t => .bind_of (abides_splitArguments t args keywords).anywhere fun s split s' hr => ?_
  obtain ⟨hinputs, hattrs⟩ := Arguments.forall_split ha hk (returns_splitArguments hr).1
  refine .andThen (.mapM fun x hx => ?_) fun operands => ?_
  · split
    · exact .done
    · exact abides_argument (hinputs _ hx)
  · refine .bind (.filterMapM fun x hx => abides_attributeOf _ (hattrs x hx).mentions) fun attributes => ?_
    refine .andThen (abides_promote ..) fun _ => .pure ?_
    rintro ⟨⟨⟨_, ht⟩, _⟩, hattr⟩
    exact { op := ht.op, attributes := hattr, functions := ht.functions }

/-! ### Expressions -/

/-- A constant expression becomes a constant; the other case is that of the expression's form. -/
theorem abides_constantOr {e : Expr} {candidate : Option String} {m : Lower Lowered}
    (hm : Abides K R env True m K.Result) : Abides K R env True (if e.isConstant then do
      return .operand (← constant (← evalLiteral e) candidate e.pos) else m) K.Result := by
  split
  · refine .andThen (.evalLiteral e) fun v => .andThen (abides_constant ..) fun _ => ?_
    exact .pure fun _ => trivial
  · exact hm

omit hK in
theorem abides_operand {m : Lower Operand} (hm : Abides K R env True m fun _ => True) :
    Abides K R env True (return .operand (← m)) K.Result :=
  hm.andThen fun _ => .pure fun _ => trivial

omit hK in
theorem abides_request {m : Lower Request} (hm : Abides K R env H m K.Requested) :
    Abides K R env H (return .request (← m)) K.Result :=
  hm.bind fun _ => .pure And.right

theorem abides_binary {l r : Lower Operand} (op : BinaryOp) {right : Expr} {name : String}
    (hl : Abiding K R env l) (hr : Abiding K R env r) : Abides K R env True (do
      let attributes ← remainderAttributes op right
      let o ← defaultOp name
      let x ← l
      let y ← r
      return .request (← binaryRequest o x y attributes)) K.Result := by
  refine .bind (abides_remainderAttributes ..) fun _ => .bind (abides_defaultOp _) fun _ => ?_
  refine .andThen hl fun _ => .andThen hr fun _ => abides_request ?_
  exact (abides_binaryRequest ..).of fun ⟨⟨_, hattr⟩, hop⟩ => ⟨hop, hattr⟩

theorem abides_boolean {op : BoolOp} {ps : List Part} (hps : ∀ p ∈ ps, p.Abides K R env) :
    Abides K R env True (do
      let o ← defaultOp op.label
      match ps with
      | first :: second :: rest =>
        return .request (← joinOperands o (← first.lower) second.lower (rest.map (·.lower)))
      | _ => fail .emptyBoolean pos) K.Result := by
  refine .bind (abides_defaultOp _) fun _ => ?_
  split
  · rename_i first second rest
    obtain ⟨hfirst, hps⟩ := forall_mem_cons.1 hps
    obtain ⟨hsecond, hrest⟩ := forall_mem_cons.1 hps
    refine .andThen hfirst.lower fun _ => abides_request (.of ?_ And.right)
    exact abides_joinOperands _ _ _ _ hsecond.lower (forall_mem_map.2 fun p hp => (hrest p hp).lower)
  · exact .fail

omit hK in
theorem abides_unary {m : Lower Operand} {name : String} (hm : Abiding K R env m) : Abides K R env True (do
      let x ← m
      return .request { op := opName (← defaultOp name), inputs := [x.name] }) K.Result :=
  .andThen hm fun _ => .bind (abides_defaultOp _) fun _ => .pure fun ⟨_, hop⟩ => ⟨hop, by simp, by simp⟩

theorem abides_compare {l r : Lower Operand} {cmp : CompareOp} {name : String} (hl : Abiding K R env l)
    (hr : Abiding K R env r) : Abides K R env True (do
      let x ← l
      return .request (← compareRequest cmp name x (← r))) K.Result :=
  .andThen hl fun _ => .andThen hr fun _ => abides_request (abides_compareRequest ..)

theorem abiding_part {m : Lower Lowered} (hm : Abides K R env True m K.Result) :
    Abiding K R env (m >>= finish none) :=
  hm.bind fun l => (abides_finish none l).of And.right

mutual
theorem abides_lowerExpr (e : Expr) (candidate : Option String) (h : ∀ x ∈ e.mentions, R.named x) :
    Abides K R env True (lowerExpr e candidate) K.Result := by
  rw [lowerExpr.eq_def]
  refine abides_constantOr ?_
  cases e with
  | call pos func args keywords =>
    rw [Expr.mentions, forall_mem_append, forall_mem_append] at h
    obtain ⟨⟨hfunc, hargs⟩, hkeywords⟩ := h
    exact abides_request (abides_call hfunc (abides_lowerParts args hargs) (abides_lowerKeywords keywords hkeywords))
  | binary pos l op r =>
    rw [Expr.mentions, forall_mem_append] at h
    dsimp only
    split
    · exact .fail
    · have hl := abiding_part (abides_lowerExpr l none h.1)
      have hr := abiding_part (abides_lowerExpr r none h.2)
      simpa only [bind_assoc] using abides_binary op hl hr
  | boolean pos op es => exact abides_boolean (abides_lowerParts es h)
  | unary pos op e =>
    dsimp only
    split
    · exact .fail
    · simpa only [bind_assoc] using abides_unary (abiding_part (abides_lowerExpr e none h))
  | compare pos l ops es =>
    rw [Expr.mentions, forall_mem_append] at h
    dsimp only
    split
    · rename_i cmp right rest hes
      split
      · exact .fail
      · have hl := abiding_part (abides_lowerExpr l none h.1)
        have hr := (abides_lowerParts es h.2 right (by rw [hes]; exact mem_cons_self)).lower
        simpa only [bind_assoc] using abides_compare hl hr
    · exact .fail
  | name pos id => exact abides_operand (abides_operandOfName (h id (by simp [Expr.mentions])))
  | subscript pos value i =>
    rw [Expr.mentions, forall_mem_append] at h
    have hvalue := abiding_part (abides_lowerExpr value none h.1)
    dsimp only
    split
    · rename_i es
      exact abides_operand (abides_subscript hvalue (abiding_lowerIndices es h.2) _)
    · rename_i l u st
      have hi := h.2
      rw [Expr.mentions, forall_mem_append, forall_mem_append] at hi
      have hrange : Subscript.IndexEach (Abiding K R env) (.range (lowerOption l) (lowerOption u) (lowerOption st)) :=
        ⟨abiding_lowerOption l hi.1.1, abiding_lowerOption u hi.1.2⟩
      exact abides_operand (abides_subscript hvalue (forall_mem_singleton.2 hrange) _)
    · have hpoint : Subscript.IndexEach (Abiding K R env) (.point ⟨i, lowerExpr i none >>= finish none⟩) :=
        abiding_part (abides_lowerExpr i none h.2)
      exact abides_operand (abides_subscript hvalue (forall_mem_singleton.2 hpoint) _)
  | _ => exact .fail
theorem abides_lowerParts : ∀ es : List Expr, (∀ x ∈ Expr.mentionsAll es, R.named x) →
    ∀ p ∈ lowerParts es, p.Abides K R env
  | [], _ => by simp [lowerParts]
  | e :: es, h => by
    rw [Expr.mentionsAll, forall_mem_append] at h
    rw [lowerParts]
    have he := abiding_part (abides_lowerExpr e none h.1)
    exact forall_mem_cons.2 ⟨⟨he, h.1⟩, abides_lowerParts es h.2⟩
theorem abiding_lowerOption : ∀ e : Option Expr, (∀ x ∈ Expr.mentionsOption e, R.named x) →
    ∀ p, lowerOption e = some p → Abiding K R env p.lower
  | none, _ => by simp [lowerOption]
  | some e, h => by
    intro p hp
    rw [lowerOption] at hp
    cases hp
    exact abiding_part (abides_lowerExpr e none h)
theorem abides_lowerKeywords : ∀ ks : List Keyword, (∀ x ∈ Expr.mentionsKeywords ks, R.named x) →
    ∀ k ∈ lowerKeywords ks, k.2.Abides K R env
  | [], _ => by simp [lowerKeywords]
  | ⟨_, name, e⟩ :: ks, h => by
    rw [Expr.mentionsKeywords, forall_mem_append] at h
    rw [lowerKeywords]
    have he := abiding_part (abides_lowerExpr e none h.1)
    exact forall_mem_cons.2 ⟨⟨he, h.1⟩, abides_lowerKeywords ks h.2⟩
theorem abiding_lowerIndices : ∀ es : List Expr, (∀ x ∈ Expr.mentionsAll es, R.named x) →
    ∀ i ∈ lowerIndices es, Subscript.IndexEach (Abiding K R env) i
  | [], _ => by simp [lowerIndices]
  | e :: es, h => by
    rw [Expr.mentionsAll, forall_mem_append] at h
    rw [lowerIndices.eq_def]
    split
    · rename_i heq
      cases heq
    · rename_i l u st es' heq
      cases heq
      have hl := h.1
      rw [Expr.mentions, forall_mem_append, forall_mem_append] at hl
      exact forall_mem_cons.2 ⟨⟨abiding_lowerOption l hl.1.1, abiding_lowerOption u hl.1.2⟩,
        abiding_lowerIndices es h.2⟩
    · rename_i e' es' hnot heq
      cases heq
      exact forall_mem_cons.2 ⟨abiding_part (abides_lowerExpr e none h.1), abiding_lowerIndices es h.2⟩
end

theorem abides_lowerOperand {e : Expr} (candidate : Option String) (h : ∀ x ∈ e.mentions, R.named x) :
    Abiding K R env (lowerOperand e candidate) :=
  ((abides_lowerExpr e candidate h).of fun _ => trivial).bind fun l => (abides_finish candidate l).of And.right

theorem abides_lowerOutputs {e : Expr} (candidates : List String) (h : ∀ x ∈ e.mentions, R.named x) :
    Abiding K R env (lowerOutputs e candidates) := by
  unfold lowerOutputs
  split
  · rw [Expr.mentions, forall_mem_append, forall_mem_append] at h
    refine .bind (abides_call h.1.1 (abides_lowerParts _ h.1.2) (abides_lowerKeywords _ h.2)) fun _ => ?_
    refine .andThen (.mapM fun _ _ => abides_fresh _) fun _ => ?_
    exact .bind ((abides_emitRequest ..).of And.right) fun _ => .done
  · exact .fail

/-- **The lowering of an expression looks up the names in it.** -/
theorem reads_lowerOperand {e : Expr} (candidate : Option String) (h : ∀ x ∈ e.mentions, R.named x) :
    Reads R env (lowerOperand e candidate) :=
  (abides_lowerOperand (K := .any) candidate h).also

theorem reads_lowerOutputs {e : Expr} (candidates : List String) (h : ∀ x ∈ e.mentions, R.named x) :
    Reads R env (lowerOutputs e candidates) :=
  (abides_lowerOutputs (K := .any) candidates h).also

end Lowering

end OpGraph
