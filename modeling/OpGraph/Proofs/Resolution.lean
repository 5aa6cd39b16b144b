import OpGraph.Proofs.Lowering.Bindings
import OpGraph.Proofs.NestedFunctions

/-!
What the names in attribute arguments, in nested functions and in promoted arguments resolve to, at every point of the
lowering of a function and after any steps from there that compute values.
-/

namespace OpGraph

open List

/-! ### Identities -/

namespace Binding

/-- The text that a graph value, an attribute parameter or a text of the module goes by. -/
def label? : Binding → Option String
  | graph v _ _ => some v
  | attr name _ => some name
  | value (.str s) => some s
  | _ => none

/-- Bindings that are not told apart: those that go by the same text, whatever their kinds, the same function, and equal
values of the module. -/
inductive Alike : Binding → Binding → Prop
  | text {b c : Binding} {x : String} : b.label? = some x → c.label? = some x → Alike b c
  | function {k : ℕ} {f g : GraphFunction} {xs ys : List (String × Identity)} :
    Alike (function k f xs) (function k g ys)
  | value {v w : Value} : (value v).label? = none → (value w).label? = none → v.same w → Alike (value v) (value w)

theorem identity_of_label? {v : Value} (h : (value v).label? = none) : (value v).identity = .value v := by
  cases v <;> first | rfl | cases h

theorem identity_cases (b : Binding) : (∃ x, b.label? = some x ∧ b.identity = .name x) ∨
    (∃ k f xs, b = function k f xs ∧ b.identity = .function k ∧ b.label? = none) ∨
    ∃ v, b = value v ∧ b.identity = .value v ∧ b.label? = none := by
  cases b with
  | value v => cases v <;> simp [label?, identity]
  | _ => simp [label?, identity]

theorem same_identity_iff (b c : Binding) : b.identity.same c.identity ↔ b.Alike c := by
  constructor
  · intro h
    rcases b.identity_cases with ⟨x, hx, hb⟩ | ⟨j, f, xs, rfl, hb, -⟩ | ⟨v, rfl, hb, hv⟩ <;>
    rcases c.identity_cases with ⟨y, hy, hc⟩ | ⟨k, g, ys, rfl, hc, -⟩ | ⟨w, rfl, hc, hw⟩ <;>
    rw [hb, hc] at h <;> simp only [Identity.same, beq_iff_eq, Bool.false_eq_true] at h
    · exact .text hx (h ▸ hy)
    · exact h ▸ .function
    · exact .value hv hw h
  · intro h
    cases h with
    | text hx hy =>
      have hname : ∀ {d : Binding} {x}, d.label? = some x → d.identity = .name x := by
        intro d x hd
        rcases d.identity_cases with ⟨y, hy, h⟩ | ⟨_, _, _, -, -, hn⟩ | ⟨_, -, -, hn⟩ <;> simp_all
      simp [hname hx, hname hy, Identity.same]
    | function => simp [identity, Identity.same]
    | value hv hw h =>
      rw [identity_of_label? hv, identity_of_label? hw]
      exact h

end Binding

namespace Lowering

variable {env : Env} {s s' : State} {pos : Position}

/-- The check of what a nested function has captured, against what its names stood for when it was defined. -/
theorem returns_checkCaptured_iff {name : String} {s₀ : State} {names : List String}
    {captured : List (String × Identity)} (h : Forall₂ (s₀.Captures env) names captured) :
    Returns (checkCaptured name pos captured) env s () s ↔
      ∀ y ∈ names, ∃ b₀ b, s₀.binding? env y = some b₀ ∧ s.binding? env y = some b ∧ b.Alike b₀ := by
  induction h with
  | nil => simp [checkCaptured]
  | cons hp _ ih =>
    obtain ⟨rfl, b₀, hb₀, hid⟩ := hp
    rw [forall_mem_cons, ← ih, checkCaptured, returns_bind]
    simp only [returns_lookup?]
    constructor
    · rintro ⟨b, t, ⟨hb, rfl⟩, hr⟩
      split at hr
      · split at hr
        · rename_i hsame
          rw [hid, Binding.same_identity_iff] at hsame
          exact ⟨⟨b₀, _, hb₀, hb, hsame⟩, hr⟩
        · cases hr
      · cases hr
    · rintro ⟨⟨b₁, b, hb₁, hb, hsame⟩, hr⟩
      rw [hb₀] at hb₁
      cases hb₁
      rw [← Binding.same_identity_iff, ← hid] at hsame
      exact ⟨some b, s, ⟨hb, rfl⟩, by dsimp only; rwa [if_pos hsame]⟩

/-! ### Attributes -/

def IsLiteral (a : Option NodeAttribute) : Prop :=
  ∀ b ∈ a, (∀ g, b.value.value ≠ .graph g) ∧ ∀ x, b.value.value ≠ .reference x

theorem isLiteral_of_holdsLiteral {globals : Globals} {name : String} {e : Expr} {a : Option NodeAttribute}
    (h : HoldsLiteral globals name e a) : IsLiteral a := by
  obtain ⟨v, -, ⟨-, rfl⟩ | ⟨w, hw, rfl⟩⟩ := h
  · exact fun b hb => absurd hb (by simp)
  · rintro b ⟨⟩
    exact (ofLiteral_value hw).2

/-! ### Promoted arguments -/

def IsCast (k : CastLike) (n : GraphNode) : Prop :=
  n.op.name = "CastLike" ∧ n.inputs = [k.input, k.like] ∧ n.outputs = [k.output]

theorem nodes_casts {casts : List CastLike} {u : PUnit} (hr : Returns (forIn casts PUnit.unit fun c _ => do
      emitDefault [c.output] "CastLike" [c.input, c.like]
      pure (ForInStep.yield PUnit.unit)) env s u s') :
    ∃ ns, s'.current.nodes = s.current.nodes ++ ns ∧ Forall₂ IsCast casts ns := by
  induction casts generalizing s u with
  | nil =>
    cases hr
    exact ⟨[], by simp, .nil⟩
  | cons k casts ih =>
    simp only [forIn_cons, bind_assoc, pure_bind, returns_bind] at hr
    obtain ⟨v, s₁, he, hr⟩ := hr
    obtain ⟨o, -, he⟩ := returns_emitDefault.1 he
    obtain ⟨ns, hns, hall⟩ := ih hr
    exact ⟨_ :: ns, by rw [hns, nodes_emit he, append_assoc]; rfl, .cons ⟨rfl, rfl, rfl⟩ hall⟩

end Lowering

namespace Compiler

open Lowering

variable {t : Compiler} {fn : FunctionDef Unit} {task : Task} {s s' : State} {kinds : List ScopeKind} {h : Held}

/-- **Attributes of calls.** A literal that is given by a name is that of a module-level name which no scope binds. A
name that a scope binds gives a reference to an attribute parameter, or the graph of a nested function. An expression
that is no name has the value that it has for the module, whatever its names are bound to. -/
theorem attribute_scoping (r : Reaches (t.start fn).1 (t.start fn).2 fn.analyze task s kinds)
    (c : Computes False s {} s' h) {name : String} {e : Expr} {a : Option NodeAttribute} {s₁ : State}
    (hr : Returns (attributeOf name e) (t.start fn).1 s' a s₁) :
    (IsLiteral a → HoldsLiteral t.globals name e a ∧ ∀ pos x, e = .name pos x → s'.scopes.lookup x = none) ∧
      (¬IsLiteral a → ∃ pos x b, e = .name pos x ∧ s'.scopes.lookup x = some b ∧
        ((∃ param type, b = .attr param type ∧ a = some ⟨.reference name param type.attributeType, []⟩) ∨
          ∃ k g captured w, b = .function k g captured ∧ g.toAttribute name = .ok w ∧ a = some w)) ∧
      ((∀ pos x, e ≠ .name pos x) → ∀ u, (outcome (attributeOf name e) (t.start fn).1 u).1 = .ok a) := by
  have hl := (r.legit rfl).computes (r.nested_of rfl).good.opened c
  unfold attributeOf at hr
  split at hr
  · rename_i pos x
    have hname : ∀ {P : Prop}, (∀ p y, Expr.name pos x ≠ .name p y) → P := fun hne => absurd rfl (hne pos x)
    simp only [returns_bind, returns_lookup] at hr
    obtain ⟨b, _, ⟨hb, rfl⟩, hr⟩ := hr
    rcases Option.or_eq_some_iff.1 hb with hb | ⟨hfree, hb⟩
    · cases hl.lookup hb with
      | value => exact absurd hr returns_fail
      | attr =>
        obtain ⟨rfl, -⟩ := returns_pure.1 hr
        refine ⟨fun hlit => absurd rfl ((hlit _ rfl).2 _), fun _ => ⟨pos, x, _, rfl, hb, ?_⟩, hname⟩
        exact .inl ⟨_, _, rfl, rfl⟩
      | function =>
        simp only [returns_bind, returns_lift, returns_pure] at hr
        obtain ⟨_, _, -, w, _, ⟨hw, -⟩, rfl, -⟩ := hr
        refine ⟨fun hlit => ?_, fun _ => ⟨pos, x, _, rfl, hb, .inr ⟨_, _, _, w, rfl, hw, rfl⟩⟩, hname⟩
        exact absurd (by rw [GraphFunction.value_toAttribute hw]; rfl) ((hlit w rfl).1 _)
    · obtain ⟨v, -, rfl⟩ := Option.map_eq_some_iff.1 hb
      have hlit := (returns_literalAttribute_iff.1 hr).1
      refine ⟨fun _ => ⟨hlit, ?_⟩, fun hnot => absurd (isLiteral_of_holdsLiteral hlit) hnot, hname⟩
      rintro p y ⟨⟩
      exact hfree
  · rename_i hne
    have hlit := (returns_literalAttribute_iff.1 hr).1
    refine ⟨fun _ => ⟨hlit, fun p y hy => absurd hy (hne p y)⟩,
      fun hnot => absurd (isLiteral_of_holdsLiteral hlit) hnot, fun _ u => ?_⟩
    have hrun : Returns (attributeOf name e) (t.start fn).1 u a u := by
      unfold attributeOf
      split
      · exact absurd rfl (hne _ _)
      · exact returns_literalAttribute_iff.2 ⟨hlit, rfl⟩
    exact congrArg Prod.fst hrun

/-- A module with a text that goes by its own name. -/
def labelModule : Compiler :=
  { sampleModule with globals := ("k", .str "k") :: sampleModule.globals }

/-- Before `k` is bound, it is the text of the module. -/
theorem attribute_scoping_sample : ∃ task s a, Reaches (labelModule.start captureDef).1 (labelModule.start captureDef).2
    captureDef.analyze task s [.function] ∧
    Returns (attributeOf "mode" (.name default "k")) (labelModule.start captureDef).1 s (some a) s ∧
    a.value.value = .string "k" ∧ s.scopes.lookup "k" = none := by
  have hreach : ∃ task s, Reaches (labelModule.start captureDef).1 (labelModule.start captureDef).2 captureDef.analyze
      task s [.function] ∧ s.scopes.lookup "k" = none := by
    refine ⟨_, _, .start (returns_of_isSome ?_) (returns_of_isSome ?_), Option.isNone_iff_eq_none.1 ?_⟩
    all_goals decide +kernel
  obtain ⟨task, s, r, hfree⟩ := hreach
  have hr : Returns (attributeOf "mode" (.name default "k")) (labelModule.start captureDef).1 s
      (some ⟨⟨"mode", .string, .string "k"⟩, []⟩) s := by
    unfold attributeOf
    simp only [returns_bind, returns_lookup, hfree]
    refine ⟨.value (.str "k"), s, ⟨rfl, rfl⟩, returns_literalAttribute_iff.2 ⟨⟨.str "k", rfl, .inr ⟨_, rfl, rfl⟩⟩, rfl⟩⟩
  have hlit : IsLiteral (some ⟨⟨"mode", .string, .string "k"⟩, []⟩) := by
    rintro b ⟨⟩
    simp
  exact ⟨task, s, _, r, hr, rfl, ((attribute_scoping r (.refl False s {}) hr).1 hlit).2 default "k" rfl⟩

/-- An attribute with a list of a name that is bound to a graph value. -/
def shadowedSource : String :=
  "def f(x):\n" ++
  "    k = op.Abs(x)\n" ++
  "    return op.Pad(x, modes=[k])\n"

def attributeTexts : Interchange.AttributeValue → List String
  | .strings xs => xs
  | _ => []

/-- The attribute is the text of the module, although `k` is bound to the output of the first node. -/
theorem compound_attribute_ignores_scopes : ∃ stmt f, Syntax.parseScript shadowedSource = .ok [stmt] ∧
    (labelModule.compile stmt).1 = .ok f ∧ f.fn.nodes.map (fun n => (n.op.name, n.outputs)) =
      [("Abs", ["k"]), ("Pad", ["return_val"])] ∧
    f.fn.nodes.map (fun n => n.attributes.map fun a => attributeTexts a.value.value) = [[], [["k"]]] :=
  exists_of_compileOnly _ _ _ (by decide +kernel)

/-- **Captured names.** A nested function that a name stands for was defined at an earlier point. The check of what it
has captured passes exactly if each name that it reads stands for something that is not told apart from what the name
stood for there. -/
theorem captured_check_alike (r : Reaches (t.start fn).1 (t.start fn).2 fn.analyze task s kinds)
    (c : Computes False s {} s' h) {x : String} {k : ℕ} {g : GraphFunction} {captured : List (String × Identity)}
    (hx : s'.scopes.lookup x = some (.function k g captured)) :
    ∃ place m d s₀ kinds₀, Reaches (t.start fn).1 (t.start fn).2 fn.analyze (.stmt place (.function m d)) s₀ kinds₀ ∧
      g.name = d.name ∧ ∀ pos, Returns (checkCaptured g.name pos captured) (t.start fn).1 s' () s' ↔
        ∀ y ∈ d.captured.toList, ∃ b₀ b, s₀.binding? (t.start fn).1 y = some b₀ ∧
          s'.binding? (t.start fn).1 y = some b ∧ b.Alike b₀ := by
  have hl := (r.legit rfl).computes (r.nested_of rfl).good.opened c
  cases hl.lookup hx with
  | function defined name captures =>
    exact ⟨_, _, _, _, _, defined, name, fun pos => returns_checkCaptured_iff captures⟩

/-- The check of what a nested function has captured, by its name. -/
def passes (env : Env) (s : State) (x : String) : Bool :=
  match s.scopes.lookup x with
  | some (.function _ g captured) => (outcome (checkCaptured g.name default captured) env s).1.toOption.isSome
  | _ => false

/-- After the definition of `g`, the check passes, so the `y` that it reads is as it was. -/
theorem captured_check_alike_sample : ∃ task s, Reaches (sampleModule.start captureDef).1
    (sampleModule.start captureDef).2 captureDef.analyze task s [.function] ∧
    passes (sampleModule.start captureDef).1 s "g" ∧
    ∃ (d : FunctionDef NameSet) (s₀ : State), ∀ y ∈ d.captured.toList, ∃ b₀ b,
      s₀.binding? (sampleModule.start captureDef).1 y = some b₀ ∧
      s.binding? (sampleModule.start captureDef).1 y = some b ∧ b.Alike b₀ := by
  have hreach : ∃ task s, Reaches (sampleModule.start captureDef).1 (sampleModule.start captureDef).2 captureDef.analyze
      task s ([] ++ ([] ++ [.function])) ∧ passes (sampleModule.start captureDef).1 s "g" := by
    refine ⟨_, _, .step (.step (.start (returns_of_isSome ?_) (returns_of_isSome ?_))
      (.bodyTail (returns_of_isSome ?_))) (.bodyTail (returns_of_isSome ?_)), ?_⟩
    all_goals decide +kernel
  obtain ⟨task, s, r, hpass⟩ := hreach
  refine ⟨task, s, r, hpass, ?_⟩
  unfold passes at hpass
  split at hpass
  · rename_i hx
    obtain ⟨_, _, d, s₀, _, -, -, hiff⟩ := captured_check_alike r (.refl False s {}) hx
    have hr := returns_of_isSome hpass
    rw [← returns_checkCaptured hr] at hr
    exact ⟨d, s₀, (hiff default).1 hr⟩
  · cases hpass

/-- A nested function that reads a text of the module, whose name is then bound to a graph value. -/
def relabelledSource : String :=
  "def f(x):\n" ++
  "    def g(z):\n" ++
  "        return op.Pad(z, mode=k)\n" ++
  "    k = op.Abs(x)\n" ++
  "    return g(k)\n"

/-- The call of `g` is accepted: the graph value goes by the same text. -/
theorem graph_value_taken_for_text : ∃ stmt f, Syntax.parseScript relabelledSource = .ok [stmt] ∧
    (labelModule.compile stmt).1 = .ok f ∧ f.fn.nodes.map (fun n => (n.op.name, n.inputs, n.outputs)) =
      [("Abs", ["x"], ["k"]), ("g", ["k"], ["return_val_0"])] :=
  exists_of_compileOnly _ _ _ (by decide +kernel)

/-- **Only literals are cast.** A name that counts as a literal, and an expression that does, names a literal of an open
scope, which can be hidden only by a parameter of a function. So a cast that promotion adds is one of a literal to the
type of a given argument that is none; all other arguments stay as they are. -/
theorem literals_cast (r : Reaches (t.start fn).1 (t.start fn).2 fn.analyze task s kinds)
    (c : Computes False s {} s' h) :
    (∀ x v type, s'.scopes.lookup x = some (.graph v .constant type) →
      s'.Literal v ∧ Scopes.Settles kinds s'.scopes v) ∧
      (∀ e candidate o s₁, Returns (lowerOperand e candidate) (t.start fn).1 s' o s₁ → o.isConst → s₁.Literal o.name) ∧
      ∀ schema args inputs s₁, (∀ a ∈ args, a.isConst → s'.Literal a.name) →
        Returns (promote schema args) (t.start fn).1 s' inputs s₁ → ∃ casts ns,
          s₁.current.nodes = s'.current.nodes ++ ns ∧ List.Forall₂ IsCast casts ns ∧
          (∀ k ∈ casts, s'.Literal k.input ∧ ∃ a ∈ args, a.name = k.like ∧ a.isConst = false ∧ a.name ≠ "") ∧
          List.Forall₂ (BecomesInput casts) args inputs := by
  have hs := r.nested_of rfl
  have hl := ((r.legit rfl).computes hs.good.opened c).literals
  refine ⟨fun x v type hx => ⟨hl.lookup hx v type rfl, ?_⟩, fun e candidate o s₁ => literal_lowerOperand hl, ?_⟩
  · have hs' := hs.continues ⟨c.toGrows, c.bound hs.good.opened hs.good.bound, c.params⟩
    exact hs'.distinct.settles (hs'.good.bound.lookup hx)
  · intro schema args inputs s₁ hargs hr
    obtain ⟨pairs, q, u, hpairs, hq, rfl, hcasts⟩ := returns_promote hr
    obtain ⟨hof, -⟩ := castsOf_assign (N := False) hpairs s' hq
    obtain ⟨ns, hns, hall⟩ := nodes_casts hcasts
    refine ⟨q.casts, ns, hns, hall, fun k hk => ?_, hof.inputs⟩
    obtain ⟨⟨a, ha, hin, hconst⟩, hlike⟩ := hof.casts k hk
    exact ⟨hin ▸ hargs a ha hconst, hlike⟩

def becomesLiteral (env : Env) (s : State) (e : Expr) : Bool :=
  match outcome (lowerOperand e) env s with
  | (.ok o, _) => o.isConst
  | _ => false

theorem literals_cast_sample : ∃ task s o s₁, Reaches (sampleModule.start captureDef).1
    (sampleModule.start captureDef).2 captureDef.analyze task s [.function] ∧
    Returns (lowerOperand (.constant default (.int 1))) (sampleModule.start captureDef).1 s o s₁ ∧
    s₁.Literal o.name := by
  have hreach : ∃ task s, Reaches (sampleModule.start captureDef).1 (sampleModule.start captureDef).2 captureDef.analyze
      task s [.function] ∧ becomesLiteral (sampleModule.start captureDef).1 s (.constant default (.int 1)) := by
    refine ⟨_, _, .start (returns_of_isSome ?_) (returns_of_isSome ?_), ?_⟩
    all_goals decide +kernel
  obtain ⟨task, s, r, hlit⟩ := hreach
  unfold becomesLiteral at hlit
  split at hlit
  · rename_i o s₁ hr
    exact ⟨task, s, o, s₁, r, hr, (literals_cast r (.refl False s {})).2.1 _ _ o s₁ hr hlit⟩
  · cases hlit

/-- A module with an operator set that knows the types of an addition. -/
def addModule : Compiler :=
  let formal (name : String) : Formal := { name, type := "T" }
  let add : OpSchema := ⟨"Add", "", 1, [formal "A", formal "B"], [formal "C"], []⟩
  { sampleModule with globals := [("op", .opset none { domain := "", version := 15, registry := .ofList [add] })] }

/-- The parameter of `g` has the name of the literal that `z` stands for. -/
def hiddenLiteralSource : String :=
  "def f(x):\n" ++
  "    y = 1\n" ++
  "    z = y\n" ++
  "    def g(y):\n" ++
  "        return op.Add(y, z)\n" ++
  "    return op.Scan(x, body=g, num_scan_inputs=1)\n"

/-- The cast that is added in `g` reads the parameter, which is computed at run time. -/
theorem parameter_cast_for_literal : ∃ stmt f, Syntax.parseScript hiddenLiteralSource = .ok [stmt] ∧
    (addModule.compile stmt).1 = .ok f ∧ f.fn.nested.map (fun g => (g.inputNames, g.nodes.map fun n =>
      (n.op.name, n.inputs))) = [(["y"], [("CastLike", ["y", "y"]), ("Add", ["y", "y_cast"])])] :=
  exists_of_compileOnly _ _ _ (by decide +kernel)

end Compiler

end OpGraph
