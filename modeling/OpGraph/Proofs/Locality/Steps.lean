import OpGraph.Proofs.Assertions.Rules
import OpGraph.Proofs.Lowering.Growth

/-!
The names that steps of a lowering look up. Steps that look up given names only, and bind none, are told from two runs:
the one from a state, and the one from the same state with other names bound in its innermost scope. If the given names
are bound alike, the two runs come to the same. Of the steps that expressions are lowered by, this and their contract are
proved at once.
-/

namespace OpGraph.Lowering

open List

variable {bs : List (String × Binding)} {s t : State} {name : String}

/-- The names that steps may look up: those that are written in the script, and those whose bindings are checked because
a nested function among the first has captured them. -/
structure Reading where
  named : String → Prop
  captured : String → Prop

variable {α β : Type} {R : Reading} {env : Env}

/-- What a scope declares: its function with the parameters, and the names that are bound in it. -/
structure Declarations where
  function : String
  params : List GraphParam
  bindings : List (String × Binding)

namespace State

def frames (s : State) : List Declarations :=
  s.scopes.map fun f => ⟨f.fn.name, f.fn.params, f.bindings⟩

/-- The state with other names bound in the innermost scope. -/
def rebound (s : State) (bs : List (String × Binding)) : State :=
  { s with scopes := match s.scopes with
      | [] => []
      | f :: fs => { f with bindings := bs } :: fs }

theorem lookup_eq_frames (s : State) (x : String) :
    s.scopes.lookup x = s.frames.findSome? fun f => Members.get? f.bindings x := by
  unfold frames Scopes.lookup
  rw [findSome?_map]
  rfl

theorem lookup_of_frames (h : t.frames = s.frames) (x : String) : t.scopes.lookup x = s.scopes.lookup x := by
  rw [lookup_eq_frames, lookup_eq_frames, h]

theorem bindings_of_frames (h : t.frames = s.frames) : t.bindings = s.bindings := by
  have hhead : ∀ u : State, u.bindings = (u.frames.head?.map (·.bindings)).getD [] := by
    intro u
    unfold bindings frames
    cases u.scopes <;> rfl
  rw [hhead, hhead, h]

theorem lookup_rebound {x : String} (h : Members.get? bs x = Members.get? s.bindings x) :
    (s.rebound bs).scopes.lookup x = s.scopes.lookup x := by
  unfold rebound
  unfold bindings at h
  cases hs : s.scopes with
  | nil => rfl
  | cons f fs =>
    rw [hs] at h
    unfold Scopes.lookup
    rw [findSome?_cons, findSome?_cons, h]

/-- What the nested functions among the names have captured may be looked up too. -/
def Closed (s : State) (R : Reading) : Prop :=
  ∀ x id fn captured, R.named x → s.scopes.lookup x = some (.function id fn captured) → ∀ p ∈ captured, R.captured p.1

theorem Closed.of_frames (hs : s.Closed R) (h : t.frames = s.frames) : t.Closed R := by
  intro x id fn captured hx ht
  rw [lookup_of_frames h] at ht
  exact hs x id fn captured hx ht

/-- Other bindings of the innermost scope, alike for the names that may be looked up. -/
def Agrees (s : State) (R : Reading) (bs : List (String × Binding)) : Prop :=
  ∀ x, R.named x ∨ R.captured x → Members.get? bs x = Members.get? s.bindings x

theorem Agrees.of_frames (hs : s.Agrees R bs) (h : t.frames = s.frames) : t.Agrees R bs := by
  intro x hx
  rw [bindings_of_frames h]
  exact hs x hx

end State

/-- Steps that declare nothing, and that look up no names but those of `R`. -/
structure Reads (R : Reading) (env : Env) (m : Lower α) : Prop where
  frames : ∀ (s : State) (a : α) (t : State), s.Closed R → Returns m env s a t → t.frames = s.frames
  rebound : ∀ (s : State) (bs : List (String × Binding)), s.Closed R → s.Agrees R bs →
    outcome m env (s.rebound bs) = ((outcome m env s).1, (outcome m env s).2.rebound bs)

theorem returns_of_isSome {m : Lower Unit} (h : (outcome m env s).1.toOption.isSome) :
    Returns m env s () (outcome m env s).2 := by
  change outcome m env s = _
  rcases hrun : outcome m env s with ⟨e | u, t⟩
  · rw [hrun] at h
    cases h
  · rfl

namespace Reads

variable {m : Lower α} {f : α → Lower β}

theorem returns_rebound (hm : Reads R env m) {a : α} (hs : s.Closed R) (hbs : s.Agrees R bs) (h : Returns m env s a t) :
    Returns m env (s.rebound bs) a (t.rebound bs) := by
  have hrun : outcome m env s = (.ok a, t) := h
  have hboth := hm.rebound s bs hs hbs
  rwa [hrun] at hboth

/-! ### Sequences of steps -/

theorem pure (a : α) : Reads R env (Pure.pure a) where
  frames := by
    intro s b t _ h
    cases h
    rfl
  rebound := fun _ _ _ _ => rfl

theorem throw (e : Error) : Reads R env (throw e : Lower α) where
  frames := fun _ _ _ _ h => absurd h returns_throw
  rebound := fun _ _ _ _ => rfl

theorem bind_of (hm : Reads R env m) (hf : ∀ s a t, s.Closed R → Returns m env s a t → Reads R env (f a)) :
    Reads R env (m >>= f) where
  frames := by
    intro s b u hs h
    obtain ⟨a, t, hma, hfa⟩ := returns_bind.1 h
    have ht := hm.frames s a t hs hma
    exact ((hf s a t hs hma).frames t b u (hs.of_frames ht) hfa).trans ht
  rebound := by
    intro s bs hs hbs
    rw [outcome_bind, outcome_bind, hm.rebound s bs hs hbs]
    rcases hrun : outcome m env s with ⟨e | a, t⟩
    · rfl
    · have ht := hm.frames s a t hs hrun
      exact (hf s a t hs hrun).rebound t bs (hs.of_frames ht) (hbs.of_frames ht)

/-! ### State and environment -/

theorem read : Reads R env (read : Lower Env) where
  frames := by
    intro s e t _ h
    obtain ⟨-, rfl⟩ := returns_read.1 h
    rfl
  rebound := fun _ _ _ _ => rfl

/-- Steps that look at the state, but not at the bindings of its innermost scope. -/
theorem get_bind {k : State → Lower β} (hk : ∀ s bs, k (s.rebound bs) = k s) (h : ∀ s, Reads R env (k s)) :
    Reads R env (get >>= k) where
  frames := by
    intro s b t hs hr
    obtain ⟨s₁, s₂, hget, hr⟩ := returns_bind.1 hr
    obtain ⟨rfl, rfl⟩ := returns_get.1 hget
    exact (h s).frames s b t hs hr
  rebound := by
    intro s bs hs hbs
    change outcome (k (s.rebound bs)) env (s.rebound bs) = ((outcome (k s) env s).1, (outcome (k s) env s).2.rebound bs)
    rw [hk]
    exact (h s).rebound s bs hs hbs

theorem modifyGet {g : State → α × State} (hg : ∀ s bs, g (s.rebound bs) = ((g s).1, (g s).2.rebound bs))
    (hf : ∀ s, (g s).2.frames = s.frames) : Reads R env (modifyGet g : Lower α) where
  frames := by
    intro s a t _ h
    have := hf s
    rwa [returns_modifyGet.1 h] at this
  rebound := by
    intro s bs _ _
    change (Except.ok (g (s.rebound bs)).1, (g (s.rebound bs)).2) = (Except.ok (g s).1, (g s).2.rebound bs)
    rw [hg]

theorem modify {g : State → State} (hg : ∀ s bs, g (s.rebound bs) = (g s).rebound bs)
    (hf : ∀ s, (g s).frames = s.frames) : Reads R env (modify g : Lower Unit) :=
  .modifyGet (fun s bs => by rw [hg]) hf

end Reads

/-! ### Single steps -/

theorem outcome_modifyFunction (g : GraphFunction → GraphFunction) (s : State) : outcome (modifyFunction g) env s =
    match s.scopes with
    | [] => (.error { fault := .noScope }, s)
    | f :: fs => (.ok (), { s with scopes := { f with fn := g f.fn } :: fs }) := by
  change outcome (Lowering.lift (s.scopes.modify _) >>= _) env s = _
  cases s.scopes <;> rfl

theorem reads_modifyFunction {g : GraphFunction → GraphFunction} (hg : ∀ f, (g f).name = f.name ∧ (g f).params = f.params) :
    Reads R env (modifyFunction g) where
  frames := by
    intro s u t _ h
    have hrun : outcome (modifyFunction g) env s = (.ok u, t) := h
    rw [outcome_modifyFunction] at hrun
    unfold State.frames
    cases hs : s.scopes with
    | nil =>
      rw [hs] at hrun
      cases hrun
    | cons f fs =>
      rw [hs] at hrun
      cases hrun
      simp [hg]
  rebound := by
    intro s bs _ _
    rw [outcome_modifyFunction, outcome_modifyFunction]
    unfold State.rebound
    cases hs : s.scopes with
    | nil => rw [hs]
    | cons f fs => rfl

theorem outcome_lookup? (name : String) (s : State) : outcome (lookup? name) env s =
    (.ok (s.scopes.lookup name <|> (Members.get? env.globals name).map .value), s) := by
  rw [lookup?, outcome_get_bind]
  cases s.scopes.lookup name <;> rfl

theorem reads_lookup? (hn : R.named name ∨ R.captured name) : Reads R env (lookup? name) where
  frames := by
    intro s b t _ h
    have hrun : outcome (lookup? name) env s = (.ok b, t) := h
    rw [outcome_lookup?] at hrun
    cases hrun
    rfl
  rebound := by
    intro s bs _ hbs
    rw [outcome_lookup?, outcome_lookup?, State.lookup_rebound (hbs name hn)]

/-- What a nested function has captured that a name is found to be bound to. -/
theorem captured_of_lookup? {id : ℕ} {fn : GraphFunction} {captured : List (String × Identity)} (hn : R.named name)
    (hs : s.Closed R) (h : Returns (lookup? name) env s (some (.function id fn captured)) t) :
    ∀ p ∈ captured, R.captured p.1 := by
  have hrun : outcome (lookup? name) env s = (.ok (some (.function id fn captured)), t) := h
  rw [outcome_lookup?] at hrun
  refine hs name id fn captured hn ?_
  cases hl : s.scopes.lookup name with
  | some b =>
    rw [hl] at hrun
    cases hrun
    rfl
  | none =>
    rw [hl] at hrun
    cases hg : Members.get? env.globals name <;> rw [hg] at hrun <;> cases hrun

theorem reads_useOpset (o : Opset) : Reads R env (useOpset o) := by
  unfold useOpset
  split
  · refine .get_bind (fun _ _ => rfl) fun s => ?_
    split
    · exact .modify (fun _ _ => rfl) fun _ => rfl
    · split
      · exact .throw _
      · exact .pure _
  · exact .pure _

/-! ### Both contracts -/

def Reading.any : Reading :=
  ⟨fun _ => True, fun _ => True⟩

theorem State.closed_any (s : State) : s.Closed .any :=
  fun _ _ _ _ _ _ _ _ => trivial

def Kinds.any : Kinds where
  Op := fun _ => True
  Fn := fun _ => True
  Script := fun _ => True

instance (env : Env) : Kinds.any.Lawful env where
  other := fun _ _ => trivial
  module := fun _ => trivial
  script := fun _ _ => trivial
  globals := fun _ v _ => by cases v <;> trivial
  start := fun _ _ => trivial
  congr := fun _ _ _ _ _ _ => trivial
  addNode := fun _ _ _ _ => trivial
  addCalled := fun _ _ _ _ => trivial
  addNested := fun _ _ _ _ => trivial

instance : Sequential env fun _ m => Reads R env m where
  pure := .pure
  throw := .throw
  read := .read
  bind hm hf := hm.bind_of fun s a t _ hr => hf s a t hr

/-- Steps that keep their contract, and that look up no names but those of `R`. -/
abbrev Abides (K : Kinds) (R : Reading) (env : Env) (H : Prop) (m : Lower α) (Q : α → Prop) : Prop :=
  Fulfils (fun _ m => Reads R env m) K env H m Q

/-- Steps of which nothing is asked but that they can stand anywhere. -/
abbrev Abiding (K : Kinds) (R : Reading) (env : Env) (m : Lower α) : Prop :=
  Abides K R env True m fun _ => True

section

variable {K : Kinds} {H : Prop} {P Q : α → Prop} {S : β → Prop} {m : Lower α} {f : α → Lower β} {pos : Position}

/-- Steps that look at the state, but neither at its messages nor at the bindings of its innermost scope. -/
theorem Abides.get_bind {k : State → Lower β} (hk : ∀ s ws es, k (s.after ws es) = k s)
    (hb : ∀ s bs, k (s.rebound bs) = k s)
    (h : ∀ s, Abides K R env (H ∧ K.Holds s ∧ ∀ o ∈ s.defaultOpset, K.Opset o) (k s) S) :
    Abides K R env H (get >>= k) S :=
  ⟨.get_bind hk fun s => (h s).toKeeps, .get_bind hb fun s => (h s).also⟩

/-! ### Messages -/

theorem abides_record (entry : LogEntry) : Abiding K R env (record entry) :=
  ⟨.modify (fun _ _ _ => by simp [State.after]) (fun _ => rfl) fun _ _ hs => hs, .modify (fun _ _ => rfl) fun _ => rfl⟩

theorem abides_trace (message : String) : Abiding K R env (trace message) := by
  refine .andThen .read fun _ => ?_
  split
  · exact abides_record _
  · exact .done

theorem abides_warn (message : String) : Abiding K R env (warn message pos) := by
  refine .andThen .location fun _ => .andThen (P := fun _ => True) ⟨?_, ?_⟩ fun _ => ?_
  · exact .modify (fun _ _ _ => by simp [State.after]) (fun _ => rfl) fun _ _ hs => hs
  · exact .modify (fun _ _ => rfl) fun _ => rfl
  · exact .andThen .read fun _ => abides_record _

/-! ### Names -/

theorem abides_fresh (candidate : String) : Abiding K R env (fresh candidate) where
  toKeeps := .modifyGet (fun _ _ _ => rfl) (fun _ => rfl) fun _ _ hs => ⟨hs, trivial⟩
  also := .modifyGet (fun _ _ => rfl) fun _ => rfl

theorem abides_lookup? [hK : K.Lawful env] (hn : R.named name ∨ R.captured name) :
    Abides K R env H (lookup? name) fun r => ∀ b ∈ r, K.Bound b where
  also := reads_lookup? hn
  toKeeps := by
    refine .get_bind (fun _ _ _ => rfl) fun s => ?_
    split
    · rename_i b hb
      refine .pure fun ⟨_, hs, _⟩ c hc => ?_
      cases hc
      exact hs.bound_of_lookup (fun f hf => hf) hb
    · refine .bind .read fun e => .pure fun ⟨_, he⟩ c hc => ?_
      subst he
      obtain ⟨v, hv, rfl⟩ := Option.map_eq_some_iff.1 hc
      exact hK.globals name v hv

theorem abides_lookup [K.Lawful env] (hn : R.named name) : Abides K R env H (lookup name pos) K.Bound := by
  refine .bind (abides_lookup? (.inl hn)) fun b => ?_
  split
  · exact .pure fun ⟨_, hb⟩ => hb _ rfl
  · exact .failAt

/-- Steps that go on from the binding of a name. What a nested function has captured that it is bound to may be looked
up, whatever it is that may be. -/
theorem Abides.lookup_bind {g : Binding → Lower β} [K.Lawful env] (hn : R.named name)
    (hg : ∀ (T : Reading) (b : Binding), (∀ id fn captured, b = .function id fn captured → ∀ p ∈ captured, T.captured p.1) →
      Abides K T env (H ∧ K.Bound b) (g b) S) : Abides K R env H (lookup name pos >>= g) S where
  toKeeps := (abides_lookup hn).toKeeps.bind fun b => (hg .any b fun _ _ _ _ _ _ => trivial).toKeeps
  also := by
    refine (abides_lookup (K := K) (H := H) hn).also.bind_of fun s b t hs hb => (hg R b ?_).also
    rintro id fn captured rfl
    obtain ⟨b', s₁, hb', h⟩ := returns_bind.1 hb
    split at h
    · cases h
      exact captured_of_lookup? hn hs hb'
    · cases h

/-! ### Nodes -/

theorem abides_requireDefaultOpset : Abides K R env H requireDefaultOpset K.Opset := by
  refine .get_bind (fun _ _ _ => rfl) (fun _ _ => rfl) fun s => ?_
  split
  · rename_i o ho
    exact .pure fun ⟨_, _, hopset⟩ => hopset o ho
  · exact .throw _

theorem abides_defaultOp (name : String) : Abides K R env H (defaultOp name) fun o => K.Op (opName o) :=
  .bind abides_requireDefaultOpset fun _ => .pure fun ⟨_, ho⟩ => ho name

variable [hK : K.Lawful env]

theorem abides_emit (n : GraphNode) : Abides K R env (K.Formed n) (emit n) fun _ => True :=
  ⟨keeps_modifyFunction.of fun hn f hf => hK.addNode f n hf hn, reads_modifyFunction fun _ => ⟨rfl, rfl⟩⟩

theorem abides_emitDefault (outputs : List String) (name : String) (inputs : List String)
    (attributes : List NodeAttribute) :
    Abides K R env (∀ a ∈ attributes, K.Attribute a) (emitDefault outputs name inputs attributes) fun _ => True :=
  .bind (abides_defaultOp name) fun _ => (abides_emit _).of fun ⟨ha, hop⟩ => ⟨hop, ha, by simp, by simp⟩

theorem abides_emitPlain (outputs : List String) (name : String) (inputs : List String) :
    Abiding K R env (emitDefault outputs name inputs) :=
  (abides_emitDefault ..).of fun _ => by simp

omit hK in
theorem Kinds.attribute_plain {a : Interchange.Attribute} (h : ∀ g, a.value ≠ .graph g) : K.Attribute ⟨a, []⟩ :=
  .plain rfl h

theorem abides_emitWith (outputs : List String) (name : String) (inputs : List String)
    {a : Interchange.Attribute} (ha : ∀ g, a.value ≠ .graph g) :
    Abiding K R env (emitDefault outputs name inputs [⟨a, []⟩]) :=
  (abides_emitDefault ..).of fun _ => forall_mem_singleton.2 (K.attribute_plain ha)

theorem abides_constant (v : Literal) (candidate : Option String) :
    Abiding K R env (constant v candidate pos) := by
  refine .andThen (abides_fresh _) fun _ => .andThen (.liftAt _) fun _ => ?_
  exact .andThen (abides_emitWith _ _ _ fun _ => nofun) fun _ => .done

theorem abides_attributeValue (param : String) (type : DeclaredType) (candidate : String) :
    Abiding K R env (attributeValue param type candidate pos) := by
  unfold attributeValue
  split
  · exact .fail
  · refine .andThen (abides_fresh _) fun _ => .andThen (abides_emitWith _ _ _ fun _ => nofun) fun _ => ?_
    split
    · refine .andThen (abides_fresh _) fun _ => .andThen (abides_emitWith _ _ _ fun _ => nofun) fun _ => ?_
      exact .done
    · exact .done

theorem abides_operandOf (b : Binding) (name : String) :
    Abiding K R env (operandOf b name pos) := by
  unfold operandOf
  split
  · exact abides_attributeValue ..
  · exact .done
  · exact .fail
  · split
    · exact abides_constant ..
    · exact .fail

theorem abides_operandOfName (hn : R.named name) :
    Abiding K R env (operandOfName name pos) :=
  .lookup_bind hn fun _ _ _ => (abides_operandOf ..).anywhere

theorem abides_promote (schema : Option OpSchema) (args : List Operand) :
    Abiding K R env (promote schema args) := by
  refine .get_bind (fun _ _ _ => rfl) (fun _ _ => rfl) fun s => .andThen (.lift _) fun r => ?_
  refine .andThen (P := fun _ => True) ⟨?_, .modify (fun _ _ => rfl) fun _ => rfl⟩ fun _ => ?_
  · exact .modify (fun _ _ _ => rfl) (fun _ => rfl) fun _ _ hs => hs
  refine .andThen (P := fun _ => True) ?_ fun _ => .done
  induction r.casts with
  | nil => exact .done
  | cons c casts ih =>
    simp only [forIn_cons, bind_assoc, pure_bind]
    exact .andThen (abides_emitPlain ..) fun _ => ih

end

end OpGraph.Lowering
