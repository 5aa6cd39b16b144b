import OpGraph.Proofs.Lowering.Runs

/-!
Contracts of the steps of a lowering. Three things are said of steps at once: it makes no difference to them what
messages are there already; they leave a default operator set as it is, also if they fail, and choose one of the default
domain if there is none; and if what they are given is as asked, so are the functions that they build. What is asked of
operators and functions is left open, apart from the laws that make a contract of all steps follow from those of the
single ones.
-/

namespace OpGraph.Lowering

open List

variable {α β : Type}
variable {g : GraphFunction → GraphFunction} {xs : List α} {m' : Lower β} {H' c : Prop} {s t : State} {a : α}
variable {Q' : α → Prop}

/-- The outcome of steps: their result or the error that ended them, and the state that they leave. -/
def outcome (m : Lower α) (env : Env) (s : State) : Except Error α × State :=
  (m.run env).run.run s

/-- The state with other messages before those that it has. -/
def State.after (s : State) (warnings : List Diagnostic) (entries : List LogEntry) : State :=
  { s with diagnostics := warnings ++ s.diagnostics, log := entries ++ s.log }

theorem outcome_bind (m : Lower α) (f : α → Lower β) (env : Env) (s : State) :
    outcome (m >>= f) env s =
      match outcome m env s with
      | (.ok a, t) => outcome (f a) env t
      | (.error e, t) => (.error e, t) := by
  unfold outcome
  rw [ReaderT.run_bind, ExceptT.run_bind, StateT.run_bind]
  rcases (m.run env).run.run s with ⟨_ | _, t⟩ <;> rfl

theorem outcome_get_bind (f : State → Lower β) (env : Env) (s : State) :
    outcome (get >>= f) env s = outcome (f s) env s :=
  rfl

/-- The default operator set stays, or there was none and one of the default domain is chosen. -/
def State.Chooses (s t : State) : Prop :=
  t.defaultOpset = s.defaultOpset ∨ s.defaultOpset = none ∧ ∃ o ∈ t.defaultOpset, o.isDefaultDomain

theorem State.Chooses.trans {u : State} (h : s.Chooses t) (h' : t.Chooses u) : s.Chooses u := by
  rcases h' with h' | ⟨hnone, h'⟩
  · unfold Chooses
    rwa [h']
  · rcases h with h | ⟨-, o, ho, -⟩
    · exact .inr ⟨h.symm.trans hnone, h'⟩
    · rw [hnone] at ho
      cases ho

theorem State.Chooses.eq_of_isSome (h : s.Chooses t) (hs : s.defaultOpset.isSome) : t.defaultOpset = s.defaultOpset :=
  h.resolve_right fun hnone => by simp [hnone.1] at hs

/-! ### Kinds of operators and functions -/

/-- What is asked of operators, of functions under construction and of compiled functions. -/
structure Kinds where
  Op : OpName → Prop
  Fn : GraphFunction → Prop
  Script : ScriptFunction → Prop

namespace Kinds

variable (K : Kinds)

/-- The operators of a set are as asked. -/
def Opset (o : Opset) : Prop :=
  ∀ name, K.Op (opName (o.op name))

def Val : Value → Prop
  | .function _ f => K.Script f
  | .op _ o => K.Op (opName o)
  | _ => True

def Bound : Binding → Prop
  | .function _ fn _ => K.Fn fn
  | .value v => K.Val v
  | _ => True

/-- An attribute without a graph, or one that holds the graph of a function that is as asked. -/
inductive Attribute (a : NodeAttribute) : Prop where
  | plain (imports : a.imports = []) (value : ∀ g, a.value.value ≠ .graph g)
  | graph (q : GraphFunction) (fn : K.Fn q) (name : String) (form : q.toAttribute name = .ok a)

/-- A function that is shipped: the form of a function that is as asked, or one that such a function needs. -/
inductive Shipped (g : Interchange.Function) : Prop where
  | form (q : GraphFunction) (fn : K.Fn q) (form : q.toFunction = .ok g)
  | need (q : GraphFunction) (fn : K.Fn q) (fs : List (String × Interchange.Function)) (needs : q.functions = .ok fs)
    (name : String) (mem : (name, g) ∈ fs)

/-- Everything in a node is as asked. -/
structure Formed (n : GraphNode) : Prop where
  op : K.Op n.op
  attributes : ∀ a ∈ n.attributes, K.Attribute a
  functions : ∀ g ∈ n.functions, K.Shipped g.2
  blocks : ∀ b ∈ n.blocks, K.Fn b

/-- The functions under construction and the bindings of the open scopes are as asked. -/
def Holds (s : State) : Prop :=
  ∀ f ∈ s.scopes, K.Fn f.fn ∧ ∀ x b, Members.get? f.bindings x = some b → K.Bound b

/-- The laws of kinds. Nothing is asked of operators outside the default domain, nor of those that the module itself
brings; and functions stay as asked when what is added to them is as asked. -/
class Lawful (env : Env) : Prop where
  other : ∀ n : OpName, n.domain ≠ "" → K.Op n
  module : ∀ name, K.Op ⟨env.domain, env.version, name⟩
  script : ∀ f : ScriptFunction, K.Script f → K.Op f.op
  globals : ∀ name v, Members.get? env.globals name = some v → K.Val v
  start : ∀ name domain, K.Fn { name, domain }
  congr : ∀ f g : GraphFunction, K.Fn f → g.nodes = f.nodes → g.called = f.called → g.nested = f.nested → K.Fn g
  addNode : ∀ (f : GraphFunction) (n : GraphNode), K.Fn f → K.Formed n → K.Fn (f.addNode n)
  addCalled : ∀ (f : GraphFunction) (g : ScriptFunction), K.Fn f → K.Script g →
    K.Fn (f.addCalled g.name g.fn.toFunction)
  addNested : ∀ f g : GraphFunction, K.Fn f → K.Fn g → K.Fn (f.addNested g)

end Kinds

/-- The contract of steps. What is asked of their results, and of the state they leave, is promised if the precondition
`H` holds and the operators of the default set, which they may choose themselves, are as asked. -/
structure Keeps (K : Kinds) (env : Env) (H : Prop) (m : Lower α) (Q : α → Prop) : Prop where
  messages : ∀ (s : State) (ws : List Diagnostic) (es : List LogEntry),
    outcome m env (s.after ws es) = ((outcome m env s).1, (outcome m env s).2.after ws es)
  opset : ∀ s : State, s.Chooses (outcome m env s).2
  kinds : ∀ (s : State) (a : α) (s' : State), Returns m env s a s' → (∀ o ∈ s'.defaultOpset, K.Opset o) → H →
    K.Holds s → K.Holds s' ∧ Q a

namespace Keeps

variable {K : Kinds} {env : Env} {H : Prop} {P Q : α → Prop} {R : β → Prop} {m : Lower α} {f : α → Lower β}

theorem opset_of_returns (hm : Keeps K env H m Q) {s' : State} (h : Returns m env s a s') {o : OpGraph.Opset}
    (ho : o ∈ s.defaultOpset) : o ∈ s'.defaultOpset := by
  have hsome : s.defaultOpset = some o := ho
  have hkept := (hm.opset s).eq_of_isSome (by rw [hsome]; rfl)
  unfold outcome at hkept
  rw [show (m.run env).run.run s = (.ok a, s') from h] at hkept
  exact hkept.trans hsome

theorem mono (hm : Keeps K env H m Q) (hH : H' → H) (hQ : ∀ a, H' → Q a → Q' a) :
    Keeps K env H' m Q' where
  messages := hm.messages
  opset := hm.opset
  kinds := fun s a s' hr ho h hs =>
    have ⟨hs', hq⟩ := hm.kinds s a s' hr ho (hH h) hs
    ⟨hs', hQ a h hq⟩

theorem of (hm : Keeps K env H m Q) (hH : H' → H) : Keeps K env H' m Q :=
  hm.mono hH fun _ _ hq => hq

theorem post (hm : Keeps K env H m Q) (hQ : ∀ a, H → Q a → Q' a) : Keeps K env H m Q' :=
  hm.mono id hQ

/-! ### Sequences of steps -/

theorem pure (h : H → Q a) : Keeps K env H (Pure.pure a) Q where
  messages := fun _ _ _ => rfl
  opset := fun _ => .inl rfl
  kinds := by
    intro s b s' hr _ hH hs
    cases hr
    exact ⟨hs, h hH⟩

theorem throw (e : Error) : Keeps K env H (throw e : Lower α) Q where
  messages := fun _ _ _ => rfl
  opset := fun _ => .inl rfl
  kinds := fun _ _ _ hr => absurd hr returns_throw

/-- Steps that go on from a result: what is promised of it is a precondition of theirs. They need a contract for the
results only that there can be. -/
theorem bind_of (hm : Keeps K env H m P) (hf : ∀ s a t, Returns m env s a t → Keeps K env (H ∧ P a) (f a) R) :
    Keeps K env H (m >>= f) R where
  messages := by
    intro s ws es
    rw [outcome_bind, outcome_bind, hm.messages]
    rcases houtcome : outcome m env s with ⟨e | a, t⟩
    · rfl
    · exact (hf s a t houtcome).messages t ws es
  opset := by
    intro s
    have hchosen := hm.opset s
    rw [outcome_bind]
    rcases houtcome : outcome m env s with ⟨e | a, t⟩
    · rw [houtcome] at hchosen
      exact hchosen
    · rw [houtcome] at hchosen
      exact State.Chooses.trans hchosen ((hf s a t houtcome).opset t)
  kinds := by
    intro s b s' hr ho hH hs
    obtain ⟨a, t, hma, hfa⟩ := returns_bind.1 hr
    have hcont := hf s a t hma
    obtain ⟨ht, hPa⟩ := hm.kinds s a t hma (fun o hot => ho o (hcont.opset_of_returns hfa hot)) hH hs
    exact hcont.kinds t b s' hfa ho ⟨hH, hPa⟩ ht

theorem bind (hm : Keeps K env H m P) (hf : ∀ a, Keeps K env (H ∧ P a) (f a) R) : Keeps K env H (m >>= f) R :=
  hm.bind_of fun _ a _ _ => hf a

theorem andThen (hm : Keeps K env True m P) (hf : ∀ a, Keeps K env H (f a) R) : Keeps K env H (m >>= f) R :=
  (hm.of fun _ => trivial).bind fun a => (hf a).of And.left

theorem maybeAfter [Decidable c] {R' : β → Prop} (hm' : Keeps K env True m' R') (hm : Keeps K env H m P) :
    Keeps K env H (if c then m' >>= fun _ => m else m) P := by
  split
  · exact hm'.andThen fun _ => hm
  · exact hm

/-! ### State and environment -/

theorem read : Keeps K env H (read : Lower Env) fun e => e = env where
  messages := fun _ _ _ => rfl
  opset := fun _ => .inl rfl
  kinds := by
    intro s e s' hr _ _ hs
    obtain ⟨rfl, rfl⟩ := returns_read.1 hr
    exact ⟨hs, rfl⟩

/-- Steps that look at the state, but not at its messages. What they find in it is as asked. -/
theorem get_bind {k : State → Lower β} (hk : ∀ s ws es, k (s.after ws es) = k s)
    (h : ∀ s, Keeps K env (H ∧ K.Holds s ∧ ∀ o ∈ s.defaultOpset, K.Opset o) (k s) R) :
    Keeps K env H (get >>= k) R where
  messages := by
    intro s ws es
    change outcome (k (s.after ws es)) env (s.after ws es) = ((outcome (k s) env s).1, (outcome (k s) env s).2.after ws es)
    rw [hk]
    exact (h s).messages s ws es
  opset := fun s => (h s).opset s
  kinds := by
    intro s b s' hr ho hH hs
    obtain ⟨t, t', hget, hr⟩ := returns_bind.1 hr
    obtain ⟨rfl, rfl⟩ := returns_get.1 hget
    exact (h s).kinds s b s' hr ho ⟨hH, hs, fun o hos => ho o ((h s).opset_of_returns hr hos)⟩ hs

theorem modifyGet {g : State → α × State} (hg : ∀ s ws es, g (s.after ws es) = ((g s).1, (g s).2.after ws es))
    (ho : ∀ s, (g s).2.defaultOpset = s.defaultOpset)
    (hk : ∀ s, H → K.Holds s → K.Holds (g s).2 ∧ Q (g s).1) : Keeps K env H (modifyGet g : Lower α) Q where
  messages := by
    intro s ws es
    change (Except.ok (g (s.after ws es)).1, (g (s.after ws es)).2) = (Except.ok (g s).1, (g s).2.after ws es)
    rw [hg]
  opset := fun s => .inl (ho s)
  kinds := by
    intro s a s' hr _ hH hs
    have hpair := returns_modifyGet.1 hr
    have := hk s hH hs
    rwa [hpair] at this

theorem modify {g : State → State} (hg : ∀ s ws es, g (s.after ws es) = (g s).after ws es)
    (ho : ∀ s, (g s).defaultOpset = s.defaultOpset) (hk : ∀ s, H → K.Holds s → K.Holds (g s)) :
    Keeps K env H (modify g : Lower Unit) fun _ => True :=
  .modifyGet (fun s ws es => by rw [hg]) ho fun s hH hs => ⟨hk s hH hs, trivial⟩

theorem lift (r : Except Error α) : Keeps K env H (Lowering.lift r) fun a => r = .ok a := by
  cases r
  · exact .throw _
  · exact .pure fun _ => rfl

end Keeps

/-! ### Contracts with more in them -/

/-- What can be said of steps so that it holds of steps in a row if it holds of each of them. -/
class Sequential (env : Env) (X : (α : Type) → Lower α → Prop) : Prop where
  pure : ∀ {α : Type} (a : α), X α (pure a)
  throw : ∀ {α : Type} (e : Error), X α (throw e)
  read : X Env read
  bind : ∀ {α β : Type} {m : Lower α} {f : α → Lower β},
    X α m → (∀ s a t, Returns m env s a t → X β (f a)) → X β (m >>= f)

/-- Steps that keep their contract, and of which `X` can be said besides. -/
structure Fulfils (X : (α : Type) → Lower α → Prop) (K : Kinds) (env : Env) (H : Prop) (m : Lower α) (Q : α → Prop) :
    Prop extends Keeps K env H m Q where
  also : X α m

variable {K : Kinds} {env : Env} {H : Prop}

namespace Fulfils

variable {X : (α : Type) → Lower α → Prop} {P Q : α → Prop} {S : β → Prop} {m : Lower α} {f : α → Lower β}
  {pos : Position}

theorem of (hm : Fulfils X K env H m Q) (hH : H' → H) : Fulfils X K env H' m Q :=
  ⟨hm.toKeeps.of hH, hm.also⟩

theorem anywhere (hm : Fulfils X K env True m Q) : Fulfils X K env H m Q :=
  hm.of fun _ => trivial

theorem post (hm : Fulfils X K env H m Q) (hQ : ∀ a, H → Q a → Q' a) : Fulfils X K env H m Q' :=
  ⟨hm.toKeeps.post hQ, hm.also⟩

variable [hX : Sequential env X]

theorem pure (h : H → Q a) : Fulfils X K env H (Pure.pure a) Q :=
  ⟨.pure h, hX.pure a⟩

theorem done : Fulfils X K env H (Pure.pure a) fun _ => True :=
  .pure fun _ => trivial

theorem throw (e : Error) : Fulfils X K env H (throw e : Lower α) Q :=
  ⟨.throw e, hX.throw e⟩

theorem read : Fulfils X K env H (read : Lower Env) fun e => e = env :=
  ⟨.read, hX.read⟩

theorem bind_of (hm : Fulfils X K env H m P)
    (hf : ∀ s a t, Returns m env s a t → Fulfils X K env (H ∧ P a) (f a) S) : Fulfils X K env H (m >>= f) S where
  toKeeps := hm.toKeeps.bind_of fun s a t hr => (hf s a t hr).toKeeps
  also := hX.bind hm.also fun s a t hr => (hf s a t hr).also

theorem bind (hm : Fulfils X K env H m P) (hf : ∀ a, Fulfils X K env (H ∧ P a) (f a) S) :
    Fulfils X K env H (m >>= f) S :=
  hm.bind_of fun _ a _ _ => hf a

theorem andThen (hm : Fulfils X K env True m P) (hf : ∀ a, Fulfils X K env H (f a) S) :
    Fulfils X K env H (m >>= f) S :=
  hm.anywhere.bind fun a => (hf a).of And.left

theorem ite_bind [Decidable c] {m' : Lower α} (hm : Fulfils X K env True m P) (hm' : Fulfils X K env True m' P)
    (hf : ∀ a, Fulfils X K env H (f a) S) : Fulfils X K env H (if c then m >>= f else m' >>= f) S := by
  split
  · exact .andThen hm hf
  · exact .andThen hm' hf

theorem maybeAfter [Decidable c] (hm' : Fulfils X K env True m' S) (hm : Fulfils X K env H m P) :
    Fulfils X K env H (if c then m' >>= fun _ => m else m) P := by
  split
  · exact .andThen hm' fun _ => hm
  · exact hm

theorem mapM (h : ∀ x ∈ xs, Fulfils X K env H (f x) fun _ => True) : Fulfils X K env H (xs.mapM f) fun _ => True := by
  induction xs with
  | nil => exact .done
  | cons x xs ih =>
    rw [mapM_cons]
    refine (h x mem_cons_self).bind fun _ => .of ?_ And.left
    exact (ih fun y hy => h y (mem_cons_of_mem _ hy)).bind fun _ => .done

theorem forM {g : α → Lower PUnit} (h : ∀ x ∈ xs, Fulfils X K env True (g x) fun _ => True) :
    Fulfils X K env True (xs.forM g) fun _ => True := by
  induction xs with
  | nil => exact .done
  | cons x xs ih =>
    rw [forM_eq_forM, forM_cons]
    exact .andThen (h x mem_cons_self) fun _ => ih fun y hy => h y (mem_cons_of_mem _ hy)

theorem filterMapM {g : α → Lower (Option β)} (h : ∀ x ∈ xs, Fulfils X K env H (g x) fun r => ∀ b ∈ r, S b) :
    Fulfils X K env H (xs.filterMapM g) fun bs => ∀ b ∈ bs, S b := by
  induction xs with
  | nil => exact .pure fun _ => by simp
  | cons x xs ih =>
    rw [filterMapM_cons]
    have hrest := ih fun y hy => h y (mem_cons_of_mem _ hy)
    refine (h x mem_cons_self).bind fun r => ?_
    cases r with
    | none => exact hrest.of And.left
    | some b => exact (hrest.of And.left).bind fun bs => .pure fun ⟨⟨_, hb⟩, hbs⟩ =>
        forall_mem_cons.2 ⟨hb b rfl, hbs⟩

theorem lift (r : Except Error α) : Fulfils X K env H (Lowering.lift r) fun a => r = .ok a := by
  cases r
  · exact .throw _
  · exact .pure fun _ => rfl

theorem location : Fulfils X K env H (location pos) fun _ => True :=
  .andThen .read fun _ => .done

theorem failAt {f : Fault} : Fulfils X K env H (failAt f pos : Lower α) Q :=
  .andThen .location fun _ => .throw _

theorem fail {f : LoweringFault} : Fulfils X K env H (fail f pos : Lower α) Q :=
  .failAt

theorem liftAt (r : Except Error α) : Fulfils X K env H (liftAt pos r) fun a => r = .ok a := by
  refine .andThen .location fun l => (Fulfils.lift _).post fun a _ ha => ?_
  cases r with
  | error e => cases ha
  | ok b => exact ha

theorem relocate (r : Except Error α) : Fulfils X K env H (relocate pos r) fun a => r = .ok a := by
  refine .andThen .location fun _ => ?_
  cases r with
  | error e => exact .throw _
  | ok a => exact .pure fun _ => rfl

theorem evalValue (e : Expr) : Fulfils X K env H (evalValue e) fun _ => True :=
  .andThen .read fun _ => (liftAt _).post fun _ _ _ => trivial

theorem evalLiteral (e : Expr) : Fulfils X K env H (evalLiteral e) fun _ => True :=
  .andThen .read fun _ => (liftAt _).post fun _ _ _ => trivial

end Fulfils

/-! ### Scopes -/

theorem Kinds.Holds.modify {g : Frame → Frame} {scopes : Scopes} (hs : K.Holds s) (h : s.scopes.modify g = .ok scopes)
    (hg : ∀ f ∈ s.scopes, K.Fn (g f).fn ∧ ∀ x b, Members.get? (g f).bindings x = some b → K.Bound b) :
    K.Holds { t with scopes } := by
  cases hscopes : s.scopes with
  | nil =>
    rw [hscopes] at h
    cases h
  | cons f fs =>
    rw [hscopes] at h
    obtain rfl : g f :: fs = scopes := Except.ok.inj h
    refine forall_mem_cons.2 ⟨hg f (by simp [hscopes]), fun k hk => hs k ?_⟩
    rw [hscopes]
    exact mem_cons_of_mem _ hk

theorem Kinds.Holds.bound_of_lookup (hs : K.Holds s) {fs : Scopes} (hfs : ∀ f ∈ fs, f ∈ s.scopes) {name : String}
    {b : Binding} (h : Scopes.lookup fs name = some b) : K.Bound b := by
  obtain ⟨f, hf, hget⟩ := exists_of_findSome?_eq_some h
  exact (hs f (hfs f hf)).2 name b hget

theorem keeps_modifyFunction : Keeps K env (∀ f, K.Fn f → K.Fn (g f)) (modifyFunction g) fun _ => True := by
  refine .get_bind (fun _ _ _ => rfl) fun s => .bind (.lift _) fun scopes => ?_
  refine .modify (fun _ _ _ => rfl) (fun _ => rfl) fun t hH _ => ?_
  obtain ⟨⟨hg, hs, _⟩, h⟩ := hH
  exact hs.modify h fun f hf => ⟨hg _ (hs f hf).1, (hs f hf).2⟩

theorem keeps_edit [hK : K.Lawful env]
    (hg : ∀ f, (g f).nodes = f.nodes ∧ (g f).called = f.called ∧ (g f).nested = f.nested) :
    Keeps K env H (modifyFunction g) fun _ => True :=
  keeps_modifyFunction.of fun _ f hf => hK.congr f (g f) hf (hg f).1 (hg f).2.1 (hg f).2.2

end OpGraph.Lowering
