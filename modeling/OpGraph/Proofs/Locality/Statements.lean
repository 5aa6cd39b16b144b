import OpGraph.Proofs.Assertions.Expressions

/-!
The names that the lowering of a statement binds are those that the statement assigns. It binds them in the innermost
scope; the scopes around it, and the parameters of its function, stay as they are. Blocks and nested functions are
lowered in scopes of their own, so that what they bind is gone when they end.
-/

namespace OpGraph.Lowering

open List

variable {α β : Type} {A : String → Binding → Prop} {env : Env} {pos : Position}
variable {fn : GraphFunction} {g : GraphFunction → GraphFunction} {s t : State} {T' : State → State → Prop}
variable {domain name x : String}

/-! ### What changes between states -/

namespace State

theorem lookup_eq_or (s : State) (x : String) :
    s.scopes.lookup x = (Members.get? s.bindings x).or (s.frames.tail.findSome? fun f => Members.get? f.bindings x) := by
  rw [lookup_eq_frames]
  unfold bindings frames
  cases s.scopes with
  | nil => rfl
  | cons f fs =>
    rw [map_cons, findSome?_cons, tail_cons]
    cases Members.get? f.bindings x <;> rfl

theorem frames_eq_cons (hs : s.scopes ≠ []) :
    s.frames = ⟨s.current.name, s.current.params, s.bindings⟩ :: s.frames.tail := by
  obtain ⟨f, hf, hc, hb⟩ := scopes_eq_cons hs
  unfold frames
  rw [hc, hb, hf]
  rfl

/-- A relation of states that is a matter of what their scopes declare, and that steps one after the other keep. -/
class Framed (T : State → State → Prop) : Prop where
  of_frames : ∀ {s t : State}, t.frames = s.frames → T s t
  trans : ∀ {s t u : State}, T s t → T t u → T s u

/-- The innermost scope is that of the same function, and the scopes around it are as before. -/
structure SameScope (s t : State) : Prop where
  function : t.frames.head?.map (·.function) = s.frames.head?.map (·.function)
  around : t.frames.tail = s.frames.tail

/-- Names may have been bound in the innermost scope, to what `A` allows. -/
structure Declaring (A : String → Binding → Prop) (s t : State) : Prop extends SameScope s t where
  bindings : ∀ x, Members.get? t.bindings x = Members.get? s.bindings x ∨
    ∃ b, Members.get? t.bindings x = some b ∧ A x b

/-- Nothing else was declared. -/
structure Rebinding (A : String → Binding → Prop) (s t : State) : Prop extends Declaring A s t where
  params : t.frames.head?.map (·.params) = s.frames.head?.map (·.params)

instance : Framed SameScope where
  of_frames h := ⟨by rw [h], by rw [h]⟩
  trans h h' := ⟨h'.function.trans h.function, h'.around.trans h.around⟩

instance : Framed (Declaring A) where
  of_frames h := ⟨Framed.of_frames h, fun x => .inl (by rw [bindings_of_frames h])⟩
  trans h h' := by
    refine ⟨Framed.trans h.toSameScope h'.toSameScope, fun x => ?_⟩
    rcases h'.bindings x with hx | hx
    · rw [hx]
      exact h.bindings x
    · exact .inr hx

instance : Framed (Rebinding A) where
  of_frames h := ⟨Framed.of_frames h, by rw [h]⟩
  trans h h' := ⟨Framed.trans h.toDeclaring h'.toDeclaring, h'.params.trans h.params⟩

theorem Rebinding.mono {B : String → Binding → Prop} (h : s.Rebinding A t) (hAB : ∀ x b, A x b → B x b) :
    s.Rebinding B t :=
  ⟨⟨h.toSameScope, fun x => (h.bindings x).imp_right (Exists.imp fun b hb => ⟨hb.1, hAB x b hb.2⟩)⟩, h.params⟩

theorem Declaring.get?_eq (h : s.Declaring A t) (hx : ∀ b, ¬A x b) :
    Members.get? t.bindings x = Members.get? s.bindings x :=
  (h.bindings x).resolve_right fun hb => hb.elim fun b ha => hx b ha.2

/-- **Other names stand for what they stood for.** -/
theorem Declaring.lookup (h : s.Declaring A t) (hx : ∀ b, ¬A x b) : t.scopes.lookup x = s.scopes.lookup x := by
  rw [lookup_eq_or, lookup_eq_or, h.get?_eq hx, h.around]

end State

open State

theorem Edits.frames {bs : List (String × Binding)} (e : Edits s fn bs t) :
    t.frames = ⟨fn.name, fn.params, bs⟩ :: s.frames.tail := by
  have htail : t.frames.tail = s.frames.tail := by
    unfold State.frames
    rw [← map_tail, ← map_tail, show t.scopes.tail = s.scopes.tail from e.around]
  rw [frames_eq_cons e.opened', htail, e.current, e.bindings]

theorem Enters.frames (e : Enters s name domain t) : t.frames = ⟨name, [], []⟩ :: s.frames := by
  unfold State.frames
  rw [e.scopes]
  rfl

theorem Leaves.frames (l : Leaves s fn t) : t.frames = s.frames.tail := by
  unfold State.frames
  rw [l.scopes, State.around, map_tail]

/-- What is done in a scope of its own is gone when the scope is closed. -/
theorem frames_of_scope {s₀ s₁ : State} (e : Enters s name domain s₀) (h : s₀.SameScope s₁) (l : Leaves s₁ fn t) :
    t.frames = s.frames ∧ fn.name = name := by
  have hname : s₁.frames.head?.map (·.function) = some name := by rw [h.function, e.frames]; rfl
  refine ⟨by rw [l.frames, h.around, e.frames, tail_cons], ?_⟩
  rw [frames_eq_cons l.opened, ← l.fn] at hname
  exact Option.some.inj hname

/-! ### Rules -/

/-- Each run of the steps takes a state to one that it is related to. -/
def Moves (T : State → State → Prop) (env : Env) (m : Lower α) : Prop :=
  ∀ ⦃s : State⦄ ⦃a : α⦄ ⦃t : State⦄, Returns m env s a t → T s t

variable {T : State → State → Prop} {K : Kinds} {H : Prop} {P Q : α → Prop} {S : β → Prop} {m : Lower α} {f : α → Lower β}

theorem Moves.mono (hm : Moves T env m) (h : ∀ s t, T s t → T' s t) : Moves T' env m :=
  fun _ _ _ hr => h _ _ (hm hr)

instance [Framed T] : Sequential env fun _ m => Moves T env m where
  pure _ _ _ _ hr := Framed.of_frames (by cases hr; rfl)
  throw _ _ _ _ hr := absurd hr returns_throw
  read _ _ _ hr := Framed.of_frames (by rw [(returns_read.1 hr).2])
  bind hm hf s b u hr := by
    obtain ⟨a, t, h1, h2⟩ := returns_bind.1 hr
    exact Framed.trans (hm h1) (hf s a t h1 h2)

/-- Steps that keep their contract, and take each state to one that it is related to. -/
abbrev Obeys (T : State → State → Prop) (K : Kinds) (env : Env) (H : Prop) (m : Lower α) (Q : α → Prop) : Prop :=
  Fulfils (fun _ m => Moves T env m) K env H m Q

/-- Steps of which nothing is asked but that they can stand anywhere. -/
abbrev Acts (T : State → State → Prop) (K : Kinds) (env : Env) (m : Lower α) : Prop :=
  Obeys T K env True m fun _ => True

/-- Steps that look at the state, but not at its messages. -/
theorem Obeys.get_bind {k : State → Lower β} (hk : ∀ s ws es, k (s.after ws es) = k s) (h : ∀ s, Acts T K env (k s)) :
    Acts T K env (get >>= k) where
  toKeeps := .get_bind hk fun s => (h s).toKeeps.of fun _ => trivial
  also := fun s _ _ hr => (h s).also hr

namespace Fulfils

theorem mono (hm : Obeys T K env H m Q) (h : ∀ s t, T s t → T' s t) : Obeys T' K env H m Q :=
  ⟨hm.toKeeps, hm.also.mono h⟩

theorem declaring (hm : Obeys (Rebinding A) K env H m Q) : Obeys (Declaring A) K env H m Q :=
  hm.mono fun _ _ h => h.toDeclaring

theorem within (hm : Obeys (Rebinding A) K env H m Q) : Obeys SameScope K env H m Q :=
  hm.mono fun _ _ h => h.toSameScope

variable [Framed T]

theorem of_frames (hm : Keeps K env H m Q) (hf : ∀ ⦃s a t⦄, Returns m env s a t → t.frames = s.frames) :
    Obeys T K env H m Q :=
  ⟨hm, fun _ _ _ hr => Framed.of_frames (hf hr)⟩

theorem of_scopes (hm : Keeps K env H m Q) (hf : ∀ ⦃s a t⦄, Returns m env s a t → t.scopes = s.scopes) :
    Obeys T K env H m Q :=
  .of_frames hm fun s a t hr => by rw [State.frames, State.frames, hf hr]

theorem of_abides (hm : Abides K .any env H m Q) : Obeys T K env H m Q :=
  .of_frames hm.toKeeps fun s a t hr => hm.also.frames s a t s.closed_any hr

theorem afterCheck {c : Prop} [Decidable c] {f : LoweringFault} (hm : Obeys T K env H m P) :
    Obeys T K env H (if c then (Lowering.fail f pos : Lower Unit) >>= fun _ => m else m) P :=
  .maybeAfter (S := fun _ => True) .fail hm

end Fulfils

/-! ### Steps -/

section

variable [Framed T]

theorem acts_edit [K.Lawful env] (hg : ∀ f, (g f).name = f.name ∧
      (g f).params = f.params ∧ (g f).nodes = f.nodes ∧ (g f).called = f.called ∧ (g f).nested = f.nested) :
    Acts T K env (modifyFunction g) :=
  .of_abides ⟨keeps_edit fun f => (hg f).2.2, reads_modifyFunction fun f => ⟨(hg f).1, (hg f).2.1⟩⟩

theorem acts_currentFunction : Acts T K env currentFunction :=
  .get_bind (fun _ _ _ => rfl) fun _ => .andThen (.lift _) fun _ => .done

theorem acts_lookupLocal (name : String) : Acts T K env (lookupLocal name) :=
  .get_bind (fun _ _ _ => rfl) fun _ => (Fulfils.lift _).post fun _ _ _ => trivial

theorem acts_lookupOuter (name : String) : Acts T K env (lookupOuter name) :=
  .get_bind (fun _ _ _ => rfl) fun _ => .done

theorem acts_operandOfName [K.Lawful env] (name : String) : Acts T K env (operandOfName name pos) :=
  .of_abides (abides_operandOfName trivial)

theorem acts_lowerOperand [K.Lawful env] (e : Expr) (candidate : Option String) :
    Acts T K env (lowerOperand e candidate) :=
  .of_abides (abides_lowerOperand _ fun _ _ => trivial)

theorem acts_fresh (candidate : String) : Acts T K env (fresh candidate) :=
  .of_abides (abides_fresh _)

theorem acts_emitPlain [K.Lawful env] (outputs : List String) (name : String) (inputs : List String) :
    Acts T K env (emitDefault outputs name inputs) :=
  .of_abides (abides_emitPlain ..)

theorem acts_copy [K.Lawful env] (value candidate : String) : Acts T K env (copy value candidate) :=
  .andThen (acts_fresh candidate) fun _ => .andThen (acts_emitPlain ..) fun _ => .done

theorem acts_modify {g : State → State} (hg : ∀ s ws es, g (s.after ws es) = (g s).after ws es)
    (ho : ∀ s, (g s).defaultOpset = s.defaultOpset) (hs : ∀ s, (g s).scopes = s.scopes) :
    Acts T K env (modify g : Lower Unit) := by
  refine .of_scopes (.modify hg ho fun s _ h f hf => h f (hs s ▸ hf)) fun s u t hr => ?_
  obtain rfl := returns_modify.1 hr
  exact hs s

end

theorem keeps_trace (message : String) : Keeps K env True (trace message) fun _ => True :=
  (abides_trace (R := .any) message).toKeeps

theorem Kinds.Lawful.holds_push (hK : K.Lawful env) (hs : K.Holds s) (name domain : String) :
    K.Holds { s with scopes := s.scopes.push name { name, domain } } :=
  forall_mem_cons.2 ⟨⟨hK.start name domain, fun _ _ => nofun⟩, hs⟩

theorem keeps_enter [hK : K.Lawful env] (name domain : String) : Keeps K env H (enter name domain) fun _ => True := by
  refine .andThen (.modify (fun _ _ _ => rfl) (fun _ => rfl) fun s _ hs => hK.holds_push hs name domain) fun _ => ?_
  exact .get_bind (fun _ _ _ => rfl) fun s => (keeps_trace _).of fun _ => trivial

theorem keeps_leave : Keeps K env H leave K.Fn := by
  refine .get_bind (fun _ _ _ => rfl) fun s => .bind (.lift _) fun (frame, scopes) => ?_
  -- what was asked of all frames is asked of the one that is left and of those around it
  have hpop : s.scopes.pop = .ok (frame, scopes) → s.scopes = frame :: scopes := by
    intro h
    cases hs : s.scopes with
    | nil =>
      rw [hs] at h
      cases h
    | cons f fs =>
      rw [hs] at h
      cases h
      rfl
  refine .bind (.modify (fun _ _ _ => rfl) (fun _ => rfl) ?_) fun _ => .andThen (keeps_trace _) fun _ => .pure ?_
  · rintro t ⟨⟨_, hs, _⟩, h⟩ _ f hf
    exact hs f (by rw [hpop h]; exact mem_cons_of_mem _ hf)
  · rintro ⟨⟨⟨_, hs, _⟩, h⟩, _⟩
    exact (hs frame (by rw [hpop h]; exact mem_cons_self)).1

theorem acts_declare [K.Lawful env]
    (hg : ∀ f, (g f).name = f.name ∧ (g f).nodes = f.nodes ∧ (g f).called = f.called ∧ (g f).nested = f.nested) :
    Acts (Declaring A) K env (modifyFunction g) where
  toKeeps := keeps_edit fun f => (hg f).2
  also := by
    intro s u t hr
    have e := edits_modifyFunction hr
    refine ⟨⟨?_, by rw [e.frames, tail_cons]⟩, fun x => .inl (by rw [e.bindings])⟩
    rw [e.frames, frames_eq_cons e.opened, (hg _).1]
    rfl

theorem obeys_bind {b : Binding} (hA : A name b) :
    Obeys (Rebinding A) K env (K.Bound b) (Lowering.bind name b) fun _ => True where
  toKeeps := by
    refine .get_bind (fun _ _ _ => rfl) fun s => .bind (.lift _) fun scopes => ?_
    refine .bind (.modify (fun _ _ _ => rfl) (fun _ => rfl) fun t hH _ => ?_) fun _ => ?_
    · obtain ⟨⟨hb, hs, _⟩, h⟩ := hH
      refine hs.modify h fun f hf => ⟨(hs f hf).1, fun x c hc => ?_⟩
      rw [Members.get?_set] at hc
      split at hc
      · cases hc
        exact hb
      · exact (hs f hf).2 x c hc
    · split
      · exact (keeps_trace _).of fun _ => trivial
      · exact .pure fun _ => trivial
  also := by
    intro s u t hr
    have e := edits_bind hr
    refine ⟨⟨⟨?_, by rw [e.frames, tail_cons]⟩, fun x => ?_⟩, ?_⟩
    · rw [e.frames, frames_eq_cons e.opened]
      rfl
    · rw [e.bindings, Members.get?_set]
      split
      · rename_i heq
        exact .inr ⟨b, rfl, heq ▸ hA⟩
      · exact .inl rfl
    · rw [e.frames, frames_eq_cons e.opened]
      rfl

theorem acts_bind {v : String} {p : Provenance} {t : Option DeclaredType} (hA : A name (.graph v p t)) :
    Acts (Rebinding A) K env (Lowering.bind name (.graph v p t)) :=
  (obeys_bind hA).of fun _ => trivial

end OpGraph.Lowering
