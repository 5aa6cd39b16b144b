import OpGraph.Proofs.Graph.Construction
import OpGraph.Proofs.Graph.Shape
import OpGraph.Proofs.Lowering.Runs
import OpGraph.Proofs.Names

/-!
How a lowering grows the function of the innermost scope. `Grows` says all that steps may do: they leave the scopes
around alone, take names from the supply, and add to the innermost function what uses existing values only. Names that
were taken and functions that were finished, but are not part of the innermost function yet, are held by the steps in
between; each is handed over once. What a whole lowering keeps follows because growth composes.
-/

namespace OpGraph

open List

variable {b : Binding} {x : String}

/-! ### Visible values -/

/-- What a name is bound to is in the surroundings: a graph value, or a function defined there. -/
def Surroundings.Has (o : Surroundings) : Binding → Prop
  | .graph v _ _ => v ∈ o.values
  | .function _ g _ => g ∈ o.functions
  | _ => True

theorem Surroundings.Has.mono {o o' : Surroundings} (h : o.Has b) (hv : ∀ x ∈ o.values, x ∈ o'.values)
    (hf : ∀ g ∈ o.functions, g ∈ o'.functions) : o'.Has b := by
  cases b with
  | graph v p t => exact hv v h
  | function i g c => exact hf g h
  | attr | value => trivial

namespace Scopes

/-- The values of the functions of all open scopes. -/
def visible (s : Scopes) : List String :=
  s.flatMap (·.fn.values)

/-- What is around a scope that is entered next. -/
def surroundings (s : Scopes) : Surroundings :=
  ⟨s.visible, s.flatMap (·.fn.nested)⟩

/-- The names of each scope are bound to what its function and those around it have. -/
def Bound : Scopes → Prop
  | [] => True
  | f :: s => (∀ x b, Members.get? f.bindings x = some b → (f.fn.within (surroundings s)).Has b) ∧ Bound s

theorem Bound.lookup {s : Scopes} (hb : Bound s) (h : Scopes.lookup s x = some b) : s.surroundings.Has b := by
  induction s generalizing x b with
  | nil =>
    simp [Scopes.lookup] at h
  | cons f s ih =>
    unfold Scopes.lookup at h
    rw [findSome?_cons] at h
    split at h
    · rename_i b' hget
      obtain rfl := Option.some.inj h
      exact hb.1 x b' hget
    · exact (ih hb.2 h).mono (fun _ hx => mem_append_right _ hx) fun _ hg => mem_append_right _ hg

end Scopes

namespace Lowering

variable {N : Prop} {s s' : State}

namespace State

def current (s : State) : GraphFunction :=
  match s.scopes with
  | [] => { name := "" }
  | f :: _ => f.fn

def around (s : State) : Scopes :=
  s.scopes.tail

def bindings (s : State) : List (String × Binding) :=
  match s.scopes with
  | [] => []
  | f :: _ => f.bindings

theorem scopes_eq_cons (h : s.scopes ≠ []) :
    ∃ f, s.scopes = f :: s.around ∧ s.current = f.fn ∧ s.bindings = f.bindings := by
  unfold around current bindings
  cases hs : s.scopes with
  | nil => exact absurd hs h
  | cons f rest => exact ⟨f, rfl, rfl, rfl⟩

theorem surroundings_eq (h : s.scopes ≠ []) : s.scopes.surroundings = s.current.within s.around.surroundings := by
  obtain ⟨f, hs, hc, -⟩ := scopes_eq_cons h
  rw [hc, hs]
  rfl

theorem visible_eq (h : s.scopes ≠ []) : s.scopes.visible = s.current.values ++ s.around.visible :=
  congrArg Surroundings.values (surroundings_eq h)

theorem lookup_eq (h : s.scopes ≠ []) (x : String) :
    s.scopes.lookup x = (Members.get? s.bindings x).or (s.around.lookup x) := by
  obtain ⟨f, hf, -, hb⟩ := scopes_eq_cons h
  rw [hf, hb, Scopes.lookup, findSome?_cons, Scopes.lookup]
  cases Members.get? f.bindings x <;> rfl

theorem bound_iff (h : s.scopes ≠ []) : s.scopes.Bound ↔
    (∀ x b, Members.get? s.bindings x = some b → s.scopes.surroundings.Has b) ∧ s.around.Bound := by
  rw [surroundings_eq h]
  obtain ⟨f, hs, hc, hb⟩ := scopes_eq_cons h
  rw [hc, hb, hs]
  rfl

end State

/-! ### Growth -/

/-- Names that were taken and functions that were finished, but that no function has yet. -/
structure Held where
  names : List String := []
  parts : List GraphFunction := []

def Held.tally (h : Held) (x : String) : ℕ :=
  h.names.count x + (h.parts.map (·.tally x)).sum

def Held.and (h k : Held) : Held :=
  ⟨h.names ++ k.names, h.parts ++ k.parts⟩

theorem Held.tally_and (h k : Held) (x : String) : (h.and k).tally x = h.tally x + k.tally x := by
  simp only [tally, Held.and, count_append, map_append, sum_append]
  omega

/-- Visible values and held names are taken. -/
def State.Taken (s : State) (h : Held) : Prop :=
  (∀ x ∈ s.scopes.visible, x ∈ s.names.used) ∧ ∀ x ∈ h.names, x ∈ s.names.used

/-- A scope is open, names are bound to visible values, and visible values and held names are taken. -/
structure State.Good (s : State) (h : Held := {}) : Prop where
  opened : s.scopes ≠ []
  bound : s.scopes.Bound
  taken : s.Taken h

theorem State.Good.drop {h : Held} (hg : s.Good h) : s.Good :=
  ⟨hg.opened, hg.bound, hg.taken.1, by simp⟩

/-- How often a name is defined in the innermost function or held. -/
def State.tally (s : State) (h : Held) (x : String) : ℕ :=
  s.current.tally x + h.tally x

/-- The state grows from `s`, with `h` held, to `s'`, with `h'` held. Under `N` no name that is taken is empty. -/
structure Grows (N : Prop) (s : State) (h : Held) (s' : State) (h' : Held) : Prop where
  depth : s'.scopes.length = s.scopes.length
  around : s'.around = s.around
  used : ∀ x ∈ s.names.used, x ∈ s'.names.used
  nodes : s.current.nodes <+: s'.current.nodes
  nested : s.current.nested <+: s'.current.nested
  values : ∀ x ∈ s.current.values, x ∈ s'.current.values
  /-- A default operator set stays. -/
  opset : ∀ o, s.defaultOpset = some o → s'.defaultOpset = some o
  taken : s.scopes ≠ [] → s.Taken h → s'.Taken h'
  /-- A name is defined or held at most once more often than before, and only if it was free and now is taken. -/
  tally_le_succ : ∀ x, s'.tally h' x ≤ s.tally h x + 1
  tally_le : ∀ x, x ∈ s.names.used ∨ x ∉ s'.names.used ∨ (N ∧ x = "") → s'.tally h' x ≤ s.tally h x
  built : ∀ inner, (∀ g ∈ h.parts, g ∈ inner) → s.current.Built s.around.surroundings inner →
    ∃ inner', (∀ g ∈ inner, g ∈ inner') ∧ (∀ g ∈ h'.parts, g ∈ inner') ∧ s'.current.Built s.around.surroundings inner'
  shaped : s.current.Shaped → (∀ g ∈ h.parts, g.Shaped) → s'.current.Shaped ∧ ∀ g ∈ h'.parts, g.Shaped

namespace Grows

variable {s₁ s₂ : State} {h h₁ h₂ : Held}

theorem refl (N : Prop) (s : State) (h : Held) : Grows N s h s h where
  depth := rfl
  around := rfl
  used := fun _ hx => hx
  nodes := prefix_rfl
  nested := prefix_rfl
  values := fun _ hx => hx
  opset := fun _ ho => ho
  taken := fun _ ht => ht
  tally_le_succ := fun _ => Nat.le_succ _
  tally_le := fun _ _ => le_rfl
  built := fun inner hin hb => ⟨inner, fun _ hg => hg, hin, hb⟩
  shaped := fun hs hh => ⟨hs, hh⟩

theorem opened (a : Grows N s h s₁ h₁) (hs : s.scopes ≠ []) : s₁.scopes ≠ [] := by
  intro h0
  have := a.depth
  rw [h0] at this
  exact hs (eq_nil_of_length_eq_zero this.symm)

theorem trans (a : Grows N s h s₁ h₁) (b : Grows N s₁ h₁ s₂ h₂) : Grows N s h s₂ h₂ where
  depth := b.depth.trans a.depth
  around := b.around.trans a.around
  used := fun x hx => b.used x (a.used x hx)
  nodes := a.nodes.trans b.nodes
  nested := a.nested.trans b.nested
  values := fun x hx => b.values x (a.values x hx)
  opset := fun o ho => b.opset o (a.opset o ho)
  taken := fun hs ht => b.taken (a.opened hs) (a.taken hs ht)
  tally_le_succ := by
    intro x
    -- a name is taken in one of the two parts, and its tally stays the same in the other
    by_cases hx : x ∈ s₁.names.used
    · exact (b.tally_le x (.inl hx)).trans (a.tally_le_succ x)
    · exact (b.tally_le_succ x).trans (Nat.succ_le_succ (a.tally_le x (.inr (.inl hx))))
  tally_le := by
    intro x hx
    have h1 : s₁.tally h₁ x ≤ s.tally h x := by
      refine a.tally_le x ?_
      rcases hx with hx | hx | hx
      · exact .inl hx
      · exact .inr (.inl fun h1 => hx (b.used x h1))
      · exact .inr (.inr hx)
    refine (b.tally_le x ?_).trans h1
    rcases hx with hx | hx | hx
    · exact .inl (a.used x hx)
    · exact .inr (.inl hx)
    · exact .inr (.inr hx)
  built := by
    intro inner hin hb
    obtain ⟨inner₁, hsub₁, hin₁, hb₁⟩ := a.built inner hin hb
    rw [← a.around] at hb₁
    obtain ⟨inner₂, hsub₂, hin₂, hb₂⟩ := b.built inner₁ hin₁ hb₁
    exact ⟨inner₂, fun g hg => hsub₂ g (hsub₁ g hg), hin₂, a.around ▸ hb₂⟩
  shaped := fun hs hh => b.shaped (a.shaped hs hh).1 (a.shaped hs hh).2

theorem holding (a : Grows N s h s₁ h₁) (k : Held) : Grows N s (k.and h) s₁ (k.and h₁) where
  depth := a.depth
  around := a.around
  used := a.used
  nodes := a.nodes
  nested := a.nested
  values := a.values
  opset := a.opset
  taken := by
    intro hs ht
    obtain ⟨hv, hh⟩ := a.taken hs ⟨ht.1, fun x hx => ht.2 x (mem_append_right _ hx)⟩
    refine ⟨hv, fun x hx => ?_⟩
    rcases mem_append.1 (show x ∈ k.names ++ h₁.names from hx) with hx | hx
    · exact a.used x (ht.2 x (mem_append_left _ hx))
    · exact hh x hx
  tally_le_succ := by
    intro x
    have := a.tally_le_succ x
    simp only [State.tally, Held.tally_and] at this ⊢
    omega
  tally_le := by
    intro x hx
    have := a.tally_le x hx
    simp only [State.tally, Held.tally_and] at this ⊢
    omega
  built := by
    intro inner hin hb
    obtain ⟨inner', hsub, hin', hb'⟩ := a.built inner (fun g hg => hin g (mem_append_right _ hg)) hb
    refine ⟨inner', hsub, fun g hg => ?_, hb'⟩
    rcases mem_append.1 (show g ∈ k.parts ++ h₁.parts from hg) with hg | hg
    · exact hsub g (hin g (mem_append_left _ hg))
    · exact hin' g hg
  shaped := by
    intro hs hh
    obtain ⟨hs', hh'⟩ := a.shaped hs fun g hg => hh g (mem_append_right _ hg)
    refine ⟨hs', fun g hg => ?_⟩
    rcases mem_append.1 (show g ∈ k.parts ++ h₁.parts from hg) with hg | hg
    · exact hh g (mem_append_left _ hg)
    · exact hh' g hg

theorem frame (a : Grows N s {} s₁ {}) (k : Held) : Grows N s k s₁ k := by
  simpa [Held.and] using a.holding k

theorem visible (a : Grows N s h s₁ h₁) (hs : s.scopes ≠ []) (hx : x ∈ s.scopes.visible) : x ∈ s₁.scopes.visible := by
  rw [State.visible_eq hs] at hx
  rw [State.visible_eq (a.opened hs), a.around]
  rcases mem_append.1 hx with hx | hx
  · exact mem_append_left _ (a.values x hx)
  · exact mem_append_right _ hx

theorem functions (a : Grows N s h s₁ h₁) (hs : s.scopes ≠ []) {g : GraphFunction}
    (hg : g ∈ s.scopes.surroundings.functions) : g ∈ s₁.scopes.surroundings.functions := by
  rw [State.surroundings_eq hs] at hg
  rw [State.surroundings_eq (a.opened hs), a.around]
  rcases mem_append.1 hg with hg | hg
  · exact mem_append_left _ (a.nested.subset hg)
  · exact mem_append_right _ hg

theorem good (a : Grows N s h s₁ h₁) (hg : s.Good h) (hb : s₁.scopes.Bound) : s₁.Good h₁ :=
  ⟨a.opened hg.opened, hb, a.taken hg.opened hg.taken⟩

end Grows

/-- Steps that compute values: the state grows, and no name, parameter or output is declared. -/
structure Computes (N : Prop) (s : State) (h : Held) (s' : State) (h' : Held) : Prop
    extends Grows N s h s' h' where
  bindings : s'.bindings = s.bindings
  params : s'.current.params = s.current.params
  outputs : s'.current.outputs = s.current.outputs

namespace Computes

variable {s₁ s₂ : State} {h h₁ h₂ : Held}

theorem refl (N : Prop) (s : State) (h : Held) : Computes N s h s h :=
  ⟨.refl N s h, rfl, rfl, rfl⟩

theorem trans (a : Computes N s h s₁ h₁) (b : Computes N s₁ h₁ s₂ h₂) : Computes N s h s₂ h₂ :=
  ⟨a.toGrows.trans b.toGrows, b.bindings.trans a.bindings, b.params.trans a.params, b.outputs.trans a.outputs⟩

theorem holding (a : Computes N s h s₁ h₁) (k : Held) : Computes N s (k.and h) s₁ (k.and h₁) :=
  ⟨a.toGrows.holding k, a.bindings, a.params, a.outputs⟩

theorem frame (a : Computes N s {} s₁ {}) (k : Held) : Computes N s k s₁ k :=
  ⟨a.toGrows.frame k, a.bindings, a.params, a.outputs⟩

theorem lookup (a : Computes N s h s₁ h₁) (hs : s.scopes ≠ []) (x : String) :
    s₁.scopes.lookup x = s.scopes.lookup x := by
  rw [State.lookup_eq hs, State.lookup_eq (a.opened hs), a.bindings, a.around]

theorem bound (a : Computes N s h s₁ h₁) (hs : s.scopes ≠ []) (hb : s.scopes.Bound) : s₁.scopes.Bound := by
  rw [State.bound_iff hs] at hb
  rw [State.bound_iff (a.opened hs), a.bindings, a.around]
  exact ⟨fun x b hx => (hb.1 x b hx).mono (fun _ => a.visible hs) fun _ => a.functions hs, hb.2⟩

theorem good (a : Computes N s h s₁ h₁) (hg : s.Good h) : s₁.Good h₁ :=
  a.toGrows.good hg (a.bound hg.opened hg.bound)

end Computes

/-- Steps that may bind names, but declare no parameter or output. -/
structure Advances (N : Prop) (s s' : State) : Prop extends Grows N s {} s' {} where
  bound : s'.scopes.Bound
  params : s'.current.params = s.current.params
  outputs : s'.current.outputs = s.current.outputs

theorem Computes.advances (a : Computes N s {} s' {}) (hg : s.Good) : Advances N s s' :=
  ⟨a.toGrows, a.bound hg.opened hg.bound, a.params, a.outputs⟩

theorem Advances.good (a : Advances N s s') (hg : s.Good) : s'.Good :=
  a.toGrows.good hg a.bound

theorem Advances.trans {s₁ s₂ : State} (a : Advances N s s₁) (b : Advances N s₁ s₂) : Advances N s s₂ :=
  ⟨a.toGrows.trans b.toGrows, b.bound, b.params.trans a.params, b.outputs.trans a.outputs⟩

/-- Steps that advance any good state. -/
def Performs {α : Type} (N : Prop) (m : Lower α) : Prop :=
  ∀ ⦃env : Env⦄ ⦃s : State⦄ ⦃a : α⦄ ⦃s' : State⦄, s.Good → Returns m env s a s' → Advances N s s'

namespace Performs

variable {α β : Type} {m : Lower α} {f : α → Lower β}

theorem pure (a : α) : Performs N (Pure.pure a) := by
  intro env s b s' hg hr
  cases hr
  exact (Computes.refl N s {}).advances hg

theorem of_fails (h : ∀ ⦃env s a s'⦄, ¬Returns m env s a s') : Performs N m :=
  fun _ _ _ _ _ hr => absurd hr (h ·)

theorem fail {fault : LoweringFault} {pos : Position} : Performs N (Lowering.fail fault pos : Lower α) :=
  of_fails fun _ _ _ _ => returns_fail

theorem andThen (hm : Performs N m) (hf : ∀ a, Performs N (f a)) : Performs N (m >>= f) := by
  intro env s b s' hg hr
  obtain ⟨a, s₁, ha, hr⟩ := returns_bind.1 hr
  have h := hm hg ha
  exact h.trans (hf a (h.good hg) hr)

end Performs

end Lowering

end OpGraph
