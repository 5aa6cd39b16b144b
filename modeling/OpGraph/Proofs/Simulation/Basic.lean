import OpGraph.Proofs.Lowering.Statements
import OpGraph.Proofs.Semantics.Graph
import OpGraph.Proofs.Semantics.Script

/-!
What the nodes that a lowering adds compute. `Runs` compares the evaluation of the nodes between two states with the
outcome of a part of the script; such comparisons compose as the steps do. The values of names that were taken before
are kept, since new nodes write new names.
-/

namespace OpGraph

open List

variable {N : Prop} {c : Setting} {x : String}

namespace Lowering

variable {h h' : Held}

/-! ### States -/

/-- A state in which no graph value has an empty name. -/
structure State.Named (s : State) : Prop where
  good : s.Good
  tally : s.current.tally "" = 0
  nonempty : "" ∉ s.scopes.visible

/-- A state in which the names of scripts stand for graph values, none of which has an empty name. -/
structure State.Ready (s : State) : Prop extends State.Named s where
  graphs : ∀ x b, s.scopes.lookup x = some b → ∃ v p t, b = .graph v p t

variable {env : Env} {s s' s₁ s₂ : State}

theorem State.Named.ne_empty (hr : s.Named) (hx : x ∈ s.scopes.visible) : x ≠ "" :=
  fun h => hr.nonempty (h ▸ hx)

theorem State.Named.nonempty_of_grows (hr : s.Named) (a : Grows True s {} s' h)
    (hp : s'.current.params = s.current.params) : s'.current.tally "" = 0 ∧ "" ∉ s'.scopes.visible := by
  have htally : s'.current.tally "" = 0 := by
    have := a.tally_le "" (.inr (.inr ⟨trivial, rfl⟩))
    simp only [State.tally, hr.tally, Held.tally, count_nil, map_nil, sum_nil] at this
    omega
  refine ⟨htally, fun hmem => ?_⟩
  rw [State.visible_eq (a.opened hr.good.opened), a.around] at hmem
  have hold := hr.nonempty
  rw [State.visible_eq hr.good.opened] at hold
  rcases mem_append.1 hmem with hmem | hmem
  · rcases mem_append.1 (show "" ∈ s'.current.inputNames ++ s'.current.assigned from hmem) with hmem | hmem
    · refine hold (mem_append_left _ (mem_append_left _ ?_))
      unfold GraphFunction.inputNames GraphFunction.inputs at hmem ⊢
      rwa [hp] at hmem
    · have := GraphFunction.count_assigned_le s'.current ""
      have := count_pos_iff.2 hmem
      omega
  · exact hold (mem_append_right _ hmem)

theorem Computes.named (a : Computes True s {} s' h) (hn : s.Named) : s'.Named := by
  obtain ⟨htally, hnonempty⟩ := hn.nonempty_of_grows a.toGrows a.params
  exact ⟨(a.good hn.good).drop, htally, hnonempty⟩

theorem Computes.ready (a : Computes True s {} s' h) (hr : s.Ready) : s'.Ready :=
  ⟨a.named hr.toNamed, fun x b hx => hr.graphs x b (by rwa [← a.lookup hr.good.opened])⟩

/-- Names that come to be held while nothing is defined were free, and are different and not empty. -/
theorem Grows.fresh_held (a : Grows True s h s' h') {names : List String} (hn : h'.names = names ++ h.names)
    (hp : h'.parts = h.parts) (ht : ∀ x, s'.current.tally x = s.current.tally x) :
    (∀ x ∈ names, x ∉ s.names.used ∧ x ≠ "") ∧ names.Nodup := by
  have hheld : ∀ x, h'.tally x = names.count x + h.tally x := by
    intro x
    simp only [Held.tally, hn, hp, count_append]
    omega
  have hzero : ∀ x, x ∈ s.names.used ∨ x = "" → x ∉ names := by
    intro x hx hmem
    have hle := a.tally_le x (hx.imp_right fun hx => .inr ⟨trivial, hx⟩)
    rw [State.tally, State.tally, ht, hheld] at hle
    have := count_pos_iff.2 hmem
    omega
  refine ⟨fun x hx => ⟨fun hu => hzero x (.inl hu) hx, fun he => hzero x (.inr he) hx⟩, ?_⟩
  refine nodup_iff_count_le_one.2 fun x => ?_
  have hle := a.tally_le_succ x
  rw [State.tally, State.tally, ht, hheld] at hle
  omega

/-- The default operator set of the state is that of the setting, if it has one. -/
def State.Within (s : State) (c : Setting) : Prop :=
  ∀ o, s.defaultOpset = some o → c.defaultOpset = some o

theorem Grows.within (a : Grows N s h s' h') (hc : s'.Within c) : s.Within c :=
  fun o ho => hc o (a.opset o ho)

end Lowering

/-- The setting is that of a lowering, and its default operator set is of the home domain. -/
structure Interpretation.Suits {V : Type} (I : Interpretation V) (c : Setting) (env : Lowering.Env) : Prop where
  globals : c.globals = env.globals
  home : ∀ o, c.defaultOpset = some o → o.domain = I.home

theorem Interpretation.Suits.domain {V : Type} {I : Interpretation V} {env : Lowering.Env} {s : Lowering.State}
    (hI : I.Suits c env) (hw : s.Within c) {o : Opset} (ho : s.defaultOpset = some o) : o.domain = I.home :=
  hI.home o (hw o ho)

namespace Lowering

variable {env : Env} {s s' s₁ s₂ : State} {h h' : Held}

/-! ### Values of the innermost scope -/

section Values

variable {V : Type}

def State.Defined (s : State) (ρ : Values V) : Prop :=
  ∀ x ∈ s.scopes.visible, (ρ x).isSome

theorem State.Defined.exists_value {s : State} {ρ : Values V} (hd : s.Defined ρ) (hx : x ∈ s.scopes.visible) :
    ∃ v, ρ x = some v :=
  Option.isSome_iff_exists.1 (hd x hx)

/-- The value that a name of the script has in the graph. -/
def valueOf? (I : Interpretation V) (c : Setting) (s : State) (ρ : Values V) (x : String) : Option V :=
  match s.scopes.lookup x with
  | some (.graph v _ _) => ρ v
  | some _ => none
  | none => I.global? c x

variable {I : Interpretation V} {ρ ρ' : Values V}

theorem valueOf?_congr (hg : s.Good) (hl : s'.scopes.lookup x = s.scopes.lookup x)
    (hkept : ∀ y ∈ s.names.used, ρ' y = ρ y) : valueOf? I c s' ρ' x = valueOf? I c s ρ x := by
  unfold valueOf?
  rw [hl]
  split
  · rename_i v p t hb
    exact hkept v (hg.taken.1 v (hg.bound.lookup hb))
  · rfl
  · rfl

end Values

/-! ### Runs -/

section Runs

variable {V β γ : Type} {I : Interpretation V} {fuel : ℕ} {keep keep' : String → Prop} {ρ ρ' : Values V}
  {r : Outcome β} {Q Q' : Values V → β → Prop}

/-- The nodes from `s` to `s'` come to the outcome `r`: they keep the values of the names in `keep`, all visible values
have values afterwards, and `Q` relates these to the result. -/
def Runs (I : Interpretation V) (fuel : ℕ) (keep : String → Prop) (s s' : State) (ρ : Values V) (r : Outcome β)
    (Q : Values V → β → Prop) : Prop :=
  ∃ ns, s'.current.nodes = s.current.nodes ++ ns ∧
    Outcome.Matches (fun ρ' b => (∀ x, keep x → ρ' x = ρ x) ∧ s'.Defined ρ' ∧ Q ρ' b)
      (I.evalNodes fuel (ns.map GraphNode.node) ρ) r

/-- The nodes from `s` to `s'` write only names that are new. -/
abbrev RunsFresh (I : Interpretation V) (fuel : ℕ) (s s' : State) :=
  Runs (β := β) I fuel (· ∈ s.names.used) s s'

theorem Runs.done {b : β} (hn : s'.current.nodes = s.current.nodes) (hd : s'.Defined ρ) (hQ : Q ρ b) :
    Runs I fuel keep s s' ρ (.ok b) Q := by
  refine ⟨[], by rw [hn, append_nil], ?_⟩
  exact ⟨fun _ _ => rfl, hd, hQ⟩

theorem Runs.mono (h : Runs I fuel keep s s' ρ r Q) (hkeep : ∀ x, keep' x → keep x)
    (hQ : ∀ ρ' b, (∀ x, keep x → ρ' x = ρ x) → s'.Defined ρ' → Q ρ' b → Q' ρ' b) :
    Runs I fuel keep' s s' ρ r Q' := by
  obtain ⟨ns, hns, hm⟩ := h
  exact ⟨ns, hns, hm.mono fun ρ' b hb => ⟨fun x hx => hb.1 x (hkeep x hx), hb.2.1, hQ ρ' b hb.1 hb.2.1 hb.2.2⟩⟩

theorem Runs.map {f : β → γ} {S : Values V → γ → Prop} (h : Runs I fuel keep s s' ρ r Q)
    (hQ : ∀ ρ' b, (∀ x, keep x → ρ' x = ρ x) → s'.Defined ρ' → Q ρ' b → S ρ' (f b)) :
    Runs I fuel keep s s' ρ (f <$> r) S := by
  obtain ⟨ns, hns, hm⟩ := h
  exact ⟨ns, hns, hm.map fun ρ' b hb => ⟨hb.1, hb.2.1, hQ ρ' b hb.1 hb.2.1 hb.2.2⟩⟩

/-- **Runs in a row.** -/
theorem Runs.bind {k : β → Outcome γ} {S : Values V → γ → Prop} (h : Runs I fuel keep s s₁ ρ r Q)
    (hnodes : s₁.current.nodes <+: s₂.current.nodes) (hkeep : ∀ x, keep' x → keep x)
    (hk : ∀ ρ₁ b, (∀ x, keep x → ρ₁ x = ρ x) → s₁.Defined ρ₁ → Q ρ₁ b → Runs I fuel keep' s₁ s₂ ρ₁ (k b) S) :
    Runs I fuel keep' s s₂ ρ (r >>= k) S := by
  obtain ⟨ns, hns, hm⟩ := h
  obtain ⟨ms, hms⟩ := hnodes
  refine ⟨ns ++ ms, by rw [← hms, hns, append_assoc], ?_⟩
  rw [map_append, Interpretation.evalNodes_append]
  refine hm.bind fun ρ₁ b hb => ?_
  obtain ⟨ms', hms', hm'⟩ := hk ρ₁ b hb.1 hb.2.1 hb.2.2
  obtain rfl : ms = ms' := append_cancel_left (hms.trans hms')
  exact hm'.mono fun ρ₂ d hd => ⟨fun x hx => (hd.1 x hx).trans (hb.1 x (hkeep x hx)), hd.2⟩

theorem Runs.seq {N' : Prop} {h₀ h₁ h₁' h₂ : Held} {k : β → Outcome γ} {S : Values V → γ → Prop}
    (h : RunsFresh I fuel s s₁ ρ r Q) (a : Grows N s h₀ s₁ h₁) (b : Grows N' s₁ h₁' s₂ h₂)
    (hk : ∀ ρ₁ d, (∀ x ∈ s.names.used, ρ₁ x = ρ x) → s₁.Defined ρ₁ → Q ρ₁ d → RunsFresh I fuel s₁ s₂ ρ₁ (k d) S) :
    RunsFresh I fuel s s₂ ρ (r >>= k) S :=
  h.bind b.nodes (fun _ hx => hx) fun ρ₁ d hkept hd hQ => (hk ρ₁ d hkept hd hQ).mono a.used fun _ _ _ _ h => h

theorem Runs.matches {ns : List GraphNode} (h : Runs I fuel keep s s' ρ r Q)
    (hns : s'.current.nodes = s.current.nodes ++ ns) :
    Outcome.Matches (fun ρ' b => (∀ x, keep x → ρ' x = ρ x) ∧ s'.Defined ρ' ∧ Q ρ' b)
      (I.evalNodes fuel (ns.map GraphNode.node) ρ) r := by
  obtain ⟨ms, hms, hm⟩ := h
  obtain rfl : ns = ms := append_cancel_left (hns.symm.trans hms)
  exact hm

/-- **Emitting a node**: the outcome is that of the node, and its outputs are the only new values. -/
theorem runs_emit {n : GraphNode} {u : Unit} (hr : Returns (emit n) env s u s') (hd : s.Defined ρ)
    (hm : Outcome.Matches Q (I.evalNode fuel n.node ρ) r) : Runs I fuel (· ∉ n.outputs) s s' ρ r Q := by
  have e := edits_modifyFunction hr
  refine ⟨[n], nodes_emit hr, ?_⟩
  rw [map_singleton, Interpretation.evalNodes_singleton]
  cases heval : I.evalNode fuel n.node ρ with
  | error h =>
    rw [heval] at hm
    cases r with
    | error k => exact hm
    | ok b => exact hm.elim
  | ok ρ' =>
    rw [heval] at hm
    obtain ⟨hkept, hset⟩ := Interpretation.evalNode_ok heval
    cases r with
    | error k => exact hm.elim
    | ok b =>
      refine ⟨hkept, fun x hx => ?_, hm⟩
      rw [State.visible_eq e.opened', e.around, values_emit hr, append_assoc, mem_append,
        mem_append] at hx
      by_cases hout : x ∈ n.outputs
      · exact hset x hout
      · rw [hkept x hout]
        refine hd x ?_
        rw [State.visible_eq e.opened, mem_append]
        exact hx.imp_right fun hx => hx.resolve_left hout

end Runs

end Lowering

end OpGraph
