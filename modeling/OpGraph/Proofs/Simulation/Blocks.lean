import OpGraph.Proofs.Semantics.Frame
import OpGraph.Proofs.Simulation.Expressions

/-!
Blocks and the graphs that they become. While a block is lowered, the graph has the values of the variables that are
still needed; of a variable that only decides whether a loop goes on it may have another value of the same truth. A
block returns the values that its names have at its end.
-/

namespace OpGraph

open List

variable {V : Type}

namespace Lowering

variable {I : Interpretation V} {fuel : ℕ} {c : Setting} {env : Env} {pos : Position} {s s' s₁ : State}
  {ρ ρ' σ σ' : Values V} {A B A' B' : String → Prop}
variable {names os values : List String} {type : Option DeclaredType} {name o : String} {u : Unit}
variable {declared names' xs : List String} {a b : Option V} {value x : String}

/-! ### Variables -/

/-- What a name stands for on both sides: the same value if the name is in `A`, and values of the same truth if it is in
`B`. -/
structure Alike (I : Interpretation V) (A B : String → Prop) (x : String) (a b : Option V) : Prop where
  same : A x → a = b
  truth : B x → a.map I.truth = b.map I.truth

theorem Alike.of_eq (h : a = b) : Alike I A B x a b :=
  ⟨fun _ => h, fun _ => by rw [h]⟩

theorem Alike.mono (h : Alike I A B x a b) (hA : A' x → A x) (hB : B' x → B x) : Alike I A' B' x a b :=
  ⟨fun hx => h.same (hA hx), fun hx => h.truth (hB hx)⟩

/-- The graph has the values of the variables in `A`, and values of the same truth for those in `B`. -/
structure Tracks (I : Interpretation V) (c : Setting) (A B : String → Prop) (s : State) (ρ σ : Values V) : Prop where
  ready : s.Ready
  defined : s.Defined ρ
  agrees : ∀ x, Alike I A B x (valueOf? I c s ρ x) (I.read? c σ x)

namespace Tracks

theorem mirrors (hm : Tracks I c A B s ρ σ) : Mirrors I c A s ρ σ :=
  ⟨hm.ready, hm.defined, fun x hx => (hm.agrees x).same hx⟩

theorem mono (hm : Tracks I c A B s ρ σ) (hA : ∀ x, A' x → A x) (hB : ∀ x, B' x → B x) : Tracks I c A' B' s ρ σ :=
  ⟨hm.ready, hm.defined, fun x => (hm.agrees x).mono (hA x) (hB x)⟩

theorem of_lookup (hm : Tracks I c A B s ρ σ) (hr : s'.Ready) (hd : s'.Defined ρ')
    (hl : ∀ x, s'.scopes.lookup x = s.scopes.lookup x) (hkept : ∀ x ∈ s.names.used, ρ' x = ρ x) :
    Tracks I c A B s' ρ' σ :=
  ⟨hr, hd, fun x => by rw [valueOf?_congr hm.ready.good (hl x) hkept]; exact hm.agrees x⟩

theorem computes {h : Held} (hm : Tracks I c A B s ρ σ) (a : Computes True s {} s' h)
    (hkept : ∀ x ∈ s.names.used, ρ' x = ρ x) (hd : s'.Defined ρ') : Tracks I c A B s' ρ' σ :=
  hm.of_lookup (a.ready hm.ready) hd (a.lookup hm.ready.good.opened) hkept

end Tracks

/-! ### Bindings -/

theorem lookup_bind {b : Binding} (hr : Returns (bind name b) env s u s') (x : String) :
    s'.scopes.lookup x = if name = x then some b else s.scopes.lookup x := by
  have e := edits_bind hr
  rw [State.lookup_eq e.opened, State.lookup_eq e.opened', e.bindings, e.around, Members.get?_set]
  split <;> rfl

theorem visible_bind {b : Binding} (hr : Returns (bind name b) env s u s') : s'.scopes.visible = s.scopes.visible := by
  have e := edits_bind hr
  rw [State.visible_eq e.opened, State.visible_eq e.opened', e.current, e.around]

/-- Each of the names is bound to a value that is given for it, and the other names are bound as before. -/
def Rebinds (s : State) (names values : List String) (s' : State) : Prop :=
  ∀ x, (∃ v p t, (x, v) ∈ names.zip values ∧ s'.scopes.lookup x = some (.graph v p t)) ∨
    x ∉ names ∧ s'.scopes.lookup x = s.scopes.lookup x

theorem Rebinds.refl (s : State) : Rebinds s [] [] s :=
  fun _ => .inr ⟨not_mem_nil, rfl⟩

theorem Rebinds.cons {p : Provenance} {t : Option DeclaredType}
    (hl : ∀ x, s₁.scopes.lookup x = if name = x then some (.graph value p t) else s.scopes.lookup x)
    (h : Rebinds s₁ names values s') : Rebinds s (name :: names) (value :: values) s' := by
  intro x
  rcases h x with ⟨v, p', t', hv, hx⟩ | ⟨hx, hsame⟩
  · exact .inl ⟨v, p', t', mem_cons_of_mem _ hv, hx⟩
  · by_cases hn : name = x
    · subst hn
      exact .inl ⟨value, p, t, mem_cons_self, by rw [hsame, hl, if_pos rfl]⟩
    · refine .inr ⟨fun hmem => ?_, by rw [hsame, hl, if_neg hn]⟩
      exact (mem_cons.1 hmem).elim (fun h => hn h.symm) hx

theorem Rebinds.of_lookup (h : Rebinds s₁ names values s') (hl : ∀ x, s₁.scopes.lookup x = s.scopes.lookup x) :
    Rebinds s names values s' := by
  intro x
  rw [← hl]
  exact h x

theorem Rebinds.trans {values' : List String} (h : Rebinds s names values s₁) (h' : Rebinds s₁ names' values' s')
    (hlen : names.length = values.length) : Rebinds s (names ++ names') (values ++ values') s' := by
  intro x
  rw [zip_append hlen]
  rcases h' x with ⟨v, p, t, hv, hx⟩ | ⟨hx, hsame⟩
  · exact .inl ⟨v, p, t, mem_append_right _ hv, hx⟩
  · rw [hsame]
    rcases h x with ⟨v, p, t, hv, hl⟩ | ⟨hx', hsame'⟩
    · exact .inl ⟨v, p, t, mem_append_left _ hv, hl⟩
    · exact .inr ⟨by simp [hx, hx'], hsame'⟩

theorem rebinds_bindOutputs (hr : Returns (bindOutputs names) env s xs s') : Rebinds s names xs s' := by
  induction names generalizing xs s with
  | nil =>
    obtain ⟨rfl, rfl⟩ := returns_pure.1 hr
    exact .refl s
  | cons name names ih =>
    simp only [bindOutputs, mapM_cons, returns_bind, returns_pure] at hr
    obtain ⟨x, s₁, ⟨value, s₂, hf, u, s₃, hb, rfl, rfl⟩, rest, s₄, hrest, rfl, rfl⟩ := hr
    obtain ⟨-, rfl⟩ := returns_fresh.1 hf
    exact Rebinds.cons (fun y => lookup_bind hb y) (ih hrest)

/-- Names are bound to new inputs of the innermost function, and nothing else is added to it. -/
structure TakesInputs (s : State) (names xs : List String) (s' : State) : Prop where
  inputs : s'.current.inputNames = s.current.inputNames ++ xs
  count : xs.length = names.length
  nodes : s'.current.nodes = s.current.nodes
  nested : s'.current.nested = s.current.nested
  outputs : s'.current.outputs = s.current.outputs
  rebinds : Rebinds s names xs s'

theorem takesInputs_loopInput (hr : Returns (loopInput name type) env s u s') : ∃ x, TakesInputs s [name] [x] s' := by
  simp only [loopInput, returns_bind] at hr
  obtain ⟨x, s₁, hf, v, s₂, hadd, hb⟩ := hr
  have e := edits_modifyFunction hadd
  have e' := edits_bind hb
  have hcurrent := e'.current.trans e.current
  obtain ⟨-, rfl⟩ := returns_fresh.1 hf
  have hlookup : ∀ y, s'.scopes.lookup y = if name = y then some (.graph x .loopCarried none) else s.scopes.lookup y :=
    fun y => by rw [lookup_bind hb, e.lookup]
  refine ⟨x, ?_, rfl, ?_, ?_, ?_, .cons hlookup (.refl s')⟩
  · rw [hcurrent, inputNames_addInput]
    rfl
  · rw [hcurrent]
    rfl
  · rw [hcurrent]
    rfl
  · rw [hcurrent]
    rfl

theorem TakesInputs.trans {xs' : List String} (h : TakesInputs s names xs s₁) (h' : TakesInputs s₁ names' xs' s') :
    TakesInputs s (names ++ names') (xs ++ xs') s' :=
  ⟨by rw [h'.inputs, h.inputs, append_assoc], by simp [h.count, h'.count], h'.nodes.trans h.nodes,
    h'.nested.trans h.nested, h'.outputs.trans h.outputs, h.rebinds.trans h'.rebinds h.count.symm⟩

theorem takesInputs_loopInputs (hr : Returns (names.forM (loopInput · none)) env s u s') :
    ∃ xs, TakesInputs s names xs s' := by
  induction names generalizing s u with
  | nil =>
    obtain ⟨-, rfl⟩ := returns_pure.1 hr
    exact ⟨[], by simp, rfl, rfl, rfl, rfl, .refl s⟩
  | cons name names ih =>
    obtain ⟨v, s₁, h1, hr⟩ := returns_bind.1 hr
    obtain ⟨x, hx⟩ := takesInputs_loopInput h1
    obtain ⟨xs, hxs⟩ := ih hr
    exact ⟨x :: xs, hx.trans hxs⟩

theorem exists_of_mem_zip {α β γ : Type} {P : α → γ → Prop} {Q : β → γ → Prop} :
    ∀ {as : List α} {bs : List β} {cs : List γ} {a : α} {b : β}, Forall₂ P as cs → Forall₂ Q bs cs →
      (a, b) ∈ as.zip bs → ∃ c, P a c ∧ Q b c := by
  intro as
  induction as with
  | nil =>
    intro bs cs a b _ _ h
    cases h
  | cons a as ih =>
    intro bs cs a' b' hP hQ h
    obtain ⟨c, cs, hPc, hPs, rfl⟩ := forall₂_cons_left_iff.1 hP
    obtain ⟨b, bs, hQc, hQs, rfl⟩ := forall₂_cons_right_iff.1 hQ
    rw [zip_cons_cons] at h
    rcases mem_cons.1 h with h | h
    · cases h
      exact ⟨c, hPc, hQc⟩
    · exact ih hPs hQs h

/-- **Names are bound to new values**: these are what the script has for them, and the other names are not changed. -/
theorem Tracks.rebound {vs : List V} (hm : Tracks I c A B s ρ σ) (a : Advances True s s') (hb : Rebinds s names xs s')
    (hkept : ∀ x ∈ s.names.used, ρ' x = ρ x) (hd : s'.Defined ρ') (hxs : Forall₂ (fun x v => ρ' x = some v) xs vs)
    (hvs : Forall₂ (fun x v => Alike I A' B' x (some v) (I.read? c σ' x)) names vs)
    (hA : ∀ x ∉ names, A' x → A x ∧ σ' x = σ x) (hB : ∀ x ∉ names, B' x → B x ∧ σ' x = σ x) :
    Tracks I c A' B' s' ρ' σ' := by
  have hg := hm.ready.good
  obtain ⟨htally, hnonempty⟩ := hm.ready.nonempty_of_grows a.toGrows a.params
  refine ⟨⟨⟨a.good hg, htally, hnonempty⟩, fun x b hx => ?_⟩, hd, fun x => ?_⟩
  · rcases hb x with ⟨v, p, t, -, hv⟩ | ⟨-, hsame⟩
    · exact ⟨v, p, t, Option.some.inj (hx.symm.trans hv)⟩
    · exact hm.ready.graphs x b (hsame ▸ hx)
  · rcases hb x with ⟨y, p, t, hy, hv⟩ | ⟨hx, hsame⟩
    · obtain ⟨v, halike, hval⟩ := exists_of_mem_zip hvs hxs hy
      rw [valueOf?, hv]
      dsimp only
      rwa [hval]
    · have hold := hm.agrees x
      rw [← valueOf?_congr hg hsame hkept] at hold
      have hread : σ' x = σ x → I.read? c σ' x = I.read? c σ x := fun h => by
        unfold Interpretation.read?
        rw [h]
      refine ⟨fun h => ?_, fun h => ?_⟩
      · rw [hread (hA x hx h).2]
        exact hold.same (hA x hx h).1
      · rw [hread (hB x hx h).2]
        exact hold.truth (hB x hx h).1

/-! ### Outputs of blocks -/

theorem ready_addOutput (hready : s.Ready) (hr : Returns (modifyFunction (·.addOutput o type)) env s u s') :
    s'.Ready ∧ s'.scopes.visible = s.scopes.visible := by
  have e := edits_modifyFunction hr
  have hv : s'.scopes.visible = s.scopes.visible := by
    rw [State.visible_eq e.opened, State.visible_eq e.opened', e.current, e.around]
    rfl
  have hg := hready.good
  refine ⟨⟨⟨⟨e.opened', ?_, ?_, by simp⟩, ?_, ?_⟩, fun x b hx => ?_⟩, hv⟩
  · exact e.bound hg.bound (fun _ hx => hx) (fun _ hg => hg) fun x b hx => .inl hx
  · rw [hv, e.names]
    exact hg.taken.1
  · rw [e.current, ← hready.tally]
    exact GraphFunction.tally_congr (f := s.current.addOutput o type) (g := s.current) rfl rfl _
  · rw [hv]
    exact hready.nonempty
  · exact hready.graphs x b (e.lookup x ▸ hx)

/-- The values of names are returned one after the other: as they are, or copied. -/
inductive Delivered (env : Env) (pos : Position) : List String → State → List String → State → Prop
  | nil {s : State} : Delivered env pos [] s [] s
  | cons {name o : String} {names os : List String} {x : Operand} {type : Option DeclaredType} {u : Unit}
      {s s₁ s₂ s₃ s' : State} : Returns (operandOfName name pos) env s x s₁ →
      (o = x.name ∧ s₁ = s₂ ∨ Returns (copy x.name name) env s₁ o s₂) →
      Returns (modifyFunction (·.addOutput o type)) env s₂ u s₃ → Delivered env pos names s₃ os s' →
      Delivered env pos (name :: names) s (o :: os) s'

theorem returns_ownOutput (hr : Returns (ownOutput declared value name) env s o s') :
    o = value ∧ s = s' ∨ Returns (copy value name) env s o s' := by
  simp only [ownOutput, returns_bind] at hr
  obtain ⟨f, t, hf, hr⟩ := hr
  obtain ⟨rfl, rfl⟩ := returns_currentFunction hf
  split at hr
  · cases hr
    exact .inl ⟨rfl, rfl⟩
  · exact .inr hr

theorem delivered_loopOutputs (hr : Returns (loopOutputs pos declared names) env s u s') :
    ∃ os, Delivered env pos names s os s' := by
  induction names generalizing declared s u with
  | nil =>
    rw [loopOutputs] at hr
    cases hr
    exact ⟨[], .nil⟩
  | cons name names ih =>
    simp only [loopOutputs, returns_bind] at hr
    obtain ⟨x, s₁, hx, o, s₂, ho, v, s₃, hadd, hr⟩ := hr
    obtain ⟨os, hos⟩ := ih hr
    exact ⟨o :: os, .cons hx (returns_ownOutput ho) hadd hos⟩

theorem delivers_one {x : Operand} {s₂ s₃ : State} (hx : Returns (operandOfName name pos) env s x s₁)
    (ho : o = x.name ∧ s₁ = s₂ ∨ Returns (copy x.name name) env s₁ o s₂)
    (hadd : Returns (modifyFunction (·.addOutput o type)) env s₂ u s₃) (hready : s.Ready) (hname : name ≠ "") :
    Computes True s {} s₁ {} ∧ Computes True s₁ {} s₂ {} ∧ Grows True s₂ {} s₃ {} ∧ x.name ∈ s₁.scopes.visible ∧
      o ∈ s₂.scopes.visible := by
  obtain ⟨c1, v1⟩ := yields_operandOfName (N := True) (fun _ => hname) hready.good hx
  have hg1 := c1.good hready.good
  have h2 : Computes True s₁ {} s₂ {} ∧ o ∈ s₂.scopes.visible := by
    rcases ho with ⟨rfl, rfl⟩ | ho
    · exact ⟨.refl _ _ _, v1⟩
    · obtain ⟨c2, f2⟩ := computes_copy (N := True) ho hg1 (.inr v1) fun _ => hname
      exact ⟨c2, f2.visible (c2.opened hg1.opened)⟩
  exact ⟨c1, h2.1, grows_addOutput hadd h2.2, v1, h2.2⟩

theorem Delivered.keeps (d : Delivered env pos names s os s') (hready : s.Ready) (hN : "" ∉ names) :
    Grows True s {} s' {} ∧ s'.Ready ∧ s'.current.params = s.current.params ∧
      s'.current.outputNames = s.current.outputNames ++ os := by
  induction d with
  | nil => exact ⟨.refl _ _ _, hready, rfl, by simp⟩
  | cons hx ho hadd d ih =>
    obtain ⟨hname, hN⟩ := not_or.1 (mem_cons.not.1 hN)
    obtain ⟨c1, c2, g3, -, -⟩ := delivers_one hx ho hadd hready (Ne.symm hname)
    have e := edits_modifyFunction hadd
    have hready3 := (ready_addOutput ((c1.trans c2).ready hready) hadd).1
    obtain ⟨g, hr', hp, hout⟩ := ih hready3 hN
    refine ⟨(c1.trans c2).toGrows.trans (g3.trans g), hr', ?_, ?_⟩
    · rw [hp, e.current]
      exact (c1.trans c2).params
    · rw [hout, e.current]
      simp [GraphFunction.outputNames, GraphFunction.addOutput, (c1.trans c2).outputs]

/-- **The outputs of a block** have the values that its names have. -/
theorem runs_delivered (d : Delivered env pos names s os s') (hI : I.Suits c env) (hw : s'.Within c) (hready : s.Ready)
    (hd : s.Defined ρ) (hN : "" ∉ names) :
    RunsFresh I fuel s s' ρ (.ok ()) fun ρ' _ =>
      Forall₂ (fun x o => ∃ v, ρ' o = some v ∧ valueOf? I c s ρ x = some v) names os := by
  induction d generalizing ρ with
  | nil => exact .done rfl hd .nil
  | @cons name o names os x type u s s₁ s₂ s₃ s' hx ho hadd d ih =>
    obtain ⟨hname, hN⟩ := not_or.1 (mem_cons.not.1 hN)
    obtain ⟨c1, c2, g3, v1, v2⟩ := delivers_one hx ho hadd hready (Ne.symm hname)
    have e := edits_modifyFunction hadd
    have c12 := c1.trans c2
    have hready1 := c1.ready hready
    have hready2 := c12.ready hready
    obtain ⟨hready3, hv3⟩ := ready_addOutput hready2 hadd
    obtain ⟨g4, -, -, -⟩ := d.keeps hready3 hN
    have hw3 := g4.within hw
    have hw1 := c2.toGrows.within (g3.within hw3)
    obtain ⟨v, hv, hfirst : Runs I fuel _ s s₁ ρ _ _⟩ := runs_operandOfName hx hI (c1.within hw1) hd hready
    have hsecond : RunsFresh I fuel s s₂ ρ (.ok ()) fun ρ' _ => ρ' o = some v := by
      rcases ho with ⟨rfl, rfl⟩ | ho
      · exact hfirst
      · refine hfirst.seq (k := fun _ => .ok ()) c1.toGrows c2.toGrows fun ρ₁ _ _ hd1 hv1 => ?_
        exact runs_copy ho hI hw1 hd1 (hready1.ne_empty v1) hv1
    have hlookup : ∀ y, s₃.scopes.lookup y = s.scopes.lookup y := fun y => by
      rw [e.lookup, c12.lookup hready.good.opened]
    have hused : ∀ y ∈ s.names.used, y ∈ s₃.names.used := fun y hy => g3.used y (c12.used y hy)
    have hnodes := g3.nodes.trans g4.nodes
    refine hsecond.bind (k := fun _ => .ok ()) hnodes (fun _ hx => hx) fun ρ₂ _ hkept hd2 ho2 => ?_
    have hd3 : s₃.Defined ρ₂ := by
      unfold State.Defined
      rw [hv3]
      exact hd2
    have hrest : Runs I fuel (· ∈ s₃.names.used) s₂ s' ρ₂ (.ok ()) _ :=
      (ih hw hready3 hd3 hN).of_nodes_eq (by rw [e.current]; rfl)
    refine hrest.mono hused fun ρ₃ _ hkept3 _ hall => .cons ⟨v, ?_, hv⟩ (hall.imp fun y o' h => ?_)
    · rw [hkept3 o (g3.used o (hready2.good.taken.1 o v2)), ho2]
    · obtain ⟨w, hw', hval⟩ := h
      refine ⟨w, hw', ?_⟩
      rwa [valueOf?_congr hready.good (hlookup y) hkept] at hval

theorem returns_branchOutputs_cons (hready : s.Ready)
    (hr : Returns (branchOutputs pos declared (name :: names)) env s u s') : ∃ x s₁ o s₂ type v s₃ declared',
      Returns (operandOfName name pos) env s x s₁ ∧ (o = x.name ∧ s₁ = s₂ ∨ Returns (copy x.name name) env s₁ o s₂) ∧
      Returns (modifyFunction (·.addOutput o type)) env s₂ v s₃ ∧
      Returns (branchOutputs pos declared' names) env s₃ u s' := by
  simp only [branchOutputs, returns_bind] at hr
  obtain ⟨b, t, hb, hr⟩ := hr
  obtain ⟨rfl, rfl⟩ := returns_lookupLocal hb
  split at hr
  · rename_i b hb'
    simp only [returns_bind] at hr
    obtain ⟨x, s₁, hx, o, s₂, ho, v, s₃, hadd, hr⟩ := hr
    have hx := (returns_operandOfName (State.lookup_of_bindings hb')).2 hx
    exact ⟨x, s₁, o, s₂, _, v, s₃, _, hx, returns_ownOutput ho, hadd, hr⟩
  · rename_i hlocal
    simp only [lookupOuter, returns_bind, returns_get, returns_pure] at hr
    obtain ⟨b, t, ⟨t', t'', ⟨rfl, rfl⟩, rfl, rfl⟩, hr⟩ := hr
    split at hr
    · cases hr
    · rename_i b houter
      have hl : s.scopes.lookup name = some b := by
        rw [State.lookup_eq hready.good.opened, hlocal, ← houter, Scopes.lookupOuter, State.around, drop_one]
        rfl
      obtain ⟨g, p, t, rfl⟩ := hready.graphs name b hl
      simp only [returns_bind, returns_defaultOp] at hr
      obtain ⟨o, s₁, hf, op, t', ⟨opset, hopset, rfl, rfl⟩, x, s₂, hx, v, s₃, he, w, s₄, hadd, hr⟩ := hr
      cases hx
      refine ⟨⟨g, p == .constant⟩, s, o, s₃, _, w, s₄, _, ?_, .inr ?_, hadd, hr⟩
      · rw [returns_operandOfName hl]
        exact returns_pure.2 ⟨rfl, rfl⟩
      · simp only [copy, returns_bind, returns_pure]
        exact ⟨o, s₁, hf, v, s₃, returns_emitDefault.2 ⟨opset, hopset, he⟩, rfl, rfl⟩

theorem delivered_branchOutputs (hr : Returns (branchOutputs pos declared names) env s u s') (hready : s.Ready)
    (hN : "" ∉ names) : ∃ os, Delivered env pos names s os s' := by
  induction names generalizing declared s u with
  | nil =>
    rw [branchOutputs] at hr
    cases hr
    exact ⟨[], .nil⟩
  | cons name names ih =>
    obtain ⟨hname, hN⟩ := not_or.1 (mem_cons.not.1 hN)
    obtain ⟨x, s₁, o, s₂, type, v, s₃, declared', hx, ho, hadd, hr⟩ := returns_branchOutputs_cons hready hr
    obtain ⟨c1, c2, -, -, -⟩ := delivers_one hx ho hadd hready (Ne.symm hname)
    obtain ⟨os, hos⟩ := ih hr (ready_addOutput ((c1.trans c2).ready hready) hadd).1 hN
    exact ⟨o :: os, .cons hx ho hadd hos⟩

/-! ### Graphs of blocks -/

/-- A function as a graph: inputs get values, the nodes are evaluated, and the values of the outputs are the results. -/
theorem evalGraph_graph (fn : GraphFunction) (args : List V) : I.evalGraph fuel fn.graph ρ args =
    ρ.setAll fn.inputNames args >>= fun ρ₀ => I.evalNodes fuel (fn.nodes.map GraphNode.node) ρ₀ >>= fun ρ' =>
      fn.outputNames.mapM ρ'.get := by
  have hin : (fn.inputs.map GraphVar.info).map (·.name) = fn.inputNames := by
    rw [map_map]
    rfl
  have hout : ∀ ρ' : Values V, ((fn.outputs.map GraphVar.info).mapM fun o => ρ'.get o.name) =
      fn.outputNames.mapM ρ'.get := by
    intro ρ'
    rw [GraphFunction.outputNames]
    refine Outcome.mapM_congr ?_
    rw [forall₂_map_left_iff, forall₂_map_right_iff, forall₂_same]
    exact fun o _ => rfl
  rw [GraphFunction.graph, Interpretation.evalGraph, hin]
  simp only [hout]

/-- Steps that run a part of the script: the variables that are needed after it have their values again. -/
structure Executes (I : Interpretation V) (c : Setting) (fuel : ℕ) (A B A' B' : String → Prop) (m : Lower Unit)
    (run : Values V → Outcome (Completion V)) : Prop where
  performs : Performs True m
  runs : ∀ ⦃env : Env⦄ ⦃s : State⦄ ⦃u : Unit⦄ ⦃s' : State⦄ ⦃ρ σ : Values V⦄, I.Suits c env →
    Tracks I c A B s ρ σ → Returns m env s u s' → s'.Within c →
    RunsFresh I fuel s s' ρ (run σ) fun ρ' d => ∃ σ', d = .next σ' ∧ Tracks I c A' B' s' ρ' σ'

theorem Tracks.enter {domain : String} (hm : Tracks I c A B s ρ σ) (e : Enters s name domain s') :
    Tracks I c A B s' ρ σ := by
  have hl : ∀ x, s'.scopes.lookup x = s.scopes.lookup x := fun x => by
    rw [e.scopes]
    rfl
  have hd : s'.Defined ρ := by
    unfold State.Defined
    rw [e.visible]
    exact hm.defined
  refine hm.of_lookup ⟨⟨e.good hm.ready.good.bound hm.ready.good.taken.1, ?_, ?_⟩, ?_⟩ hd hl fun _ _ => rfl
  · rw [e.current, GraphFunction.tally_eq]
    rfl
  · rw [e.visible]
    exact hm.ready.nonempty
  · exact fun x b hx => hm.ready.graphs x b (hl x ▸ hx)

theorem results_of_outputs {P : String → V → Prop} (h : Forall₂ (fun x o => ∃ v, ρ o = some v ∧ P x v) names os) :
    ∃ vs, os.mapM ρ.get = .ok vs ∧ Forall₂ P names vs := by
  simp only [Outcome.mapM_eq_ok]
  induction h with
  | nil => exact ⟨[], .nil, .nil⟩
  | cons h _ ih =>
    obtain ⟨v, hv, hP⟩ := h
    obtain ⟨vs, hos, hvs⟩ := ih
    exact ⟨v :: vs, .cons (Values.get_of_eq hv) hos, .cons hP hvs⟩

/-- **The graph of a branch** comes to the same as the branch, and returns the values of the names at its end. -/
theorem matches_branch {body : Lower Unit} {fn : GraphFunction} {run : Values V → Outcome (Completion V)}
    (hr : Returns (branch name body names pos) env s fn s') (hbody : Executes I c fuel A B A' B' body run)
    (hI : I.Suits c env) (hm : Tracks I c A B s ρ σ) (hw : s'.Within c) (hN : "" ∉ names) : Outcome.Matches
      (fun vs d => ∃ σ', d = .next σ' ∧
        Forall₂ (fun x v => Alike I A' B' x (some v) (I.read? c σ' x)) names vs)
      (I.evalGraph fuel fn.graph ρ []) (run σ) := by
  simp only [branch, returns_bind] at hr
  obtain ⟨u, s₀, henter, v, s₁, hb, w, s₂, hout, hleave⟩ := hr
  have e := enters_enter henter
  have l := leaves_leave hleave
  have hm0 := hm.enter e
  have a := hbody.performs hm0.ready.good hb
  have hg1 := a.good hm0.ready.good
  have d := delivers_branchOutputs (N := True) hout hg1 (.start hg1 (by rw [a.outputs, e.current])) fun _ => hN
  have hw2 : s₂.Within c := fun o ho => hw o (by rw [l.opset, ho])
  have hruns : RunsFresh I fuel s₀ s₂ ρ (run σ) fun ρ' d => ∃ σ', d = .next σ' ∧
      Forall₂ (fun x o => ∃ v, ρ' o = some v ∧ Alike I A' B' x (some v) (I.read? c σ' x)) names
        s₂.current.outputNames := by
    rw [← bind_pure (run σ)]
    refine (hbody.runs hI hm0 hb (d.within hw2)).seq a.toGrows d.toGrows fun ρ₁ done _ _ hdone => ?_
    obtain ⟨σ', rfl, hm1⟩ := hdone
    obtain ⟨os, hos⟩ := delivered_branchOutputs hout hm1.ready hN
    obtain ⟨-, -, -, hnames⟩ := hos.keeps hm1.ready hN
    have hnone : s₁.current.outputNames = [] := by
      rw [GraphFunction.outputNames, a.outputs, e.current]
      rfl
    rw [hnames, hnone]
    have hdelivered : Runs I fuel _ s₁ s₂ ρ₁ _ _ := runs_delivered hos hI hw2 hm1.ready hm1.defined hN
    refine hdelivered.map (f := fun _ => Completion.next σ') fun ρ₂ _ _ _ hall => ⟨σ', rfl, hall.imp ?_⟩
    rintro x o ⟨v, hv, hval⟩
    exact ⟨v, hv, hval ▸ hm1.agrees x⟩
  have hempty : fn.inputNames = [] := by
    rw [l.fn, GraphFunction.inputNames, GraphFunction.inputs, d.params, a.params, e.current]
    rfl
  rw [evalGraph_graph, hempty]
  change Outcome.Matches _ (I.evalNodes fuel (fn.nodes.map GraphNode.node) ρ >>= _) _
  refine (hruns.matches (by rw [e.current, l.fn]; rfl)).andThen ?_
  rintro ρ' done ⟨-, -, σ', rfl, hall⟩
  rw [l.fn]
  obtain ⟨vs, hvs, halike⟩ := results_of_outputs hall
  exact ⟨vs, hvs, σ', rfl, halike⟩

end Lowering

end OpGraph
