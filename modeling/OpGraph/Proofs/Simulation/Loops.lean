import OpGraph.Proofs.Simulation.Conditionals

/-!
Loops. The node of a loop goes through the rounds of the script one by one. What its body needs from the round before is
carried, and what is not carried does not change from round to round. The name that a loop tests need not be carried: if
a round does not assign it, its old value is as true as the one before the loop.
-/

namespace OpGraph

open List
open Interpretation (rounds whileRounds forRounds)

variable {V : Type}

namespace Lowering

variable {I : Interpretation V} {fuel : ℕ} {c : Setting} {env : Env} {pos : Position} {s s' s₁ : State}
  {ρ ρ' σ σ' : Values V} {A B A' B' : String → Prop}
variable {fn : GraphFunction} {names : List String} {state vs : List V} {header : LoopHeader} {t x : String} {u : Unit}
variable {cond : V}
variable {p : Bool} {d : Completion V} {changed xs : List String} {k : Nat} {stop : Option String} {s₂ s₃ : State}
variable {condIn condOut name : String} {u' : Unit} {kv v : V} {σ₀ : Values V}

/-! ### Rounds of a loop -/

/-- How a round of a loop ends: a break makes the condition false; otherwise the condition is true, or has the truth of
the test. -/
def RoundEnds (I : Interpretation V) (c : Setting) (header : LoopHeader) (cond : V) (σ : Values V) (d : Completion V) :
    Prop :=
  d = .brk σ ∧ I.truth cond = false ∨ d = .next σ ∧ (header.test = none → I.truth cond = true) ∧
    ∀ x, header.test = some x → (I.read? c σ x).map I.truth = some (I.truth cond)

/-- What the body of a loop returns, the condition and then the state, and how the round ends in the script, where `P`
relates the variables and the state. -/
def EndsRound (I : Interpretation V) (c : Setting) (header : LoopHeader) (P : Values V → List V → Prop) (out : List V)
    (d : Completion V) : Prop :=
  ∃ cond state σ, out = cond :: state ∧ P σ state ∧ RoundEnds I c header cond σ d

def holds (I : Interpretation V) (c : Setting) (t : String) (σ : Values V) : Outcome Bool :=
  I.truth <$> Outcome.ofOption .stuck (I.read? c σ t)

theorem holds_eq_ok : holds I c t σ = .ok p ↔ (I.read? c σ t).map I.truth = some p := by
  unfold holds
  cases I.read? c σ t with
  | none => simp [Outcome.ofOption]
  | some v => exact ⟨fun h => congrArg some (Except.ok.inj h), fun h => congrArg Except.ok (Option.some.inj h)⟩

section Rounds

variable {body : List V → Outcome (List V)} {run : Values V → Outcome (Completion V)} {P : Values V → List V → Prop}

theorem rounds_of_false {atEnd : List V → Outcome (List V)} {left k : ℕ} (h : I.truth cond = false) :
    I.rounds body atEnd left k cond state = .ok state := by
  cases left <;> simp [rounds, h]

/-- **The rounds of a loop over a range**: each round keeps the relation between the variables and the state, and ends
the loop on both sides or on none. -/
theorem matches_forRounds (htest : header.test = none)
    (hround : ∀ k cond σ state, I.truth cond = true → P σ state → Outcome.Matches (EndsRound I c header P)
      (body (I.index k :: cond :: state)) (run (σ.set header.counter (I.index k)))) :
    ∀ {left k : ℕ} {cond : V} {σ : Values V} {state : List V}, I.truth cond = true → P σ state → Outcome.Matches
      (fun state' d => ∃ σ', d = .next σ' ∧ P σ' state') (I.rounds body .ok left k cond state)
      (I.forRounds header.counter run left k σ) := by
  intro left
  induction left with
  | zero =>
    intro k cond σ state hcond hP
    simp only [rounds, forRounds, hcond]
    exact ⟨σ, rfl, hP⟩
  | succ left ih =>
    intro k cond σ state hcond hP
    simp only [rounds, forRounds, hcond, if_true]
    refine (hround k cond σ state hcond hP).bind ?_
    rintro out d ⟨cond', state', σ', rfl, hP', ⟨rfl, hfalse⟩ | ⟨rfl, htrue, -⟩⟩
    · dsimp only
      rw [rounds_of_false hfalse]
      exact ⟨σ', rfl, hP'⟩
    · exact ih (htrue htest) hP'

/-- **The rounds of a loop that tests**: the condition that the graph carries has the truth of the test. -/
theorem matches_whileRounds (htest : header.test = some t)
    (hround : ∀ k cond σ state, I.truth cond = true → holds I c t σ = .ok true → P σ state → Outcome.Matches
      (EndsRound I c header P) (body (I.index k :: cond :: state)) (run σ)) :
    ∀ {left k : ℕ} {cond : V} {σ : Values V} {state : List V}, holds I c t σ = .ok (I.truth cond) → P σ state →
      Outcome.Matches (fun state' d => ∃ σ', d = .next σ' ∧ P σ' state')
        (I.rounds body (fun _ => .error .fuel) left k cond state)
        (whileRounds (holds I c t) run left σ) := by
  intro left
  induction left with
  | zero =>
    intro k cond σ state hholds hP
    rw [rounds, whileRounds, hholds]
    change Outcome.Matches _ _ (if I.truth cond = true then _ else _)
    split
    · exact Outcome.matches_error (by simp)
    · exact ⟨σ, rfl, hP⟩
  | succ left ih =>
    intro k cond σ state hholds hP
    rw [rounds, whileRounds, hholds]
    change Outcome.Matches _ _ (if I.truth cond = true then _ else _)
    split
    · rename_i hcond
      refine (hround k cond σ state hcond (by rw [hholds, hcond]) hP).bind ?_
      rintro out d ⟨cond', state', σ', rfl, hP', ⟨rfl, hfalse⟩ | ⟨rfl, -, hnext⟩⟩
      · dsimp only
        rw [rounds_of_false hfalse]
        exact ⟨σ', rfl, hP'⟩
      · exact ih (holds_eq_ok.2 (hnext t htest)) hP'
    · exact ⟨σ, rfl, hP⟩

end Rounds

/-! ### Loop bodies -/

/-- How the statements of a loop body end: with the next round, or out of the loop if the condition holds that they
tell. -/
def EndsAs (I : Interpretation V) (stop : Option String) (ρ σ : Values V) (d : Completion V) : Prop :=
  match stop with
  | none => d = .next σ
  | some x => ∃ v, ρ x = some v ∧ d = if I.truth v then .brk σ else .next σ

/-- Steps that run the statements of a loop body. -/
structure ExecutesLoop (I : Interpretation V) (c : Setting) (fuel : ℕ) (A B A' B' : String → Prop)
    (m : Lower (Option String)) (run : Values V → Outcome (Completion V)) : Prop where
  performs : PerformsLoop True m
  runs : ∀ ⦃env : Env⦄ ⦃s : State⦄ ⦃stop : Option String⦄ ⦃s' : State⦄ ⦃ρ σ : Values V⦄, I.Suits c env →
    Tracks I c A B s ρ σ → Returns m env s stop s' → s'.Within c →
    RunsFresh I fuel s s' ρ (run σ) fun ρ' d => ∃ σ', EndsAs I stop ρ' σ' d ∧ Tracks I c A' B' s' ρ' σ'

/-- **The inputs of a loop body** are the counter, the condition and the state. -/
theorem tracks_loopInputs {domain counter : String} {type type' : Option DeclaredType} {s₀ : State} {u'' : Unit}
    (cv : V) (e : Enters s name domain s₀) (hcount : Returns (loopInput counter type) env s₀ u s₁)
    (hfin : Returns (fresh "cond_in") env s₁ condIn s₂)
    (haddin : Returns (modifyFunction (·.addInput condIn type')) env s₂ u' s₃)
    (hstate : Returns (names.forM (loopInput · none)) env s₃ u'' s') (hready : s.Ready) (hd : s.Defined ρ)
    (hcounter : counter ≠ "") (hN : "" ∉ names)
    (hvs : Forall₂ (fun x v => Alike I A B x (some v) (I.read? c σ x)) (counter :: names) (kv :: vs))
    (hothers : ∀ x ∉ counter :: names, Alike I A B x (valueOf? I c s ρ x) (I.read? c σ x)) :
    ∃ ρ₀, ρ.setAll s'.current.inputNames (kv :: cv :: vs) = .ok ρ₀ ∧ ρ₀ condIn = some cv ∧ Tracks I c A B s' ρ₀ σ ∧
      s'.current.nodes = [] ∧ s'.current.outputs = [] ∧ condIn ∈ s'.scopes.visible := by
  have ein := edits_modifyFunction haddin
  have hs12 : s₂.scopes = s₁.scopes := by
    obtain ⟨-, rfl⟩ := returns_fresh.1 hfin
    rfl
  obtain ⟨k, t1⟩ := takesInputs_loopInput hcount
  obtain ⟨xs, t4⟩ := takesInputs_loopInputs hstate
  have hrebinds : Rebinds s₀ (counter :: names) (k :: xs) s' :=
    t1.rebinds.trans (t4.rebinds.of_lookup fun x => by rw [ein.lookup, hs12]) rfl
  have hcurrent : s₃.current = s₁.current.addInput condIn type' := by
    rw [ein.current, State.current_of_scopes hs12]
  have hinputs : s'.current.inputNames = k :: condIn :: xs := by
    rw [t4.inputs, hcurrent, inputNames_addInput, t1.inputs, e.current]
    rfl
  have hnodes : s'.current.nodes = [] := by
    rw [t4.nodes, hcurrent]
    exact t1.nodes.trans (by rw [e.current])
  have hnested : s'.current.nested = [] := by
    rw [t4.nested, hcurrent]
    exact t1.nested.trans (by rw [e.current])
  have houtputs : s'.current.outputs = [] := by
    rw [t4.outputs, hcurrent]
    exact t1.outputs.trans (by rw [e.current])
  have htally : ∀ x, s'.current.tally x = 0 := by
    intro x
    rw [GraphFunction.tally_eq, hnodes, hnested]
    rfl
  -- the inputs have new names
  have hg0 : s₀.Good ⟨s₀.current.inputNames, []⟩ := by
    rw [e.current]
    exact e.good hready.good.bound hready.good.taken.1
  have d1 := declares_loopInput (N := True) hcount (fun _ => hcounter) hg0.drop
  have hg1 := d1.good hg0
  obtain ⟨d2, -⟩ := declares_addInput (N := True) hfin haddin (fun _ => by simp) hg1.drop
  obtain ⟨g4, hg4, -, -⟩ := declares_loopInputs (N := True) hstate (d2.good hg1) fun _ => hN
  have hgrows : Grows True s₀ ⟨s₀.current.inputNames, []⟩ s' ⟨s'.current.inputNames, []⟩ :=
    d1.toGrows.trans (d2.toGrows.trans g4)
  have hempty : s₀.current.inputNames = [] := by
    rw [e.current]
    rfl
  obtain ⟨hfree, hnodup⟩ := hgrows.fresh_held (by rw [hempty]; exact (append_nil _).symm) rfl fun x => by
    rw [htally, e.current, GraphFunction.tally_eq]
    rfl
  have hvisible : s'.scopes.visible = s'.current.inputNames ++ s.scopes.visible := by
    rw [State.visible_eq hg4.opened, hgrows.around, e.around, GraphFunction.values, GraphFunction.assigned, hnodes]
    simp
  -- they get their values
  obtain ⟨ρ₀, hρ₀⟩ : ∃ ρ₀, ρ.setAll s'.current.inputNames (kv :: cv :: vs) = .ok ρ₀ := by
    rcases ρ.setAll_eq s'.current.inputNames (kv :: cv :: vs) with ⟨-, h⟩ | ⟨hne, -⟩
    · exact h
    · refine absurd ?_ hne
      have := hvs.length_eq
      simp only [length_cons] at this
      simp only [hinputs, length_cons, t4.count]
      omega
  have hvalues := Values.setAll_values hρ₀ hnodup
  rw [hinputs] at hvalues
  obtain ⟨v₁, vs₁, hk, hvalues, hvs₁⟩ := forall₂_cons_left_iff.1 hvalues
  cases hvs₁
  obtain ⟨v₂, vs₂, hcond, hvalues, hvs₂⟩ := forall₂_cons_left_iff.1 hvalues
  cases hvs₂
  have hlookup : ∀ x, s₀.scopes.lookup x = s.scopes.lookup x := fun x => by
    rw [e.scopes]
    rfl
  have hkept : ∀ x ∈ s.names.used, ρ₀ x = ρ x := fun x hx =>
    Values.setAll_other hρ₀ fun hmem => (hfree x hmem).1 (by rwa [e.names])
  refine ⟨ρ₀, hρ₀, hcond, ⟨⟨⟨hg4.drop, htally _, ?_⟩, fun x b hx => ?_⟩, ?_, fun x => ?_⟩, hnodes, houtputs, ?_⟩
  · rw [hvisible, mem_append, not_or]
    exact ⟨fun h => (hfree _ h).2 rfl, hready.nonempty⟩
  · rcases hrebinds x with ⟨v, p, t, -, hv⟩ | ⟨-, hsame⟩
    · exact ⟨v, p, t, Option.some.inj (hx.symm.trans hv)⟩
    · exact hready.graphs x b (by rw [← hlookup, ← hsame, hx])
  · intro x hx
    rw [hvisible, mem_append] at hx
    rcases hx with hx | hx
    · exact Values.setAll_isSome hρ₀ hx
    · rw [hkept x (hready.good.taken.1 x hx)]
      exact hd x hx
  · rcases hrebinds x with ⟨y, p, t, hy, hv⟩ | ⟨hx, hsame⟩
    · obtain ⟨v, halike, hval⟩ := exists_of_mem_zip hvs (.cons hk hvalues) hy
      rw [valueOf?, hv]
      dsimp only
      rwa [hval]
    · rw [valueOf?_congr hready.good (hsame.trans (hlookup x)) hkept]
      exact hothers x hx
  · rw [hvisible, hinputs]
    simp

theorem within_emitDefault {outputs inputs : List String} {attributes : List NodeAttribute}
    (hr : Returns (emitDefault outputs name inputs attributes) env s u s') (hw : s'.Within c) : s.Within c := by
  obtain ⟨o, -, he⟩ := returns_emitDefault.1 hr
  exact fun o ho => hw o (by rw [(edits_modifyFunction he).opset, ho])

theorem within_fresh {candidate : String} (hr : Returns (fresh candidate) env s x s') (hw : s'.Within c) :
    s.Within c := by
  obtain ⟨-, rfl⟩ := returns_fresh.1 hr
  exact hw

theorem input_single (hne : x ≠ "") (hx : ρ x = some v) : [x].mapM ρ.input = .ok [some v] :=
  Outcome.mapM_eq_ok.2 (.cons (Values.input_of_eq hne hx) .nil)

theorem runs_andNot {value stop goOn : String} {w : V} (hf : Returns (fresh "cond_out") env s condOut s₁)
    (hgo : Returns (fresh (stop ++ "_not")) env s₁ goOn s₂)
    (hnot : Returns (emitDefault [goOn] "Not" [stop]) env s₂ u s₃)
    (hand : Returns (emitDefault [condOut] "And" [value, goOn]) env s₃ u' s') (hI : I.Suits c env) (hw : s'.Within c)
    (hready : s.Ready) (hd : s.Defined ρ) (hvalue : value ∈ s.scopes.visible) (hstop : stop ∈ s.scopes.visible)
    (hv : ρ value = some v) (hstopv : ρ stop = some w) :
    RunsFresh I fuel s s' ρ (.ok ()) fun ρ' _ =>
      ∃ r, ρ' condOut = some r ∧ I.truth r = (I.truth v && !I.truth w) := by
  obtain ⟨c1, hfree, -⟩ := computes_fresh (N := True) hf (fun _ => by simp) {}
  have hs1 : s₁.scopes = s.scopes := by
    obtain ⟨-, rfl⟩ := returns_fresh.1 hf
    rfl
  have hready1 : s₁.Ready := c1.ready hready
  obtain ⟨c2, f2⟩ := computes_fresh_emitDefault (N := True) hgo hnot (fun _ => by simp)
    (forall_mem_singleton.2
      (.inr ((computes_fresh (N := True) hgo (fun _ => by simp) {}).1.visible hready1.good.opened (hs1 ▸ hstop))))
  have hready3 := c2.ready hready1
  have hw3 := within_emitDefault hand hw
  have hw2 := within_emitDefault hnot hw3
  obtain ⟨n, hn, htruth⟩ := I.negation w
  have hfirst : RunsFresh I fuel s₁ s₃ ρ (.ok ()) fun ρ' _ => ρ' goOn = some n :=
    runs_fresh_emitDefault hI (within_fresh hgo hw2) (hd.of_scopes_eq hs1)
      (input_single (hready.ne_empty hstop) hstopv) (by simp) hn hgo hnot
  have hnodes : s₃.current.nodes <+: s'.current.nodes := by
    obtain ⟨o, -, he⟩ := returns_emitDefault.1 hand
    rw [nodes_emit he]
    exact prefix_append _ _
  refine (hfirst.of_nodes_eq (by rw [State.current_of_scopes hs1])).bind (k := fun _ => .ok ()) hnodes
    (fun x hx => c1.used x hx) fun ρ₁ _ hkept hd3 hgoOn => ?_
  have hvalue1 : ρ₁ value = some v := by rw [hkept value (hready1.good.taken.1 value (hs1 ▸ hvalue)), hv]
  obtain ⟨r, hr, hrtruth⟩ := I.conjunction v n
  have hin : [value, goOn].mapM ρ₁.input = .ok [some v, some n] :=
    Outcome.mapM_eq_ok.2 (.cons (Values.input_of_eq (hready.ne_empty hvalue) hvalue1)
      (.cons (Values.input_of_eq (hready3.ne_empty (f2.visible hready3.good.opened)) hgoOn) .nil))
  refine (runs_emitDefault hI hw3 hd3 hin (by simp) hr hand).mono (fun x hx he => hfree (he ▸ hx)) ?_
  intro ρ' _ _ _ hout
  exact ⟨r, hout, by rw [hrtruth, htruth]⟩

/-- **The condition under which a loop goes on**: its test holds, if it has one, and no break is taken. -/
theorem runs_continueCondition (hf : Returns (fresh "cond_out") env s condOut s₁)
    (hr : Returns (continueCondition pos header condIn condOut stop) env s₁ u s') (hI : I.Suits c env)
    (hw : s'.Within c) (hready : s.Ready) (hd : s.Defined ρ) (hin : condIn ∈ s.scopes.visible)
    (hcond : ρ condIn = some cond) (htrue : I.truth cond = true) (hstop : ∀ x, stop = some x → x ∈ s.scopes.visible) :
    ∃ p q : Bool, (header.test = none → p = true) ∧
      (∀ x, header.test = some x → (valueOf? I c s ρ x).map I.truth = some p) ∧ (stop = none → q = false) ∧
      (∀ x v, stop = some x → ρ x = some v → I.truth v = q) ∧
      RunsFresh I fuel s s' ρ (.ok ()) fun ρ' _ =>
        ∃ r, ρ' condOut = some r ∧ I.truth r = (p && !q) := by
  have hs1 : s₁.scopes = s.scopes := by
    obtain ⟨-, rfl⟩ := returns_fresh.1 hf
    rfl
  -- a single node that writes the condition
  have hone : ∀ {operator x : String} {v r : V} {b : Bool}, Returns (emitDefault [condOut] operator [x]) env s₁ u s' →
      x ∈ s.scopes.visible → ρ x = some v → I.apply I.home operator [] [some v] 1 = some [r] → I.truth r = b →
      RunsFresh I fuel s s' ρ (.ok ()) fun ρ' _ => ∃ r, ρ' condOut = some r ∧ I.truth r = b := by
    intro operator x v r b he hx hv happly hb
    have hw0 := within_fresh hf (within_emitDefault he hw)
    exact (runs_fresh_emitDefault hI hw0 hd (input_single (hready.ne_empty hx) hv) (by simp) happly hf he).mono
      (fun _ hx => hx) fun _ _ _ _ h => ⟨r, h, hb⟩
  unfold continueCondition at hr
  split at hr
  · rename_i name htest
    simp only [returns_bind] at hr
    obtain ⟨value, t, hvalue, hr⟩ := hr
    obtain ⟨rfl, hget⟩ := returns_bodyValue? hvalue
    split at hr
    · cases hr
    · rename_i value
      obtain ⟨p, t, hb⟩ := hget value rfl
      have hlookup : s.scopes.lookup name = some (.graph value p t) := by
        rw [← hs1]
        exact State.lookup_of_bindings hb
      have hvisible : value ∈ s.scopes.visible := hready.good.bound.lookup hlookup
      obtain ⟨v, hv⟩ := hd.exists_value hvisible
      have hvalueOf : ∀ x, header.test = some x → (valueOf? I c s ρ x).map I.truth = some (I.truth v) := by
        intro x hx
        obtain rfl := Option.some.inj (htest.symm.trans hx)
        rw [valueOf?, hlookup]
        dsimp only
        rw [hv]
        rfl
      split at hr
      · refine ⟨I.truth v, false, by simp [htest], hvalueOf, fun _ => rfl, by simp, ?_⟩
        exact hone hr hvisible hv (I.identity v) (by simp)
      · rename_i stop
        simp only [returns_bind] at hr
        obtain ⟨goOn, s₂, hgo, u₂, s₃, hnot, hand⟩ := hr
        obtain ⟨w, hstopv⟩ := hd.exists_value (hstop stop rfl)
        refine ⟨I.truth v, I.truth w, by simp [htest], hvalueOf, by simp, fun x v' hx hv' => ?_, ?_⟩
        · cases hx
          obtain rfl := Option.some.inj (hstopv.symm.trans hv')
          rfl
        · exact runs_andNot hf hgo hnot hand hI hw hready hd hvisible (hstop stop rfl) hv hstopv
  · rename_i htest
    split at hr
    · refine ⟨true, false, fun _ => rfl, by simp [htest], fun _ => rfl, by simp, ?_⟩
      exact hone hr hin hcond (I.identity cond) (by rw [htrue]; rfl)
    · rename_i stop
      obtain ⟨w, hstopv⟩ := hd.exists_value (hstop stop rfl)
      obtain ⟨r, happly, hrtruth⟩ := I.negation w
      refine ⟨true, I.truth w, fun _ => rfl, by simp [htest], by simp, fun x v' hx hv' => ?_, ?_⟩
      · cases hx
        obtain rfl := Option.some.inj (hstopv.symm.trans hv')
        rfl
      · exact hone hr (hstop stop rfl) hstopv happly (by rw [hrtruth]; rfl)

theorem roundEnds_of_endsAs {q : Bool} (hends : EndsAs I stop ρ σ d) (hnone : header.test = none → p = true)
    (hsome : ∀ x, header.test = some x → (I.read? c σ x).map I.truth = some p) (hstop : stop = none → q = false)
    (hvalue : ∀ x v, stop = some x → ρ x = some v → I.truth v = q) (hcond : I.truth cond = (p && !q)) :
    RoundEnds I c header cond σ d := by
  have hd : q = true ∧ d = .brk σ ∨ q = false ∧ d = .next σ := by
    cases stop with
    | none => exact .inr ⟨hstop rfl, hends⟩
    | some x =>
      obtain ⟨v, hv, hd⟩ := hends
      rw [hvalue x v rfl hv] at hd
      cases q
      · exact .inr ⟨rfl, hd⟩
      · exact .inl ⟨rfl, hd⟩
  rcases hd with ⟨rfl, rfl⟩ | ⟨rfl, rfl⟩
  · exact .inl ⟨rfl, by simp [hcond]⟩
  · rw [Bool.not_false, Bool.and_true] at hcond
    exact .inr ⟨rfl, fun h => hcond.trans (hnone h), fun x hx => by rw [hcond, hsome x hx]⟩

/-- **The graph of a loop body** comes to the same as a round of the loop: it returns the condition under which the loop
goes on, and the values of the state at the end of the round. -/
theorem matches_loopBody {body : Lower (Option String)} {run : Values V → Outcome (Completion V)}
    (hr : Returns (loopBody pos header names body) env s fn s') (hbody : ExecutesLoop I c fuel A B A' B' body run)
    (hI : I.Suits c env) (hready : s.Ready) (hd : s.Defined ρ) (hw : s'.Within c) (hcounter : header.counter ≠ "")
    (hN : "" ∉ names) (htest : ∀ x, header.test = some x → B' x) (htrue : I.truth cond = true)
    (hvs : Forall₂ (fun x v => Alike I A B x (some v) (I.read? c σ x)) (header.counter :: names) (kv :: vs))
    (hothers : ∀ x ∉ header.counter :: names, Alike I A B x (valueOf? I c s ρ x) (I.read? c σ x)) :
    Outcome.Matches (EndsRound I c header fun σ' =>
        Forall₂ (fun x v => Alike I A' B' x (some v) (I.read? c σ' x)) names)
      (I.evalGraph fuel fn.graph ρ (kv :: cond :: vs)) (run σ) := by
  simp only [loopBody, returns_bind] at hr
  obtain ⟨u, s₀, henter, u₁, s₁, hcount, condIn, s₂, hfin, u₂, s₃, haddin, u₃, s₄, hstate, stop, s₅, hb, condOut, s₆,
    hfout, u₄, s₇, hcont, u₅, s₈, haddout, u₆, s₉, hout, hleave⟩ := hr
  have e := enters_enter henter
  have l := leaves_leave hleave
  obtain ⟨ρ₀, hρ₀, hcond, hm4, hnodes4, ho4, hin4⟩ := tracks_loopInputs cond e hcount hfin haddin hstate hready hd
    hcounter hN hvs hothers
  obtain ⟨a5, hstop⟩ := hbody.performs hm4.ready.good hb
  have hg5 := a5.good hm4.ready.good
  have hin5 := a5.visible hm4.ready.good.opened hin4
  obtain ⟨c7, v7, d9⟩ := delivers_loopResults (N := True) hfout hcont haddout hout hg5 (a5.outputs.trans ho4) hin5 hstop
    fun _ => hN
  have e8 := edits_modifyFunction haddout
  have hw9 : s₉.Within c := fun o ho => hw o (by rw [l.opset, ho])
  have hruns : RunsFresh I fuel s₄ s₉ ρ₀ (run σ) fun ρ' d => ∃ cond' os σ', ρ' condOut = some cond' ∧
      s₉.current.outputNames = condOut :: os ∧ RoundEnds I c header cond' σ' d ∧
      Forall₂ (fun x o => ∃ v, ρ' o = some v ∧ Alike I A' B' x (some v) (I.read? c σ' x)) names os := by
    rw [← bind_pure (run σ)]
    refine (hbody.runs hI hm4 hb (d9.within hw9)).seq a5.toGrows d9.toGrows fun ρ₅ d hkept5 _ hd5 => ?_
    obtain ⟨σ', hends, hm5⟩ := hd5
    have hready7 := c7.ready hm5.ready
    obtain ⟨hready8, hv8⟩ := ready_addOutput hready7 haddout
    obtain ⟨os, hos⟩ := delivered_loopOutputs hout
    obtain ⟨g9, -, -, hnames⟩ := hos.keeps hready8 hN
    have hw8 := g9.within hw9
    have hw7 : s₇.Within c := fun o ho => hw8 o (by rw [e8.opset, ho])
    have hcond5 : ρ₅ condIn = some cond := by rw [hkept5 condIn (hm4.ready.good.taken.1 condIn hin4), hcond]
    obtain ⟨p, q, hnone, hsome, hstopNone, hstopSome, hcontinue : Runs I fuel _ s₅ s₇ ρ₅ _ _⟩ :=
      runs_continueCondition hfout hcont hI hw7 hm5.ready hm5.defined hin5 hcond5 htrue hstop
    have hnodes8 : s₈.current.nodes = s₇.current.nodes := by
      rw [e8.current]
      rfl
    have hlookup : ∀ x, s₈.scopes.lookup x = s₅.scopes.lookup x := fun x => by
      rw [e8.lookup, c7.lookup hg5.opened]
    refine hcontinue.bind (k := fun _ => .ok d) (hnodes8 ▸ g9.nodes) (fun _ hx => hx) fun ρ₇ _ hkept7 hd7 hcond7 => ?_
    obtain ⟨cond', hcond7, htruth⟩ := hcond7
    have hd8 : s₈.Defined ρ₇ := by
      unfold State.Defined
      rw [hv8]
      exact hd7
    have hdelivered : Runs I fuel _ s₇ s₉ ρ₇ _ _ :=
      (runs_delivered hos hI hw9 hready8 hd8 hN).of_nodes_eq hnodes8
    refine (hdelivered.map (f := fun _ => d) fun ρ₉ _ hkept9 _ hall => ?_).mono
      (fun x hx => by rw [e8.names]; exact c7.used x hx) fun _ _ _ _ h => h
    refine ⟨cond', os, σ', ?_, ?_, ?_, hall.imp ?_⟩
    · rw [hkept9 condOut (by rw [e8.names]; exact hready7.good.taken.1 condOut v7), hcond7]
    · rw [hnames, e8.current, GraphFunction.outputNames, GraphFunction.addOutput, c7.outputs, a5.outputs, ho4]
      rfl
    · refine roundEnds_of_endsAs hends hnone (fun x hx => ?_) hstopNone hstopSome htruth
      rw [← (hm5.agrees x).truth (htest x hx), hsome x hx]
    · rintro x o ⟨v, hv, hval⟩
      rw [valueOf?_congr hm5.ready.good (hlookup x) hkept7] at hval
      exact ⟨v, hv, hval ▸ hm5.agrees x⟩
  have hinputs : fn.inputNames = s₄.current.inputNames :=
    GraphFunction.inputNames_congr (by rw [l.fn, d9.params, a5.params])
  rw [evalGraph_graph, hinputs, hρ₀]
  change Outcome.Matches _ (I.evalNodes fuel (fn.nodes.map GraphNode.node) ρ₀ >>= _) _
  refine (hruns.matches (by rw [hnodes4, l.fn]; rfl)).andThen ?_
  rintro ρ' d ⟨-, -, cond', os, σ', hcond', hnames, hends, hall⟩
  obtain ⟨vs', hvs', halike⟩ := results_of_outputs hall
  refine ⟨cond' :: vs', ?_, cond', vs', σ', rfl, halike, hends⟩
  rw [l.fn, hnames, Outcome.mapM_eq_ok]
  exact .cons (Values.get_of_eq hcond') (Outcome.mapM_eq_ok.1 hvs')

/-! ### The node of a loop -/

theorem runs_valuesOf (hr : Returns (names.mapM fun name => do return (← operandOfName name pos).name) env s xs s')
    (hI : I.Suits c env) (hw : s'.Within c) (hready : s.Ready) (hd : s.Defined ρ) (hN : "" ∉ names) :
    RunsFresh I fuel s s' ρ (.ok ()) fun ρ' _ =>
      ∃ vs, Forall₂ (fun x v => ρ' x = some v) xs vs ∧
        Forall₂ (fun x v => valueOf? I c s ρ x = some v) names vs := by
  induction names generalizing s ρ xs with
  | nil =>
    cases hr
    exact .done rfl hd ⟨[], .nil, .nil⟩
  | cons name names ih =>
    obtain ⟨hname, hN⟩ := not_or.1 (mem_cons.not.1 hN)
    simp only [mapM_cons, returns_bind, returns_pure] at hr
    obtain ⟨x, s₁, ⟨y, t, hy, rfl, rfl⟩, rest, s₂, hrest, rfl, rfl⟩ := hr
    obtain ⟨c1, v1⟩ := yields_operandOfName (N := True) (fun _ => Ne.symm hname) hready.good hy
    have hready1 := c1.ready hready
    obtain ⟨c2, -, -⟩ := computes_valuesOf (N := True) hrest hready1.good fun _ => hN
    obtain ⟨v, hv, hfirst : Runs I fuel _ s t ρ _ _⟩ := runs_operandOfName hy hI (c1.within (c2.within hw)) hd hready
    refine hfirst.seq (k := fun _ => .ok ()) c1.toGrows c2.toGrows fun ρ₁ _ hkept hd1 hv1 => ?_
    refine (ih hrest hready1 hd1 hN).mono (fun _ hx => hx) ?_
    rintro ρ₂ _ hkept2 _ ⟨vs, hxs, hnames⟩
    refine ⟨v :: vs, .cons ?_ hxs, .cons hv (hnames.imp fun z w h => ?_)⟩
    · rw [hkept2 y.name (hready1.good.taken.1 _ v1), hv1]
    · rwa [valueOf?_congr hready.good (c1.lookup hready.good.opened z) hkept] at h

theorem evalNode_loopNode {n : GraphNode} {o : Opset} {body : GraphFunction} {bound : String} {b : Option V}
    (hop : n.op = opName (o.op "Loop")) (ho : o.domain = I.home) (hin : n.inputs = bound :: x :: xs)
    (hbound : ρ.input bound = .ok b) (hx : ρ.input x = .ok (some cond))
    (hxs : Forall₂ (fun x v => ρ.input x = .ok (some v)) xs vs)
    (hgraphs : n.attributes.map (·.value) = [body.attribute "body"]) :
    I.evalNode fuel n.node ρ = I.loop fuel (I.evalGraph fuel body.graph ρ) b cond vs >>= ρ.setAll n.outputs := by
  refine Interpretation.evalNode_loop (n := n.node) ?_ ?_ ?_ hgraphs
  · change n.op.domain = I.home
    rw [hop]
    exact ho
  · change n.op.name = "Loop"
    rw [hop]
    rfl
  · change n.inputs.mapM ρ.input = _
    rw [hin, Outcome.mapM_eq_ok]
    exact .cons hbound (.cons hx (forall₂_map_right_iff.2 hxs))

/-- **The node of a loop** comes to the rounds of the loop from the values that the state has before it. -/
theorem runs_loopNode {body : Lower (Option String)} {initial : Operand} {bound : Option V} {r : Outcome (Completion V)}
    (hr : Returns (loopBody pos header names body >>= loopNode pos header names initial) env s u s')
    (hbody : PerformsLoop True body) (hI : I.Suits c env) (hm : Tracks I c A B s ρ σ) (hw : s'.Within c)
    (hcounter : header.counter ≠ "") (hN : "" ∉ names) (hbound : s.Sees header.bound)
    (hboundValue : ρ.input header.bound = .ok bound) (hinitial : initial.name ∈ s.scopes.visible)
    (hcond : ρ initial.name = some cond)
    (hloop : ∀ fn s₁ ρ₁ vs, Returns (loopBody pos header names body) env s fn s₁ → s₁.Within c → s.Defined ρ₁ →
      (∀ x ∈ s.names.used, ρ₁ x = ρ x) → Forall₂ (fun x v => valueOf? I c s ρ x = some v) names vs →
      Outcome.Matches (fun vs' d => ∃ σ', d = .next σ' ∧
          Forall₂ (fun x v => Alike I A' B' x (some v) (I.read? c σ' x)) names vs' ∧
          (∀ x ∉ names, A' x → A x ∧ σ' x = σ x) ∧ ∀ x ∉ names, B' x → B x ∧ σ' x = σ x)
        (I.loop fuel (I.evalGraph fuel fn.graph ρ₁) bound cond vs) r) :
    RunsFresh I fuel s s' ρ r fun ρ' d => ∃ σ', d = .next σ' ∧ Tracks I c A' B' s' ρ' σ' := by
  have hg := hm.ready.good
  have a := advances_loopNode (N := True) hr hg hbody (fun _ => hcounter) hbound hinitial fun _ => hN
  simp only [loopNode, returns_bind, returns_defaultOp, returns_lift] at hr
  obtain ⟨fn, s₁, hfn, inputs, s₂, hin, outputs, s₃, hbind, op, t, ⟨o, ho, rfl, rfl⟩, bodyGraph, t, ⟨hattr, rfl⟩, fs, t,
    ⟨-, rfl⟩, he⟩ := hr
  obtain ⟨c1, hs1, -⟩ := computes_loopBody (N := True) hfn hg hbody (fun _ => hcounter) fun _ => hN
  have hready1 := c1.ready hm.ready
  obtain ⟨c2, -, v2⟩ := computes_valuesOf (N := True) hin hready1.good fun _ => hN
  have hready2 := c2.ready hready1
  obtain ⟨b, -⟩ := bindsOutputs_bindOutputs (N := True) (h := {}) hbind fun _ => hN
  have e := edits_modifyFunction he
  have hw3 : s₃.Within c := fun o ho => hw o (by rw [e.opset, ho])
  have hw2 := b.within hw3
  have hw1 := c2.within hw2
  have hlookup : ∀ x, s₂.scopes.lookup x = s.scopes.lookup x := fun x => by rw [c2.lookup hready1.good.opened, hs1]
  have hrebinds : Rebinds s names outputs s' := by
    intro x
    rw [e.lookup, ← hlookup]
    exact rebinds_bindOutputs hbind x
  have hused : ∀ x ∈ s.names.used, x ∈ s₂.names.used := fun x hx => c2.used x (c1.used x hx)
  have hnodes : s₂.current.nodes <+: s'.current.nodes := by
    rw [nodes_emit he, b.current]
    exact prefix_append _ _
  -- constants for the state come before the node
  have hvalues : Runs I fuel (· ∈ s₁.names.used) s s₂ ρ _ _ :=
    (runs_valuesOf hin hI hw2 hready1 (hm.defined.of_scopes_eq hs1) hN).of_nodes_eq
      (by rw [State.current_of_scopes hs1])
  refine hvalues.bind (k := fun _ => r) hnodes (fun x hx => c1.used x hx) ?_
  rintro ρ₁ - hkept hd2 ⟨vs, hinputs, hnames⟩
  have hkept' : ∀ x ∈ s.names.used, ρ₁ x = ρ x := fun x hx => hkept x (c1.used x hx)
  have hd0 : s.Defined ρ₁ := fun x hx => hd2 x ((c1.trans (c2.frame _)).visible hg.opened hx)
  have hnames' : Forall₂ (fun x v => valueOf? I c s ρ x = some v) names vs :=
    hnames.imp fun x v h => by rwa [valueOf?_congr hg (by rw [hs1]) fun _ _ => rfl] at h
  have hrounds := hloop fn s₁ ρ₁ vs hfn hw1 hd0 hkept' hnames'
  have hboundIn : ρ₁.input header.bound = .ok bound := by
    rw [← hboundValue]
    exact Values.input_of_kept fun hne => hkept' _ (hg.taken.1 _ (hbound.resolve_left hne))
  have hcondIn : ρ₁.input initial.name = .ok (some cond) :=
    Values.input_of_eq (hm.ready.ne_empty hinitial) (by rw [hkept' _ (hg.taken.1 _ hinitial), hcond])
  have hstateIn : Forall₂ (fun x v => ρ₁.input x = .ok (some v)) inputs vs := by
    have := (forall₂_and_left inputs vs).2 ⟨v2, hinputs⟩
    exact this.imp fun x v h => Values.input_of_eq (hready2.ne_empty h.1) h.2
  have hruns := runs_boundNode he hbind hready2.good hd2 hN (evalNode_loopNode rfl (hI.domain hw3 ho) rfl hboundIn
    hcondIn hstateIn (by simp [GraphFunction.value_toAttribute hattr])) hrounds ?_
  · refine hruns.mono hused ?_
    rintro ρ' d hkept2 hd' ⟨vs', ⟨σ', rfl, hvs', hA, hB⟩, houts⟩
    refine ⟨σ', rfl, hm.rebound a hrebinds (fun x hx => ?_) hd' houts hvs' hA hB⟩
    rw [hkept2 x (hused x hx), hkept' x hx]
  · rintro vs' d ⟨σ', -, hvs', -, -⟩
    exact hvs'.length_eq

/-! ### Loops -/

section Loops

variable {assigned : List String} {body : Lower (Option String)}
  {run : Values V → Outcome (Completion V)} {u : Unit} {Ai Bi Ao Bo : String → Prop}

theorem read?_congr (h : σ' x = σ x) : I.read? c σ' x = I.read? c σ x := by
  unfold Interpretation.read?
  rw [h]

/-- Between two rounds of a loop, which began in `σ₀`: the loop carries the values of `names`, and only the names
`changed` may differ from those before the loop. -/
structure AtRound (I : Interpretation V) (c : Setting) (A B : String → Prop) (names changed : List String)
    (σ₀ σ : Values V) (state : List V) : Prop where
  carried : List.Forall₂ (fun x v => Alike I A B x (some v) (I.read? c σ x)) names state
  rest : ∀ x ∉ changed, σ x = σ₀ x

theorem AtRound.first (hm : Tracks I c A B s ρ σ) (hA : ∀ x, Ao x → A x) (hB : ∀ x, Bo x → B x)
    (hvs : Forall₂ (fun x v => valueOf? I c s ρ x = some v) names vs) :
    AtRound I c Ao Bo names assigned σ σ vs where
  carried := hvs.imp fun x _ h => h ▸ (hm.agrees x).mono (hA x) (hB x)
  rest _ _ := rfl

/-- What a loop leaves to the statements after it, if it is left without a return: the values of `names`, and the others
as they were. -/
theorem AtRound.left (h : AtRound I c Ao Bo names changed σ σ' vs) (hA' : ∀ x, A' x → Ao x) (hB' : ∀ x, B' x → Bo x)
    (hA : ∀ x, Ao x → A x) (hB : ∀ x, Bo x → B x) (hstay : ∀ x ∉ names, A' x ∨ B' x → x ∉ changed) :
    Forall₂ (fun x v => Alike I A' B' x (some v) (I.read? c σ' x)) names vs ∧
      (∀ x ∉ names, A' x → A x ∧ σ' x = σ x) ∧ ∀ x ∉ names, B' x → B x ∧ σ' x = σ x := by
  refine ⟨h.carried.imp fun x v h => h.mono (hA' x) (hB' x), fun x hx hx' => ?_, fun x hx hx' => ?_⟩
  · exact ⟨hA x (hA' x hx'), h.rest x (hstay x hx (.inl hx'))⟩
  · exact ⟨hB x (hB' x hx'), h.rest x (hstay x hx (.inr hx'))⟩

theorem EndsRound.atRound {σ₁ : Values V}
    (h : EndsRound I c header (fun σ => Forall₂ (fun x v => Alike I Ao Bo x (some v) (I.read? c σ x)) names) vs d)
    (hkeeps : d.Keeps assigned σ₁) (hrest : ∀ x ∉ changed, x ∉ assigned ∧ σ₁ x = σ₀ x) :
    EndsRound I c header (AtRound I c Ao Bo names changed σ₀) vs d := by
  obtain ⟨cond, state, σ, rfl, hstate, hends⟩ := h
  refine ⟨cond, state, σ, rfl, ⟨hstate, fun x hx => ?_⟩, hends⟩
  rw [← (hrest x hx).2]
  rcases hends with ⟨rfl, -⟩ | ⟨rfl, -⟩ <;> exact hkeeps x (hrest x hx).1

variable (hbody : ExecutesLoop I c fuel Ai Bi Ao Bo body run) (hkeeps : ∀ σ d, run σ = .ok d → d.Keeps assigned σ)
  (hI : I.Suits c env) (hcounter : header.counter ≠ "") (hN : "" ∉ names) (hA : ∀ x, Ao x → A x) (hB : ∀ x, Bo x → B x)

include hbody hkeeps hI hcounter hN hA hB

section Range

variable (htest : header.test = none) (hfree : header.counter ∉ names) (hAi : ∀ x, Ai x → x = header.counter ∨ Ao x)
  (hBi : ∀ x, Bi x → x = header.counter ∨ Bo x) (hstay : ∀ x ∉ names, Ao x ∨ Bo x → x ∉ header.counter :: assigned)
include htest hfree hAi hBi hstay

theorem matches_forRound (hr : Returns (loopBody pos header names body) env s fn s') (hm : Tracks I c A B s ρ σ₀)
    (hd : s.Defined ρ') (hkept : ∀ x ∈ s.names.used, ρ' x = ρ x) (hw : s'.Within c) (hcond : I.truth cond = true)
    (hat : AtRound I c Ao Bo names (header.counter :: assigned) σ₀ σ state) :
    Outcome.Matches (EndsRound I c header (AtRound I c Ao Bo names (header.counter :: assigned) σ₀))
      (I.evalGraph fuel fn.graph ρ' (I.index k :: cond :: state)) (run (σ.set header.counter (I.index k))) := by
  have hother : ∀ x, x ≠ header.counter → I.read? c (σ.set header.counter (I.index k)) x = I.read? c σ x :=
    fun x hx => read?_congr (Values.set_of_ne hx)
  have hself : I.read? c (σ.set header.counter (I.index k)) header.counter = some (I.index k) := by
    rw [Interpretation.read?, Values.set_self]
    rfl
  have hstart : Forall₂ (fun x v => Alike I Ai Bi x (some v) (I.read? c (σ.set header.counter (I.index k)) x))
      names state := by
    refine ((forall₂_and_left names state).2 ⟨fun x hx => hx, hat.carried⟩).imp fun x v h => ?_
    have hne : x ≠ header.counter := fun he => hfree (he ▸ h.1)
    rw [hother x hne]
    exact h.2.mono (fun hx => (hAi x hx).resolve_left hne) fun hx => (hBi x hx).resolve_left hne
  have hin := matches_loopBody hr hbody hI hm.ready hd hw hcounter hN (by simp [htest]) hcond
    (.cons (.of_eq hself.symm) hstart) fun x hx => ?_
  · refine hin.result.mono fun out d h => h.1.atRound (hkeeps _ _ h.2) fun x hx => ?_
    obtain ⟨hne, hx'⟩ := not_or.1 (mem_cons.not.1 hx)
    exact ⟨hx', by rw [Values.set_of_ne hne, hat.rest x hx]⟩
  · obtain ⟨hne, hx⟩ := not_or.1 (mem_cons.not.1 hx)
    have hAx : Ai x → Ao x := fun h => (hAi x h).resolve_left hne
    have hBx : Bi x → Bo x := fun h => (hBi x h).resolve_left hne
    have hout : Ao x ∨ Bo x → I.read? c (σ.set header.counter (I.index k)) x = I.read? c σ₀ x := fun h => by
      rw [hother x hne, read?_congr (hat.rest x (hstay x hx h))]
    rw [valueOf?_congr hm.ready.good rfl hkept]
    refine ⟨fun h => ?_, fun h => ?_⟩
    · rw [hout (.inl (hAx h))]
      exact (hm.agrees x).same (hA x (hAx h))
    · rw [hout (.inr (hBx h))]
      exact (hm.agrees x).truth (hB x (hBx h))

/-- **A loop over a range means the same in the graph** if its body does. A name that is needed from round to round or
after the loop is carried, or is not assigned in it. -/
theorem runs_forLoop {b : V} (hr : Returns (loop pos header names body) env s u s') (hm : Tracks I c A B s ρ σ)
    (hw : s'.Within c) (hbound : header.bound ∈ s.scopes.visible) (hb : ρ header.bound = some b)
    (hA' : ∀ x, A' x → Ao x) (hB' : ∀ x, B' x → Bo x) :
    RunsFresh I fuel s s' ρ (I.forRounds header.counter run (I.count b) 0 σ) fun ρ' d =>
      ∃ σ', d = .next σ' ∧ Tracks I c A' B' s' ρ' σ' := by
  rw [loop_eq, loopCondition, htest, returns_bind] at hr
  obtain ⟨initial, s₁, hinit, hr⟩ := hr
  obtain ⟨c1, f1⟩ := computes_constant (N := True) hinit (by simp)
  have hg := hm.ready.good
  have hbound1 := c1.visible hg.opened hbound
  have v1 := f1.visible (c1.ready hm.ready).good.opened
  have a := advances_loopNode (N := True) hr (c1.ready hm.ready).good hbody.performs (fun _ => hcounter)
    (.inr hbound1) v1 fun _ => hN
  have hfirst : Runs I fuel _ s s₁ ρ _ _ := runs_constant hinit hI (c1.within (a.within hw)) hm.defined
  refine hfirst.seq (k := fun _ => I.forRounds header.counter run (I.count b) 0 σ) c1.toGrows a.toGrows
    fun ρ₁ _ hkept hd1 hinitial => ?_
  have hm1 := hm.computes c1 hkept hd1
  have hboundValue : ρ₁.input header.bound = .ok (some b) :=
    Values.input_of_eq (hm.ready.ne_empty hbound) (by rw [hkept _ (hg.taken.1 _ hbound), hb])
  refine runs_loopNode hr hbody.performs hI hm1 hw hcounter hN (.inr hbound1) hboundValue v1
    hinitial fun fn s₂ ρ₂ vs hfn hw2 hd2 hkept2 hvs => ?_
  have hrounds : Outcome.Matches _ (I.rounds _ .ok (I.count b) 0 _ vs) _ := matches_forRounds htest
    (fun k cond σ₁ state hcond hat => matches_forRound (k := k) hbody hkeeps hI hcounter hN hA hB htest hfree hAi
      hBi hstay hfn hm1 hd2 hkept2 hw2 hcond hat) I.truth_true (AtRound.first hm1 hA hB hvs)
  refine hrounds.mono ?_
  rintro _ _ ⟨σ', rfl, h⟩
  exact ⟨σ', rfl, h.left hA' hB' hA hB fun x hx h => hstay x hx (h.imp (hA' x) (hB' x))⟩

end Range

omit hbody hkeeps hI hcounter hN hA hB in
theorem whileRounds_of_false {test : Values V → Outcome Bool} {left : Nat} (h : test σ = .ok false) :
    whileRounds test run left σ = .ok (.next σ) := by
  cases left <;> rw [whileRounds, h] <;> rfl

section Test

variable (htest : header.test = some t) (hAi : ∀ x, Ai x → x ≠ header.counter ∧ Ao x)
  (hBi : ∀ x, Bi x → x ≠ header.counter ∧ Bo x) (hstay' : ∀ x ∉ names, Bo x → x ∉ assigned ∨ x = t) (ht : Bo t)
include htest hAi hBi hstay' ht

/-- A round of a loop that tests the name `t`. The graph may hold another value of `t` than the script, as long as both
are true. -/
theorem matches_whileRound (hr : Returns (loopBody pos header names body) env s fn s') (hm : Tracks I c A B s ρ σ₀)
    (hd : s.Defined ρ') (hkept : ∀ x ∈ s.names.used, ρ' x = ρ x) (hw : s'.Within c)
    (hstay : ∀ x ∉ names, Ao x → x ∉ assigned) (hfirst : (valueOf? I c s ρ t).map I.truth = some true)
    (hcond : I.truth cond = true) (hholds : holds I c t σ = .ok true)
    (hat : AtRound I c Ao Bo names assigned σ₀ σ state) :
    Outcome.Matches (EndsRound I c header (AtRound I c Ao Bo names assigned σ₀))
      (I.evalGraph fuel fn.graph ρ' (I.index k :: cond :: state)) (run σ) := by
  have hstart : Forall₂ (fun x v => Alike I Ai Bi x (some v) (I.read? c σ x)) names state :=
    hat.carried.imp fun x v h => h.mono (fun hx => (hAi x hx).2) fun hx => (hBi x hx).2
  have hcount : Alike I Ai Bi header.counter (some (I.index k)) (I.read? c σ header.counter) :=
    ⟨fun h => absurd rfl (hAi _ h).1, fun h => absurd rfl (hBi _ h).1⟩
  have htests : ∀ x, header.test = some x → Bo x := fun x hx => by
    obtain rfl : t = x := Option.some.inj (htest.symm.trans hx)
    exact ht
  refine (matches_loopBody hr hbody hI hm.ready hd hw hcounter hN htests hcond (.cons hcount hstart)
    fun x hx => ?_).result.mono fun out d h => h.1.atRound (hkeeps _ _ h.2) fun x hx => ⟨hx, hat.rest x hx⟩
  have hx : x ∉ names := fun h => hx (mem_cons_of_mem _ h)
  rw [valueOf?_congr hm.ready.good rfl hkept]
  refine ⟨fun h => ?_, fun h => ?_⟩
  · have hAx := (hAi x h).2
    rw [read?_congr (hat.rest x (hstay x hx hAx))]
    exact (hm.agrees x).same (hA x hAx)
  · have hBx := (hBi x h).2
    rcases hstay' x hx hBx with hx' | rfl
    · rw [read?_congr (hat.rest x hx')]
      exact (hm.agrees x).truth (hB x hBx)
    · rw [hfirst, holds_eq_ok.1 hholds]

/-- **A loop that tests a name means the same in the graph** if its body does. A name that is needed from round to
round or after the loop is carried, or is not assigned in it; the name that is tested may also be assigned and not
carried. -/
theorem runs_whileLoop (hr : Returns (loop pos header names body) env s u s') (hm : Tracks I c A B s ρ σ)
    (hw : s'.Within c) (hbound : header.bound = "") (hA' : ∀ x, A' x → Ao x) (hB' : ∀ x, B' x → Bo x)
    (hstay : ∀ x ∉ names, Ao x ∨ B' x → x ∉ assigned) (hAt : A t) (hne : t ≠ "") :
    RunsFresh I fuel s s' ρ (whileRounds (holds I c t) run fuel σ) fun ρ' d =>
      ∃ σ', d = .next σ' ∧ Tracks I c A' B' s' ρ' σ' := by
  rw [loop_eq, loopCondition, htest, returns_bind] at hr
  obtain ⟨initial, s₁, hinit, hr⟩ := hr
  obtain ⟨c1, v1⟩ := yields_operandOfName (N := True) (fun _ => hne) hm.ready.good hinit
  have hbound1 : s₁.Sees header.bound := .inl hbound
  have a := advances_loopNode (N := True) hr (c1.ready hm.ready).good hbody.performs (fun _ => hcounter) hbound1 v1
    fun _ => hN
  have hw1 := a.within hw
  obtain ⟨v, hv, hfirst⟩ : ∃ v, valueOf? I c s ρ t = some v ∧ Runs I fuel _ s s₁ ρ _ _ :=
    runs_operandOfName hinit hI (c1.within hw1) hm.defined hm.ready
  refine hfirst.seq (k := fun _ => whileRounds (holds I c t) run fuel σ) c1.toGrows a.toGrows
    fun ρ₁ _ hkept hd1 hinitial => ?_
  have hm1 := hm.computes c1 hkept hd1
  have hread : I.read? c σ t = some v := by rw [← (hm.agrees t).same hAt, hv]
  have hv1 : valueOf? I c s₁ ρ₁ t = some v := by rw [(hm1.agrees t).same hAt, hread]
  have htruth : holds I c t σ = .ok (I.truth v) := holds_eq_ok.2 (by rw [hread]; rfl)
  have hboundValue : ρ₁.input header.bound = .ok none := by rw [hbound]; rfl
  refine runs_loopNode hr hbody.performs hI hm1 hw hcounter hN hbound1 hboundValue v1 hinitial
    fun fn s₂ ρ₂ vs hfn hw2 hd2 hkept2 hvs => ?_
  have hat : AtRound I c Ao Bo names assigned σ σ vs := AtRound.first hm1 hA hB hvs
  have hrounds : Outcome.Matches (fun state d => ∃ σ', d = .next σ' ∧ AtRound I c Ao Bo names assigned σ σ' state)
      (I.rounds (I.evalGraph fuel fn.graph ρ₂) (fun _ => .error .fuel) fuel 0 v vs)
      (whileRounds (holds I c t) run fuel σ) := by
    cases hcond : I.truth v with
    | false =>
      rw [rounds_of_false hcond, whileRounds_of_false (by rw [htruth, hcond])]
      exact ⟨σ, rfl, hat⟩
    | true =>
      exact matches_whileRounds htest (fun k cond σ₁ state hcond' hholds hat => matches_whileRound (k := k) hbody hkeeps
        hI hcounter hN hA hB htest hAi hBi hstay' ht hfn hm1 hd2 hkept2 hw2 (fun x hx h => hstay x hx (.inl h))
        (by rw [hv1, Option.map_some, hcond]) hcond' hholds hat) htruth hat
  refine hrounds.mono ?_
  rintro _ _ ⟨σ', rfl, h⟩
  exact ⟨σ', rfl, h.left hA' hB' hA hB fun x hx h => hstay x hx (h.imp_left (hA' x))⟩

end Test

end Loops

end Lowering

end OpGraph
