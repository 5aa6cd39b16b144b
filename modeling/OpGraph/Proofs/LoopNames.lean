import OpGraph.Proofs.Compilation
import OpGraph.Proofs.Assertions.Statements
import OpGraph.Proofs.Simulation.Loops

/-!
What names stand for in the body of a loop and after it. A loop body is a graph of its own; its inputs are the counter,
the condition and the names that the loop carries. The body binds the counter first and the carried names after it, and
looks up all other names in the scopes around it.
-/

namespace OpGraph.Lowering

open List

variable {env : Env} {pos : Position} {s s' : State}
variable {body orelse : List (Stmt NameSet)} {names : List String} {header : LoopHeader} {m : Mark NameSet} {u : Unit}
variable {s₀ : State} {domain name : String} {A : String → Binding → Prop} {α : Type}

/-! ### The start of the body -/

theorem Enters.lookup (e : Enters s name domain s₀) (x : String) : s₀.scopes.lookup x = s.scopes.lookup x := by
  rw [e.scopes]
  rfl

/-- The state in which the statements of a loop body begin: the inputs of the body are the counter `k`, the condition `c`
and the state `xs` of the names that the loop carries. -/
structure BodyStart (s : State) (counter : String) (names : List String) (k c : String) (xs : List String)
    (s₁ : State) : Prop where
  inputs : s₁.current.inputNames = k :: c :: xs
  count : xs.length = names.length
  /-- The name of the counter stands for it, unless the loop carries that name. -/
  counted : counter ∉ names → s₁.Denotes counter k
  carried : ∀ x ∈ names, ∃ v, (x, v) ∈ names.zip xs ∧ s₁.Denotes x v
  others : ∀ x, x ≠ counter → x ∉ names → s₁.scopes.lookup x = s.scopes.lookup x

theorem bodyStart_loopStart {c : String} {s₁ : State} (e : Enters s name domain s₀)
    (hr : Returns (loopStart header names) env s₀ c s₁) : ∃ k xs, BodyStart s header.counter names k c xs s₁ := by
  simp only [loopStart, returns_bind, returns_pure] at hr
  obtain ⟨u, t₁, hcount, c, t₂, hfin, u', t₃, hadd, u'', t₄, hstate, rfl, rfl⟩ := hr
  obtain ⟨k, h1⟩ := takesInputs_loopInput hcount
  obtain ⟨xs, h4⟩ := takesInputs_loopInputs hstate
  have ein := edits_modifyFunction hadd
  have h12 : t₂.scopes = t₁.scopes := by
    obtain ⟨-, rfl⟩ := returns_fresh.1 hfin
    rfl
  have hlookup : ∀ x, t₃.scopes.lookup x = t₁.scopes.lookup x := fun x => by rw [ein.lookup, h12]
  refine ⟨k, xs, ?_, h4.count, fun hc => ?_, fun x hx => ?_, fun x hne hx => ?_⟩
  · rw [h4.inputs, ein.current, inputNames_addInput, State.current_of_scopes h12, h1.inputs, e.current]
    rfl
  · rcases h4.rebinds header.counter with ⟨v, p, t, hmem, -⟩ | ⟨-, hsame⟩
    · exact absurd (of_mem_zip hmem).1 hc
    · rcases h1.rebinds header.counter with ⟨v, p, t, hmem, hv⟩ | ⟨hne, -⟩
      · obtain rfl : v = k := by simpa using hmem
        exact ⟨p, t, by rw [hsame, hlookup, hv]⟩
      · exact absurd mem_cons_self hne
  · rcases h4.rebinds x with ⟨v, p, t, hmem, hv⟩ | ⟨hnot, -⟩
    · exact ⟨v, hmem, p, t, hv⟩
    · exact absurd hx hnot
  · rcases h4.rebinds x with ⟨v, p, t, hmem, -⟩ | ⟨-, hsame⟩
    · exact absurd (of_mem_zip hmem).1 hx
    · rcases h1.rebinds x with ⟨v, p, t, hmem, -⟩ | ⟨-, hsame'⟩
      · exact absurd (mem_singleton.1 (of_mem_zip hmem).1) hne
      · rw [hsame, hlookup, hsame', e.lookup]

/-! ### The loop -/

theorem State.Rebinding.current_params {t : State} (h : s.Rebinding A t) (ht : t.scopes ≠ []) :
    t.current.params = s.current.params := by
  have hp := h.params
  rw [frames_eq_cons ht] at hp
  have hs : s.scopes ≠ [] := by
    intro h0
    rw [frames, frames, h0] at hp
    cases hp
  rw [frames_eq_cons hs] at hp
  exact Option.some.inj hp

theorem lookup_of_acts {m : Lower α} {a : α} (hm : Acts (State.Rebinding fun _ _ => False) .any env m)
    (hr : Returns m env s a s') (x : String) : s'.scopes.lookup x = s.scopes.lookup x :=
  (hm.also hr).lookup fun _ h => h

/-- The node of a loop with the body `fn`, and the names that are bound to its outputs. -/
structure LoopNode (s : State) (names : List String) (fn : GraphFunction) (s' : State) (n : GraphNode) : Prop where
  last : s'.current.nodes.getLast? = some n
  operator : n.op.name = "Loop"
  body : n.blocks = [fn]
  rebinds : Rebinds s names n.outputs s'

theorem loopNode_emitted {initial : Operand} {fn : GraphFunction}
    (hr : Returns (loopNode pos header names initial fn) env s u s') : ∃ n, LoopNode s names fn s' n := by
  simp only [loopNode, returns_bind, returns_defaultOp, returns_lift] at hr
  obtain ⟨inputs, t₁, hin, outputs, t₂, hbind, op, _, ⟨o, -, rfl, rfl⟩, g, _, ⟨-, rfl⟩, fs, _, ⟨-, rfl⟩, hemit⟩ := hr
  have e := edits_modifyFunction (show Returns (modifyFunction _) env t₂ u s' from hemit)
  have hbefore : ∀ x, t₁.scopes.lookup x = s.scopes.lookup x :=
    lookup_of_acts (.mapM fun name _ => .andThen (acts_operandOfName (K := .any) name) fun _ => .done) hin
  refine ⟨_, ⟨by rw [e.current]; exact getLast?_concat, rfl, rfl, fun x => ?_⟩⟩
  rw [e.lookup, ← hbefore]
  exact rebinds_bindOutputs hbind x

/-- **A loop.** -/
theorem loop_names {body : Lower (Option String)} (hbody : Acts (State.Rebinding A) .any env body)
    (hr : Returns (loop pos header names body) env s u s') :
    ∃ k c xs s₁ fn n, BodyStart s header.counter names k c xs s₁ ∧ (∃ stop s₂, Returns body env s₁ stop s₂) ∧
      fn.inputNames = k :: c :: xs ∧ LoopNode s names fn s' n := by
  rw [loop_eq] at hr
  simp only [returns_bind] at hr
  obtain ⟨initial, t₀, hcond, fn, t₁, hloop, hnode⟩ := hr
  have hcondition : ∀ x, t₀.scopes.lookup x = s.scopes.lookup x :=
    lookup_of_acts (acts_loopCondition (K := .any) header) hcond
  have hlooped : ∀ x, t₁.scopes.lookup x = t₀.scopes.lookup x :=
    lookup_of_acts (obeys_loopBody (K := .any) header names hbody.within) hloop
  rw [loopBody_eq] at hloop
  simp only [returns_bind] at hloop
  obtain ⟨u₀, s₀, henter, c, s₁, hstart, stop, s₂, hb, u₁, s₃, hend, hleave⟩ := hloop
  obtain ⟨k, xs, b⟩ := bodyStart_loopStart (enters_enter henter) hstart
  obtain ⟨n, hn⟩ := loopNode_emitted hnode
  have l := leaves_leave hleave
  have hparams : fn.params = s₁.current.params := by
    have hsteps := State.Framed.trans (hbody.also hb) ((acts_loopEnd (K := .any) ..).also hend)
    rw [l.fn, hsteps.current_params l.opened]
  refine ⟨k, c, xs, s₁, fn, n, ⟨b.inputs, b.count, b.counted, b.carried, fun x hne hx => ?_⟩, ⟨stop, s₂, hb⟩, ?_, ?_⟩
  · rw [b.others x hne hx, hcondition]
  · rw [← b.inputs]
    exact GraphFunction.inputNames_congr hparams
  · exact ⟨hn.last, hn.operator, hn.body, hn.rebinds.of_lookup fun x => by rw [hlooped, hcondition]⟩

/-- The name that stands for the counter in the body of a loop. -/
def CountedBy (counter : String) : Stmt NameSet → Prop
  | .forLoop _ (.name _ id) _ _ _ => id = counter
  | .whileLoop .. => counter = "infinite_loop"
  | _ => False

theorem countedBy_forHeader {target iter : Expr} (hr : Returns (forHeader pos target iter) env s header s') :
    CountedBy header.counter (.forLoop m target iter body orelse) := by
  unfold forHeader at hr
  split at hr
  · split at hr
    · split at hr
      · obtain ⟨x, t, -, h⟩ := returns_bind.1 hr
        cases h
        rfl
      · cases hr
    · cases hr
  · cases hr

theorem countedBy_whileHeader {test : Expr} (hr : Returns (whileHeader pos test) env s header s') :
    CountedBy header.counter (.whileLoop m test body orelse) := by
  unfold whileHeader at hr
  split at hr
  · cases hr
    rfl
  · cases hr

theorem returns_afterCheck {c : Prop} [Decidable c] {f : LoweringFault} {m : Lower α} {a : α}
    (hr : Returns (if c then (fail f pos : Lower Unit) >>= fun _ => m else m) env s a s') : Returns m env s a s' := by
  split at hr
  · obtain ⟨_, _, hfail, -⟩ := returns_bind.1 hr
    cases hfail
  · exact hr

theorem returns_loopStmt {place : Place} {st : Stmt NameSet}
    (hst : (∃ target iter, st = .forLoop m target iter body orelse) ∨ ∃ test, st = .whileLoop m test body orelse)
    (hr : Returns (lowerStmt place st) env s u s') :
    ∃ header t, CountedBy header.counter st ∧ (∀ x, t.scopes.lookup x = s.scopes.lookup x) ∧
      Returns (loop m.pos header (carried m.note body) (lowerLoop body)) env t u s' := by
  rcases hst with ⟨target, iter, rfl⟩ | ⟨test, rfl⟩
  · rw [lowerStmt.eq_def] at hr
    obtain ⟨header, t, hheader, hloop⟩ := returns_bind.1 (returns_afterCheck hr)
    exact ⟨header, t, countedBy_forHeader hheader, lookup_of_acts (acts_forHeader (K := .any) ..) hheader, hloop⟩
  · rw [lowerStmt.eq_def] at hr
    obtain ⟨header, t, hheader, hloop⟩ := returns_bind.1 (returns_afterCheck hr)
    exact ⟨header, t, countedBy_whileHeader hheader, lookup_of_acts (acts_whileHeader _) hheader, hloop⟩

theorem assignsAll_append (ss rest : List (Stmt NameSet)) :
    Stmt.assignsAll (ss ++ rest) = Stmt.assignsAll ss ++ Stmt.assignsAll rest := by
  induction ss with
  | nil => rfl
  | cons s ss ih => rw [cons_append, Stmt.assignsAll, Stmt.assignsAll, ih, append_assoc]

/-- **Names in a loop and after it.** The first input of the body is the counter. At the start of the body the name of
the counter stands for it, unless the loop carries that name: then it stands for the carried value. Names that the body
does not assign stand in all of the body for what they stood for before the loop, apart from that of the counter, which
for a `while` loop is `infinite_loop`. After the loop, the names that it carries stand for its outputs and all others for
what they stood for before, the target of a `for` loop too. -/
theorem names_around_loop {place : Place} {st : Stmt NameSet} {m : Mark NameSet} {body orelse : List (Stmt NameSet)}
    {u : Unit} (hst : (∃ target iter, st = .forLoop m target iter body orelse) ∨
      ∃ test, st = .whileLoop m test body orelse) (hr : Returns (lowerStmt place st) env s u s') :
    ∃ counter k c xs s₁ fn n, CountedBy counter st ∧ BodyStart s counter (carried m.note body) k c xs s₁ ∧
      (∃ stop s₂, Returns (lowerLoop body) env s₁ stop s₂) ∧
      (∀ ss rest v t, body = ss ++ rest → Returns (lowerBlock ss) env s₁ v t →
        (∀ x, x ≠ counter → x ∉ Stmt.assignsAll body → t.scopes.lookup x = s.scopes.lookup x) ∧
        (counter ∉ carried m.note body → counter ∉ Stmt.assignsAll ss → t.Denotes counter k)) ∧
      fn.inputNames = k :: c :: xs ∧ LoopNode s (carried m.note body) fn s' n := by
  obtain ⟨header, t, hcount, hheader, hloop⟩ := returns_loopStmt hst hr
  obtain ⟨k, c, xs, s₁, fn, n, b, hb, hinputs, hn⟩ := loop_names (acts_lowerLoop (K := .any) body) hloop
  have b' : BodyStart s header.counter (carried m.note body) k c xs s₁ :=
    ⟨b.inputs, b.count, b.counted, b.carried, fun x hne hx => (b.others x hne hx).trans (hheader x)⟩
  refine ⟨header.counter, k, c, xs, s₁, fn, n, hcount, b', hb, ?_, hinputs, ?_⟩
  · intro ss rest v t' hbody hss
    have hkept : ∀ x ∉ Stmt.assignsAll ss, t'.scopes.lookup x = s₁.scopes.lookup x := fun x hx =>
      ((acts_lowerBlock (K := .any) ss).also hss).lookup fun _ => hx
    have hpart : ∀ x ∉ Stmt.assignsAll body, x ∉ Stmt.assignsAll ss := by
      intro x hx hmem
      rw [hbody, assignsAll_append] at hx
      exact hx (List.mem_append_left _ hmem)
    refine ⟨fun x hne hx => ?_, fun hc hx => ?_⟩
    · rw [hkept x (hpart x hx)]
      exact b'.others x hne fun hcarried => hx (assigned_of_carried hcarried)
    · obtain ⟨p, type, hk⟩ := b'.counted hc
      exact ⟨p, type, (hkept header.counter hx).trans hk⟩
  · exact ⟨hn.last, hn.operator, hn.body, hn.rebinds.of_lookup hheader⟩

/-- `x = op.Add(x, i)` -/
def sampleLoopBody : List (Stmt NameSet) :=
  [.assign ⟨default, .ofList ["x"]⟩ [.name default "x"]
    (.call default (.attr default (.name default "op") "Add") [.name default "x", .name default "i"] [])]

/-- `for i in range(n):` with that body, where `x` is used after the loop. -/
def sampleLoop : Stmt NameSet :=
  .forLoop ⟨default, .ofList ["x"]⟩ (.name default "i") (.call default (.name default "range") [.name default "n"] [])
    sampleLoopBody []

def sampleEnv : Env where
  globals := Compiler.sampleModule.globals
  domain := "this"
  version := 1
  function := "f"

/-- The state after the parameters `n`, `x` and `i` of a function. -/
def sampleState : State where
  names := { used := ["n", "x", "i"] }
  scopes := [⟨"f", { name := "f" }, ["n", "x", "i"].map fun x => (x, .graph x .input none)⟩]
  defaultOpset := some { domain := "", version := 15, registry := {} }

/-- The `i` of the body is the counter, and after the loop `i` is the parameter. -/
theorem names_around_loop_sample : ∃ s', Returns (lowerStmt .block sampleLoop) sampleEnv sampleState () s' ∧
    s'.scopes.lookup "i" = some (.graph "i" .input none) ∧
    ∃ k c x s₁ stop s₂, s₁.current.inputNames = [k, c, x] ∧ Returns (lowerLoop sampleLoopBody) sampleEnv s₁ stop s₂ ∧
      s₁.Denotes "i" k ∧ s₁.Denotes "x" x ∧ s₁.scopes.lookup "n" = some (.graph "n" .input none) := by
  have hr : Returns (lowerStmt .block sampleLoop) sampleEnv sampleState () _ := returns_of_isSome (by decide +kernel)
  obtain ⟨counter, k, c, xs, s₁, fn, n, rfl, b, ⟨stop, s₂, hb⟩, -, -, hn⟩ :=
    names_around_loop (.inl ⟨_, _, rfl⟩) hr
  have hcarried : carried (.ofList ["x"]) sampleLoopBody = ["x"] := by decide +kernel
  rw [hcarried] at b hn
  obtain ⟨x, rfl⟩ := List.length_eq_one_iff.1 b.count
  obtain ⟨v, hv, hx⟩ := b.carried "x" (by simp)
  obtain rfl : v = x := by simpa using hv
  rcases hn.rebinds "i" with ⟨w, p, t, hmem, -⟩ | ⟨-, hi⟩
  · exact absurd (List.of_mem_zip hmem).1 (by simp)
  · exact ⟨_, hr, hi, k, c, v, s₁, stop, s₂, b.inputs, hb, b.counted (by simp), hx,
      b.others "n" (by simp) (by simp)⟩

/-- A loop whose body reads its target and then assigns it, where the target also is a parameter. -/
def assignedTargetSource : String :=
  "def f(n, x, i):\n" ++
  "    for i in range(n):\n" ++
  "        x = op.Add(x, i)\n" ++
  "        i = op.Neg(x)\n" ++
  "    return x\n"

/-- The loop carries its target, so that the `i` which the body adds is the carried value `i_2`; the counter `i_0` is
read nowhere. -/
theorem carried_target_hides_counter : ∃ stmt f, Syntax.parseScript assignedTargetSource = .ok [stmt] ∧
    (Compiler.sampleModule.compile stmt).1 = .ok f ∧ ∃ n ∈ f.fn.nodes, ∃ b ∈ n.blocks,
      b.inputNames = ["i_0", "cond_in", "x_1", "i_2"] ∧ b.nodes.map (fun n => (n.op.name, n.inputs)) =
        [("Add", ["x_1", "i_2"]), ("Neg", ["x_3"]), ("Identity", ["cond_in"])] :=
  Compiler.exists_of_compileOnly _ _ _ (by decide +kernel)

end OpGraph.Lowering
