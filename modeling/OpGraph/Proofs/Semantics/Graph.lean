import OpGraph.Json.Members
import OpGraph.Proofs.Semantics.Interpretation

/-!
Evaluation of graphs over an interpretation. Nodes are evaluated in order and give values to their outputs. A node with
graphs among its attributes is a conditional or a loop: its graphs see the values around the node. A loop with a bound
runs at most that often; one without is given as many rounds as there is fuel.
-/

namespace OpGraph

open List

/-- What a graph computes from the values around it and its inputs. -/
abbrev Block (V : Type) := Values V → List V → Outcome (List V)

namespace Interpretation

variable {V : Type} (I : Interpretation V)

/-- Runs the body of a loop on the counter, the condition and the state, as long as the condition holds; `atEnd` is the
outcome if it still holds after the last round. -/
def rounds (body : List V → Outcome (List V)) (atEnd : List V → Outcome (List V)) :
    (left : ℕ) → (counter : ℕ) → (cond : V) → (state : List V) → Outcome (List V)
  | 0, _, cond, state => if I.truth cond then atEnd state else .ok state
  | left + 1, k, cond, state =>
    if I.truth cond then do
      match ← body (I.index k :: cond :: state) with
      | cond' :: state' => rounds body atEnd left (k + 1) cond' state'
      | [] => .error .stuck
    else .ok state

/-- A loop with its bound, if there is one, the initial condition and the initial state. -/
def loop (fuel : ℕ) (body : List V → Outcome (List V)) (bound : Option V) (cond : V) (state : List V) :
    Outcome (List V) :=
  match bound with
  | some b => I.rounds body .ok (I.count b) 0 cond state
  | none => I.rounds body (fun _ => .error .fuel) fuel 0 cond state

/-- The outputs of a node: those of its operator if it has no blocks, and those of a conditional or a loop otherwise. -/
def nodeOutputs (fuel : ℕ) (blocks : List (String × Block V)) (ρ : Values V) (domain operator : String)
    (attributes : List Interchange.Attribute) (inputs : List (Option V)) (count : ℕ) : Outcome (List V) :=
  if blocks.isEmpty then I.outputs domain operator attributes inputs count
  else if domain = I.home ∧ operator = "If" then
    match Members.get? blocks "then_branch", Members.get? blocks "else_branch", inputs with
    | some thenBranch, some elseBranch, [some cond] => if I.truth cond then thenBranch ρ [] else elseBranch ρ []
    | _, _, _ => .error .stuck
  else if domain = I.home ∧ operator = "Loop" then
    match Members.get? blocks "body", inputs with
    | some body, bound :: some cond :: state => do
      let state ← state.mapM (Outcome.ofOption .stuck)
      I.loop fuel (body ρ) bound cond state
    | _, _ => .error .stuck
  else .error .stuck

mutual
def evalNode (fuel : ℕ) : Interchange.Node → Values V → Outcome (Values V)
  | ⟨operator, domain, inputs, outputs, attributes⟩, ρ => do
    let values ← inputs.mapM ρ.input
    let results ← I.nodeOutputs fuel (evalBlocks fuel attributes) ρ domain operator attributes values outputs.length
    ρ.setAll outputs results
def evalNodes (fuel : ℕ) : List Interchange.Node → Values V → Outcome (Values V)
  | [], ρ => .ok ρ
  | n :: ns, ρ => evalNode fuel n ρ >>= evalNodes fuel ns
/-- The graphs among attributes. -/
def evalBlocks (fuel : ℕ) : List Interchange.Attribute → List (String × Block V)
  | [] => []
  | ⟨name, _, .graph g⟩ :: as => (name, evalGraph fuel g) :: evalBlocks fuel as
  | _ :: as => evalBlocks fuel as
/-- Evaluates a graph on inputs, inside the values around it. -/
def evalGraph (fuel : ℕ) : Interchange.Graph → Block V
  | ⟨_, nodes, inputs, outputs, _, _⟩, ρ, args => do
    let ρ ← ρ.setAll (inputs.map (·.name)) args
    let ρ ← evalNodes fuel nodes ρ
    outputs.mapM fun o => ρ.get o.name
end

variable {I} {fuel : ℕ} {ρ ρ' : Values V} {n : Interchange.Node}

theorem evalNodes_append {ns ms : List Interchange.Node} :
    I.evalNodes fuel (ns ++ ms) ρ = I.evalNodes fuel ns ρ >>= I.evalNodes fuel ms := by
  induction ns generalizing ρ with
  | nil => rfl
  | cons n ns ih =>
    rw [cons_append, evalNodes, evalNodes]
    cases h : I.evalNode fuel n ρ with
    | error e => rfl
    | ok ρ₁ => exact ih

theorem evalNodes_singleton : I.evalNodes fuel [n] ρ = I.evalNode fuel n ρ := by
  rw [evalNodes]
  cases I.evalNode fuel n ρ <;> rfl

theorem evalNode_ok (h : I.evalNode fuel n ρ = .ok ρ') :
    (∀ x ∉ n.outputs, ρ' x = ρ x) ∧ ∀ x ∈ n.outputs, (ρ' x).isSome := by
  obtain ⟨operator, domain, inputs, outputs, attributes⟩ := n
  rw [evalNode] at h
  obtain ⟨values, -, h⟩ := bind_eq_ok.1 h
  obtain ⟨results, -, h⟩ := bind_eq_ok.1 h
  exact ⟨fun x hx => Values.setAll_other h hx, fun x hx => Values.setAll_isSome h hx⟩

theorem evalBlocks_eq_nil {attributes : List Interchange.Attribute} (h : ∀ a ∈ attributes, ∀ g, a.value ≠ .graph g) :
    I.evalBlocks fuel attributes = [] := by
  induction attributes with
  | nil =>
    rw [evalBlocks]
  | cons a as ih =>
    have hrest := ih fun b hb => h b (mem_cons_of_mem _ hb)
    obtain ⟨name, type, value⟩ := a
    cases value with
    | graph g => exact absurd rfl (h _ mem_cons_self g)
    | _ => rw [evalBlocks, hrest]; simp

theorem evalNode_plain {values : List (Option V)} (hin : n.inputs.mapM ρ.input = .ok values)
    (hplain : ∀ a ∈ n.attributes, ∀ g, a.value ≠ .graph g) : I.evalNode fuel n ρ =
      I.outputs n.domain n.opType n.attributes values n.outputs.length >>= ρ.setAll n.outputs := by
  obtain ⟨operator, domain, inputs, outputs, attributes⟩ := n
  rw [evalNode, evalBlocks_eq_nil hplain]
  rw [hin]
  rfl

theorem evalNode_conditional {thenGraph elseGraph : Interchange.Graph} {cond : V}
    (hdomain : n.domain = I.home) (hop : n.opType = "If") (hin : n.inputs.mapM ρ.input = .ok [some cond])
    (hgraphs : n.attributes = [⟨"then_branch", .graph, .graph thenGraph⟩, ⟨"else_branch", .graph, .graph elseGraph⟩]) :
    I.evalNode fuel n ρ =
      (if I.truth cond then I.evalGraph fuel thenGraph ρ [] else I.evalGraph fuel elseGraph ρ []) >>=
        ρ.setAll n.outputs := by
  obtain ⟨operator, domain, inputs, outputs, attributes⟩ := n
  obtain rfl := hdomain
  obtain rfl := hop
  obtain rfl := hgraphs
  rw [evalNode, hin]
  change I.nodeOutputs fuel _ ρ I.home "If" _ [some cond] _ >>= _ = _
  simp [nodeOutputs, evalBlocks, Members.get?]

theorem evalNode_loop {body : Interchange.Graph} {bound : Option V} {cond : V} {state : List V}
    (hdomain : n.domain = I.home) (hop : n.opType = "Loop")
    (hin : n.inputs.mapM ρ.input = .ok (bound :: some cond :: state.map some))
    (hgraphs : n.attributes = [⟨"body", .graph, .graph body⟩]) :
    I.evalNode fuel n ρ = I.loop fuel (I.evalGraph fuel body ρ) bound cond state >>= ρ.setAll n.outputs := by
  obtain ⟨operator, domain, inputs, outputs, attributes⟩ := n
  obtain rfl := hdomain
  obtain rfl := hop
  obtain rfl := hgraphs
  have hstate : (state.map some).mapM (Outcome.ofOption .stuck) = .ok state := by
    rw [Outcome.mapM_eq_ok, forall₂_map_left_iff, forall₂_same]
    exact fun v _ => rfl
  have hout : ∀ attributes count, I.nodeOutputs fuel [("body", I.evalGraph fuel body)] ρ I.home "Loop" attributes
      (bound :: some cond :: state.map some) count =
        (state.map some).mapM (Outcome.ofOption .stuck) >>= I.loop fuel (I.evalGraph fuel body ρ) bound cond := by
    simp [nodeOutputs, Members.get?]
  rw [evalNode, hin]
  change I.nodeOutputs fuel _ ρ I.home "Loop" _ (bound :: some cond :: state.map some) _ >>= _ = _
  rw [evalBlocks, evalBlocks, hout, hstate]
  rfl

end Interpretation

end OpGraph
