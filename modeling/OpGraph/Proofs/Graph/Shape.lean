import OpGraph.Proofs.Graph.Parts

/-!
The shape of the nodes that control flow is lowered to, and what is asked of the outputs of their blocks: they are
different names that nodes of the very block write, and none of them is an input.
-/

namespace OpGraph

open List

variable {f g : GraphFunction} {a : NodeAttribute} {name : String}

/-- The outputs of a function are different names, each written by a node of the very function, and none is an input. -/
structure GraphFunction.OwnsOutputs (f : GraphFunction) : Prop where
  nodup : f.outputNames.Nodup
  assigned : ∀ x ∈ f.outputNames, x ∈ f.assigned
  notInput : ∀ x ∈ f.outputNames, x ∉ f.inputNames

/-- The outputs of a function are different names, and none is an input. -/
structure GraphFunction.OutputsApart (f : GraphFunction) : Prop where
  nodup : f.outputNames.Nodup
  notInput : ∀ x ∈ f.outputNames, x ∉ f.inputNames

def GraphFunction.attribute (f : GraphFunction) (name : String) : Interchange.Attribute :=
  ⟨name, .graph, .graph f.graph⟩

theorem GraphFunction.value_toAttribute (h : f.toAttribute name = .ok a) : a.value = f.attribute name := by
  unfold toAttribute toGraph at h
  obtain ⟨g, hg, h⟩ := bind_eq_ok.1 h
  obtain ⟨fs, -, hg⟩ := bind_eq_ok.1 hg
  cases hg
  cases h
  rfl

theorem GraphFunction.graph_of_toAttribute {g : Interchange.Graph} (h : f.toAttribute name = .ok a)
    (hg : a.value.value = .graph g) : g = f.graph := by
  rw [value_toAttribute h] at hg
  exact (Interchange.AttributeValue.graph.inj hg).symm

/-- The node of a conditional: as many outputs as each of its two branches, which take no inputs. -/
structure GraphNode.IsConditional (n : GraphNode) (thenGraph elseGraph : GraphFunction) : Prop where
  op : n.op.name = "If"
  attributes : n.attributes.map (·.value) = [thenGraph.attribute "then_branch", elseGraph.attribute "else_branch"]
  inputs : n.inputs.length = 1
  outputs : 1 ≤ n.outputs.length
  branch : ∀ g ∈ [thenGraph, elseGraph],
    g.inputs = [] ∧ g.outputs.length = n.outputs.length ∧ g.OwnsOutputs

/-- The node of a loop that carries as many values as it has outputs: a bound and a condition come before them in its
inputs, a counter and a condition in those of the body, and a condition in the outputs of the body. -/
structure GraphNode.IsLoop (n : GraphNode) (body : GraphFunction) : Prop where
  op : n.op.name = "Loop"
  attributes : n.attributes.map (·.value) = [body.attribute "body"]
  inputs : n.inputs.length = 2 + n.outputs.length
  bodyInputs : body.inputs.length = 2 + n.outputs.length
  bodyOutputs : body.outputs.length = 1 + n.outputs.length
  owns : body.OwnsOutputs

/-- A node without blocks, or the node of a conditional or of a loop. -/
inductive GraphNode.Shaped (n : GraphNode) : Prop where
  | plain (blocks : n.blocks = [])
  | conditional (thenGraph elseGraph : GraphFunction) (blocks : n.blocks = [thenGraph, elseGraph])
    (shape : n.IsConditional thenGraph elseGraph)
  | loop (body : GraphFunction) (blocks : n.blocks = [body]) (shape : n.IsLoop body)

namespace GraphFunction

/-- All nodes of a function and of the functions inside it are in shape, and the outputs of nested functions are
apart. -/
def Shaped (f : GraphFunction) : Prop :=
  ∀ p ∈ f.parts, (∀ n ∈ p.nodes, n.Shaped) ∧ ∀ g ∈ p.nested, g.OutputsApart

theorem shaped_iff : f.Shaped ↔
    (∀ n ∈ f.nodes, n.Shaped ∧ ∀ b ∈ n.blocks, b.Shaped) ∧ ∀ g ∈ f.nested, g.OutputsApart ∧ g.Shaped := by
  rw [Shaped, forall_parts_iff]
  refine ⟨fun h => ?_, fun h => ?_⟩
  · exact ⟨fun n hn => ⟨h.1.1 n hn, h.2.1 n hn⟩, fun g hg => ⟨h.1.2 g hg, h.2.2 g hg⟩⟩
  · exact ⟨⟨fun n hn => (h.1 n hn).1, fun g hg => (h.2 g hg).1⟩, fun n hn => (h.1 n hn).2, fun g hg => (h.2 g hg).2⟩

theorem Shaped.congr (h : f.Shaped) (hn : g.nodes = f.nodes) (hs : g.nested = f.nested) : g.Shaped := by
  rw [shaped_iff] at h ⊢
  rwa [hn, hs]

theorem Shaped.addNode {n : GraphNode} (h : f.Shaped) (hn : n.Shaped) (hb : ∀ b ∈ n.blocks, b.Shaped) :
    (f.addNode n).Shaped := by
  rw [shaped_iff] at h ⊢
  exact ⟨forall_mem_append.2 ⟨h.1, forall_mem_singleton.2 ⟨hn, hb⟩⟩, h.2⟩

theorem Shaped.addNested (h : f.Shaped) (ha : g.OutputsApart) (hg : g.Shaped) : (f.addNested g).Shaped := by
  rw [shaped_iff] at h ⊢
  exact ⟨h.1, forall_mem_append.2 ⟨h.2, forall_mem_singleton.2 ⟨ha, hg⟩⟩⟩

end GraphFunction

end OpGraph
