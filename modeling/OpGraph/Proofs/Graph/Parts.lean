import Mathlib
import OpGraph.Graph.Function

/-!
The functions inside a function: the blocks of its nodes and the functions defined in it, at any depth, each once. The
names that nodes define are counted over all of them.
-/

namespace OpGraph

open List

namespace GraphFunction

variable {f g : GraphFunction}

/-! ### Values and parts -/

def inputNames (f : GraphFunction) : List String :=
  f.inputs.map (·.name)

def outputNames (f : GraphFunction) : List String :=
  f.outputs.map (·.name)

theorem inputs_congr (h : f.params = g.params) : f.inputs = g.inputs := by
  unfold inputs
  rw [h]

theorem inputNames_congr (h : f.params = g.params) : f.inputNames = g.inputNames :=
  congrArg (map GraphVar.name) (inputs_congr h)

theorem outputNames_congr (h : f.outputs = g.outputs) : f.outputNames = g.outputNames :=
  congrArg (map GraphVar.name) h

/-- The values of a function: its inputs and what its nodes write. -/
def values (f : GraphFunction) : List String :=
  f.inputNames ++ f.assigned

end GraphFunction

mutual
/-- A function and the functions inside it. -/
def GraphFunction.parts : GraphFunction → List GraphFunction
  | ⟨name, domain, params, outputs, nodes, called, nested, doc⟩ =>
    ⟨name, domain, params, outputs, nodes, called, nested, doc⟩ ::
      (GraphNode.partsAll nodes ++ GraphFunction.partsAll nested)
def GraphFunction.partsAll : List GraphFunction → List GraphFunction
  | [] => []
  | f :: fs => f.parts ++ GraphFunction.partsAll fs
/-- The functions inside the blocks of a node, with these. -/
def GraphNode.parts : GraphNode → List GraphFunction
  | ⟨_, _, _, _, _, blocks⟩ => GraphFunction.partsAll blocks
def GraphNode.partsAll : List GraphNode → List GraphFunction
  | [] => []
  | n :: ns => n.parts ++ GraphNode.partsAll ns
end

theorem GraphFunction.partsAll_eq (fs : List GraphFunction) : partsAll fs = fs.flatMap parts := by
  induction fs with
  | nil => rfl
  | cons f fs ih => rw [partsAll, ih, flatMap_cons]

theorem GraphNode.parts_eq (n : GraphNode) : n.parts = n.blocks.flatMap GraphFunction.parts := by
  obtain ⟨_, _, _, _, _, blocks⟩ := n
  rw [parts, GraphFunction.partsAll_eq]

theorem GraphNode.partsAll_eq (ns : List GraphNode) : partsAll ns = ns.flatMap parts := by
  induction ns with
  | nil => rfl
  | cons n ns ih => rw [partsAll, ih, flatMap_cons]

/-- Names that a node defines: its outputs, and the inputs of its blocks. -/
def GraphNode.defines (n : GraphNode) : List String :=
  n.outputs ++ n.blocks.flatMap (·.inputNames)

namespace GraphFunction

theorem parts_eq (f : GraphFunction) : f.parts = f :: (f.nodes.flatMap GraphNode.parts ++ f.nested.flatMap parts) := by
  obtain ⟨name, domain, params, outputs, nodes, called, nested, doc⟩ := f
  rw [parts, GraphNode.partsAll_eq, partsAll_eq]

/-- A function stands inside another: in a block of one of its nodes, or in a function defined in it. -/
def Encloses (f p : GraphFunction) : Prop :=
  (∃ n ∈ f.nodes, ∃ b ∈ n.blocks, p ∈ b.parts) ∨ ∃ g ∈ f.nested, p ∈ g.parts

theorem mem_parts {f p : GraphFunction} : p ∈ f.parts ↔ p = f ∨ f.Encloses p := by
  rw [parts_eq]
  simp [GraphNode.parts_eq, Encloses]

theorem self_mem_parts (f : GraphFunction) : f ∈ f.parts :=
  mem_parts.2 (.inl rfl)

theorem forall_parts_iff {f : GraphFunction} {Q : GraphFunction → Prop} :
    (∀ p ∈ f.parts, Q p) ↔
      Q f ∧ (∀ n ∈ f.nodes, ∀ b ∈ n.blocks, ∀ p ∈ b.parts, Q p) ∧ ∀ g ∈ f.nested, ∀ p ∈ g.parts, Q p := by
  constructor
  · intro h
    refine ⟨h f (self_mem_parts f), fun n hn b hb p hp => ?_, fun g hg p hp => ?_⟩
    · exact h p (mem_parts.2 (.inr (.inl ⟨n, hn, b, hb, hp⟩)))
    · exact h p (mem_parts.2 (.inr (.inr ⟨g, hg, hp⟩)))
  · rintro ⟨hf, hn, hg⟩ p hp
    rcases mem_parts.1 hp with rfl | ⟨n, hn', b, hb, hpb⟩ | ⟨g, hg', hpg⟩
    · exact hf
    · exact hn n hn' b hb p hpb
    · exact hg g hg' p hpg

theorem sizeOf_block_lt {f b : GraphFunction} {n : GraphNode} (hn : n ∈ f.nodes) (hb : b ∈ n.blocks) :
    sizeOf b < sizeOf f := by
  obtain ⟨_, _, _, _, nodes, _, _, _⟩ := f
  obtain ⟨_, _, _, _, _, blocks⟩ := n
  have h1 := sizeOf_lt_of_mem hn
  have h2 := sizeOf_lt_of_mem hb
  simp only [mk.sizeOf_spec, GraphNode.mk.sizeOf_spec] at h1 h2 ⊢
  omega

theorem sizeOf_nested_lt {f g : GraphFunction} (hg : g ∈ f.nested) : sizeOf g < sizeOf f := by
  obtain ⟨_, _, _, _, _, _, nested, _⟩ := f
  have h1 := sizeOf_lt_of_mem hg
  simp only [mk.sizeOf_spec] at h1 ⊢
  omega

theorem inside_induction {P : GraphFunction → Prop}
    (h : ∀ f : GraphFunction, (∀ n ∈ f.nodes, ∀ b ∈ n.blocks, P b) → (∀ g ∈ f.nested, P g) → P f) (f : GraphFunction) :
    P f :=
  h f (fun n hn b hb =>
    have := sizeOf_block_lt hn hb
    inside_induction h b) fun g hg =>
    have := sizeOf_nested_lt hg
    inside_induction h g
termination_by sizeOf f

/-- A part is the function itself, a block of a node of a part, or a function defined in a part. -/
theorem parts_cases {f p : GraphFunction} (hp : p ∈ f.parts) :
    p = f ∨ (∃ k ∈ f.parts, ∃ n ∈ k.nodes, p ∈ n.blocks) ∨ ∃ k ∈ f.parts, p ∈ k.nested := by
  induction f using inside_induction with
  | h f ihn ihg =>
    rcases mem_parts.1 hp with rfl | ⟨n, hn, b, hb, hpb⟩ | ⟨g, hg, hpg⟩
    · exact .inl rfl
    · have hsub : ∀ k ∈ b.parts, k ∈ f.parts := fun k hk => mem_parts.2 (.inr (.inl ⟨n, hn, b, hb, hk⟩))
      rcases ihn n hn b hb hpb with rfl | ⟨k, hk, hm⟩ | ⟨k, hk, hm⟩
      · exact .inr (.inl ⟨f, self_mem_parts f, n, hn, hb⟩)
      · exact .inr (.inl ⟨k, hsub k hk, hm⟩)
      · exact .inr (.inr ⟨k, hsub k hk, hm⟩)
    · have hsub : ∀ k ∈ g.parts, k ∈ f.parts := fun k hk => mem_parts.2 (.inr (.inr ⟨g, hg, hk⟩))
      rcases ihg g hg hpg with rfl | ⟨k, hk, hm⟩ | ⟨k, hk, hm⟩
      · exact .inr (.inr ⟨f, self_mem_parts f, hg⟩)
      · exact .inr (.inl ⟨k, hsub k hk, hm⟩)
      · exact .inr (.inr ⟨k, hsub k hk, hm⟩)

/-- The names that the nodes of a function and of the functions inside it define, with repetitions. -/
def defined (f : GraphFunction) : List String :=
  f.parts.flatMap fun p => p.nodes.flatMap GraphNode.defines

/-! ### Counting defined names -/

def tally (f : GraphFunction) (x : String) : ℕ :=
  f.defined.count x

theorem tally_eq (f : GraphFunction) (x : String) :
    f.tally x = (f.nodes.map fun n => n.defines.count x + (n.blocks.map (·.tally x)).sum).sum +
      (f.nested.map (·.tally x)).sum := by
  unfold tally defined
  rw [parts_eq, flatMap_cons, flatMap_append, count_append, count_append, ← Nat.add_assoc]
  congr 1
  · induction f.nodes with
    | nil => rfl
    | cons n ns ih =>
      simp only [flatMap_cons, count_append, flatMap_append, map_cons, sum_cons] at ih ⊢
      rw [← ih, GraphNode.parts_eq, flatMap_assoc]
      have : List.count x (n.blocks.flatMap fun b => b.parts.flatMap fun p => p.nodes.flatMap GraphNode.defines) =
          (n.blocks.map fun b => List.count x (b.parts.flatMap fun p => p.nodes.flatMap GraphNode.defines)).sum := by
        rw [count_flatMap]
        rfl
      rw [this]
      omega
  · rw [flatMap_assoc, count_flatMap]
    rfl

theorem count_assigned_le (f : GraphFunction) (x : String) : f.assigned.count x ≤ f.tally x := by
  rw [tally_eq, assigned, count_flatMap]
  refine le_trans (sum_le_sum fun n _ => ?_) (Nat.le_add_right _ _)
  simp only [Function.comp, GraphNode.defines, count_append]
  omega

theorem tally_congr {f g : GraphFunction} (hn : f.nodes = g.nodes) (hs : f.nested = g.nested) (x : String) :
    f.tally x = g.tally x := by
  rw [tally_eq, tally_eq, hn, hs]

theorem tally_addNode (f : GraphFunction) (n : GraphNode) (x : String) :
    (f.addNode n).tally x = f.tally x + n.defines.count x + (n.blocks.map (·.tally x)).sum := by
  rw [tally_eq, tally_eq f]
  simp only [addNode, map_append, map_cons, map_nil, sum_append, sum_cons, sum_nil]
  omega

theorem tally_addNested (f g : GraphFunction) (x : String) : (f.addNested g).tally x = f.tally x + g.tally x := by
  rw [tally_eq, tally_eq f]
  simp only [addNested, map_append, map_cons, map_nil, sum_append, sum_cons, sum_nil]
  omega

end GraphFunction

end OpGraph
