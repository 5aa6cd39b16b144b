import OpGraph.Proofs.Assertions.Statements
import OpGraph.Proofs.Graph.Imports
import OpGraph.Proofs.Module

/-!
The imports of compiled functions cover their models. Imports are collected in two ways, along the graph attributes of
the nodes of a function and from the finished forms of the functions that are shipped; a compiled function has only
attributes and functions that bring the imports that they need, so both together reach every node.
-/

namespace OpGraph

open List Lowering Interchange

/-- Functions that are covered by what their attributes and functions bring. -/
def coveredKinds : Kinds where
  Op := fun _ => True
  Fn := GraphFunction.Covered
  Script := fun f => f.fn.Covered

theorem covered_of_shipped {g : Interchange.Function} (h : coveredKinds.Shipped g) : g.Covered := by
  cases h with
  | form q hq hform => exact hq.toFunction hform
  | need q hq fs hneeds name hmem => exact hq.functions hneeds _ hmem

theorem lawful_coveredKinds {env : Env} (h : env.globals.Each fun f => f.fn.Covered) : coveredKinds.Lawful env where
  other := fun _ _ => trivial
  module := fun _ => trivial
  script := fun _ _ => trivial
  globals := by
    intro name v hv
    cases v with
    | function ref f => exact h.get? hv f mem_cons_self
    | _ => trivial
  start := fun _ _ => ⟨fun _ => nofun, by simp, by simp⟩
  congr := by
    intro f g hf hn hc _
    exact ⟨by unfold GraphFunction.CoversGraphs; rw [hn]; exact hf.graphs, hn ▸ hf.shipped, hc ▸ hf.called⟩
  addNode := by
    intro f n hf hn
    refine ⟨?_, ?_, hf.called⟩
    · refine forall_mem_append.2 ⟨hf.graphs, forall_mem_singleton.2 fun a ha => ?_⟩
      cases hn.attributes a ha with
      | plain _ hvalue => exact NodeAttribute.covered_of_plain hvalue
      | graph q hq name hform => exact hq.graphs.toAttribute hform
    · refine forall_mem_append.2 ⟨hf.shipped, forall_mem_singleton.2 fun g hg => ?_⟩
      exact covered_of_shipped (hn.functions g hg)
  addCalled := by
    intro f g hf hg
    refine ⟨hf.graphs, hf.shipped, fun c hc k hk => ?_⟩
    rcases Members.mem_of_mem_set hc with hc | ⟨hform, -⟩
    · exact hf.called c hc k hk
    · exact GraphFunction.Covered.toFunction hg (hform.symm.trans hk)
  addNested := fun f g hf _ => ⟨hf.graphs, hf.shipped, hf.called⟩

theorem Compiler.covered_compile {t : Compiler} {stmt : Stmt Unit} {f : ScriptFunction}
    (ht : t.globals.Each fun f => f.fn.Covered) (h : (t.compile stmt).1 = .ok f) : f.fn.Covered :=
  kinds_compile (K := coveredKinds) (fun _ => lawful_coveredKinds ht) h fun _ _ _ => trivial

theorem Compiled.covered {f : ScriptFunction} (h : Compiled f) : f.fn.Covered := by
  induction h with
  | compile t stmt f _ hresult ih => exact Compiler.covered_compile (fun m hm g hg => ih m hm g hg) hresult

/-- **Imports cover the model**: the imports of the model of a compiled function have each domain once. They have the
domain of every node of its graph, of every function that is shipped, and of every node of these, in graph attributes at
any depth. The imports of each function that is shipped, and those of the compiled function as such a function, have each
domain once and the domain of every node of its body at any depth. -/
theorem imports_cover_model {f : ScriptFunction} (h : Compiled f) :
    (∀ irVersion producer model, f.fn.toModel irVersion producer = .ok model → model.Covered) ∧
      ∀ g, f.fn.toFunction = .ok g → g.Covered :=
  ⟨fun _ _ _ hmodel => h.covered.toModel hmodel, fun _ hg => h.covered.toFunction hg⟩

/-- A script whose last function has a shipped nested function in a branch and a called function in the other one. -/
def branchingSource : String :=
  "from graphscript import opset15 as op\n" ++
  "def k(x):\n" ++
  "    return op.Abs(x)\n" ++
  "def f(c, x):\n" ++
  "    def h(y):\n" ++
  "        return op.Neg(y)\n" ++
  "    if c:\n" ++
  "        z = h(x)\n" ++
  "    else:\n" ++
  "        z = k(x)\n" ++
  "    return z\n"

def plainOptions : CompileOptions where
  module := { domain := "this", version := 1, registry := {} }
  registry := {}

theorem exists_of_compileScript (source : String) (o : CompileOptions) (P : CompiledScript → Prop) [DecidablePred P]
    (h : (compileScript source o).1.toOption.any (fun r => decide (P r)) = true) :
    ∃ script, (compileScript source o).1 = .ok script ∧ P script := by
  cases hc : (compileScript source o).1 with
  | error e =>
    rw [hc] at h
    cases h
  | ok script =>
    rw [hc] at h
    exact ⟨script, rfl, of_decide_eq_true h⟩

/-- The domains of the graph of the model of a function and the names of the functions that are shipped with it. -/
def modelSummary (f : ScriptFunction) : Option (List String × List String) :=
  match f.fn.toModel with
  | .ok model => some (model.graph.domains, model.functions.map (·.name))
  | .error _ => none

theorem imports_cover_model_sample : ∃ script f model,
    (compileScript branchingSource plainOptions).1 = .ok script ∧ f ∈ script.functions ∧ Compiled f ∧
    f.fn.toModel = .ok model ∧ model.graph.domains = ["", "this", "this"] ∧
    model.functions.map (·.name) = ["h", "k"] ∧ model.Covered := by
  obtain ⟨script, hscript, f, hf, hsummary⟩ := exists_of_compileScript branchingSource plainOptions
    (fun script => ∃ f ∈ script.functions, modelSummary f = some (["", "this", "this"], ["h", "k"]))
    (by decide +kernel)
  have hcompiled : Compiled f := compiled_of_compileScript (by simp [Globals.Each, plainOptions]) hscript f hf
  cases hmodel : f.fn.toModel with
  | error e =>
    rw [modelSummary, hmodel] at hsummary
    cases hsummary
  | ok model =>
    rw [modelSummary, hmodel] at hsummary
    obtain ⟨hdomains, hnames⟩ := Prod.ext_iff.1 (Option.some.inj hsummary)
    have hcovered := (imports_cover_model hcompiled).1 _ _ model hmodel
    exact ⟨script, f, model, hscript, hf, hcompiled, hmodel, hdomains, hnames, hcovered⟩

end OpGraph
