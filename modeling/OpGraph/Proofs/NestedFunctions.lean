import OpGraph.Proofs.Compilation
import OpGraph.Proofs.Lowering.Reach

/-!
Nested functions and the scopes around them. A nested function reads values of the scopes around it by their names, and
its own parameters keep the names that the script gives them, so a parameter can hide a value. Its outputs are different
names and no parameters, but an output may be a value of a scope around it.
-/

namespace OpGraph

namespace GraphFunction

theorem mem_parts_of_nested {f p g : GraphFunction} (hp : p ∈ f.parts) (hg : g ∈ p.nested) : g ∈ f.parts := by
  induction f using inside_induction with
  | h f ihn ihg =>
    rcases mem_parts.1 hp with rfl | ⟨n, hn, b, hb, hpb⟩ | ⟨k, hk, hpk⟩
    · exact mem_parts.2 (.inr (.inr ⟨g, hg, self_mem_parts g⟩))
    · exact mem_parts.2 (.inr (.inl ⟨n, hn, b, hb, ihn n hn b hb hpb⟩))
    · exact mem_parts.2 (.inr (.inr ⟨k, hk, ihg k hk hpk⟩))

theorem eq_of_values {f p q : GraphFunction} {v : String} (h : f.defined.Nodup)
    (hinputs : ∀ y ∈ f.defined, y ∉ f.inputNames) (hp : p ∈ f.parts) (hq : q ∈ f.parts) (hvp : v ∈ p.values)
    (hvq : v ∈ q.values) : p = q ∨ ∃ j ∈ f.parts, ∃ g ∈ j.nested, (g = p ∨ g = q) ∧ v ∈ g.inputNames := by
  -- a part that has the value introduces it, or is the whole function or a nested one with a parameter of that name
  have hcases : ∀ k ∈ f.parts, v ∈ k.values → f.Introduces k v ∨ (k = f ∧ v ∈ f.inputNames) ∨
      ∃ j ∈ f.parts, k ∈ j.nested ∧ v ∈ k.inputNames := by
    intro k hk hv
    rcases List.mem_append.1 hv with hin | hout
    · rcases parts_cases hk with rfl | hblock | ⟨j, hj, hnested⟩
      · exact .inr (.inl ⟨rfl, hin⟩)
      · exact .inl (.inr ⟨hblock, hin⟩)
      · exact .inr (.inr ⟨j, hj, hnested, hin⟩)
    · exact .inl (.inl hout)
  rcases hcases p hp hvp with hip | ⟨rfl, hin⟩ | ⟨j, hj, hnested, hin⟩
  · rcases hcases q hq hvq with hiq | ⟨rfl, hin⟩ | ⟨j, hj, hnested, hin⟩
    · exact .inl (hip.unique h hp hq hiq)
    · exact absurd hin (hinputs v (hip.mem_defined hp))
    · exact .inr ⟨j, hj, q, hnested, .inr rfl, hin⟩
  · rcases hcases q hq hvq with hiq | ⟨rfl, -⟩ | ⟨j, hj, hnested, hin⟩
    · exact absurd hin (hinputs v (hiq.mem_defined hq))
    · exact .inl rfl
    · exact .inr ⟨j, hj, q, hnested, .inr rfl, hin⟩
  · exact .inr ⟨j, hj, p, hnested, .inl rfl, hin⟩

end GraphFunction

namespace Compiler

open Lowering

/-! ### Captured values -/

/-- **What a name reads.** At every point of the lowering of a function, and after any further steps in the scope that is
open there, reading a name of a graph value gives that value, and the innermost open scope that has it is the only one,
unless it is a parameter of a function there. So in the compiled function a value is one of a single part, unless a nested
function has a parameter of that name. -/
theorem captured_value_settled {t : Compiler} {stmt : Stmt Unit} {f : ScriptFunction} (h : (t.compile stmt).1 = .ok f) :
    (∃ m fn, stmt = .function m fn ∧ ∀ task s kinds,
      Reaches (t.start fn).1 (t.start fn).2 fn.analyze task s kinds → ∀ h s', Continues s h s' →
      ∀ x v, s'.Denotes x v → Scopes.Settles kinds s'.scopes v ∧
        ∀ pos, ∃ o, o.name = v ∧ Returns (operandOfName x pos) (t.start fn).1 s' o s') ∧
      ∀ p ∈ f.fn.parts, ∀ q ∈ f.fn.parts, ∀ v ∈ p.values, v ∈ q.values →
        p = q ∨ ∃ j ∈ f.fn.parts, ∃ g ∈ j.nested, (g = p ∨ g = q) ∧ v ∈ g.inputNames := by
  have fin := finished_compile (N := False) h (fun hn => hn.elim)
  refine ⟨?_, fun p hp q hq v hvp hvq => GraphFunction.eq_of_values fin.nodup fin.notInput hp hq hvp hvq⟩
  obtain ⟨m, fn, -, rfl, -⟩ := returns_of_compile h
  refine ⟨m, fn, rfl, fun task s kinds hreach held s' a x v hx => ?_⟩
  have hs := (hreach.nested_of rfl).continues a
  obtain ⟨p, type, hlookup⟩ := hx
  refine ⟨hs.distinct.settles (hs.good.bound.lookup hlookup), fun pos => ?_⟩
  exact ⟨⟨v, p == .constant⟩, rfl, (returns_operandOfName hlookup).2 (returns_pure.2 ⟨rfl, rfl⟩)⟩

/-- A function with a nested function that reads one of its values. -/
def captureDef : FunctionDef Unit :=
  ⟨"f", [⟨default, "x", none⟩], [],
    [.assign ⟨default, ()⟩ [.name default "y"]
      (.call default (.attr default (.name default "op") "Abs") [.name default "x"] []),
     .function ⟨default, ()⟩ ⟨"g", [⟨default, "z", none⟩], [],
      [.ret ⟨default, ()⟩
        (some (.call default (.attr default (.name default "op") "Add") [.name default "z", .name default "y"] []))],
      none⟩,
     .ret ⟨default, ()⟩ (some (.call default (.name default "g") [.name default "x"] []))], none⟩

/-- In the nested function, `y` is a value of the scope around it. -/
theorem captured_value_settled_sample : ∃ f task s,
    (sampleModule.compile (.function ⟨default, ()⟩ captureDef)).1 = .ok f ∧
    Reaches (sampleModule.start captureDef).1 (sampleModule.start captureDef).2 captureDef.analyze task s
      [.function, .function] ∧
    s.Denotes "y" "y" ∧ "y" ∉ s.current.values ∧ Scopes.Settles [.function, .function] s.scopes "y" := by
  have hreach : ∃ task s, Reaches (sampleModule.start captureDef).1 (sampleModule.start captureDef).2
      captureDef.analyze task s ([.function] ++ ([] ++ ([] ++ [.function]))) ∧
      s.Denotes "y" "y" ∧ "y" ∉ s.current.values := by
    refine ⟨_, _, .step (.step (.step (.start (returns_of_isSome ?_) (returns_of_isSome ?_))
      (.bodyTail (returns_of_isSome ?_))) .bodyHead) (.nested (returns_of_isSome ?_) (returns_of_isSome ?_)), ?_, ?_⟩
    all_goals decide +kernel
  have hcompile : (sampleModule.compile (.function ⟨default, ()⟩ captureDef)).1.toOption.isSome := by decide +kernel
  obtain ⟨task, s, hr, hy, hown⟩ := hreach
  cases h : (sampleModule.compile (.function ⟨default, ()⟩ captureDef)).1 with
  | error e =>
    rw [h] at hcompile
    cases hcompile
  | ok f =>
    obtain ⟨⟨m, fn, hfn, hall⟩, -⟩ := captured_value_settled h
    obtain ⟨-, rfl⟩ := Stmt.function.inj hfn
    have a := ((Computes.refl False s {}).advances (hr.nested_of rfl).good).continues
    exact ⟨f, task, s, rfl, hr, hy, hown, (hall task s _ hr _ s a "y" "y" hy).1⟩

/-- The parameter of `g` has the name of the value of `z`. -/
def hiddenSource : String :=
  "def f(x):\n" ++
  "    y = op.Abs(x)\n" ++
  "    z = y\n" ++
  "    def g(y):\n" ++
  "        return op.Add(y, z)\n" ++
  "    return op.Scan(x, body=g, num_scan_inputs=1)\n"

/-- In `g`, the name `z` stands for a value of `f`, but the node that reads it gets the parameter. -/
theorem parameter_hides_captured_value : ∃ stmt f, Syntax.parseScript hiddenSource = .ok [stmt] ∧
    (sampleModule.compile stmt).1 = .ok f ∧ f.fn.nodes.map (·.outputs) = [["y"], ["return_val_0"]] ∧
      f.fn.nested.map (fun g => (g.inputNames, g.nodes.map fun n => (n.op.name, n.inputs))) =
        [(["y"], [("Add", ["y", "y"])])] :=
  exists_of_compileOnly _ _ _ (by decide +kernel)

/-! ### Outputs -/

/-- **Outputs of nested functions** are different names and no parameters. Each is written by a node of the very function
or is a value of a function around it; the latter only if the returned expression is a name of that value. -/
theorem nested_outputs_apart {t : Compiler} {stmt : Stmt Unit} {f : ScriptFunction} (h : (t.compile stmt).1 = .ok f) :
    (∀ j ∈ f.fn.parts, ∀ g ∈ j.nested, g.outputNames.Nodup ∧
      ∀ x ∈ g.outputNames, x ∉ g.inputNames ∧ (x ∈ g.assigned ∨ f.fn.ValueBetween g x)) ∧
      ∃ m fn, stmt = .function m fn ∧ ∀ task s kinds,
        Reaches (t.start fn).1 (t.start fn).2 fn.analyze task s kinds → ∀ pos value s',
        Returns (returnFrom pos value) (t.start fn).1 s () s' → ∃ e xs, value = some e ∧
          s'.current.outputNames = s.current.outputNames ++ xs ∧ List.Forall₂ (OutputOf s s') (returned e).1 xs := by
  have fin := finished_compile (N := False) h (fun hn => hn.elim)
  constructor
  · intro j hj g hg
    have apart := fin.apart j hj g hg
    refine ⟨apart.nodup, fun x hx => ⟨apart.notInput x hx, ?_⟩⟩
    have href := fin.resolves (GraphFunction.mem_parts_of_nested hj hg)
    exact (href.names x g.nodes (.inr ⟨rfl, hx⟩)).resolve_left (apart.notInput x hx)
  · obtain ⟨m, fn, -, rfl, -⟩ := returns_of_compile h
    refine ⟨m, fn, rfl, fun task s kinds hreach pos value s' hr => ?_⟩
    exact outputs_returnFrom hr (hreach.nested_of rfl).good

/-- A nested function that returns a value of its own, its parameter, a constant, and its own value again. -/
def outputsSource : String :=
  "def f(x):\n" ++
  "    def g(z):\n" ++
  "        y = op.Abs(z)\n" ++
  "        return y, z, 1, y\n" ++
  "    a, b, c, d = g(x)\n" ++
  "    return op.Sum(a, b, c, d)\n"

theorem nested_outputs_apart_sample : ∃ stmt f, Syntax.parseScript outputsSource = .ok [stmt] ∧
    (sampleModule.compile stmt).1 = .ok f ∧ ∃ g ∈ f.fn.nested, g.outputNames.length = 4 ∧ g.outputNames.Nodup ∧
      ∀ x ∈ g.outputNames, x ∉ g.inputNames ∧ (x ∈ g.assigned ∨ f.fn.ValueBetween g x) := by
  obtain ⟨stmt, f, hparse, h, g, hg, hlength⟩ := exists_of_compileOnly sampleModule outputsSource
    (fun f => ∃ g ∈ f.fn.nested, g.outputNames.length = 4) (by decide +kernel)
  obtain ⟨hnodup, hall⟩ := (nested_outputs_apart h).1 f.fn (GraphFunction.self_mem_parts _) g hg
  exact ⟨stmt, f, hparse, h, g, hg, hlength, hnodup, hall⟩

/-- A nested function that returns a value of the function around it. -/
def outerOutputSource : String :=
  "def f(x):\n" ++
  "    y = op.Abs(x)\n" ++
  "    def g(z):\n" ++
  "        return y\n" ++
  "    return op.Scan(x, body=g, num_scan_inputs=1)\n"

/-- The value is returned as it is, so no node of the nested function writes the output. -/
theorem outer_value_returned : ¬ ∀ (t : Compiler) (stmt : Stmt Unit) (f : ScriptFunction),
    (t.compile stmt).1 = .ok f → ∀ g ∈ f.fn.nested, ∀ x ∈ g.outputNames, x ∈ g.assigned := by
  intro hall
  obtain ⟨stmt, f, -, h, g, hg, x, hx, hnot⟩ := exists_of_compileOnly sampleModule outerOutputSource
    (fun f => ∃ g ∈ f.fn.nested, ∃ x ∈ g.outputNames, x ∉ g.assigned) (by decide +kernel)
  exact hnot (hall _ stmt f h g hg x hx)

end Compiler

end OpGraph
