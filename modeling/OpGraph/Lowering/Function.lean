import OpGraph.Lowering.DefaultOpset
import OpGraph.Lowering.Statement

/-!
Lowering of the functions of a module, one after the other. Each lowering starts with no names and no scopes; what
stays is the default operator set, the functions of the module and the warnings.
-/

namespace OpGraph

structure Compiler where
  globals : Globals
  module : Opset
  defaultOpset : Option Opset := none
  source : Option String := none
  verbose : Bool := false
  diagnostics : List Diagnostic := []
  log : List LogEntry := []

namespace Lowering

def function (fn : FunctionDef NameSet) : Lower GraphFunction := do
  enter fn.name (← read).domain
  signature fn.name fn.params fn.defaults fn.returns
  lowerBody true fn.body
  let graph ← leave
  if (← get).scopes.depth ≠ 0 then throw { fault := .unbalancedScopes fn.name }
  trace ("\n" ++ graph.text)
  return graph

end Lowering

namespace Compiler

def start (t : Compiler) (fn : FunctionDef Unit) : Lowering.Env × Lowering.State :=
  ({ globals := t.globals, domain := t.module.domain, version := t.module.version, function := fn.name,
     source := t.source, verbose := t.verbose },
   { defaultOpset := t.defaultOpset.or (Stmt.firstDefaultOpset? t.globals fn.body), diagnostics := t.diagnostics,
     log := t.log })

def compile (t : Compiler) : Stmt Unit → Except Error ScriptFunction × Compiler
  | .function _ fn =>
    let (env, state) := t.start fn
    let (result, state) := ((Lowering.function fn.analyze).run env).run.run state
    let t' := { t with defaultOpset := state.defaultOpset, diagnostics := state.diagnostics, log := state.log }
    match result with
    | .error e => (.error e, t')
    | .ok graph =>
      let f : ScriptFunction :=
        ⟨t.module.domain, t.module.version, graph, state.diagnostics.drop t.diagnostics.length⟩
      (.ok f, { t' with module := t.module.addFunction f.schema })
  | s => (.error ⟨.lowering (.topLevel s.label), some s.pos.location⟩, t)

end Compiler

end OpGraph
