import OpGraph.Graph.Function
import OpGraph.Schema.Opset

/-!
Compiled functions of a module: a finished graph function in the module's domain, which later functions may call.
-/

namespace OpGraph

structure ScriptFunction where
  domain : String
  version : Int
  fn : GraphFunction
  warnings : List Diagnostic := []

namespace ScriptFunction

def name (f : ScriptFunction) : String :=
  f.fn.name

/-- A graph value as a formal with a type variable of its own, so that calls never relate types of arguments. -/
def formal (v : GraphVar) : Formal :=
  { name := v.name, type := "T_" ++ v.name }

def schema (f : ScriptFunction) : OpSchema where
  name := f.name
  domain := f.domain
  since := f.version
  inputs := f.fn.inputs.map formal
  outputs := f.fn.outputs.map formal
  attributes := f.fn.attrParams.map fun p =>
    { name := p.name, type := p.type, required := p.default.isNone, default := p.default }

def params (f : ScriptFunction) : List CallParam :=
  f.fn.params.map fun p => match p with
    | .input v => { name := v.name, isInput := true, required := true }
    | .attr a =>
      { name := a.name, isInput := false, required := a.default.isNone, default := a.default, type := some a.type }

def op (f : ScriptFunction) : OpName :=
  ⟨f.domain, f.version, f.name⟩

def text (f : ScriptFunction) : String :=
  "<script function " ++ f.domain ++ "." ++ f.name ++ ">"

end ScriptFunction

end OpGraph
