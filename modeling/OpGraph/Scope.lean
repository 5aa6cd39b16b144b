import OpGraph.Value.Basic

/-!
Scopes of a function being lowered. There is one frame for each function and each control-flow block that is open,
the innermost first; each frame has the graph its nodes go to.
-/

namespace OpGraph

inductive Provenance where
  | input | loopCarried | intermediate | constant
  deriving DecidableEq, Repr

def Provenance.name : Provenance → String
  | input => "Input"
  | loopCarried => "LoopCarried"
  | intermediate => "Intermediate"
  | constant => "Constant"

/-- Identity of a binding. Graph values and attribute parameters count by their names, as do texts. -/
inductive Identity where
  | name (s : String)
  | function (id : Nat)
  | value (v : Value)

def Identity.same : Identity → Identity → Bool
  | name a, name b => a == b
  | function a, function b => a == b
  | value a, value b => a.same b
  | _, _ => false

/-- What a name stands for: a graph value, an attribute parameter, a nested function with the outer names it read at its
definition, or a module-level value. -/
inductive Binding where
  | graph (value : String) (provenance : Provenance) (type : Option DeclaredType)
  | attr (name : String) (type : DeclaredType)
  | function (id : Nat) (fn : GraphFunction) (captured : List (String × Identity))
  | value (v : Value)

namespace Binding

def identity : Binding → Identity
  | graph v .. => .name v
  | attr name _ => .name name
  | function id .. => .function id
  | value (.str s) => .name s
  | value v => .value v

def kind : Binding → String
  | graph .. => "dynamic"
  | attr .. => "attr"
  | function .. => "function"
  | value v => v.kind

def type? : Binding → Option DeclaredType
  | graph _ _ t => t
  | _ => none

end Binding

structure Frame where
  name : String
  fn : GraphFunction
  bindings : List (String × Binding) := []

/-- Open scopes, the innermost first. -/
abbrev Scopes := List Frame

namespace Scopes

def depth (s : Scopes) : Nat :=
  s.length

def push (s : Scopes) (name : String) (fn : GraphFunction) : Scopes :=
  { name, fn } :: s

def pop : Scopes → Except Error (Frame × Scopes)
  | [] => .error { fault := .scopeUnderflow }
  | f :: s => .ok (f, s)

def current : Scopes → Except Error Frame
  | [] => .error { fault := .noScope }
  | f :: _ => .ok f

def modify (g : Frame → Frame) : Scopes → Except Error Scopes
  | [] => .error { fault := .noScope }
  | f :: s => .ok (g f :: s)

def bind (s : Scopes) (name : String) (b : Binding) : Except Error Scopes :=
  s.modify fun f => { f with bindings := Members.set f.bindings name b }

def lookup (s : Scopes) (name : String) : Option Binding :=
  s.findSome? fun f => Members.get? f.bindings name

def lookupLocal (s : Scopes) (name : String) : Except Error (Option Binding) := do
  return Members.get? (← s.current).bindings name

def lookupOuter (s : Scopes) (name : String) : Option Binding :=
  lookup (s.drop 1) name

end Scopes

end OpGraph
