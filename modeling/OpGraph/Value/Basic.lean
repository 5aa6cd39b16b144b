import OpGraph.Graph.ScriptFunction

/-!
Values of module-level names: literals, operator sets and operators, compiled functions, types and modules. Values other
than scalars are objects; two of them are the same only if they were bound under the same number.
-/

namespace OpGraph

/-- Identity of an object. Objects made while an expression is evaluated have none until a name is bound to them, so
they are the same as no other object. -/
abbrev Ref := Option Nat

/-- A function that constant expressions may call: the one that makes operator sets over a registry. -/
structure Builtin where
  name : String
  registry : Registry

inductive Value where
  | none
  | bool (b : Bool)
  | int (i : Int)
  | float (x : Float)
  | str (s : String)
  | list (ref : Ref) (items : List Value)
  | opset (ref : Ref) (o : Opset)
  | op (ref : Ref) (o : Op)
  | function (ref : Ref) (f : ScriptFunction)
  | type (ref : Ref) (t : DeclaredType)
  | generic (ref : Ref) (g : Generic)
  | module (ref : Ref) (name : String) (members : List (String × Value))
  | builtin (ref : Ref) (b : Builtin)

/-- Module-level names in the order in which they were first bound. -/
abbrev Globals := List (String × Value)

namespace Value

instance : Inhabited Value := ⟨none⟩

mutual
def ofLiteral : Literal → Value
  | .none => none
  | .bool b => bool b
  | .int i => int i
  | .float x => float x
  | .str s => str s
  | .list vs => list Option.none (ofLiterals vs)
def ofLiterals : List Literal → List Value
  | [] => []
  | v :: vs => ofLiteral v :: ofLiterals vs
end

mutual
def literal? : Value → Option Literal
  | none => some .none
  | bool b => some (.bool b)
  | int i => some (.int i)
  | float x => some (.float x)
  | str s => some (.str s)
  | list _ vs => (literals? vs).map .list
  | _ => Option.none
def literals? : List Value → Option (List Literal)
  | [] => some []
  | v :: vs => do return (← v.literal?) :: (← literals? vs)
end

def kind : Value → String
  | opset .. => "opset"
  | op .. => "op"
  | function .. => "script-function"
  | type _ t => t.kind
  | generic .. => "generic"
  | module .. => "namespace"
  | builtin .. => "builtin"
  | none | bool _ | int _ | float _ | str _ | list .. => "literal"

def typeName : Value → String
  | none => "NoneType"
  | bool _ => "bool"
  | int _ => "int"
  | float _ => "float"
  | str _ => "str"
  | list .. => "list"
  | v => v.kind

mutual
/-- The text of a value in messages. Items of a list are joined by commas, and nothing is shown for none among them. -/
def text : Value → String
  | none => "null"
  | bool b => if b then "true" else "false"
  | int i => toString i
  | float x => Shortest.text x
  | str s => s
  | list _ vs => ",".intercalate (itemTexts vs)
  | opset _ o => o.text
  | op _ o => o.text
  | function _ f => f.text
  | type _ t => t.text
  | generic _ g => g.name
  | module _ name _ => "<module '" ++ name ++ "'>"
  | builtin _ b => "<built-in function " ++ b.name ++ ">"
def itemTexts : List Value → List String
  | [] => []
  | none :: vs => "" :: itemTexts vs
  | v :: vs => v.text :: itemTexts vs
end

/-! ### Identity -/

def number (next : Nat) (ref : Ref) : Ref × Nat :=
  match ref with
  | some n => (some n, next)
  | Option.none => (some next, next + 1)

mutual
/-- Numbers the objects of a value that have no number yet. -/
def stamp (next : Nat) : Value → Value × Nat
  | list ref vs =>
    let (vs, next) := stampAll next vs
    let (ref, next) := number next ref
    (list ref vs, next)
  | opset ref o => let (ref, next) := number next ref; (opset ref o, next)
  | op ref o => let (ref, next) := number next ref; (op ref o, next)
  | function ref f => let (ref, next) := number next ref; (function ref f, next)
  | type ref t => let (ref, next) := number next ref; (type ref t, next)
  | generic ref g => let (ref, next) := number next ref; (generic ref g, next)
  | module ref name members =>
    let (members, next) := stampMembers next members
    let (ref, next) := number next ref
    (module ref name members, next)
  | builtin ref b => let (ref, next) := number next ref; (builtin ref b, next)
  | v => (v, next)
def stampAll (next : Nat) : List Value → List Value × Nat
  | [] => ([], next)
  | v :: vs =>
    let (v, next) := stamp next v
    let (vs, next) := stampAll next vs
    (v :: vs, next)
def stampMembers (next : Nat) : List (String × Value) → List (String × Value) × Nat
  | [] => ([], next)
  | (name, v) :: ms =>
    let (v, next) := stamp next v
    let (ms, next) := stampMembers next ms
    ((name, v) :: ms, next)
end

def ref : Value → Ref
  | list r _ | opset r _ | op r _ | function r _ | type r _ | generic r _ | module r .. | builtin r _ => r
  | _ => Option.none

/-- Whether two values are one and the same: equal scalars of one type, or one object. -/
def same : Value → Value → Bool
  | none, none => true
  | bool a, bool b => a == b
  | int a, int b => a == b
  | float a, float b => a == b
  | str a, str b => a == b
  | none, _ | bool _, _ | int _, _ | float _, _ | str _, _ => false
  | v, w => v.ref.isSome && v.ref == w.ref

def isTruthy : Value → Bool
  | none => false
  | bool b => b
  | int i => i != 0
  | float x => !(x == 0.0)
  | str s => !s.isEmpty
  | list _ vs => !vs.isEmpty
  | _ => true

end Value

end OpGraph
