import OpGraph.Analysis.Liveness
import OpGraph.Evaluation
import OpGraph.Graph.Printer
import OpGraph.Promotion
import OpGraph.Scope

/-!
Lowering of functions into graphs: the state of a lowering, and the steps by which all parts of it look up names and
emit nodes. The state outlives a failure, since warnings and the default operator set stay.
-/

namespace OpGraph

inductive LogEntry where
  | warning (text : String)
  | trace (text : String)
  deriving DecidableEq, Repr

namespace Lowering

structure Env where
  globals : Globals
  domain : String
  version : Int
  function : String
  source : Option String := none
  verbose : Bool := false

structure State where
  names : Names := {}
  scopes : Scopes := []
  returnTypes : Option (List DeclaredType) := none
  defaultOpset : Option Opset := none
  diagnostics : List Diagnostic := []
  log : List LogEntry := []
  next : Nat := 0

end Lowering

abbrev Lower := ReaderT Lowering.Env (ExceptT Error (StateM Lowering.State))

namespace Lowering

def lift {α : Type} : Except Error α → Lower α
  | .ok a => pure a
  | .error e => throw e

/-! ### Places and messages -/

def location (pos : Position) : Lower Location := do
  return { pos.location with function := some (← read).function }

def failAt {α : Type} (f : Fault) (pos : Position) : Lower α := do
  throw ⟨f, some (← location pos)⟩

def fail {α : Type} (f : LoweringFault) (pos : Position) : Lower α :=
  failAt (.lowering f) pos

/-- Lifts a result, giving a place to an error without one. -/
def liftAt {α : Type} (pos : Position) (r : Except Error α) : Lower α := do
  lift (Evaluation.located (← location pos) r)

/-- Lifts a result, moving an error to a place. -/
def relocate {α : Type} (pos : Position) (r : Except Error α) : Lower α := do
  let l ← location pos
  match r with
  | .ok a => pure a
  | .error e => throw (e.relocated l)

def record (entry : LogEntry) : Lower Unit :=
  modify fun s => { s with log := s.log ++ [entry] }

def trace (message : String) : Lower Unit := do
  if (← read).verbose then record (.trace ("[Converter] " ++ message))

def warn (message : String) (pos : Position) : Lower Unit := do
  let d : Diagnostic := ⟨message, some (← location pos)⟩
  modify fun s => { s with diagnostics := s.diagnostics ++ [d] }
  record (.warning ("[Converter] " ++ d.format (← read).source))

/-! ### Scopes and names -/

def enter (name : String) (domain : String := "") : Lower Unit := do
  modify fun s => { s with scopes := s.scopes.push name { name, domain } }
  trace s!"enter scope {name} (depth {(← get).scopes.depth})"

def leave : Lower GraphFunction := do
  let (frame, scopes) ← lift (← get).scopes.pop
  modify fun s => { s with scopes }
  trace s!"exit scope {frame.name}"
  return frame.fn

def currentFunction : Lower GraphFunction := do
  return (← lift (← get).scopes.current).fn

def modifyFunction (g : GraphFunction → GraphFunction) : Lower Unit := do
  let scopes ← lift ((← get).scopes.modify fun f => { f with fn := g f.fn })
  modify fun s => { s with scopes }

def bind (name : String) (b : Binding) : Lower Unit := do
  let scopes ← lift ((← get).scopes.bind name b)
  modify fun s => { s with scopes }
  match b with
  | .graph value provenance _ => trace s!"bind {name} -> {value} ({provenance.name})"
  | _ => pure ()

/-- Innermost binding of a name, or the module-level value. -/
def lookup? (name : String) : Lower (Option Binding) := do
  match (← get).scopes.lookup name with
  | some b => return some b
  | none => return (Members.get? (← read).globals name).map .value

def lookup (name : String) (pos : Position) : Lower Binding := do
  match ← lookup? name with
  | some b => return b
  | none => failAt (.eval (.unboundName name)) pos

def lookupLocal (name : String) : Lower (Option Binding) := do
  lift ((← get).scopes.lookupLocal name)

def lookupOuter (name : String) : Lower (Option Binding) := do
  return (← get).scopes.lookupOuter name

def fresh (candidate : String) : Lower String :=
  modifyGet fun s =>
    let (name, names) := s.names.generate candidate
    (name, { s with names })

/-! ### Constant expressions -/

def evalValue (e : Expr) : Lower Value := do
  liftAt e.pos (Evaluation.eval (← read).globals e)

def evalLiteral (e : Expr) : Lower Literal := do
  liftAt e.pos (Evaluation.evalLiteral (← read).globals e)

/-! ### Nodes -/

def requireDefaultOpset : Lower Opset := do
  match (← get).defaultOpset with
  | some o => return o
  | none => throw { fault := .lowering .noDefaultOpset }

def defaultOp (name : String) : Lower Op := do
  return (← requireDefaultOpset).op name

def opName (o : Op) : OpName :=
  ⟨o.domain, o.version, o.name⟩

def emit (node : GraphNode) : Lower Unit :=
  modifyFunction (·.addNode node)

def emitDefault (outputs : List String) (name : String) (inputs : List String) (attributes : List NodeAttribute := []) :
    Lower Unit := do
  let op ← defaultOp name
  emit { outputs, op := opName op, inputs, attributes }

def copy (value candidate : String) : Lower String := do
  let name ← fresh candidate
  emitDefault [name] "Identity" [value]
  return name

/-- Name of a constant for which none is suggested: it tells small integers. -/
def constantName : Literal → String
  | .int i => integerName i
  | .list [.int i] => integerName i ++ "_1d"
  | _ => "const"
where
  integerName (i : Int) : String := if 0 ≤ i then s!"int64_{i}" else s!"int64_m{-i}"

def constant (v : Literal) (candidate : Option String) (pos : Position) : Lower Operand := do
  let name ← fresh (candidate.getD (constantName v))
  let tensor ← liftAt pos (Interchange.Tensor.ofLiteral name v)
  emitDefault [name] "Constant" [] [⟨⟨"value", .tensor, .tensor tensor⟩, []⟩]
  return ⟨name, true⟩

/-- Emits an attribute parameter as a `Constant` node that refers to it. Attributes hold truth values as integers, so
these are cast. -/
def attributeValue (param : String) (type : DeclaredType) (candidate : String) (pos : Position) : Lower Operand := do
  match type.attributeType.constantName? with
  | none => fail (.attributeType type.text param) pos
  | some attr =>
    let name ← fresh candidate
    emitDefault [name] "Constant" [] [⟨.reference attr param type.attributeType, []⟩]
    match type with
    | .scalar .bool =>
      let cast ← fresh (name ++ "_as_bool")
      emitDefault [cast] "Cast" [name] [⟨⟨"to", .int, .int ElementType.bool.code⟩, []⟩]
      return ⟨cast, true⟩
    | _ => return ⟨name, true⟩

/-- The graph value that a binding stands for; literals become constants. -/
def operandOf (b : Binding) (name : String) (pos : Position) : Lower Operand :=
  match b with
  | .attr param type => attributeValue param type name pos
  | .graph value provenance _ => pure ⟨value, provenance == .constant⟩
  | .function .. => fail (.graphValue name b.kind) pos
  | .value v =>
    match v.literal? with
    | some l => constant l (some name) pos
    | none => fail (.graphValue name v.kind) pos

def operandOfName (name : String) (pos : Position) : Lower Operand := do
  operandOf (← lookup name pos) name pos

def promote (schema : Option OpSchema) (args : List Operand) : Lower (List String) := do
  let r ← lift (Promotion.ofOperands (← get).names (schema.map (·.inputs)) args)
  modify fun s => { s with names := r.names }
  for c in r.casts do
    emitDefault [c.output] "CastLike" [c.input, c.like]
  return r.inputs

end Lowering

end OpGraph
