import OpGraph.Lowering.Arguments
import OpGraph.Lowering.Subscript

/-!
Lowering of expressions. An expression becomes the name of a graph value, or the request for a node whose output is
named by whoever needs the value.
-/

namespace OpGraph.Lowering

structure Request where
  op : OpName
  inputs : List String
  attributes : List NodeAttribute := []
  functions : List (String × Interchange.Function) := []

inductive Lowered where
  | operand (x : Operand)
  | request (r : Request)

def Request.emit (r : Request) (outputs : List String) : Lower Unit :=
  Lowering.emit { outputs, op := r.op, inputs := r.inputs, attributes := r.attributes, functions := r.functions }

/-- The value of an expression, under a new name if it is requested. -/
def finish (candidate : Option String) : Lowered → Lower Operand
  | .operand x => return x
  | .request r => do
    let name ← fresh (candidate.getD "tmp")
    r.emit [name]
    return { name }

/-! ### Operators -/

def binaryOp? : BinaryOp → Option String
  | .add => some "Add"
  | .sub => some "Sub"
  | .mult => some "Mul"
  | .div => some "Div"
  | .mod => some "Mod"
  | .pow => some "Pow"
  | .matMult => some "MatMul"
  | .bitAnd => some "And"
  | .bitOr => some "Or"
  | .floorDiv | .bitXor | .lShift | .rShift => none

def unaryOp? : UnaryOp → Option String
  | .minus => some "Neg"
  | .plus => some "Identity"
  | .not => some "Not"
  | .invert => none

/-- Inequality has no operator of its own; it is the negation of equality. -/
def compareOp? : CompareOp → Option String
  | .eq | .notEq => some "Equal"
  | .lt => some "Less"
  | .ltE => some "LessOrEqual"
  | .gt => some "Greater"
  | .gtE => some "GreaterOrEqual"
  | .isIn | .notIn | .is | .isNot => none

/-- A remainder by a float literal is one of floats. -/
def remainderAttributes (op : BinaryOp) (right : Expr) : Lower (List NodeAttribute) := do
  if op = .mod ∧ right.isConstant then
    match ← evalLiteral right with
    | .float _ => return [⟨⟨"fmod", .int, .int 1⟩, []⟩]
    | _ => return []
  else return []

def binaryRequest (op : Op) (left right : Operand) (attributes : List NodeAttribute := []) : Lower Request := do
  return { op := opName op, inputs := ← promote op.schema [left, right], attributes }

/-- Joins operands from the left, each node but the last under a new name. -/
def joinOperands (op : Op) (left : Operand) : Lower Operand → List (Lower Operand) → Lower Request
  | right, [] => do binaryRequest op left (← right)
  | right, next :: rest => do
    let r ← binaryRequest op left (← right)
    let name ← fresh "tmp"
    r.emit [name]
    joinOperands op { name } next rest

def compareRequest (cmp : CompareOp) (name : String) (left right : Operand) : Lower Request := do
  let op ← defaultOp name
  let r ← binaryRequest op left right
  if cmp = .notEq then
    let tmp ← fresh "tmp"
    r.emit [tmp]
    return { op := opName (← defaultOp "Not"), inputs := [tmp] }
  else return r

/-! ### Callees -/

inductive Callee where
  | op (o : Op)
  | script (f : ScriptFunction)
  | nested (fn : GraphFunction) (captured : List (String × Identity))

/-- Takes an operator set into use. A set of the default domain becomes the default one; there can be only one version
of it. -/
def useOpset (o : Opset) : Lower Unit := do
  if o.isDefaultDomain then
    match (← get).defaultOpset with
    | none => modify fun s => { s with defaultOpset := some o }
    | some current =>
      if current.domain ≠ o.domain ∨ current.version ≠ o.version then
        throw { fault := .lowering (.twoOpsets o.text current.text) }

def opsetOf (e : Expr) : Lower Opset := do
  let value ← match e with
    | .name _ id => lookup? id
    | e => (fun v => some (.value v)) <$> evalValue e
  match value with
  | some (.value (.opset _ o)) => return o
  | _ => fail .opsetExpression e.pos

/-- What the callee of a call names. A name that is bound to nothing is an operator of the default set. -/
def calleeOf (e : Expr) : Lower Callee := do
  match e with
  | .attr pos value name =>
    let o ← opsetOf value
    useOpset o
    if !o.contains name then warn s!"'{name}' is not a known op in '{o.text}'." pos
    return .op (o.op name)
  | .name pos id =>
    match ← lookup? id with
    | some (.value (.function _ f)) =>
      modifyFunction (·.addCalled f.name f.fn.toFunction)
      return .script f
    | some (.value (.op _ o)) => return .op o
    | some (.function _ fn captured) => return .nested fn captured
    | none =>
      let o ← requireDefaultOpset
      if !o.contains id then warn s!"Unknown function name '{id}'. The graph may not work." pos
      return .op (o.op id)
    | some _ => fail .callee pos
  | e => fail .callee e.pos

/-- Checks that the outer names that a nested function read are bound as they were at its definition. -/
def checkCaptured (function : String) (pos : Position) : List (String × Identity) → Lower Unit
  | [] => return ()
  | (name, identity) :: rest => do
    match ← lookup? name with
    | some b =>
      if b.identity.same identity then checkCaptured function pos rest else fail (.captured name function) pos
    | none => fail (.captured name function) pos

/-! ### Calls -/

/-- A literal as an attribute. None gives no attribute. -/
def literalAttribute (name : String) (e : Expr) : Lower (Option NodeAttribute) := do
  match ← evalLiteral e with
  | .none => return none
  | v => return some ⟨← relocate e.pos (Interchange.Attribute.ofLiteral name v), []⟩

/-- An attribute of a call: a literal, a reference to an attribute parameter, or a nested function as a graph. -/
def attributeOf (name : String) (e : Expr) : Lower (Option NodeAttribute) := do
  match e with
  | .name pos id =>
    match ← lookup id pos with
    | .attr param type => return some ⟨.reference name param type.attributeType, []⟩
    | .function _ fn captured =>
      checkCaptured fn.name pos captured
      return some (← lift (fn.toAttribute name))
    | .graph .. => fail (.attributeGraphValue name id) pos
    | .value _ => literalAttribute name e
  | _ => literalAttribute name e

/-- What a call needs of its callee: the operator of the node, formal inputs and parameters if they are known, and
functions to ship. -/
structure Target where
  op : Op
  params : Option (List CallParam)
  functions : List (String × Interchange.Function) := []

def targetOf (callee : Callee) (pos : Position) : Lower Target := do
  match callee with
  | .op o => return { op := o, params := o.params? }
  | .script f =>
    return { op := ⟨f.op.domain, f.op.version, f.op.name, some f.schema⟩, params := some f.params }
  | .nested fn captured =>
    checkCaptured fn.name pos captured
    let env ← read
    return {
      op := ⟨env.domain, env.version, fn.name, none⟩
      params := none
      functions := [(fn.name, ← lift fn.toFunction)] }

/-- An argument that may be none, which stands for an omitted input. -/
def argument (p : Part) : Lower Operand :=
  match p.expr with
  | .constant _ .none => return .omitted
  | _ => p.lower

/-- Arguments by their use. A callee without known parameters takes positional arguments as inputs and keywords as
attributes. -/
def splitArguments (pos : Position) (t : Target) (args : List Part) (keywords : List (String × Part)) :
    Lower (Arguments Part) :=
  match t.params with
  | none => return ⟨args.map some, keywords⟩
  | some params =>
    let named := keywords.foldl (fun ks (name, p) => Members.set ks name p) []
    relocate pos (Arguments.separate params args named t.op.text)

def call (pos : Position) (func : Expr) (args : List Part) (keywords : List (String × Part)) : Lower Request := do
  let t ← targetOf (← calleeOf func) pos
  let split ← splitArguments pos t args keywords
  let operands ← split.inputs.mapM fun x => match x with
    | none => pure Operand.omitted
    | some p => argument p
  let attributes ← split.attrs.filterMapM fun (name, p) => attributeOf name p.expr
  let inputs ← promote t.op.schema operands
  return { op := opName t.op, inputs, attributes, functions := t.functions }

/-! ### Expressions -/

mutual
/-- Lowers an expression; the candidate is the name that its value should have. -/
def lowerExpr (e : Expr) (candidate : Option String) : Lower Lowered := do
  if e.isConstant then
    return .operand (← constant (← evalLiteral e) candidate e.pos)
  else match e with
    | .call pos func args keywords =>
      return .request (← call pos func (lowerParts args) (lowerKeywords keywords))
    | .binary pos l op r =>
      match binaryOp? op with
      | none => fail (.operator op.label) pos
      | some name =>
        let attributes ← remainderAttributes op r
        let o ← defaultOp name
        let left ← finish none (← lowerExpr l none)
        let right ← finish none (← lowerExpr r none)
        return .request (← binaryRequest o left right attributes)
    | .boolean pos op es => do
      let o ← defaultOp op.label
      match lowerParts es with
      | first :: second :: rest =>
        return .request (← joinOperands o (← first.lower) second.lower (rest.map (·.lower)))
      | _ => fail .emptyBoolean pos
    | .unary pos op e =>
      match unaryOp? op with
      | none => fail (.operator op.label) pos
      | some name =>
        let x ← finish none (← lowerExpr e none)
        return .request { op := opName (← defaultOp name), inputs := [x.name] }
    | .compare pos l ops es =>
      match ops, lowerParts es with
      | [cmp], right :: _ =>
        match compareOp? cmp with
        | none => fail (.operator cmp.label) pos
        | some name =>
          let left ← finish none (← lowerExpr l none)
          return .request (← compareRequest cmp name left (← right.lower))
      | _, _ => fail .chainedComparison pos
    | .name pos id => return .operand (← operandOfName id pos)
    | .subscript pos value s =>
      let base := lowerExpr value none >>= finish none
      match s with
      | .tuple _ es => return .operand (← subscript pos base (lowerIndices es) candidate)
      | .slice _ l u st =>
        return .operand (← subscript pos base [.range (lowerOption l) (lowerOption u) (lowerOption st)] candidate)
      | s => return .operand (← subscript pos base [.point ⟨s, lowerExpr s none >>= finish none⟩] candidate)
    | e => fail (.expressionType e.label) e.pos
def lowerParts : List Expr → List Part
  | [] => []
  | e :: es => ⟨e, lowerExpr e none >>= finish none⟩ :: lowerParts es
def lowerOption : Option Expr → Option Part
  | none => none
  | some e => some ⟨e, lowerExpr e none >>= finish none⟩
def lowerKeywords : List Keyword → List (String × Part)
  | [] => []
  | ⟨_, name, e⟩ :: ks => (name, ⟨e, lowerExpr e none >>= finish none⟩) :: lowerKeywords ks
def lowerIndices : List Expr → List Index
  | [] => []
  | .slice _ l u st :: es => .range (lowerOption l) (lowerOption u) (lowerOption st) :: lowerIndices es
  | e :: es => .point ⟨e, lowerExpr e none >>= finish none⟩ :: lowerIndices es
end

def lowerOperand (e : Expr) (candidate : Option String := none) : Lower Operand := do
  finish candidate (← lowerExpr e candidate)

def lowerOutputs (e : Expr) (candidates : List String) : Lower (List String) := do
  match e with
  | .call pos func args keywords =>
    let r ← call pos func (lowerParts args) (lowerKeywords keywords)
    let names ← candidates.mapM fresh
    r.emit names
    return names
  | e => fail .multipleOutputs e.pos

end OpGraph.Lowering
