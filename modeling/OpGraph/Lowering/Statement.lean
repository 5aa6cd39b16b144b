import OpGraph.Lowering.ControlFlow

/-!
Lowering of statements and of function definitions.
-/

namespace OpGraph.Lowering

/-! ### Assignments -/

/-- The type that an annotation gives; a warning tells of one that cannot be used. -/
def annotationType? (e : Expr) (what : String) : Lower (Option DeclaredType) := do
  let unusable : Lower (Option DeclaredType) := do
    warn s!"Unsupported type annotation for {what}." e.pos
    return none
  match ← evalValue e with
  | .type _ t => if t.isValid then return some t else unusable
  | _ => unusable

def targetName : Expr → Lower String
  | .name _ id => return id
  | e => fail .tupleTarget e.pos

def assign (target value : Expr) (type : Option DeclaredType) : Lower Unit := do
  match target with
  | .name _ id =>
    let x ← lowerOperand value (some id)
    bind id (.graph x.name (if x.isConst then .constant else .intermediate) type)
  | .tuple _ elts =>
    let ids ← elts.mapM targetName
    let results ← lowerOutputs value ids
    (ids.zip results).forM fun (id, result) => bind id (.graph result .intermediate none)
  | e => fail .target e.pos

def assignAny (pos : Position) (target value : Expr) (type : Option DeclaredType) : Lower Unit := do
  match value with
  | .tuple _ values =>
    match target with
    | .tuple _ targets =>
      if targets.length ≠ values.length then fail .tupleSizes pos
      else (targets.zip values).forM fun (t, v) => assign t v none
    | e => fail (.leftNotTuple e.label) e.pos
  | value => assign target value type

def assignAnnotated (pos : Position) (target typeExpr : Expr) (value : Option Expr) : Lower Unit := do
  match value with
  | none => fail .missingValue pos
  | some value =>
    let what := match target with
      | .name _ id => id
      | e => e.label
    let type ← annotationType? typeExpr s!"variable {what}"
    assignAny pos target value type

/-! ### Results -/

/-- Returns values. An output is neither an input nor another output, so such values are copied. -/
def returnValues (pos : Position) (types : Option (List DeclaredType)) (candidate : Nat → String) :
    (index : Nat) → List Expr → Lower Unit
  | _, [] => return ()
  | i, e :: es => do
    let x ← lowerOperand e (some (candidate i))
    let name ← if (← currentFunction).inputs.any (·.name == x.name) then copy x.name (candidate i) else pure x.name
    let name ← if (← currentFunction).outputs.any (·.name == name) then copy name (name ++ "_copy") else pure name
    modifyFunction (·.addOutput name (types.bind (·[i]?)))
    returnValues pos types candidate (i + 1) es

def returnFrom (pos : Position) (value : Option Expr) : Lower Unit := do
  match value with
  | none => fail .emptyReturn pos
  | some value =>
    let (exprs, candidate) : List Expr × (Nat → String) := match value with
      | .tuple _ es => (es, fun i => s!"return_val{i}")
      | e => ([e], fun _ => "return_val")
    let types := (← get).returnTypes
    match types with
    | some ts =>
      if ts.length ≠ exprs.length then failAt (.call (.returnCount exprs.length ts.length)) pos
    | none => pure ()
    returnValues pos types candidate 0 exprs

/-! ### Signatures -/

/-- Parameters with their defaults, which belong to the last ones. -/
def withDefaults (params : List Param) (defaults : List Expr) : List (Param × Option Expr) :=
  params.zip (List.replicate (params.length - defaults.length) none ++ defaults.map some)

/-- Declares a parameter: an attribute if it has an attribute type, a graph input otherwise. -/
def declareParam (p : Param) (default : Option Expr) : Lower Unit := do
  let value ← match default with
    | some e => some <$> evalLiteral e
    | none => pure none
  let type ← match p.typeExpr with
    | some e => annotationType? e s!"argument {p.name}"
    | none => pure none
  let input : Lower Unit := do
    if value.isSome then warn s!"Default value of input {p.name} is ignored." p.pos
    modifyFunction (·.addInput p.name type)
    modify fun s => { s with names := s.names.reserve p.name }
    bind p.name (.graph p.name .input type)
  match type with
  | some t =>
    if t.isAttr then
      let default := match value with
        | some .none => none
        | v => v
      modifyFunction (·.addAttrParam ⟨p.name, t.attributeType, default⟩)
      bind p.name (.attr p.name t)
    else input
  | none => input

def returnTypesOf (name : String) (returns : Option Expr) : Lower (Option (List DeclaredType)) := do
  match returns with
  | none => return none
  | some e =>
    match ← evalValue e with
    | .type _ t =>
      let unusable := t.results.filter (!·.isValid)
      unusable.forM fun t => warn s!"Unsupported type annotation for return value {t.text}." e.pos
      return if unusable.isEmpty then some t.results else none
    | _ =>
      warn s!"Unsupported return type annotation of {name}." e.pos
      return none

def signature (name : String) (params : List Param) (defaults : List Expr) (returns : Option Expr) : Lower Unit := do
  trace s!"translate function {name}"
  (withDefaults params defaults).forM fun (p, default) => declareParam p default
  modify fun s => { s with returnTypes := none }
  let types ← returnTypesOf name returns
  modify fun s => { s with returnTypes := types }

/-- Binds a nested function, which has been lowered in a scope of its own, with the outer names it reads. -/
def bindNested (pos : Position) (fn : GraphFunction) (captured : NameSet) : Lower Unit := do
  let captured ← captured.toList.mapM fun name => do return (name, (← lookup name pos).identity)
  let id ← modifyGet fun s => (s.next, { s with next := s.next + 1 })
  bind fn.name (.function id fn captured)
  modifyFunction (·.addNested fn)

/-! ### Statements -/

/-- Where a statement stands: in a block, or in a function body, perhaps as its first statement. -/
inductive Place where
  | block
  | body (first : Bool)
  deriving DecidableEq, Repr

/-- The position of a block: that of its first statement, or that of the statement it belongs to. -/
def blockPos (pos : Position) (ss : List (Stmt NameSet)) : Position :=
  (ss.head?.map (·.pos)).getD pos

/-- Names that a loop carries: those its body assigns, and reads before or leaves to what follows. -/
def carried (after : NameSet) (body : List (Stmt NameSet)) : List String :=
  (Stmt.defsAll body).toList.filter fun x => x ∈ Stmt.exposed body || x ∈ after

def expressionStmt (place : Place) (s : Stmt NameSet) : Lower Unit := do
  match place, s.docstring? with
  | .body true, some doc => modifyFunction (·.withDoc doc)
  | _, _ => if s.isPrint then pure () else fail (.statementType s.label) s.pos

mutual
def lowerStmt (place : Place) : Stmt NameSet → Lower Unit
  | .assign m targets value =>
    match targets with
    | [target] => assignAny m.pos target value none
    | _ => fail .multiAssignment m.pos
  | .annAssign m target typeExpr value => assignAnnotated m.pos target typeExpr value
  | .ret m value =>
    match place with
    | .block => fail .returnInBlock m.pos
    | .body _ => returnFrom m.pos value
  | .cond m test body orelse =>
    let names := (NameSet.ofList (Stmt.assignsAll body ++ Stmt.assignsAll orelse)).toList.filter (· ∈ m.note)
    conditional m.pos test names
      ⟨blockPos m.pos body, lowerBlock body⟩ ⟨blockPos m.pos orelse, lowerBlock orelse⟩
  | .forLoop m target iter body orelse => do
    if !orelse.isEmpty then fail .loopElse m.pos
    let header ← forHeader m.pos target iter
    loop m.pos header (carried m.note body) (lowerLoop body)
  | .whileLoop m test body orelse => do
    if !orelse.isEmpty then fail .loopElse m.pos
    let header ← whileHeader m.pos test
    loop m.pos header (carried m.note body) (lowerLoop body)
  | .expr m value => expressionStmt place (.expr m value)
  | .function m ⟨name, params, defaults, body, returns⟩ => do
    let types := (← get).returnTypes
    enter name (← read).domain
    signature name params defaults returns
    lowerBody true body
    let fn ← leave
    modify fun s => { s with returnTypes := types }
    bindNested m.pos fn (FunctionDef.mk name params defaults body returns).captured
  | .pass _ => return ()
  | .brk m => fail .breakForm m.pos
  | .imports m _ | .importFrom m _ _ => fail .importInFunction m.pos
def lowerBlock : List (Stmt NameSet) → Lower Unit
  | [] => return ()
  | s :: ss => do
    lowerStmt .block s
    lowerBlock ss
/-- Lowers the statements of a loop body and tells the condition of a break at its end. -/
def lowerLoop : List (Stmt NameSet) → Lower (Option String)
  | [] => return none
  | .cond m test [.brk _] [] :: ss => do
    let stop ← breakCondition m.pos test ss.isEmpty
    return some stop
  | s :: ss => do
    lowerStmt .block s
    lowerLoop ss
def lowerBody (first : Bool) : List (Stmt NameSet) → Lower Unit
  | [] => return ()
  | .ret m value :: ss =>
    if ss.isEmpty then returnFrom m.pos value else fail .returnNotLast m.pos
  | s :: ss => do
    lowerStmt (.body first) s
    lowerBody false ss
end

end OpGraph.Lowering
