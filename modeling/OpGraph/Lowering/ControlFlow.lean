import OpGraph.Lowering.Expression

/-!
Lowering of conditionals and loops around the lowering of their blocks. A conditional becomes an `If` node with two
branch graphs, a loop a `Loop` node with a body graph. Names that a block assigns and that are used after it leave the
block as outputs of its graph.
-/

namespace OpGraph.Lowering

/-- A value that the innermost graph can return: one that it computes itself and has not returned yet; any other value
is copied. -/
def ownOutput (declared : List String) (value name : String) : Lower String := do
  if (← currentFunction).assigned.contains value && !declared.contains value then return value
  else copy value name

def blockFunctions (blocks : List GraphFunction) : Except Error (List (String × Interchange.Function)) :=
  blocks.foldlM
    (fun fs b => do return (← b.functions).foldl (fun fs (name, f) => Members.set fs name f) fs) []

/-! ### Conditionals -/

/-- Returns names from a branch: those it assigned, and copies of those of the scopes around it. -/
def branchOutputs (pos : Position) : (declared : List String) → List String → Lower Unit
  | _, [] => return ()
  | declared, name :: names => do
    match ← lookupLocal name with
    | some b =>
      let output ← ownOutput declared (← operandOf b name pos).name name
      modifyFunction (·.addOutput output b.type?)
      branchOutputs pos (output :: declared) names
    | none =>
      match ← lookupOuter name with
      | none => fail (.unassigned name) pos
      | some b =>
        let output ← fresh name
        let op ← defaultOp "Identity"
        let x ← operandOf b name pos
        emit { outputs := [output], op := opName op, inputs := [x.name] }
        modifyFunction (·.addOutput output)
        branchOutputs pos declared names

def branch (name : String) (body : Lower Unit) (outputs : List String) (pos : Position) : Lower GraphFunction := do
  enter name
  body
  branchOutputs pos [] outputs
  leave

def bindOutputs (names : List String) : Lower (List String) :=
  names.mapM fun name => do
    let value ← fresh name
    bind name (.graph value .intermediate none)
    return value

structure Block where
  pos : Position
  lower : Lower Unit

def conditional (pos : Position) (test : Expr) (names : List String) (body orelse : Block) : Lower Unit := do
  let cond ← lowerOperand test (some "cond")
  let thenGraph ← branch s!"thenGraph_{pos.line}" body.lower names body.pos
  let elseGraph ← branch s!"elseGraph_{pos.line}" orelse.lower names orelse.pos
  let outputs ← bindOutputs names
  if outputs.isEmpty then fail .emptyConditional pos
  if outputs = [cond.name] then fail (.conditionalOutput cond.name) pos
  let op ← defaultOp "If"
  let thenBranch ← lift (thenGraph.toAttribute "then_branch")
  let elseBranch ← lift (elseGraph.toAttribute "else_branch")
  let blocks := [thenGraph, elseGraph]
  emit {
    outputs
    op := opName op
    inputs := [cond.name]
    attributes := [thenBranch, elseBranch]
    functions := ← lift (blockFunctions blocks)
    blocks }

/-! ### Loops -/

/-- What a loop is controlled by: the name of its counter, its bound if it has one, or the name it tests. -/
structure LoopHeader where
  counter : String
  bound : String := ""
  test : Option String := none

def forHeader (pos : Position) (target iter : Expr) : Lower LoopHeader := do
  match target with
  | .name _ counter =>
    match iter with
    | .call _ (.name _ "range") args keywords =>
      match args, keywords with
      | [count], [] => return { counter, bound := (← lowerOperand count (some "loop_bound")).name }
      | _, _ => fail .loopRange pos
    | _ => fail .loopBound pos
  | _ => fail .loopTarget pos

def whileHeader (pos : Position) : Expr → Lower LoopHeader
  | .name _ test => return { counter := "infinite_loop", test := some test }
  | _ => fail .whileTest pos

def bodyValue? (name : String) : Lower (Option String) := do
  match ← lookupLocal name with
  | some (.graph value ..) => return some value
  | _ => return none

/-- The condition that ends a loop body under a test of the form `if name: break`. -/
def breakCondition (pos : Position) (test : Expr) (last : Bool) : Lower String := do
  match test with
  | .name _ id =>
    if !last then fail .breakNotLast pos
    else match ← bodyValue? id with
      | some value => return value
      | none => fail (.breakCondition id) pos
  | _ => fail .breakTest pos

def loopInput (name : String) (type : Option DeclaredType) : Lower Unit := do
  let value ← fresh name
  modifyFunction (·.addInput value type)
  bind name (.graph value .loopCarried none)

def continueCondition (pos : Position) (header : LoopHeader) (condIn condOut : String) (stop : Option String) :
    Lower Unit := do
  match header.test with
  | some name =>
    match ← bodyValue? name with
    | none => fail (.loopCondition name) pos
    | some value =>
      match stop with
      | none => emitDefault [condOut] "Identity" [value]
      | some stop =>
        let goOn ← fresh (stop ++ "_not")
        emitDefault [goOn] "Not" [stop]
        emitDefault [condOut] "And" [value, goOn]
  | none =>
    match stop with
    | none => emitDefault [condOut] "Identity" [condIn]
    | some stop => emitDefault [condOut] "Not" [stop]

def loopOutputs (pos : Position) : (declared : List String) → List String → Lower Unit
  | _, [] => return ()
  | declared, name :: names => do
    let output ← ownOutput declared (← operandOfName name pos).name name
    modifyFunction (·.addOutput output)
    loopOutputs pos (output :: declared) names

/-- Lowers the body of a loop; the given steps lower its statements and tell the condition that ends it. -/
def loopBody (pos : Position) (header : LoopHeader) (state : List String) (body : Lower (Option String)) :
    Lower GraphFunction := do
  enter "loop_body"
  loopInput header.counter (some (.tensor .int64 none))
  let condIn ← fresh "cond_in"
  modifyFunction (·.addInput condIn (some (.tensor .bool none)))
  state.forM (loopInput · none)
  let stop ← body
  let condOut ← fresh "cond_out"
  continueCondition pos header condIn condOut stop
  modifyFunction (·.addOutput condOut (some (.tensor .bool none)))
  loopOutputs pos [] state
  leave

def loop (pos : Position) (header : LoopHeader) (state : List String) (body : Lower (Option String)) :
    Lower Unit := do
  let initial ← match header.test with
    | none => constant (.bool true) (some "true") pos
    | some name => operandOfName name pos
  let fn ← loopBody pos header state body
  let inputs ← state.mapM fun name => do return (← operandOfName name pos).name
  let outputs ← bindOutputs state
  let op ← defaultOp "Loop"
  let bodyGraph ← lift (fn.toAttribute "body")
  emit {
    outputs
    op := opName op
    inputs := header.bound :: initial.name :: inputs
    attributes := [bodyGraph]
    functions := ← lift (blockFunctions [fn])
    blocks := [fn] }

end OpGraph.Lowering
