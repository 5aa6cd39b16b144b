import OpGraph.Lowering.Function
import OpGraph.Proofs.CallArguments
import OpGraph.Proofs.Semantics.Interpretation

/-!
Evaluation of scripts over an interpretation: a function is run statement by statement on the values of its variables.
The operators of expressions stand for operators of the home domain, and a constant expression for the literal that it
comes to. A name without a value of its own has that of the module-level literal of the same name.
-/

namespace OpGraph

/-- What a function finds around it: the names of its module, and the default operator set. -/
structure Setting where
  globals : Globals
  defaultOpset : Option Opset

namespace Setting

/-- The operator that a callee stands for, with its parameters if they are known. -/
def callee? (c : Setting) : Expr → Option (Op × Option (List CallParam))
  | .attr _ value name =>
    match Evaluation.eval c.globals value with
    | .ok (.opset _ o) => some (o.op name, (o.op name).params?)
    | _ => none
  | .name _ id =>
    match Members.get? c.globals id with
    | some (.function _ f) => some (⟨f.op.domain, f.op.version, f.op.name, some f.schema⟩, some f.params)
    | some (.op _ o) => some (o, o.params?)
    | some _ => none
    | none => c.defaultOpset.map fun o => (o.op id, (o.op id).params?)
  | _ => none

/-- An attribute of a call, if it is given and not none. -/
def attributeOf (c : Setting) (name : String) (e : Expr) : Except Error (Option Interchange.Attribute) := do
  match ← Evaluation.evalLiteral c.globals e with
  | .none => return none
  | v => return some (← Interchange.Attribute.ofLiteral name v)

/-- The attributes of the node of an operator: a remainder by a float literal is one of floats. -/
def operatorAttributes (c : Setting) (op : BinaryOp) (right : Expr) : List Interchange.Attribute :=
  if op = .mod ∧ right.isConstant then
    match Evaluation.evalLiteral c.globals right with
    | .ok (.float _) => [⟨"fmod", .int, .int 1⟩]
    | _ => []
  else []

end Setting

/-- An argument of a call: the expression, and its value if it is used as an input. -/
structure Actual (V : Type) where
  expr : Expr
  value : Outcome V

/-- An input of a call; the literal none stands for an omitted one. -/
def Actual.input {V : Type} (a : Actual V) : Outcome (Option V) :=
  match a.expr with
  | .constant _ .none => .ok none
  | _ => some <$> a.value

namespace Interpretation

variable {V : Type} (I : Interpretation V) (c : Setting)

/-- The value of the module-level literal of a name. -/
def global? (x : String) : Option V :=
  ((Members.get? c.globals x).bind (·.literal?)).map I.literal

/-- The value of a variable, or else of the module-level literal of that name. -/
def read? (σ : Values V) (x : String) : Option V :=
  (σ x).or (I.global? c x)

/-- A result that must not be an error. -/
def settled {α : Type} : Except Error α → Outcome α
  | .ok a => .ok a
  | .error _ => .error .stuck

/-- An operator of the home domain on values. -/
def operate (operator : String) (inputs : List V) (attributes : List Interchange.Attribute := []) : Outcome V :=
  I.outputs I.home operator attributes (inputs.map some) 1 >>= single

def join (operator : String) : V → List (Outcome V) → Outcome V
  | v, [] => .ok v
  | v, r :: rs => do
    let w ← r
    let u ← I.operate operator [v, w]
    join operator u rs

/-- A comparison; inequality is the negation of equality. -/
def compare (op : CompareOp) (v w : V) : Outcome V :=
  match Lowering.compareOp? op with
  | none => .error .stuck
  | some name => do
    let u ← I.operate name [v, w]
    if op = .notEq then I.operate "Not" [u] else return u

/-- That many outputs of a call. -/
def call (func : Expr) (args : List (Actual V)) (keywords : List (String × Actual V)) (count : ℕ) :
    Outcome (List V) := do
  let (op, params) ← Outcome.ofOption .stuck (c.callee? func)
  let split ← settled (Arguments.split params args keywords op.text)
  let inputs ← split.inputs.mapM fun x => match x with
    | none => .ok none
    | some a => a.input
  let attributes ← settled (split.attrs.filterMapM fun (name, a) => c.attributeOf name a.expr)
  I.outputs op.domain op.name attributes inputs count

mutual
/-- The value of an expression. -/
def evalExpr (σ : Values V) (e : Expr) : Outcome V :=
  if e.isConstant then I.literal <$> settled (Evaluation.evalLiteral c.globals e)
  else match e with
    | .name _ id => .ofOption .stuck (I.read? c σ id)
    | .call _ func args keywords => I.call c func (evalArgs σ args) (evalKeywords σ keywords) 1 >>= single
    | .binary _ l op r =>
      match Lowering.binaryOp? op with
      | none => .error .stuck
      | some name => do
        let v ← evalExpr σ l
        let w ← evalExpr σ r
        I.operate name [v, w] (c.operatorAttributes op r)
    | .boolean _ op es =>
      match evalArgs σ es with
      | a :: b :: rest => do
        let v ← a.value
        I.join op.label v ((b :: rest).map (·.value))
      | _ => .error .stuck
    | .unary _ op e =>
      match Lowering.unaryOp? op with
      | none => .error .stuck
      | some name => do
        let v ← evalExpr σ e
        I.operate name [v]
    | .compare _ l ops es =>
      match ops, evalArgs σ es with
      | [op], a :: _ => do
        let v ← evalExpr σ l
        let w ← a.value
        I.compare op v w
      | _, _ => .error .stuck
    | _ => .error .stuck
def evalArgs (σ : Values V) : List Expr → List (Actual V)
  | [] => []
  | e :: es => ⟨e, evalExpr σ e⟩ :: evalArgs σ es
def evalKeywords (σ : Values V) : List Keyword → List (String × Actual V)
  | [] => []
  | ⟨_, name, e⟩ :: ks => (name, ⟨e, evalExpr σ e⟩) :: evalKeywords σ ks
end

end Interpretation

/-! ### Statements -/

/-- How a statement is left: to the one after it, out of the innermost loop, or with results. -/
inductive Completion (V : Type) where
  | next (σ : Values V)
  | brk (σ : Values V)
  | ret (results : List V)

def targetNames? (targets : List Expr) : Option (List String) :=
  targets.mapM fun t => match t with
    | .name _ id => some id
    | _ => none

namespace Interpretation

variable {V : Type} (I : Interpretation V) (c : Setting)

def assign (σ : Values V) (target value : Expr) : Outcome (Values V) :=
  match target, value with
  | .name _ id, value => σ.set id <$> I.evalExpr c σ value
  | .tuple _ targets, .call _ func args keywords => do
    let ids ← Outcome.ofOption .stuck (targetNames? targets)
    let values ← I.call c func (I.evalArgs c σ args) (I.evalKeywords c σ keywords) ids.length
    σ.setAll ids values
  | _, _ => .error .stuck

/-- Repeats a body while a test holds, for at most that many rounds. -/
def whileRounds (test : Values V → Outcome Bool) (body : Values V → Outcome (Completion V)) :
    (left : ℕ) → Values V → Outcome (Completion V)
  | 0, σ => do if ← test σ then .error .fuel else return .next σ
  | left + 1, σ => do
    if ← test σ then
      match ← body σ with
      | .next σ' => whileRounds test body left σ'
      | .brk σ' => return .next σ'
      | .ret vs => return .ret vs
    else return .next σ

/-- Repeats a body for each value of a counter. -/
def forRounds (counter : String) (body : Values V → Outcome (Completion V)) :
    (left : ℕ) → (k : ℕ) → Values V → Outcome (Completion V)
  | 0, _, σ => .ok (.next σ)
  | left + 1, k, σ => do
    match ← body (σ.set counter (I.index k)) with
    | .next σ' => forRounds counter body left (k + 1) σ'
    | .brk σ' => return .next σ'
    | .ret vs => return .ret vs

variable {ν : Type}

mutual
/-- Runs a statement; a loop that tests is given as many rounds as there is fuel. -/
def exec (fuel : ℕ) : Stmt ν → Values V → Outcome (Completion V)
  | .assign _ [target] value, σ => .next <$> I.assign c σ target value
  | .annAssign _ target _ (some value), σ => .next <$> I.assign c σ target value
  | .ret _ (some (.tuple _ es)), σ => .ret <$> (I.evalArgs c σ es).mapM (·.value)
  | .ret _ (some e), σ => (fun v => .ret [v]) <$> I.evalExpr c σ e
  | .cond _ test body orelse, σ => do
    if I.truth (← I.evalExpr c σ test) then execAll fuel body σ else execAll fuel orelse σ
  | .whileLoop _ test body [], σ => whileRounds (fun σ => I.truth <$> I.evalExpr c σ test) (execAll fuel body) fuel σ
  | .forLoop _ (.name _ i) (.call _ (.name _ "range") [n] []) body [], σ => do
    I.forRounds i (execAll fuel body) (I.count (← I.evalExpr c σ n)) 0 σ
  | .brk _, σ => .ok (.brk σ)
  | .pass _, σ => .ok (.next σ)
  | .expr m e, σ =>
    if (Stmt.expr m e).docstring?.isSome || (Stmt.expr m e).isPrint then .ok (.next σ) else .error .stuck
  | _, _ => .error .stuck
def execAll (fuel : ℕ) : List (Stmt ν) → Values V → Outcome (Completion V)
  | [], σ => .ok (.next σ)
  | s :: ss, σ => do
    match ← exec fuel s σ with
    | .next σ' => execAll fuel ss σ'
    | .brk σ' => return .brk σ'
    | .ret vs => return .ret vs
end

/-- What comes after a statement, if the statement is left to it. -/
def followedBy (rest : Values V → Outcome (Completion V)) : Completion V → Outcome (Completion V)
  | .next σ => rest σ
  | .brk σ => .ok (.brk σ)
  | .ret vs => .ok (.ret vs)

theorem execAll_nil (fuel : ℕ) : I.execAll c fuel ([] : List (Stmt ν)) = fun σ => .ok (.next σ) := by
  funext σ
  rw [execAll]

theorem execAll_cons (fuel : ℕ) (s : Stmt ν) (ss : List (Stmt ν)) :
    I.execAll c fuel (s :: ss) = fun σ => I.exec c fuel s σ >>= followedBy (I.execAll c fuel ss) := by
  funext σ
  rw [execAll]
  congr

def results : Completion V → Outcome (List V)
  | .ret vs => .ok vs
  | .next _ => .ok []
  | .brk _ => .error .stuck

/-- The results of a function on arguments. -/
def run (fuel : ℕ) (fn : FunctionDef ν) (args : List V) : Outcome (List V) := do
  let σ ← Values.setAll (fun _ => none) (fn.params.map (·.name)) args
  I.execAll c fuel fn.body σ >>= results

end Interpretation

end OpGraph
