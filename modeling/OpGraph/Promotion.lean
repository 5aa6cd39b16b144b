import OpGraph.Names
import OpGraph.Schema.Operator
import OpGraph.Tensor

/-!
Promotion of literals that are used as operator arguments. A literal takes the type of the first argument that shares
its type variable and whose type is known. In a graph this is done by a `CastLike` node; on run-time values the
literal is converted at once. Both follow the same assignment of arguments to arguments.
-/

namespace OpGraph

/-! ### Type variables -/

namespace Promotion

/-- The type variable through which an argument of a formal input takes its type: none for concrete types and for inputs
that take arguments of different types. -/
def typeVariable? (f : Formal) : Option String :=
  if f.option == .variadic && !f.homogeneous then none
  else if isTypeVariable f.type then some f.type
  else none

/-- Formal inputs for that many arguments; the last one repeats if it is variadic. -/
def formals? (inputs : List Formal) (count : Nat) : Option (List Formal) :=
  if count ≤ inputs.length then some (inputs.take count)
  else match inputs.getLast? with
    | some f => if f.option == .variadic then some (inputs ++ List.replicate (count - inputs.length) f) else none
    | none => none

variable {α τ : Type}

/-- What is known of the first argument with the given type variable that has a known type. -/
def binding? (typeOf : α → Option τ) (args : List (α × Option String)) (v : String) : Option τ :=
  args.findSome? fun (x, w) => if w = some v then typeOf x else none

/-- Pairs each argument with what is known of its type variable. Arguments of an unknown operator are paired with
nothing. -/
def assign (typeOf : α → Option τ) (schema : Option (List Formal)) (args : List α) :
    Except Error (List (α × Option τ)) :=
  match schema with
  | none => .ok (args.map fun x => (x, none))
  | some inputs =>
    match formals? inputs args.length with
    | none => .error ⟨.call (.tooManyActuals args.length inputs.length), none⟩
    | some formals =>
      let pairs := args.zip (formals.map typeVariable?)
      .ok (pairs.map fun (x, v) => (x, v.bind (binding? typeOf pairs)))

def castInputs {m : Type → Type} [Monad m] [MonadExceptOf Error m] {β : Type} (typeOf : α → Option τ)
    (cast : α × Option τ → m β) (schema : Option (List Formal)) (args : List α) : m (List β) :=
  match assign typeOf schema args with
  | .error e => throw e
  | .ok pairs => pairs.mapM cast

end Promotion

/-! ### Graph values -/

/-- A lowered expression: the name of its value, and whether it came from a literal. An empty name stands for an omitted
optional input. -/
structure Operand where
  name : String
  isConst : Bool := false
  deriving DecidableEq, Repr

def Operand.omitted : Operand :=
  { name := "" }

structure CastLike where
  output : String
  input : String
  like : String
  deriving DecidableEq, Repr

namespace Promotion

/-- An operand tells its type if it is given and no literal. -/
def operandType (x : Operand) : Option Operand :=
  if x.isConst || x.name == "" then none else some x

structure Casts where
  inputs : List String
  casts : List CastLike
  names : Names

def addOperand (c : Casts) (arg : Operand × Option Operand) : Casts :=
  match arg with
  | (x, some y) =>
    if x.isConst then
      let (name, names) := c.names.generate (x.name ++ "_cast")
      { inputs := c.inputs ++ [name], casts := c.casts ++ [⟨name, x.name, y.name⟩], names }
    else { c with inputs := c.inputs ++ [x.name] }
  | (x, none) => { c with inputs := c.inputs ++ [x.name] }

def castOperand (arg : Operand × Option Operand) : StateT Casts (Except Error) PUnit :=
  modify (addOperand · arg)

def ofOperands (names : Names) (schema : Option (List Formal)) (args : List Operand) : Except Error Casts := do
  return (← (castInputs operandType castOperand schema args).run ⟨[], [], names⟩).2

theorem run_mapM_castOperand (pairs : List (Operand × Option Operand)) (c : Casts) :
    (pairs.mapM castOperand).run c = .ok (pairs.map fun _ => ⟨⟩, pairs.foldl addOperand c) := by
  induction pairs generalizing c with
  | nil => rfl
  | cons p pairs ih =>
    rw [List.mapM_cons, StateT.run_bind]
    change ((pairs.mapM castOperand >>= fun us => pure (⟨⟩ :: us)).run (addOperand c p)) = _
    rw [StateT.run_bind, ih]
    rfl

theorem ofOperands_eq (names : Names) (schema : Option (List Formal)) (args : List Operand) :
    ofOperands names schema args =
      (do return (← assign operandType schema args).foldl addOperand ⟨[], [], names⟩ : Except Error Casts) := by
  unfold ofOperands castInputs
  cases assign operandType schema args with
  | error e => rfl
  | ok pairs =>
    change (pairs.mapM castOperand).run ⟨[], [], names⟩ >>= _ = _
    rw [run_mapM_castOperand]
    rfl

end Promotion

/-! ### Run-time values -/

inductive Argument where
  | literal (v : Literal)
  | tensor (t : Tensor)

namespace Promotion

mutual
/-- Whether a literal is promoted: a truth value, a number, or a list that is empty or starts with such a value. -/
def isPromotable : Literal → Bool
  | .bool _ | .int _ | .float _ => true
  | .list vs => startsPromotable vs
  | .none | .str _ => false
def startsPromotable : List Literal → Bool
  | [] => true
  | v :: _ => isPromotable v
end

/-- Promotes a literal to a tensor, of the given type if there is one; other values stay. -/
def toArgument (v : Literal) (dtype : Option ElementType) : Except Error Argument :=
  if isPromotable v then .tensor <$> v.toTensor dtype else .ok (.literal v)

def argumentType : Argument → Option ElementType
  | .tensor t => some t.dtype
  | .literal _ => none

def castArgument : Argument × Option ElementType → Except Error Argument
  | (.literal v, dtype) => toArgument v dtype
  | (.tensor t, _) => .ok (.tensor t)

def ofArguments (schema : Option (List Formal)) (args : List Argument) : Except Error (List Argument) :=
  castInputs argumentType castArgument schema args

end Promotion

end OpGraph
