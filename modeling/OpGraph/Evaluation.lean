import OpGraph.Value.Compare

/-!
Evaluation of constant expressions over module-level names. Names of a function being lowered are not visible.
-/

namespace OpGraph

mutual
/-- Whether an expression is built from literals by operators and list displays. Names never count, whatever they are
bound to. -/
def Expr.isConstant : Expr → Bool
  | .constant .. => true
  | .unary _ _ e => e.isConstant
  | .binary _ l _ r => l.isConstant && r.isConstant
  | .compare _ l _ cs => l.isConstant && Expr.allConstant cs
  | .list _ es => Expr.allConstant es
  | _ => false
def Expr.allConstant : List Expr → Bool
  | [] => true
  | e :: es => e.isConstant && Expr.allConstant es
end

/-! ### Types -/

def Dim.ofValue : Value → Except Error Dim
  | .int n => .ok (.size n)
  | .str s => .ok (.symbol s)
  | .none => .ok .unknown
  | v => evalError (.dimension v.text)

def DeclaredType.withShape (t : DeclaredType) (args : List Value) : Except Error DeclaredType :=
  match t with
  | .tensor element none => do return .tensor element (some (← args.mapM Dim.ofValue))
  | .tensor .. => evalError (.shaped t.text)
  | t => evalError (.notSubscriptable t.kind)

namespace Generic

def argument (g : Generic) : Value → Except Error DeclaredType
  | .type _ t => .ok t
  | _ => evalError (.typeArgument g.name)

/-- A generic type applied to its arguments; only tuples take other than one. -/
def apply (g : Generic) (args : List Value) : Except Error DeclaredType := do
  let types ← args.mapM g.argument
  match g, types with
  | .sequence spelling, [t] => return .sequence t spelling
  | .optional, [t] => return .optional t
  | .upperTuple, ts | .lowerTuple, ts => return .tuple ts
  | g, _ => evalError (.typeArity g.name)

end Generic

namespace Evaluation

def errorAt {α : Type} (f : EvalFault) (p : Position) : Except Error α :=
  .error ⟨.eval f, some p.location⟩

def located {α : Type} (l : Location) : Except Error α → Except Error α
  | .ok a => .ok a
  | .error e => .error (e.located l)

/-! ### Parts of objects -/

/-- A member of a value: an operator of a set, or a name of a module. -/
def member (v : Value) (name : String) : Except Error Value :=
  match v with
  | .opset _ o => .ok (.op none (o.op name))
  | .module _ m members =>
    match Members.get? members name with
    | some w => .ok w
    | none => evalError (.unboundName (m ++ "." ++ name))
  | v => evalError (.noAttribute v.typeName name)

/-- An item of a list, counted from the end if the index is negative. -/
def item (vs : List Value) (i : Int) : Option Value :=
  let i := if i < 0 then vs.length + i else i
  if i < 0 then none else vs[i.toNat]?

def subscript (pos : Position) (v : Value) (args : List Value) : Except Error Value :=
  match v, args with
  | .type _ (.tensor e s), args => do return .type none (← (DeclaredType.tensor e s).withShape args)
  | .generic _ g, args => do return .type none (← g.apply args)
  | .list _ vs, [.int i] =>
    match item vs i with
    | some w => .ok w
    | none => errorAt .indexRange pos
  | v, _ => errorAt (.notSubscriptable v.typeName) pos

/-- An argument of a builtin: the positional one unless it is none or missing, the keyword otherwise. -/
def argument (args : List Value) (keywords : List (String × Value)) (i : Nat) (name : String) : Option Value :=
  match args[i]? with
  | none | some .none => Members.get? keywords name
  | some v => some v

def callBuiltin (b : Builtin) (args : List Value) (keywords : List (String × Value)) : Except Error Value :=
  match argument args keywords 0 "domain", argument args keywords 1 "version" with
  | some (.str domain), some (.int version) =>
    .ok (.opset none { domain, version := Version.ofInt version, registry := b.registry })
  | _, _ => evalError .opsetArguments

/-! ### Expressions -/

def requireLiteral (pos : Position) (v : Value) : Except Error Literal :=
  match v.literal? with
  | some l => .ok l
  | none => errorAt (.notLiteral v.typeName) pos

variable (globals : Globals)

mutual
def eval : Expr → Except Error Value
  | .constant _ v => .ok (.ofLiteral v)
  | .name pos id =>
    match Members.get? globals id with
    | some v => .ok v
    | none => errorAt (.unboundName id) pos
  | .list _ es | .tuple _ es => do return .list none (← evalItems es)
  | .binary pos l op r => do
    let a ← eval l
    let b ← eval r
    located pos.location (Arithmetic.binary op a b)
  | .unary pos op e => do Arithmetic.unary op pos (← eval e)
  | .boolean _ op es => evalBoolean op es
  | .compare _ l ops es => do evalCompare (← eval l) ops es
  | .attr _ e name => do member (← eval e) name
  | .subscript pos e s => do
    let v ← eval e
    match s with
    | .tuple _ es => subscript pos v (← evalAll es)
    | s => subscript pos v [← eval s]
  | .call _ f args keywords => do
    match ← eval f with
    | .builtin _ b =>
      let named ← evalKeywords keywords
      callBuiltin b (← evalAll args) named
    | v => errorAt (.notCallable v.typeName) f.pos
  | .slice pos .. => errorAt .slice pos
def evalAll : List Expr → Except Error (List Value)
  | [] => .ok []
  | e :: es => do return (← eval e) :: (← evalAll es)
def evalItems : List Expr → Except Error (List Value)
  | [] => .ok []
  | e :: es => do
    let v ← eval e
    discard (requireLiteral e.pos v)
    return v :: (← evalItems es)
/-- Values of keyword arguments; the last one of a name counts. -/
def evalKeywords : List Keyword → Except Error (List (String × Value))
  | [] => .ok []
  | ⟨_, arg, e⟩ :: ks => do
    let v ← eval e
    let rest ← evalKeywords ks
    return if (Members.get? rest arg).isSome then rest else (arg, v) :: rest
def evalBoolean (op : BoolOp) : List Expr → Except Error Value
  | [] => .ok .none
  | [e] => eval e
  | e :: es => do
    let v ← eval e
    if v.isTruthy = (op == .or) then return v else evalBoolean op es
def evalCompare (left : Value) : List CompareOp → List Expr → Except Error Value
  | op :: ops, e :: es => do
    let right ← eval e
    if ← Comparison.apply op left right then evalCompare right ops es else return .bool false
  | _, _ => .ok (.bool true)
end

def evalLiteral (e : Expr) : Except Error Literal := do
  requireLiteral e.pos (← eval globals e)

end Evaluation

end OpGraph
