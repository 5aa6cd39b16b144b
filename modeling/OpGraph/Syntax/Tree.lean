import OpGraph.Literal
import OpGraph.Source.Location

/-!
Syntax trees of scripts. Every node carries the position of its first token; statements also carry a note, which an
analysis fills in.
-/

namespace OpGraph

/-! ### Operators -/

inductive BinaryOp where
  | add | sub | mult | div | floorDiv | mod | pow | matMult | bitAnd | bitOr | bitXor | lShift | rShift
  deriving DecidableEq, Repr

inductive UnaryOp where
  | minus | plus | not | invert
  deriving DecidableEq, Repr

inductive BoolOp where
  | and | or
  deriving DecidableEq, Repr

inductive CompareOp where
  | eq | notEq | lt | ltE | gt | gtE | isIn | notIn | is | isNot
  deriving DecidableEq, Repr

def BinaryOp.label : BinaryOp → String
  | add => "Add"
  | sub => "Sub"
  | mult => "Mult"
  | div => "Div"
  | floorDiv => "FloorDiv"
  | mod => "Mod"
  | pow => "Pow"
  | matMult => "MatMult"
  | bitAnd => "BitAnd"
  | bitOr => "BitOr"
  | bitXor => "BitXor"
  | lShift => "LShift"
  | rShift => "RShift"

def UnaryOp.label : UnaryOp → String
  | minus => "USub"
  | plus => "UAdd"
  | not => "Not"
  | invert => "Invert"

def BoolOp.label : BoolOp → String
  | and => "And"
  | or => "Or"

def CompareOp.label : CompareOp → String
  | eq => "Eq"
  | notEq => "NotEq"
  | lt => "Lt"
  | ltE => "LtE"
  | gt => "Gt"
  | gtE => "GtE"
  | isIn => "In"
  | notIn => "NotIn"
  | is => "Is"
  | isNot => "IsNot"

/-! ### Expressions -/

mutual
/-- An expression. A comparison `left op₁ c₁ op₂ c₂ …` lists its operators and its comparators apart. -/
inductive Expr where
  | constant (pos : Position) (value : Literal)
  | name (pos : Position) (id : String)
  | binary (pos : Position) (left : Expr) (op : BinaryOp) (right : Expr)
  | unary (pos : Position) (op : UnaryOp) (operand : Expr)
  | boolean (pos : Position) (op : BoolOp) (values : List Expr)
  | compare (pos : Position) (left : Expr) (ops : List CompareOp) (comparators : List Expr)
  | call (pos : Position) (func : Expr) (args : List Expr) (keywords : List Keyword)
  | attr (pos : Position) (value : Expr) (member : String)
  | subscript (pos : Position) (value : Expr) (slice : Expr)
  | slice (pos : Position) (lower upper step : Option Expr)
  | tuple (pos : Position) (elts : List Expr)
  | list (pos : Position) (elts : List Expr)

structure Keyword where
  pos : Position
  arg : String
  value : Expr
end

instance : Inhabited Expr := ⟨.constant default default⟩

namespace Expr

def pos : Expr → Position
  | constant p _ | name p _ | binary p .. | unary p .. | boolean p .. | compare p .. | call p .. | attr p ..
  | subscript p .. | slice p .. | tuple p _ | list p _ => p

def label : Expr → String
  | constant .. => "Constant"
  | name .. => "Name"
  | binary .. => "BinOp"
  | unary .. => "UnaryOp"
  | boolean .. => "BoolOp"
  | compare .. => "Compare"
  | call .. => "Call"
  | attr .. => "Attribute"
  | subscript .. => "Subscript"
  | slice .. => "Slice"
  | tuple .. => "Tuple"
  | list .. => "List"

end Expr

/-! ### Statements -/

structure Mark (ν : Type) where
  pos : Position
  note : ν

structure Param where
  pos : Position
  name : String
  typeExpr : Option Expr

/-- A name in an import, with the name it is bound to if that is another one. -/
structure Alias where
  name : String
  asName : Option String

mutual
/-- A statement whose parts carry notes of type `ν`. -/
inductive Stmt (ν : Type) where
  | function (mark : Mark ν) (fn : FunctionDef ν)
  | assign (mark : Mark ν) (targets : List Expr) (value : Expr)
  | annAssign (mark : Mark ν) (target typeExpr : Expr) (value : Option Expr)
  | ret (mark : Mark ν) (value : Option Expr)
  | cond (mark : Mark ν) (test : Expr) (body orelse : List (Stmt ν))
  | forLoop (mark : Mark ν) (target iter : Expr) (body orelse : List (Stmt ν))
  | whileLoop (mark : Mark ν) (test : Expr) (body orelse : List (Stmt ν))
  | brk (mark : Mark ν)
  | pass (mark : Mark ν)
  | expr (mark : Mark ν) (value : Expr)
  | imports (mark : Mark ν) (names : List Alias)
  | importFrom (mark : Mark ν) (module : String) (names : List Alias)

/-- A function definition. The defaults belong to the last parameters. -/
structure FunctionDef (ν : Type) where
  name : String
  params : List Param
  defaults : List Expr
  body : List (Stmt ν)
  returns : Option Expr
end

namespace Stmt

variable {ν : Type}

def mark : Stmt ν → Mark ν
  | function m _ | assign m .. | annAssign m .. | ret m _ | cond m .. | forLoop m .. | whileLoop m .. | brk m | pass m
  | expr m _ | imports m _ | importFrom m .. => m

def pos (s : Stmt ν) : Position :=
  s.mark.pos

def note (s : Stmt ν) : ν :=
  s.mark.note

def label : Stmt ν → String
  | function .. => "FunctionDef"
  | assign .. => "Assign"
  | annAssign .. => "AnnAssign"
  | ret .. => "Return"
  | cond .. => "If"
  | forLoop .. => "For"
  | whileLoop .. => "While"
  | brk .. => "Break"
  | pass .. => "Pass"
  | expr .. => "Expr"
  | imports .. => "Import"
  | importFrom .. => "ImportFrom"

def docstring? : Stmt ν → Option String
  | expr _ (.constant _ (.str s)) => some s
  | _ => none

/-- Whether a statement is a call of `print`, which has no effect on a graph. -/
def isPrint : Stmt ν → Bool
  | expr _ (.call _ (.name _ "print") _ _) => true
  | _ => false

end Stmt

abbrev Script := List (Stmt Unit)

end OpGraph
