import OpGraph.Value.Basic
import OpGraph.Syntax.Tree

/-!
Detection of the default operator set of a function: the set of the first call `X.Op(...)` whose `X` is a module-level
name for a set of the default domain. The members of attribute expressions and the bounds of slices are not searched.
-/

namespace OpGraph

def Globals.defaultOpset? (globals : Globals) (name : String) : Option Opset :=
  match Members.get? globals name with
  | some (.opset _ o) => if o.isDefaultDomain then some o else none
  | _ => none

def Expr.calleeOpset? (globals : Globals) : Expr → Option Opset
  | .attr _ (.name _ id) _ => Globals.defaultOpset? globals id
  | _ => none

mutual
/-- The first operator set of the default domain that an expression calls an operator of. -/
def Expr.defaultOpset? (globals : Globals) : Expr → Option Opset
  | .call _ func args keywords =>
    (func.calleeOpset? globals).or
      ((Expr.firstDefaultOpset? globals args).or (Expr.keywordDefaultOpset? globals keywords))
  | .binary _ l _ r => (l.defaultOpset? globals).or (r.defaultOpset? globals)
  | .unary _ _ e => e.defaultOpset? globals
  | .boolean _ _ es => Expr.firstDefaultOpset? globals es
  | .compare _ l _ es => (l.defaultOpset? globals).or (Expr.firstDefaultOpset? globals es)
  | .subscript _ e s => (e.defaultOpset? globals).or (s.defaultOpset? globals)
  | .tuple _ es | .list _ es => Expr.firstDefaultOpset? globals es
  | .constant .. | .name .. | .attr .. | .slice .. => none
def Expr.firstDefaultOpset? (globals : Globals) : List Expr → Option Opset
  | [] => none
  | e :: es => (e.defaultOpset? globals).or (Expr.firstDefaultOpset? globals es)
def Expr.keywordDefaultOpset? (globals : Globals) : List Keyword → Option Opset
  | [] => none
  | ⟨_, _, e⟩ :: ks => (e.defaultOpset? globals).or (Expr.keywordDefaultOpset? globals ks)
end

variable {ν : Type}

mutual
def Stmt.defaultOpset? (globals : Globals) : Stmt ν → Option Opset
  | .assign _ targets e => (Expr.firstDefaultOpset? globals targets).or (e.defaultOpset? globals)
  | .annAssign _ _ _ e | .ret _ e => e.bind (·.defaultOpset? globals)
  | .expr _ e => e.defaultOpset? globals
  | .cond _ e body orelse | .whileLoop _ e body orelse | .forLoop _ _ e body orelse =>
    (e.defaultOpset? globals).or
      ((Stmt.firstDefaultOpset? globals body).or (Stmt.firstDefaultOpset? globals orelse))
  | .function _ ⟨_, _, _, body, _⟩ => Stmt.firstDefaultOpset? globals body
  | .brk _ | .pass _ | .imports .. | .importFrom .. => none
def Stmt.firstDefaultOpset? (globals : Globals) : List (Stmt ν) → Option Opset
  | [] => none
  | s :: ss => (s.defaultOpset? globals).or (Stmt.firstDefaultOpset? globals ss)
end

end OpGraph
