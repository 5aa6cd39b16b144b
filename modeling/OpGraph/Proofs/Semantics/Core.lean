import OpGraph.Evaluation
import OpGraph.Proofs.Analysis.Liveness

/-!
The control-flow core of the language: functions whose statements assign the values of operators and calls to names,
branch and loop. Subscripts, nested functions and assignments of several values at once are left out.
-/

namespace OpGraph

namespace Expr

mutual
/-- Whether an expression is built from names, constant expressions, operators and calls. -/
def isPlain (e : Expr) : Bool :=
  e.isConstant || match e with
    | .name .. => true
    | .binary _ l _ r => l.isPlain && r.isPlain
    | .unary _ _ e => e.isPlain
    | .boolean _ _ es => allPlain es
    | .compare _ l _ es => l.isPlain && allPlain es
    | .call _ _ args keywords => allPlain args && keywordsPlain keywords
    | _ => false
def allPlain : List Expr → Bool
  | [] => true
  | e :: es => e.isPlain && allPlain es
def keywordsPlain : List Keyword → Bool
  | [] => true
  | ⟨_, _, e⟩ :: ks => e.isPlain && keywordsPlain ks
end

end Expr

variable {ν : Type}

namespace Stmt

mutual
/-- Whether a statement is in the core. The given names are read elsewhere, so that no loop may count with them; a loop
does not assign its counter. -/
def isCore (elsewhere : List String) : Stmt ν → Bool
  | .assign _ [.name _ _] value => value.isPlain
  | .assign _ [.tuple _ _] (.call pos func args keywords) => (Expr.call pos func args keywords).isPlain
  | .annAssign _ (.name _ _) _ (some value) => value.isPlain
  | .ret _ (some (.tuple _ es)) => Expr.allPlain es
  | .ret _ (some e) => e.isPlain
  | .cond _ test body orelse => test.isPlain && allCore elsewhere body && allCore elsewhere orelse
  | .whileLoop _ test body _ => test.isPlain && allCore elsewhere body
  | .forLoop _ (.name _ i) (.call _ (.name _ "range") [n] []) body _ =>
    n.isPlain && i ∉ elsewhere && i ∉ assignsAll body && allCore (i :: elsewhere) body
  | .brk _ | .pass _ | .expr .. => true
  | _ => false
def allCore (elsewhere : List String) : List (Stmt ν) → Bool
  | [] => true
  | s :: ss => s.isCore elsewhere && allCore elsewhere ss
end

variable {elsewhere : List String} {m : Mark ν}

theorem isCore_assign {targets : List Expr} {value : Expr} (h : (assign m targets value).isCore elsewhere) :
    value.isPlain ∧ ((∃ p id, targets = [.name p id]) ∨
      ∃ p ts q func args keywords, targets = [.tuple p ts] ∧ value = .call q func args keywords) := by
  unfold isCore at h
  split at h
  · rename_i heq
    cases heq
    exact ⟨h, .inl ⟨_, _, rfl⟩⟩
  · rename_i heq
    cases heq
    exact ⟨h, .inr ⟨_, _, _, _, _, _, rfl, rfl⟩⟩
  all_goals contradiction

theorem isCore_annAssign {target typeExpr : Expr} {value : Option Expr}
    (h : (annAssign m target typeExpr value).isCore elsewhere) :
    ∃ p id v, target = .name p id ∧ value = some v ∧ v.isPlain := by
  unfold isCore at h
  split at h
  case h_3 heq =>
    cases heq
    exact ⟨_, _, _, rfl, rfl, h⟩
  all_goals contradiction

theorem isCore_forLoop {target iter : Expr} {body orelse : List (Stmt ν)}
    (h : (forLoop m target iter body orelse).isCore elsewhere) :
    ∃ p i q r n, target = .name p i ∧ iter = .call q (.name r "range") [n] [] ∧ n.isPlain ∧ i ∉ elsewhere ∧
      i ∉ assignsAll body ∧ allCore (i :: elsewhere) body := by
  unfold isCore at h
  split at h
  case h_8 heq =>
    cases heq
    simp only [Bool.and_eq_true, decide_eq_true_eq] at h
    exact ⟨_, _, _, _, _, rfl, rfl, h.1.1.1, h.1.1.2, h.1.2, h.2⟩
  all_goals contradiction

end Stmt

/-- Whether a function is in the core: its statements are, a loop counts with a name that is read in its body only, and
no variable is nameless or has the name that the counters of loops without one get. -/
def FunctionDef.isCore (fn : FunctionDef ν) : Bool :=
  Stmt.allCore (Stmt.outerReadsAll fn.body) fn.body &&
    (fn.params.map (·.name) ++ Stmt.identifiersAll fn.body).all fun x => x ≠ "" && x ≠ "infinite_loop"

end OpGraph
