import OpGraph.NameSet
import OpGraph.Syntax.Tree

/-!
Names that expressions read and statements assign. The callee of a call is not read: it names an operator or a function,
never a graph value.
-/

namespace OpGraph

namespace Expr

mutual
/-- Names that an expression reads, from left to right. -/
def reads : Expr → List String
  | constant .. => []
  | name _ id => [id]
  | binary _ l _ r => l.reads ++ r.reads
  | unary _ _ e => e.reads
  | boolean _ _ es => readsAll es
  | compare _ l _ es => l.reads ++ readsAll es
  | call _ _ args keywords => readsAll args ++ readsKeywords keywords
  | attr _ e _ => e.reads
  | subscript _ e s => e.reads ++ s.reads
  | slice _ l u s => readsOption l ++ readsOption u ++ readsOption s
  | tuple _ es => readsAll es
  | list _ es => readsAll es
def readsAll : List Expr → List String
  | [] => []
  | e :: es => e.reads ++ readsAll es
def readsOption : Option Expr → List String
  | none => []
  | some e => e.reads
def readsKeywords : List Keyword → List String
  | [] => []
  | ⟨_, _, e⟩ :: ks => e.reads ++ readsKeywords ks
end

def uses (e : Expr) : NameSet :=
  .ofList e.reads

def usesOption (e : Option Expr) : NameSet :=
  .ofList (readsOption e)

mutual
def targets : Expr → List String
  | name _ id => [id]
  | tuple _ es | list _ es => targetsAll es
  | _ => []
def targetsAll : List Expr → List String
  | [] => []
  | e :: es => e.targets ++ targetsAll es
end

end Expr

namespace Stmt

variable {ν : Type}

/-- The name that an import binds: the alias, or the first part of a dotted name. -/
def importName (a : Alias) : String :=
  a.asName.getD (String.ofList (a.name.toList.takeWhile (· != '.')))

mutual
/-- Names that a statement assigns, in the order of the text. The else block of a loop does not count. -/
def assigns : Stmt ν → List String
  | function _ fn => [fn.name]
  | assign _ ts _ => Expr.targetsAll ts
  | annAssign _ t _ _ => t.targets
  | cond _ _ body orelse => assignsAll body ++ assignsAll orelse
  | forLoop _ t _ body _ => t.targets ++ assignsAll body
  | whileLoop _ _ body _ => assignsAll body
  | imports _ as => as.map importName
  | importFrom _ _ as => as.map fun a => a.asName.getD a.name
  | ret .. | brk _ | pass _ | expr .. => []
def assignsAll : List (Stmt ν) → List String
  | [] => []
  | s :: ss => s.assigns ++ assignsAll ss
end

def defs (s : Stmt ν) : NameSet :=
  .ofList s.assigns

def defsAll (ss : List (Stmt ν)) : NameSet :=
  .ofList (assignsAll ss)

mutual
/-- Names that occur in a statement where it reads values, nested functions included. -/
def occurrences : Stmt ν → List String
  | function _ ⟨_, _, _, body, _⟩ => occurrencesAll body
  | assign _ _ e => e.reads
  | annAssign _ _ _ e => Expr.readsOption e
  | ret _ e => Expr.readsOption e
  | cond _ e body orelse => e.reads ++ occurrencesAll body ++ occurrencesAll orelse
  | forLoop _ _ e body _ => e.reads ++ occurrencesAll body
  | whileLoop _ e body _ => e.reads ++ occurrencesAll body
  | expr _ e => e.reads
  | imports .. | importFrom .. | brk _ | pass _ => []
def occurrencesAll : List (Stmt ν) → List String
  | [] => []
  | s :: ss => s.occurrences ++ occurrencesAll ss
end

end Stmt

def FunctionDef.paramNames {ν : Type} (fn : FunctionDef ν) : NameSet :=
  .ofList (fn.params.map (·.name))

end OpGraph
