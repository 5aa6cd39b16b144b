import OpGraph.Analysis.Variables

/-!
Liveness of names: for each statement of a function, the names whose values may be read after it. The analysis runs
backwards; a loop is repeated until the names that flow back from the start of its body to its end no longer grow.
-/

namespace OpGraph

namespace Liveness

/-- Outcome for a part of a function: the names that are live before it, and the part with the names that are live after
each of its statements. -/
structure Flow (α : Type) where
  live : NameSet
  part : α

/-- Repeats `step` on the names that are live after a loop body, until `next` gives the same names again. Each round but
the last adds a name, so the number of names in the body bounds the rounds. -/
def settle {α : Type} (step : NameSet → Flow α) (next : NameSet → NameSet) : (rounds : Nat) → NameSet → Flow α
  | 0, after => step after
  | rounds + 1, after =>
    let flow := step after
    let wider := next flow.live
    if wider.same after then flow else settle step next rounds wider

variable {ν : Type}

mutual
def blank : Stmt ν → Stmt NameSet
  | .function m ⟨name, params, defaults, body, returns⟩ =>
    .function ⟨m.pos, ∅⟩ ⟨name, params, defaults, blankAll body, returns⟩
  | .assign m ts e => .assign ⟨m.pos, ∅⟩ ts e
  | .annAssign m t a e => .annAssign ⟨m.pos, ∅⟩ t a e
  | .ret m e => .ret ⟨m.pos, ∅⟩ e
  | .cond m e body orelse => .cond ⟨m.pos, ∅⟩ e (blankAll body) (blankAll orelse)
  | .forLoop m t e body orelse => .forLoop ⟨m.pos, ∅⟩ t e (blankAll body) (blankAll orelse)
  | .whileLoop m e body orelse => .whileLoop ⟨m.pos, ∅⟩ e (blankAll body) (blankAll orelse)
  | .brk m => .brk ⟨m.pos, ∅⟩
  | .pass m => .pass ⟨m.pos, ∅⟩
  | .expr m e => .expr ⟨m.pos, ∅⟩ e
  | .imports m as => .imports ⟨m.pos, ∅⟩ as
  | .importFrom m module as => .importFrom ⟨m.pos, ∅⟩ module as
def blankAll : List (Stmt ν) → List (Stmt NameSet)
  | [] => []
  | s :: ss => blank s :: blankAll ss
end

mutual
/-- Analyses a statement from the names that are live after it and those that are live after the innermost loop. -/
def analyze (after exit : NameSet) : Stmt ν → Flow (Stmt NameSet)
  | .assign m ts e =>
    ⟨(after.diff (.ofList (Expr.targetsAll ts))).union e.uses, .assign ⟨m.pos, after⟩ ts e⟩
  | .annAssign m t a e =>
    ⟨(after.diff (.ofList t.targets)).union (Expr.usesOption e), .annAssign ⟨m.pos, after⟩ t a e⟩
  | .ret m e => ⟨Expr.usesOption e, .ret ⟨m.pos, after⟩ e⟩
  | .cond m e body orelse =>
    let body := analyzeAll after exit body
    let orelse := analyzeAll after exit orelse
    ⟨(body.live.union orelse.live).union e.uses, .cond ⟨m.pos, after⟩ e body.part orelse.part⟩
  | .forLoop m t e body orelse =>
    let targets := NameSet.ofList t.targets
    let body := settle (fun out => analyzeAll out after body) (fun live => after.union (live.diff targets))
      (Stmt.occurrencesAll body).length after
    ⟨((body.live.diff targets).union e.uses).union (after.diff targets),
      .forLoop ⟨m.pos, after⟩ t e body.part (blankAll orelse)⟩
  | .whileLoop m e body orelse =>
    let start := after.union e.uses
    let body := settle (fun out => analyzeAll out after body) (fun live => start.union live)
      (Stmt.occurrencesAll body).length start
    ⟨(body.live.union e.uses).union after, .whileLoop ⟨m.pos, after⟩ e body.part (blankAll orelse)⟩
  | .brk m => ⟨exit, .brk ⟨m.pos, after⟩⟩
  | .function m ⟨name, params, defaults, body, returns⟩ =>
    let body := analyzeAll ∅ ∅ body
    let captured := body.live.diff (.ofList (params.map (·.name)))
    ⟨(after.diff (.ofList [name])).union captured,
      .function ⟨m.pos, after⟩ ⟨name, params, defaults, body.part, returns⟩⟩
  | .imports m as => ⟨after.diff (.ofList (as.map Stmt.importName)), .imports ⟨m.pos, after⟩ as⟩
  | .importFrom m module as =>
    ⟨after.diff (.ofList (as.map fun a => a.asName.getD a.name)), .importFrom ⟨m.pos, after⟩ module as⟩
  | .expr m e => ⟨after.union e.uses, .expr ⟨m.pos, after⟩ e⟩
  | .pass m => ⟨after, .pass ⟨m.pos, after⟩⟩
def analyzeAll (after exit : NameSet) : List (Stmt ν) → Flow (List (Stmt NameSet))
  | [] => ⟨after, []⟩
  | s :: ss =>
    let rest := analyzeAll after exit ss
    let first := analyze rest.live exit s
    ⟨first.live, first.part :: rest.part⟩
end

end Liveness

variable {ν : Type}

/-- Names that statements read before they assign them. -/
def Stmt.exposed (ss : List (Stmt ν)) : NameSet :=
  (Liveness.analyzeAll ∅ ∅ ss).live

/-- Names that a function reads from the scopes around it. -/
def FunctionDef.captured (fn : FunctionDef ν) : NameSet :=
  (Stmt.exposed fn.body).diff fn.paramNames

def FunctionDef.analyze (fn : FunctionDef ν) : FunctionDef NameSet :=
  { name := fn.name, params := fn.params, defaults := fn.defaults, returns := fn.returns
    body := (Liveness.analyzeAll ∅ ∅ fn.body).part }

end OpGraph
