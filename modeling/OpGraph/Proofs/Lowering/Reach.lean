import OpGraph.Proofs.Assertions.Statements

/-!
The points that the lowering of a function goes through: where it is about to lower a statement or the rest of a block,
in which state, and by what each open scope was opened. At every such point the values of a scope are apart from those of
the scopes around it, except that a function may have a parameter with the name of a value around it.
-/

namespace OpGraph

open List

variable {domain name : String} {x : Stmt NameSet} {v : String} {u : Unit}

/-- What opened a scope: a function or a block. -/
inductive ScopeKind where
  | function
  | block
  deriving DecidableEq, Repr

namespace Scopes

/-- The values of each scope are apart from those of the scopes around it, parameters of functions excepted. -/
def Distinct : List ScopeKind → Scopes → Prop
  | k :: ks, f :: fs =>
    (∀ x ∈ f.fn.values, x ∈ visible fs → k = .function ∧ x ∈ f.fn.inputNames) ∧ Distinct ks fs
  | ks, fs => ks = [] ∧ fs = []

/-- The innermost scope that has a value is the only one, unless the value is a parameter of a function there. -/
def Settles (kinds : List ScopeKind) (scopes : Scopes) (v : String) : Prop :=
  ∃ inner f outer, scopes = inner ++ f :: outer ∧ v ∈ f.fn.values ∧ (∀ g ∈ inner, v ∉ g.fn.values) ∧
    ((∃ g ∈ outer, v ∈ g.fn.values) → kinds[inner.length]? = some .function ∧ v ∈ f.fn.inputNames)

theorem mem_visible {scopes : Scopes} : v ∈ visible scopes ↔ ∃ f ∈ scopes, v ∈ f.fn.values :=
  mem_flatMap

theorem Distinct.settles : ∀ {kinds : List ScopeKind} {scopes : Scopes}, Distinct kinds scopes →
    v ∈ visible scopes → Settles kinds scopes v := by
  intro kinds scopes
  induction scopes generalizing kinds with
  | nil =>
    intro _ hv
    cases hv
  | cons f fs ih =>
    intro hd hv
    cases kinds with
    | nil => exact absurd hd.2 (by simp)
    | cons k ks =>
      by_cases hf : v ∈ f.fn.values
      · refine ⟨[], f, fs, rfl, hf, by simp, fun hout => ?_⟩
        obtain ⟨rfl, hin⟩ := hd.1 v hf (mem_visible.2 hout)
        exact ⟨rfl, hin⟩
      · obtain ⟨inner, g, outer, rfl, hg, hinner, houter⟩ := ih hd.2 ((mem_append.1 hv).resolve_left hf)
        exact ⟨f :: inner, g, outer, rfl, hg, forall_mem_cons.2 ⟨hf, hinner⟩, houter⟩

end Scopes

namespace Lowering

variable {N : Prop} {env : Env} {s s' s₀ : State} {pos : Position} {kinds : List ScopeKind}
variable {header : LoopHeader} {h : Held} {place : Place}

/-! ### Points -/

/-- What is lowered from a point on. -/
inductive Task where
  | stmt (place : Place) (stmt : Stmt NameSet)
  | block (stmts : List (Stmt NameSet))
  | loop (stmts : List (Stmt NameSet))
  | body (first : Bool) (stmts : List (Stmt NameSet))

/-- The names that leave a conditional. -/
def joined (after : NameSet) (body orelse : List (Stmt NameSet)) : List String :=
  (NameSet.ofList (Stmt.assignsAll body ++ Stmt.assignsAll orelse)).toList.filter (· ∈ after)

/-- Lowering a task from a state leads to the lowering of a part of it from another state, in the same scope or in one
that is opened for it. -/
inductive Leads (env : Env) : Task → State → List ScopeKind → Task → State → Prop
  | blockHead {x : Stmt NameSet} {xs : List (Stmt NameSet)} {s : State} :
    Leads env (.block (x :: xs)) s [] (.stmt .block x) s
  | blockTail {x : Stmt NameSet} {xs : List (Stmt NameSet)} {s s' : State} :
    Returns (lowerStmt .block x) env s () s' → Leads env (.block (x :: xs)) s [] (.block xs) s'
  | loopHead {x : Stmt NameSet} {xs : List (Stmt NameSet)} {s : State} :
    (∀ m test b, x ≠ .cond m test [.brk b] []) → Leads env (.loop (x :: xs)) s [] (.stmt .block x) s
  | loopTail {x : Stmt NameSet} {xs : List (Stmt NameSet)} {s s' : State} :
    (∀ m test b, x ≠ .cond m test [.brk b] []) → Returns (lowerStmt .block x) env s () s' →
    Leads env (.loop (x :: xs)) s [] (.loop xs) s'
  | bodyHead {x : Stmt NameSet} {xs : List (Stmt NameSet)} {first : Bool} {s : State} :
    Leads env (.body first (x :: xs)) s [] (.stmt (.body first) x) s
  | bodyTail {x : Stmt NameSet} {xs : List (Stmt NameSet)} {first : Bool} {s s' : State} :
    Returns (lowerStmt (.body first) x) env s () s' → Leads env (.body first (x :: xs)) s [] (.body false xs) s'
  | thenBranch {place : Place} {m : Mark NameSet} {test : Expr} {body orelse : List (Stmt NameSet)} {c : Operand}
    {s s₁ s₂ : State} :
    Returns (lowerOperand test (some "cond")) env s c s₁ → Returns (enter s!"thenGraph_{m.pos.line}") env s₁ () s₂ →
    Leads env (.stmt place (.cond m test body orelse)) s [.block] (.block body) s₂
  | elseBranch {place : Place} {m : Mark NameSet} {test : Expr} {body orelse : List (Stmt NameSet)} {c : Operand}
    {thenGraph : GraphFunction} {s s₁ s₂ s₃ : State} :
    Returns (lowerOperand test (some "cond")) env s c s₁ →
    Returns (branch s!"thenGraph_{m.pos.line}" (lowerBlock body) (joined m.note body orelse) (blockPos m.pos body)) env
      s₁ thenGraph s₂ →
    Returns (enter s!"elseGraph_{m.pos.line}") env s₂ () s₃ →
    Leads env (.stmt place (.cond m test body orelse)) s [.block] (.block orelse) s₃
  | forBody {place : Place} {m : Mark NameSet} {target iter : Expr} {body : List (Stmt NameSet)} {header : LoopHeader}
    {initial : Operand} {c : String} {s s₁ s₂ s₃ s₄ : State} :
    Returns (forHeader m.pos target iter) env s header s₁ → Returns (loopCondition m.pos header) env s₁ initial s₂ →
    Returns (enter "loop_body") env s₂ () s₃ → Returns (loopStart header (carried m.note body)) env s₃ c s₄ →
    Leads env (.stmt place (.forLoop m target iter body [])) s [.block] (.loop body) s₄
  | whileBody {place : Place} {m : Mark NameSet} {test : Expr} {body : List (Stmt NameSet)} {header : LoopHeader}
    {initial : Operand} {c : String} {s s₁ s₂ s₃ s₄ : State} :
    Returns (whileHeader m.pos test) env s header s₁ → Returns (loopCondition m.pos header) env s₁ initial s₂ →
    Returns (enter "loop_body") env s₂ () s₃ → Returns (loopStart header (carried m.note body)) env s₃ c s₄ →
    Leads env (.stmt place (.whileLoop m test body [])) s [.block] (.loop body) s₄
  | nested {place : Place} {m : Mark NameSet} {name : String} {params : List Param} {defaults : List Expr}
    {body : List (Stmt NameSet)} {returns : Option Expr} {s s₁ s₂ : State} :
    Returns (enter name env.domain) env s () s₁ → Returns (signature name params defaults returns) env s₁ () s₂ →
    Leads env (.stmt place (.function m ⟨name, params, defaults, body, returns⟩)) s [.function] (.body true body) s₂

/-- The points that the lowering of a function from `s` goes through, with what opened each scope. -/
inductive Reaches (env : Env) (s : State) (fn : FunctionDef NameSet) : Task → State → List ScopeKind → Prop
  | start {s₁ s₂ : State} : Returns (enter fn.name env.domain) env s () s₁ →
    Returns (signature fn.name fn.params fn.defaults fn.returns) env s₁ () s₂ →
    Reaches env s fn (.body true fn.body) s₂ [.function]
  | step {task task' : Task} {t t' : State} {opened kinds : List ScopeKind} : Reaches env s fn task t kinds →
    Leads env task t opened task' t' → Reaches env s fn task' t' (opened ++ kinds)

/-! ### What holds at every point -/

/-- A point of a lowering: the state is good, and values of different scopes are apart. -/
structure State.Nested (kinds : List ScopeKind) (s : State) : Prop where
  good : s.Good
  distinct : Scopes.Distinct kinds s.scopes

/-- Steps in the same scope that declare no parameter. Names and functions may be held at the end. -/
structure Continues (s : State) (h : Held) (s' : State) : Prop extends Grows False s {} s' h where
  bound : s'.scopes.Bound
  params : s'.current.params = s.current.params

theorem Advances.continues (a : Advances False s s') : Continues s {} s' :=
  ⟨a.toGrows, a.bound, a.params⟩

theorem Finishes.continues (a : Finishes False s s') : Continues s {} s' :=
  ⟨a.toGrows, a.bound, a.params⟩

theorem Grows.new_of_assigned {x : String} (a : Grows N s {} s' h) (hx : x ∈ s'.current.assigned)
    (hold : x ∉ s.current.assigned) : x ∉ s.names.used := by
  intro hused
  obtain ⟨ns, hns⟩ := a.nodes
  obtain ⟨gs, hgs⟩ := a.nested
  have hle := a.tally_le x (.inl hused)
  have hnew : x ∈ ns.flatMap (·.outputs) := by
    rw [GraphFunction.assigned, ← hns, flatMap_append] at hx
    exact (mem_append.1 hx).resolve_left hold
  obtain ⟨n, hn, hxn⟩ := mem_flatMap.1 hnew
  have hcount : 1 ≤ (ns.map fun n => n.defines.count x + (n.blocks.map (·.tally x)).sum).sum := by
    refine le_trans ?_ (single_le_sum (by simp) _ (mem_map_of_mem hn))
    have : 1 ≤ n.defines.count x := one_le_count_iff.2 (mem_append_left _ hxn)
    omega
  rw [State.tally, State.tally, GraphFunction.tally_eq s'.current, GraphFunction.tally_eq s.current, ← hns, ← hgs] at hle
  simp only [map_append, sum_append, Held.tally, count_nil, map_nil, sum_nil] at hle
  omega

theorem State.Nested.continues (hs : s.Nested kinds) (a : Continues s h s') : s'.Nested kinds := by
  refine ⟨(a.good hs.good a.bound).drop, ?_⟩
  obtain ⟨f, hf, hcur, -⟩ := State.scopes_eq_cons hs.good.opened
  obtain ⟨f', hf', hcur', -⟩ := State.scopes_eq_cons (a.opened hs.good.opened)
  have hd := hs.distinct
  rw [hf] at hd
  rw [hf', a.around]
  cases kinds with
  | nil => exact absurd hd.2 (by simp)
  | cons k ks =>
    refine ⟨fun x hx hout => ?_, hd.2⟩
    have hin : f'.fn.inputNames = f.fn.inputNames :=
      GraphFunction.inputNames_congr (by rw [← hcur', ← hcur, a.params])
    have hold : x ∈ f.fn.values := by
      rcases mem_append.1 hx with hx | hx
      · rw [hin] at hx
        exact mem_append_left _ hx
      · refine mem_append_right _ (by_contra fun hnot => ?_)
        refine a.new_of_assigned (by rwa [hcur']) (by rwa [hcur]) (hs.good.taken.1 x ?_)
        rw [State.visible_eq hs.good.opened]
        exact mem_append_right _ hout
    rw [hin]
    exact hd.1 x hold hout

theorem State.Nested.computes (hs : s.Nested kinds) (c : Computes False s {} s' {}) :
    s'.Nested kinds :=
  hs.continues (c.advances hs.good).continues

theorem State.Nested.enters (hs : s.Nested kinds) (e : Enters s name domain s')
    (kind : ScopeKind) : s'.Nested (kind :: kinds) := by
  refine ⟨e.good hs.good.bound hs.good.taken.1, ?_⟩
  rw [e.scopes]
  exact ⟨by simp [GraphFunction.values, GraphFunction.inputNames, GraphFunction.inputs, GraphFunction.assigned],
    hs.distinct⟩

theorem nested_signature {params : List Param} {defaults : List Expr} {returns : Option Expr}
    (hd : Scopes.Distinct kinds s.scopes) (e : Enters s name domain s₀) (hg : s₀.Good)
    (hsig : Returns (signature name params defaults returns) env s₀ () s') : s'.Nested (.function :: kinds) := by
  have d := declares_signature (N := False) hsig hg
  refine ⟨d.good hg, ?_⟩
  obtain ⟨f, hf, hcur, -⟩ := State.scopes_eq_cons (d.good hg).opened
  rw [hf, d.around, e.around]
  refine ⟨fun x hx _ => ⟨rfl, ?_⟩, hd⟩
  have hnodes : f.fn.nodes = [] := by rw [← hcur, d.sameNodes, e.current]
  refine (mem_append.1 hx).resolve_right ?_
  simp [GraphFunction.assigned, hnodes]

section LoopStart

variable {c : String} {names : List String} (hs : s.Nested kinds) (e : Enters s name domain s₀)
  (hstart : Returns (loopStart header names) env s₀ c s')
include hs e hstart

theorem grows_loopStart :
    Grows False s₀ ⟨s₀.current.inputNames, []⟩ s' ⟨s'.current.inputNames, []⟩ ∧ s'.Good := by
  simp only [loopStart, returns_bind, returns_pure] at hstart
  obtain ⟨u, s₁, hcount, c, s₂, hfin, u₁, s₃, hadd, u₂, s₄, hstate, -, rfl⟩ := hstart
  have hg0 : s₀.Good ⟨s₀.current.inputNames, []⟩ := by
    rw [e.current]
    exact e.good hs.good.bound hs.good.taken.1
  have d1 := declares_loopInput (N := False) hcount (fun h => h.elim) hg0.drop
  have hg1 := d1.good hg0
  obtain ⟨d2, -⟩ := declares_addInput (N := False) hfin hadd (fun h => h.elim) hg1.drop
  obtain ⟨g4, hg4, -, -⟩ := declares_loopInputs (N := False) hstate (d2.good hg1) (fun h => h.elim)
  exact ⟨d1.toGrows.trans (d2.toGrows.trans g4), hg4.drop⟩

theorem nested_loopStart : s'.Nested (.block :: kinds) := by
  obtain ⟨g, hg⟩ := grows_loopStart hs e hstart
  refine ⟨hg, ?_⟩
  obtain ⟨f, hf, hcur, -⟩ := State.scopes_eq_cons hg.opened
  rw [hf, g.around, e.around]
  refine ⟨fun x hx hout => ?_, hs.distinct⟩
  -- a name that was taken is still not defined or held
  have htally := g.tally_le x (.inl (by rw [e.names]; exact hs.good.taken.1 x hout))
  rw [State.tally, State.tally, e.tally, e.current] at htally
  have hsum : s'.current.tally x + s'.current.inputNames.count x = 0 := Nat.le_zero.1 htally
  have hassigned := GraphFunction.count_assigned_le s'.current x
  rw [← hcur] at hx
  rcases mem_append.1 hx with hx | hx
  · have := one_le_count_iff.2 hx
    omega
  · have := one_le_count_iff.2 hx
    omega

end LoopStart

theorem nested_loopCondition {x : Operand} (hs : s.Nested kinds)
    (hr : Returns (loopCondition pos header) env s x s') : s'.Nested kinds := by
  unfold loopCondition at hr
  split at hr
  · exact hs.computes (computes_constant (N := False) hr fun h => h.elim).1
  · exact hs.computes (yields_operandOfName (N := False) (fun h => h.elim) hs.good hr).1

theorem continues_lowerStmt (hg : s.Good) (hr : Returns (lowerStmt place x) env s u s') : Continues s {} s' := by
  by_cases hret : ∀ m v, x = .ret m v → place = .block
  · exact (performs_lowerStmt place x hret (fun h => h.elim) hg hr).continues
  · simp only [not_forall] at hret
    obtain ⟨m, v, rfl, hplace⟩ := hret
    cases place with
    | block => exact absurd rfl hplace
    | body first =>
      rw [lowerStmt] at hr
      exact (finishes_returnFrom hr hg fun h => h.elim).continues

theorem nested_lowerStmt (hs : s.Nested kinds) (hr : Returns (lowerStmt place x) env s u s') : s'.Nested kinds :=
  hs.continues (continues_lowerStmt hs.good hr)

/-- **One step** keeps the values of different scopes apart. -/
theorem Leads.nested_of {task task' : Task} {opened kinds : List ScopeKind} (l : Leads env task s opened task' s')
    (hs : s.Nested kinds) : s'.Nested (opened ++ kinds) := by
  cases l with
  | blockHead | loopHead | bodyHead => exact hs
  | blockTail hr => exact nested_lowerStmt hs hr
  | loopTail _ hr => exact nested_lowerStmt hs hr
  | bodyTail hr => exact nested_lowerStmt hs hr
  | thenBranch hc he =>
    have h1 := hs.computes (yields_lowerOperand (N := False) (fun h => h.elim) (fun h => h.elim) hs.good hc).1
    exact h1.enters (enters_enter he) .block
  | elseBranch hc hb he =>
    have h1 := hs.computes (yields_lowerOperand (N := False) (fun h => h.elim) (fun h => h.elim) hs.good hc).1
    obtain ⟨c2, hscopes, -⟩ := computes_branch (N := False) hb h1.good (performs_lowerBlock _ fun h => h.elim)
      fun h => h.elim
    have h2 : State.Nested kinds _ := ⟨(c2.good h1.good).drop, by rw [hscopes]; exact h1.distinct⟩
    exact h2.enters (enters_enter he) .block
  | forBody hh hc he hstart =>
    have h1 := hs.computes (returns_forHeader (N := False) hh hs.good fun h => h.elim).1
    exact nested_loopStart (nested_loopCondition h1 hc) (enters_enter he) hstart
  | whileBody hh hc he hstart =>
    obtain ⟨rfl, -⟩ := returns_whileHeader hh
    exact nested_loopStart (nested_loopCondition hs hc) (enters_enter he) hstart
  | nested he hsig =>
    have e := enters_enter he
    exact nested_signature hs.distinct e (e.good hs.good.bound hs.good.taken.1) hsig

/-- **Every point** of the lowering of a function at the top level. -/
theorem Reaches.nested_of {fn : FunctionDef NameSet} {task : Task} {t : State}
    (r : Reaches env s fn task t kinds) (hs : s.scopes = []) : t.Nested kinds := by
  induction r with
  | start he hsig =>
    have e := enters_enter he
    have hg := e.good (by rw [hs]; trivial) (by rw [hs]; simp [Scopes.visible])
    exact nested_signature (by rw [hs]; exact ⟨rfl, rfl⟩) e hg hsig
  | step _ l ih => exact l.nested_of ih

end Lowering

end OpGraph
