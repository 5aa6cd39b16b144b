import OpGraph.Proofs.Analysis.Equations

/-!
Liveness along the paths of control. A point of a function is what is left to do there, and a step takes a point to one
that control can reach next. A name is live after a statement exactly if some path from there reads it before it is
assigned, where a `for` loop that is left before its first round counts as assigning its targets. Control assigns nothing
on such a path, so there the analysis misses a read.
-/

namespace OpGraph.Liveness

open List
open NameSet (mem_union mem_diff mem_ofList notMem_empty)

variable {ν : Type}
variable {ss : List (Stmt ν)} {after : NameSet}

/-! ### Paths -/

/-- Something that is left to do: a statement, or to decide on another round of a loop. -/
inductive Task (ν : Type) where
  | run (s : Stmt ν)
  | forRound (target : Expr) (body orelse : List (Stmt ν))
  | whileRound (test : Expr) (body orelse : List (Stmt ν))

/-- A point of a function: what is left to do, in order. -/
abbrev Point (ν : Type) := List (Task ν)

/-- The point at the start of statements, from the point after them. -/
def startOf (ss : List (Stmt ν)) (p : Point ν) : Point ν :=
  ss.map .run ++ p

/-- Where a break leads: past the innermost loop. Outside of loops it leads nowhere. -/
def exitOf : Point ν → Point ν
  | [] => []
  | .run _ :: p => exitOf p
  | .forRound .. :: p | .whileRound .. :: p => p

/-- Names that are read before anything else happens. A `for` loop reads its range once, a `while` loop its test before
each round. -/
def Task.reads : Task ν → List String
  | .run (.assign _ _ e) | .run (.cond _ e _ _) | .run (.forLoop _ _ e _ _) | .run (.expr _ e) => e.reads
  | .run (.annAssign _ _ _ e) | .run (.ret _ e) => Expr.readsOption e
  | .whileRound e _ _ => e.reads
  | _ => []

/-- `Step counts p names q`: control can go from `p` to `q`, which assigns the names. With `counts`, a `for` loop that is
left before its first round counts as assigning its targets. There is no step from a return. -/
inductive Step (counts : Bool) : Point ν → List String → Point ν → Prop
  | assign {m ts e p} : Step counts (.run (.assign m ts e) :: p) (Expr.targetsAll ts) p
  | annAssign {m t a e p} : Step counts (.run (.annAssign m t a e) :: p) t.targets p
  | imports {m as p} : Step counts (.run (.imports m as) :: p) (as.map Stmt.importName) p
  | importFrom {m module as p} :
    Step counts (.run (.importFrom m module as) :: p) (as.map fun a => a.asName.getD a.name) p
  | function {m name params defaults body returns p} :
    Step counts (.run (.function m ⟨name, params, defaults, body, returns⟩) :: p) [name] p
  | expr {m e p} : Step counts (.run (.expr m e) :: p) [] p
  | pass {m p} : Step counts (.run (.pass m) :: p) [] p
  | brk {m p} : Step counts (.run (.brk m) :: p) [] (exitOf p)
  | thenBranch {m e body orelse p} : Step counts (.run (.cond m e body orelse) :: p) [] (startOf body p)
  | elseBranch {m e body orelse p} : Step counts (.run (.cond m e body orelse) :: p) [] (startOf orelse p)
  | forFirst {m t e body orelse p} : Step counts (.run (.forLoop m t e body orelse) :: p) t.targets
    (startOf body (.forRound t body orelse :: p))
  | forSkip {m t e body orelse p} : Step counts (.run (.forLoop m t e body orelse) :: p)
    (if counts then t.targets else []) (startOf orelse p)
  | forNext {t body orelse p} : Step counts (.forRound t body orelse :: p) t.targets
    (startOf body (.forRound t body orelse :: p))
  | forLeave {t body orelse p} : Step counts (.forRound t body orelse :: p) [] (startOf orelse p)
  | whileEnter {m e body orelse p} : Step counts (.run (.whileLoop m e body orelse) :: p) []
    (.whileRound e body orelse :: p)
  | whileNext {e body orelse p} : Step counts (.whileRound e body orelse :: p) []
    (startOf body (.whileRound e body orelse :: p))
  | whileLeave {e body orelse p} : Step counts (.whileRound e body orelse :: p) [] (startOf orelse p)

/-- Some path from a point reads a name with no assignment of it in between. A function that is defined on the way reads
the names that a path through its body does, its parameters apart. -/
inductive ReadLater (counts : Bool) (x : String) : Point ν → Prop
  | here {task p} : x ∈ task.reads → ReadLater counts x (task :: p)
  | captured {m name params defaults body returns p} : x ∉ params.map (·.name) →
    ReadLater counts x (startOf body []) →
    ReadLater counts x (.run (.function m ⟨name, params, defaults, body, returns⟩) :: p)
  | step {p q names} : Step counts p names q → x ∉ names → ReadLater counts x q → ReadLater counts x p

mutual
/-- `Occurs ss p s q`: the statement `s` is one of `ss` or inside one of them, and `q` is the point right after it if `p`
is the point after all of them. -/
inductive Occurs : List (Stmt ν) → Point ν → Stmt ν → Point ν → Prop
  | here {s ss p} : Occurs (s :: ss) p s (startOf ss p)
  | there {s ss p t q} : Occurs ss p t q → Occurs (s :: ss) p t q
  | inside {s ss p t q} : Inside s (startOf ss p) t q → Occurs (s :: ss) p t q
/-- `Inside s p t q`: the statement `t` is inside `s`, and `q` is the point right after it if `p` is the point after
`s`. The body of a nested function ends at no point of the function around it. -/
inductive Inside : Stmt ν → Point ν → Stmt ν → Point ν → Prop
  | thenBranch {m e body orelse p t q} : Occurs body p t q → Inside (.cond m e body orelse) p t q
  | elseBranch {m e body orelse p t q} : Occurs orelse p t q → Inside (.cond m e body orelse) p t q
  | forBody {m x e body orelse p t q} : Occurs body (.forRound x body orelse :: p) t q →
    Inside (.forLoop m x e body orelse) p t q
  | whileBody {m e body orelse p t q} : Occurs body (.whileRound e body orelse :: p) t q →
    Inside (.whileLoop m e body orelse) p t q
  | function {m name params defaults body returns p t q} : Occurs body [] t q →
    Inside (.function m ⟨name, params, defaults, body, returns⟩) p t q
end

mutual
/-- No loop in a statement has an else block. -/
def NoLoopElse : Stmt ν → Prop
  | .function _ ⟨_, _, _, body, _⟩ => NoLoopElseAll body
  | .cond _ _ body orelse => NoLoopElseAll body ∧ NoLoopElseAll orelse
  | .forLoop _ _ _ body orelse | .whileLoop _ _ body orelse => NoLoopElseAll body ∧ orelse = []
  | .assign .. | .annAssign .. | .ret .. | .brk _ | .pass _ | .expr .. | .imports .. | .importFrom .. => True
def NoLoopElseAll : List (Stmt ν) → Prop
  | [] => True
  | s :: ss => NoLoopElse s ∧ NoLoopElseAll ss
end

/-! ### Live names of a point -/

@[simp] theorem startOf_cons (s : Stmt ν) (ss : List (Stmt ν)) (p : Point ν) :
    startOf (s :: ss) p = .run s :: startOf ss p :=
  rfl

theorem exitOf_startOf (ss : List (Stmt ν)) (p : Point ν) : exitOf (startOf ss p) = exitOf p := by
  induction ss with
  | nil => rfl
  | cons s ss ih => exact ih

/-- What the analysis gives as live at a point and at the exit of the loop around it. -/
def livePair : Point ν → NameSet × NameSet
  | [] => (∅, ∅)
  | .run s :: p => ((analyze (livePair p).1 (livePair p).2 s).live, (livePair p).2)
  | .forRound t body _ :: p =>
    ((livePair p).1.union ((Stmt.exposed body).diff (.ofList t.targets)), (livePair p).1)
  | .whileRound e body _ :: p => (((livePair p).1.union e.uses).union (Stmt.exposed body), (livePair p).1)

def liveAt (p : Point ν) : NameSet :=
  (livePair p).1

theorem livePair_snd (p : Point ν) : (livePair p).2 = liveAt (exitOf p) := by
  induction p with
  | nil => rfl
  | cons task p ih =>
    cases task with
    | run s => exact ih
    | forRound | whileRound => rfl

theorem liveAt_run (s : Stmt ν) (p : Point ν) : liveAt (.run s :: p) = (analyze (liveAt p) (liveAt (exitOf p)) s).live := by
  rw [← livePair_snd]
  rfl

theorem liveAt_startOf (ss : List (Stmt ν)) (p : Point ν) :
    liveAt (startOf ss p) = (analyzeAll (liveAt p) (liveAt (exitOf p)) ss).live := by
  induction ss with
  | nil => rfl
  | cons s ss ih => rw [startOf_cons, liveAt_run, ih, exitOf_startOf, analyzeAll]

theorem liveAt_startOf_nil (ss : List (Stmt ν)) : liveAt (startOf ss []) = Stmt.exposed ss :=
  liveAt_startOf ss []

section Loops

variable (p : Point ν) (m : Mark ν) (t e : Expr) (body orelse : List (Stmt ν)) (x : String)

theorem mem_liveAt_for : x ∈ liveAt (.run (.forLoop m t e body orelse) :: p) ↔
    (x ∈ liveAt p ∨ x ∈ Stmt.exposed body) ∧ x ∉ t.targets ∨ x ∈ e.reads := by
  rw [liveAt_run, mem_live_for m t e orelse (regular_analyzeAll body)]

theorem mem_liveAt_while : x ∈ liveAt (.run (.whileLoop m e body orelse) :: p) ↔
    x ∈ liveAt p ∨ x ∈ Stmt.exposed body ∨ x ∈ e.reads := by
  rw [liveAt_run, mem_live_while m e orelse (regular_analyzeAll body)]

theorem mem_liveAt_forRound : x ∈ liveAt (.forRound t body orelse :: p) ↔
    x ∈ liveAt p ∨ x ∈ Stmt.exposed body ∧ x ∉ t.targets := by
  rw [liveAt, livePair, mem_union, mem_diff, mem_ofList]
  rfl

theorem mem_liveAt_whileRound : x ∈ liveAt (.whileRound e body orelse :: p) ↔
    (x ∈ liveAt p ∨ x ∈ e.reads) ∨ x ∈ Stmt.exposed body := by
  rw [liveAt, livePair, mem_union, mem_union, Expr.mem_uses]
  rfl

/-- A name that is live at the start of a round is read by the body, or live at the end of it or after the loop. -/
theorem mem_liveAt_round {p : Point ν} {round : Task ν} {body : List (Stmt ν)} {x : String}
    (hround : exitOf (round :: p) = p) (h : x ∈ liveAt (startOf body (round :: p))) :
    x ∈ Stmt.exposed body ∨ x ∈ liveAt (round :: p) ∨ x ∈ liveAt p := by
  rw [liveAt_startOf, hround] at h
  exact (regular_analyzeAll body).pointwise.cases h

end Loops

/-! ### Every read on a path is live -/

def ElseFree : Point ν → Prop
  | [] => True
  | .run s :: p => NoLoopElse s ∧ ElseFree p
  | .forRound _ body orelse :: p | .whileRound _ body orelse :: p =>
    (NoLoopElseAll body ∧ orelse = []) ∧ ElseFree p

theorem ElseFree.start {p : Point ν} (hss : NoLoopElseAll ss) (hp : ElseFree p) : ElseFree (startOf ss p) := by
  induction ss with
  | nil => exact hp
  | cons s ss ih => exact ⟨hss.1, ih hss.2⟩

theorem ElseFree.exit {p : Point ν} (hp : ElseFree p) : ElseFree (exitOf p) := by
  induction p with
  | nil => exact hp
  | cons task p ih =>
    cases task with
    | run s => exact ih hp.2
    | forRound | whileRound => exact hp.2

/-- **One step** keeps loops without else blocks, and a name that is live after the step and not assigned by it is live
before it. -/
theorem Step.live {p q : Point ν} {names : List String} (h : Step true p names q) (hp : ElseFree p) :
    ElseFree q ∧ ∀ x ∈ liveAt q, x ∉ names → x ∈ liveAt p := by
  cases h with
  | assign | annAssign | function =>
    refine ⟨hp.2, fun x hx hn => ?_⟩
    rw [liveAt_run, analyze, mem_union, mem_diff, mem_ofList]
    exact .inl ⟨hx, hn⟩
  | imports | importFrom =>
    refine ⟨hp.2, fun x hx hn => ?_⟩
    rw [liveAt_run, analyze, mem_diff, mem_ofList]
    exact ⟨hx, hn⟩
  | expr =>
    refine ⟨hp.2, fun x hx _ => ?_⟩
    rw [liveAt_run, analyze, mem_union]
    exact .inl hx
  | pass => exact ⟨hp.2, fun x hx _ => by rwa [liveAt_run]⟩
  | brk => exact ⟨hp.2.exit, fun x hx _ => by rwa [liveAt_run]⟩
  | thenBranch =>
    refine ⟨.start hp.1.1 hp.2, fun x hx _ => ?_⟩
    rw [liveAt_run, analyze, mem_union, mem_union]
    exact .inl (.inl (liveAt_startOf _ _ ▸ hx))
  | elseBranch =>
    refine ⟨.start hp.1.2 hp.2, fun x hx _ => ?_⟩
    rw [liveAt_run, analyze, mem_union, mem_union]
    exact .inl (.inr (liveAt_startOf _ _ ▸ hx))
  | forFirst =>
    refine ⟨.start hp.1.1 hp, fun x hx hn => ?_⟩
    rw [mem_liveAt_for]
    rcases mem_liveAt_round rfl hx with hx | hx | hx
    · exact .inl ⟨.inr hx, hn⟩
    · exact .inl ⟨((mem_liveAt_forRound ..).1 hx).imp_right (·.1), hn⟩
    · exact .inl ⟨.inl hx, hn⟩
  | forSkip =>
    obtain ⟨⟨-, rfl⟩, hp⟩ := hp
    exact ⟨hp, fun x hx hn => (mem_liveAt_for ..).2 (.inl ⟨.inl hx, hn⟩)⟩
  | forNext =>
    refine ⟨.start hp.1.1 hp, fun x hx hn => ?_⟩
    rcases mem_liveAt_round rfl hx with hx | hx | hx
    · exact (mem_liveAt_forRound ..).2 (.inr ⟨hx, hn⟩)
    · exact hx
    · exact (mem_liveAt_forRound ..).2 (.inl hx)
  | forLeave =>
    obtain ⟨⟨-, rfl⟩, hp⟩ := hp
    exact ⟨hp, fun x hx _ => (mem_liveAt_forRound ..).2 (.inl hx)⟩
  | whileEnter =>
    refine ⟨hp, fun x hx _ => (mem_liveAt_while ..).2 ?_⟩
    rcases (mem_liveAt_whileRound ..).1 hx with (hx | hx) | hx
    · exact .inl hx
    · exact .inr (.inr hx)
    · exact .inr (.inl hx)
  | whileNext =>
    refine ⟨.start hp.1.1 hp, fun x hx _ => ?_⟩
    rcases mem_liveAt_round rfl hx with hx | hx | hx
    · exact (mem_liveAt_whileRound ..).2 (.inr hx)
    · exact hx
    · exact (mem_liveAt_whileRound ..).2 (.inl (.inl hx))
  | whileLeave =>
    obtain ⟨⟨-, rfl⟩, hp⟩ := hp
    exact ⟨hp, fun x hx _ => (mem_liveAt_whileRound ..).2 (.inl (.inl hx))⟩

theorem mem_liveAt_of_reads {task : Task ν} {x : String} (h : x ∈ task.reads) (p : Point ν) : x ∈ liveAt (task :: p) := by
  unfold Task.reads at h
  split at h
  case h_3 => exact (mem_liveAt_for ..).2 (.inr h)
  case h_7 => exact (mem_liveAt_whileRound ..).2 (.inl (.inr h))
  case h_8 => exact absurd h not_mem_nil
  case h_6 => exact liveAt_run _ p ▸ Expr.mem_usesOption.2 h
  case h_5 => exact liveAt_run _ p ▸ mem_union.2 (.inr (Expr.mem_usesOption.2 h))
  all_goals exact liveAt_run _ p ▸ mem_union.2 (.inr (Expr.mem_uses.2 h))

theorem mem_liveAt_function {m : Mark ν} {name : String} {params : List Param} {defaults : List Expr}
    {body : List (Stmt ν)} {returns : Option Expr} {p : Point ν} {x : String} :
    x ∈ liveAt (.run (.function m ⟨name, params, defaults, body, returns⟩) :: p) ↔
      x ∈ liveAt p ∧ x ∉ [name] ∨ x ∈ Stmt.exposed body ∧ x ∉ params.map (·.name) := by
  rw [liveAt_run, analyze, mem_union, mem_diff, mem_diff, mem_ofList, mem_ofList]
  rfl

/-- **A whole path**: what it reads first is live at its start. -/
theorem ReadLater.live {x : String} {p : Point ν} (h : ReadLater true x p) (hp : ElseFree p) : x ∈ liveAt p := by
  induction h with
  | here h => exact mem_liveAt_of_reads h _
  | captured hparams _ ih =>
    have hx := ih (.start hp.1 trivial)
    exact mem_liveAt_function.2 (.inr ⟨liveAt_startOf_nil _ ▸ hx, hparams⟩)
  | step hstep hnames _ ih =>
    obtain ⟨hq, hlive⟩ := hstep.live hp
    exact hlive x (ih hq) hnames

/-! ### Every live name is read on a path -/

section Complete

variable {x : String}

theorem ReadLater.of_live_simple {s : Stmt ν} {p : Point ν} {names : List String}
    (hstep : Step true (.run s :: p) names p) (hafter : x ∈ after → ReadLater true x p)
    (h : x ∈ after ∧ x ∉ names ∨ x ∈ (Task.run s).reads) : ReadLater true x (.run s :: p) := by
  rcases h with ⟨hx, hn⟩ | hx
  · exact .step hstep hn (hafter hx)
  · exact .here hx

mutual
/-- A name that the analysis gives as live before a statement is read on a path, if those that are live after it and at
the exit of the loop are. -/
theorem readLater_analyze : ∀ (s : Stmt ν) {after exit : NameSet} {p : Point ν}, NoLoopElse s →
    (x ∈ after → ReadLater true x p) → (x ∈ exit → ReadLater true x (exitOf p)) → x ∈ (analyze after exit s).live →
    ReadLater true x (.run s :: p)
  | .assign m ts e, after, exit, p, _, hafter, _, h => by
    rw [analyze, mem_union, mem_diff, mem_ofList, Expr.mem_uses] at h
    exact .of_live_simple .assign hafter h
  | .annAssign m t a e, after, exit, p, _, hafter, _, h => by
    rw [analyze, mem_union, mem_diff, mem_ofList, Expr.mem_usesOption] at h
    exact .of_live_simple .annAssign hafter h
  | .ret m e, after, exit, p, _, _, _, h => .here (Expr.mem_usesOption.1 h)
  | .imports m as, after, exit, p, _, hafter, _, h => by
    rw [analyze, mem_diff, mem_ofList] at h
    exact .of_live_simple .imports hafter (.inl h)
  | .importFrom m module as, after, exit, p, _, hafter, _, h => by
    rw [analyze, mem_diff, mem_ofList] at h
    exact .of_live_simple .importFrom hafter (.inl h)
  | .expr m e, after, exit, p, _, hafter, _, h => by
    rw [analyze, mem_union, Expr.mem_uses] at h
    exact .of_live_simple .expr hafter (h.imp_left fun h => ⟨h, not_mem_nil⟩)
  | .pass m, after, exit, p, _, hafter, _, h => .step .pass not_mem_nil (hafter h)
  | .brk m, after, exit, p, _, _, hexit, h => .step .brk not_mem_nil (hexit h)
  | .cond m e body orelse, after, exit, p, ⟨hbody, horelse⟩, hafter, hexit, h => by
    rw [analyze, mem_union, mem_union, Expr.mem_uses] at h
    rcases h with (h | h) | h
    · exact .step .thenBranch not_mem_nil (readLater_analyzeAll body hbody hafter hexit h)
    · exact .step .elseBranch not_mem_nil (readLater_analyzeAll orelse horelse hafter hexit h)
    · exact .here h
  | .forLoop m t e body [], after, exit, p, ⟨hbody, _⟩, hafter, _, h => by
    rw [mem_live_for m t e [] (regular_analyzeAll body)] at h
    rcases h with ⟨h | h, ht⟩ | h
    · exact .step .forSkip ht (hafter h)
    · exact .step .forFirst ht (readLater_exposed body hbody h)
    · exact .here h
  | .whileLoop m e body [], after, exit, p, ⟨hbody, _⟩, hafter, _, h => by
    rw [mem_live_while m e [] (regular_analyzeAll body)] at h
    refine .step .whileEnter not_mem_nil ?_
    rcases h with h | h | h
    · exact .step .whileLeave not_mem_nil (hafter h)
    · exact .step .whileNext not_mem_nil (readLater_exposed body hbody h)
    · exact .here h
  | .function m ⟨_, _, _, body, _⟩, after, exit, p, hbody, hafter, _, h => by
    rw [analyze, mem_union, mem_diff, mem_diff, mem_ofList, mem_ofList] at h
    rcases h with ⟨h, hn⟩ | ⟨h, hparams⟩
    · exact .step .function hn (hafter h)
    · exact .captured hparams (readLater_exposed body hbody h)
theorem readLater_analyzeAll : ∀ (ss : List (Stmt ν)) {after exit : NameSet} {p : Point ν}, NoLoopElseAll ss →
    (x ∈ after → ReadLater true x p) → (x ∈ exit → ReadLater true x (exitOf p)) →
    x ∈ (analyzeAll after exit ss).live → ReadLater true x (startOf ss p)
  | [], _, _, _, _, hafter, _, h => hafter h
  | s :: ss, after, exit, p, ⟨hs, hss⟩, hafter, hexit, h =>
    readLater_analyze s hs (fun h => readLater_analyzeAll ss hss hafter hexit h)
      (fun h => (exitOf_startOf ss p).symm ▸ hexit h) h
theorem readLater_exposed (ss : List (Stmt ν)) {p : Point ν} (hss : NoLoopElseAll ss) (h : x ∈ Stmt.exposed ss) :
    ReadLater true x (startOf ss p) :=
  readLater_analyzeAll ss hss (fun h => absurd h notMem_empty) (fun h => absurd h notMem_empty) h
end

theorem readLater_of_mem_livePair {p : Point ν} (hp : ElseFree p) :
    (x ∈ liveAt p → ReadLater true x p) ∧ (x ∈ liveAt (exitOf p) → ReadLater true x (exitOf p)) := by
  induction p with
  | nil => exact ⟨fun h => absurd h notMem_empty, fun h => absurd h notMem_empty⟩
  | cons task p ih =>
    obtain ⟨hlive, hexit⟩ := ih (by cases task <;> exact hp.2)
    cases task with
    | run s => exact ⟨fun h => readLater_analyze s hp.1 hlive hexit (liveAt_run s p ▸ h), hexit⟩
    | forRound t body orelse =>
      obtain ⟨⟨hbody, rfl⟩, -⟩ := hp
      refine ⟨fun h => ?_, hlive⟩
      rcases (mem_liveAt_forRound ..).1 h with h | ⟨h, ht⟩
      · exact .step .forLeave not_mem_nil (hlive h)
      · exact .step .forNext ht (readLater_exposed body hbody h)
    | whileRound e body orelse =>
      obtain ⟨⟨hbody, rfl⟩, -⟩ := hp
      refine ⟨fun h => ?_, hlive⟩
      rcases (mem_liveAt_whileRound ..).1 h with (h | h) | h
      · exact .step .whileLeave not_mem_nil (hlive h)
      · exact .here h
      · exact .step .whileNext not_mem_nil (readLater_exposed body hbody h)

end Complete

/-! ### The names that the analysis records -/

theorem mem_liveAt_startOf_part {exit : NameSet} {p : Point NameSet} (hafter : ∀ x, x ∈ after ↔ x ∈ liveAt p)
    (hexit : ∀ x, x ∈ exit ↔ x ∈ liveAt (exitOf p)) (x : String) :
    x ∈ (analyzeAll after exit ss).live ↔ x ∈ liveAt (startOf (analyzeAll after exit ss).part p) := by
  rw [liveAt_startOf, ← analyzeAll_blankAll _ _ (analyzeAll after exit ss).part, blankAll_analyzeAll,
    analyzeAll_blankAll]
  have hss := (regular_analyzeAll ss).pointwise
  exact ⟨hss (hafter x).1 (hexit x).1, hss (hafter x).2 (hexit x).2⟩

mutual
theorem mem_note_inside : ∀ (s : Stmt ν) {after exit : NameSet} {p : Point NameSet} {t : Stmt NameSet}
    {q : Point NameSet}, (∀ x, x ∈ after ↔ x ∈ liveAt p) → (∀ x, x ∈ exit ↔ x ∈ liveAt (exitOf p)) →
    Inside (analyze after exit s).part p t q → ∀ x, x ∈ t.note ↔ x ∈ liveAt q
  | .cond m e body orelse, after, exit, p, t, q, hafter, hexit, h => by
    rw [analyze] at h
    cases h with
    | thenBranch h => exact mem_note_occurs body hafter hexit h
    | elseBranch h => exact mem_note_occurs orelse hafter hexit h
  | .forLoop m target e body orelse, after, exit, p, t, q, hafter, _, h => by
    obtain ⟨out, hout, hmem⟩ := settle_for target (regular_analyzeAll body) after
    simp only [analyze, hout] at h
    cases h with
    | forBody h =>
      refine mem_note_occurs body (fun x => ?_) hafter h
      rw [hmem, mem_liveAt_forRound, exposed_analyzeAll, hafter]
  | .whileLoop m e body orelse, after, exit, p, t, q, hafter, _, h => by
    obtain ⟨out, hout, hmem⟩ := settle_while e (regular_analyzeAll body) after
    simp only [analyze, hout] at h
    cases h with
    | whileBody h =>
      refine mem_note_occurs body (fun x => ?_) hafter h
      rw [hmem, mem_liveAt_whileRound, exposed_analyzeAll, hafter]
  | .function m ⟨_, _, _, body, _⟩, after, exit, p, t, q, _, _, h => by
    rw [analyze] at h
    cases h with
    | function h =>
      have hend : ∀ x, x ∈ (∅ : NameSet) ↔ x ∈ liveAt ([] : Point NameSet) := fun _ => Iff.rfl
      exact mem_note_occurs body hend hend h
  | .assign .., _, _, _, _, _, _, _, h | .annAssign .., _, _, _, _, _, _, _, h | .ret .., _, _, _, _, _, _, _, h
  | .brk _, _, _, _, _, _, _, _, h | .pass _, _, _, _, _, _, _, _, h | .expr .., _, _, _, _, _, _, _, h
  | .imports .., _, _, _, _, _, _, _, h | .importFrom .., _, _, _, _, _, _, _, h => by
    rw [analyze] at h
    cases h
/-- The names that the analysis records for a statement are those that are live at the point after it. -/
theorem mem_note_occurs : ∀ (ss : List (Stmt ν)) {after exit : NameSet} {p : Point NameSet} {t : Stmt NameSet}
    {q : Point NameSet}, (∀ x, x ∈ after ↔ x ∈ liveAt p) → (∀ x, x ∈ exit ↔ x ∈ liveAt (exitOf p)) →
    Occurs (analyzeAll after exit ss).part p t q → ∀ x, x ∈ t.note ↔ x ∈ liveAt q
  | [], _, _, _, _, _, _, _, h => by cases h
  | s :: ss, after, exit, p, t, q, hafter, hexit, h => by
    rw [analyzeAll] at h
    have hrest : ∀ x, x ∈ (analyzeAll after exit ss).live ↔ _ := mem_liveAt_startOf_part hafter hexit
    cases h with
    | here => rwa [note_analyze]
    | there h => exact mem_note_occurs ss hafter hexit h
    | inside h => exact mem_note_inside s hrest (fun x => by rw [exitOf_startOf, hexit]) h
end

theorem noLoopElseAll_blankAll (ss : List (Stmt ν)) : NoLoopElseAll (blankAll ss) ↔ NoLoopElseAll ss := by
  have hnil (ss : List (Stmt ν)) : blankAll ss = [] ↔ ss = [] := by cases ss <;> simp [blankAll]
  induction ss using blankAll.induct (fun s => NoLoopElse (blank s) ↔ NoLoopElse s) <;>
    simp_all only [blank, blankAll, NoLoopElse, NoLoopElseAll]

theorem noLoopElseAll_analyzeAll {exit : NameSet} (h : NoLoopElseAll ss) :
    NoLoopElseAll (analyzeAll after exit ss).part := by
  rwa [← noLoopElseAll_blankAll, blankAll_analyzeAll, noLoopElseAll_blankAll]

mutual
theorem ElseFree.of_inside : ∀ {s t : Stmt ν} {p q : Point ν}, Inside s p t q → NoLoopElse s → ElseFree p → ElseFree q
  | _, _, _, _, .thenBranch h, hs, hp => .of_occurs h hs.1 hp
  | _, _, _, _, .elseBranch h, hs, hp => .of_occurs h hs.2 hp
  | _, _, _, _, .forBody h, hs, hp | _, _, _, _, .whileBody h, hs, hp => .of_occurs h hs.1 ⟨hs, hp⟩
  | _, _, _, _, .function h, hs, _ => .of_occurs h hs trivial
theorem ElseFree.of_occurs : ∀ {ss : List (Stmt ν)} {t : Stmt ν} {p q : Point ν}, Occurs ss p t q → NoLoopElseAll ss →
    ElseFree p → ElseFree q
  | _, _, _, _, .here, hss, hp => hp.start hss.2
  | _, _, _, _, .there h, hss, hp => .of_occurs h hss.2 hp
  | _, _, _, _, .inside h, hss, hp => .of_inside h hss.1 (hp.start hss.2)
end

/-- **Liveness along paths**: in a function whose loops have no else blocks, the names that the analysis records for a
statement are exactly those that some path from the point after it reads before they are assigned. On these paths a
`for` loop that is left before its first round counts as assigning its targets. -/
theorem mem_note_iff_readLater (fn : FunctionDef ν) (hloops : NoLoopElseAll fn.body) {s : Stmt NameSet}
    {p : Point NameSet} (h : Occurs fn.analyze.body [] s p) (x : String) : x ∈ s.note ↔ ReadLater true x p := by
  have hend : ∀ x, x ∈ (∅ : NameSet) ↔ x ∈ liveAt ([] : Point NameSet) := fun _ => Iff.rfl
  rw [mem_note_occurs fn.body hend hend h x]
  have hp : ElseFree p := .of_occurs h (noLoopElseAll_analyzeAll hloops) trivial
  exact ⟨(readLater_of_mem_livePair hp).1, fun hread => hread.live hp⟩

/-- In `while c: x = -x`, the next round reads what the assignment gives. -/
theorem mem_note_iff_readLater_sample :
    NoLoopElseAll (loopSample () ()) ∧
      ∃ s p, Occurs (FunctionDef.analyze ⟨"f", [], [], loopSample () (), none⟩).body [] s p ∧ s.assigns = ["x"] ∧
        ReadLater true "x" p ∧ "x" ∈ s.note := by
  have hloops : NoLoopElseAll (loopSample () ()) := ⟨⟨⟨trivial, trivial⟩, rfl⟩, trivial⟩
  refine ⟨hloops, _, _, .inside (.whileBody .here), rfl, ?path,
    (mem_note_iff_readLater ⟨"f", [], [], loopSample () (), none⟩ hloops (.inside (.whileBody .here)) "x").2 ?path⟩
  exact .step .whileNext List.not_mem_nil (.here List.mem_cons_self)

/-- `i = x`, then `for i in n: pass`, then `return i`. -/
def skipSample : FunctionDef Unit where
  name := "f"
  params := []
  defaults := []
  body := [.assign ⟨default, ()⟩ [.name default "i"] (.name default "x"),
    .forLoop ⟨default, ()⟩ (.name default "i") (.name default "n") [.pass ⟨default, ()⟩] [],
    .ret ⟨default, ()⟩ (some (.name default "i"))]
  returns := none

/-- The path that leaves the loop of the sample before its first round reads the `i` of the assignment, and the analysis
does not record it as live there. -/
theorem skipped_loop_hides_read : NoLoopElseAll skipSample.body ∧
    ∃ s p, Occurs skipSample.analyze.body [] s p ∧ s.assigns = ["i"] ∧ ReadLater false "i" p ∧ "i" ∉ s.note := by
  refine ⟨⟨trivial, ⟨⟨trivial, trivial⟩, rfl⟩, trivial, trivial⟩, _, _, .here, rfl, ?_, ?_⟩
  · exact .step .forSkip List.not_mem_nil (.here List.mem_cons_self)
  · decide

end OpGraph.Liveness
