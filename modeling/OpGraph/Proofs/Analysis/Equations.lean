import OpGraph.Proofs.Analysis.Liveness

/-!
Liveness as a system of equations. A family has a set of names for each statement of a function, the names that are live
after it. The family solves the equations if each of these sets is what is live before the statement that comes next,
where the end of the body of a loop is followed by its next round. The analysis gives the least family that does, and its
repetition for a loop stops by itself: the bound on the rounds is never what ends it.
-/

namespace OpGraph

open List
open NameSet (mem_union notMem_empty)

variable {after out start : NameSet}

def NameSet.names (s : NameSet) : Set String :=
  {x | x ∈ s}

theorem NameSet.same_iff {s t : NameSet} : s.same t = true ↔ ∀ x, x ∈ s ↔ x ∈ t := by
  simp only [same, Bool.and_eq_true, beq_iff_eq, all_eq_true, decide_eq_true_eq]
  constructor
  · rintro ⟨hlength, hsub⟩ x
    have hperm : s.toList.Perm t.toList :=
      ((subperm_of_subset s.nodup fun y hy => hsub y hy).perm_of_length_le hlength.ge)
    exact hperm.mem_iff
  · intro h
    have hperm : s.toList.Perm t.toList := (perm_ext_iff_of_nodup s.nodup t.nodup).2 h
    exact ⟨hperm.length_eq, fun x hx => (h x).1 hx⟩

namespace Liveness

variable {ν : Type}

/-! ### Families of sets -/

section Family

variable (sets : ν → Set String)

mutual
/-- What is live before a statement, from its set in the family and from what is live at the exit of the loop around
it. -/
def liveBefore (exit : Set String) : Stmt ν → Set String
  | .assign m ts e => (sets m.note \ {x | x ∈ Expr.targetsAll ts}) ∪ {x | x ∈ e.reads}
  | .annAssign m t _ e => (sets m.note \ {x | x ∈ t.targets}) ∪ {x | x ∈ Expr.readsOption e}
  | .ret _ e => {x | x ∈ Expr.readsOption e}
  | .cond m e body orelse =>
    liveAtStart (sets m.note) exit body ∪ liveAtStart (sets m.note) exit orelse ∪ {x | x ∈ e.reads}
  | .forLoop m t e body _ =>
    (liveAtStart (sets m.note) (sets m.note) body \ {x | x ∈ t.targets}) ∪ {x | x ∈ e.reads} ∪
      (sets m.note \ {x | x ∈ t.targets})
  | .whileLoop m e body _ =>
    liveAtStart (sets m.note ∪ {x | x ∈ e.reads}) (sets m.note) body ∪ {x | x ∈ e.reads} ∪ sets m.note
  | .brk _ => exit
  | .function m fn => (sets m.note \ {fn.name}) ∪ fn.captured.names
  | .imports m as => sets m.note \ {x | x ∈ as.map Stmt.importName}
  | .importFrom m _ as => sets m.note \ {x | x ∈ as.map fun a => a.asName.getD a.name}
  | .expr m e => sets m.note ∪ {x | x ∈ e.reads}
  | .pass m => sets m.note
/-- What is live before statements that follow each other. -/
def liveAtStart (after exit : Set String) : List (Stmt ν) → Set String
  | [] => after
  | s :: _ => liveBefore exit s
end

mutual
/-- The equations for the statements inside a statement. Nothing is asked of the else block of a loop. -/
def Balanced (exit : Set String) : Stmt ν → Prop
  | .cond m _ body orelse => BalancedAll (sets m.note) exit body ∧ BalancedAll (sets m.note) exit orelse
  | .forLoop m t _ body _ =>
    BalancedAll (sets m.note ∪ (liveAtStart sets (sets m.note) (sets m.note) body \ {x | x ∈ t.targets})) (sets m.note)
      body
  | .whileLoop m e body _ =>
    BalancedAll (sets m.note ∪ {x | x ∈ e.reads} ∪
      liveAtStart sets (sets m.note ∪ {x | x ∈ e.reads}) (sets m.note) body) (sets m.note) body
  | .function _ ⟨_, _, _, body, _⟩ => BalancedAll ∅ ∅ body
  | .assign .. | .annAssign .. | .ret .. | .brk _ | .pass _ | .expr .. | .imports .. | .importFrom .. => True
/-- The equations for statements that follow each other: the set of each is what is live before the next one. -/
def BalancedAll (after exit : Set String) : List (Stmt ν) → Prop
  | [] => True
  | s :: ss => sets s.note = liveAtStart sets after exit ss ∧ Balanced exit s ∧ BalancedAll after exit ss
end

end Family

mutual
/-- The notes of a statement and of those inside it, in the order of the text. The else block of a loop does not
count. -/
def notes : Stmt ν → List ν
  | .function m ⟨_, _, _, body, _⟩ => m.note :: notesAll body
  | .cond m _ body orelse => m.note :: (notesAll body ++ notesAll orelse)
  | .forLoop m _ _ body _ | .whileLoop m _ body _ => m.note :: notesAll body
  | .assign m .. | .annAssign m .. | .ret m _ | .brk m | .pass m | .expr m _ | .imports m _ | .importFrom m .. =>
    [m.note]
def notesAll : List (Stmt ν) → List ν
  | [] => []
  | s :: ss => notes s ++ notesAll ss
end

/-! ### The analysis solves the equations -/

theorem note_analyze (after exit : NameSet) : ∀ s : Stmt ν, (analyze after exit s).part.note = after
  | .function _ ⟨_, _, _, _, _⟩ | .assign .. | .annAssign .. | .ret .. | .cond .. | .forLoop .. | .whileLoop .. | .brk _
  | .pass _ | .expr .. | .imports .. | .importFrom .. => rfl

section Names

variable (s t : NameSet)

@[simp] theorem names_empty : (∅ : NameSet).names = ∅ :=
  Set.eq_empty_of_forall_notMem fun _ => notMem_empty

theorem empty_names_subset (names : Set String) : (∅ : NameSet).names ⊆ names := by
  simp

@[simp] theorem names_union : (s.union t).names = s.names ∪ t.names :=
  Set.ext fun _ => mem_union

@[simp] theorem names_diff : (s.diff t).names = s.names \ t.names :=
  Set.ext fun _ => NameSet.mem_diff

@[simp] theorem names_ofList (xs : List String) : (NameSet.ofList xs).names = {x | x ∈ xs} :=
  Set.ext fun _ => NameSet.mem_ofList

@[simp] theorem names_uses (e : Expr) : e.uses.names = {x | x ∈ e.reads} :=
  names_ofList e.reads

@[simp] theorem names_usesOption (e : Option Expr) : (Expr.usesOption e).names = {x | x ∈ Expr.readsOption e} :=
  names_ofList _

theorem live_eq_exposed (ss : List (Stmt ν)) : (analyzeAll ∅ ∅ ss).live = Stmt.exposed ss :=
  rfl

theorem names_captured (fn : FunctionDef ν) :
    fn.captured.names = (Stmt.exposed fn.body).names \ {x | x ∈ fn.params.map (·.name)} := by
  rw [FunctionDef.captured, names_diff, FunctionDef.paramNames, names_ofList]

end Names

/-- What is live at the start of a body does not depend on what is live at its end, unless the body is empty; then the
repetition adds nothing to the names it starts from. -/
theorem liveAtStart_analyzeAll {body : List (Stmt ν)} {keep : String → Prop}
    (hout : ∀ x, x ∈ out ↔ x ∈ start ∨ x ∈ Stmt.exposed body ∧ keep x)
    (h : liveAtStart NameSet.names out.names after.names (analyzeAll out after body).part =
      (analyzeAll out after body).live.names) :
    liveAtStart NameSet.names start.names after.names (analyzeAll out after body).part =
      (analyzeAll out after body).live.names := by
  cases body with
  | nil =>
    refine Set.ext fun x => ?_
    have hx := hout x
    rw [or_iff_left fun h => notMem_empty h.1] at hx
    exact hx.symm
  | cons s ss => exact h

mutual
/-- The analysis of a statement solves the equations inside it, and what it gives as live before the statement follows
from the family. -/
theorem balanced_analyze : ∀ (after exit : NameSet) (s : Stmt ν),
    Balanced NameSet.names exit.names (analyze after exit s).part ∧
      liveBefore NameSet.names exit.names (analyze after exit s).part = (analyze after exit s).live.names
  | after, exit, .assign m ts e | after, exit, .annAssign m t a e | after, exit, .ret m e | after, exit, .brk m
  | after, exit, .pass m | after, exit, .expr m e | after, exit, .imports m as | after, exit, .importFrom m module as => by
    simp [analyze, Balanced, liveBefore]
  | after, exit, .cond m e body orelse => by
    obtain ⟨hbody, hstart⟩ := balancedAll_analyzeAll after exit body
    obtain ⟨horelse, hstart'⟩ := balancedAll_analyzeAll after exit orelse
    refine ⟨⟨hbody, horelse⟩, ?_⟩
    simp [analyze, liveBefore, hstart, hstart']
  | after, exit, .forLoop m t e body orelse => by
    have hregular := regular_analyzeAll body
    obtain ⟨out, hout, hmem⟩ := settle_for t hregular after
    obtain ⟨hbody, hstart⟩ := balancedAll_analyzeAll out after body
    replace hstart := liveAtStart_analyzeAll hmem hstart
    -- the body no longer widens the names it is given
    have hstable : out.names = after.names ∪ ((analyzeAll out after body).live.names \ {x | x ∈ t.targets}) := by
      refine Set.ext fun x => (hmem x).trans ?_
      rw [← mem_next_body hregular.pointwise (fun _ hx => hx) (mem_next_for after t) fun x hx => (hmem x).1 hx,
        mem_next_for]
      rfl
    simp only [analyze, hout, Balanced, liveBefore, hstart]
    refine ⟨hstable ▸ hbody, ?_⟩
    simp
  | after, exit, .whileLoop m e body orelse => by
    have hregular := regular_analyzeAll body
    obtain ⟨out, hout, hmem⟩ := settle_body hregular.pointwise hregular.reads
      (fun x hx => mem_union.2 (.inl hx)) (mem_next_while after e)
    obtain ⟨hbody, hstart⟩ := balancedAll_analyzeAll out after body
    replace hstart := liveAtStart_analyzeAll hmem hstart
    have hstable : out.names = (after.names ∪ {x | x ∈ e.reads}) ∪ (analyzeAll out after body).live.names := by
      refine Set.ext fun x => (hmem x).trans ?_
      rw [← mem_next_body hregular.pointwise (fun x hx => mem_union.2 (.inl hx)) (mem_next_while after e)
        fun x hx => (hmem x).1 hx, mem_union, mem_union, Expr.mem_uses]
      rfl
    simp only [names_union, names_uses] at hstart
    simp only [analyze, hout, Balanced, liveBefore, hstart]
    refine ⟨hstable ▸ hbody, ?_⟩
    simp
  | after, exit, .function m ⟨_, _, _, body, _⟩ => by
    obtain ⟨hbody, -⟩ := balancedAll_analyzeAll ∅ ∅ body
    rw [names_empty] at hbody
    refine ⟨hbody, ?_⟩
    simp [analyze, liveBefore, names_captured, exposed_analyzeAll, live_eq_exposed]
theorem balancedAll_analyzeAll : ∀ (after exit : NameSet) (ss : List (Stmt ν)),
    BalancedAll NameSet.names after.names exit.names (analyzeAll after exit ss).part ∧
      liveAtStart NameSet.names after.names exit.names (analyzeAll after exit ss).part =
        (analyzeAll after exit ss).live.names
  | after, exit, [] => ⟨trivial, rfl⟩
  | after, exit, s :: ss => by
    obtain ⟨hrest, hstart⟩ := balancedAll_analyzeAll after exit ss
    obtain ⟨hfirst, hlive⟩ := balanced_analyze (analyzeAll after exit ss).live exit s
    exact ⟨⟨by rw [note_analyze, hstart], hfirst, hrest⟩, hlive⟩
end

/-! ### No family has less -/

section Least

variable {sets : ν → Set String}

theorem liveAtStart_below {body : List (Stmt ν)} {last exit : Set String} (start : Set String)
    (hlive : (analyzeAll out after body).live.names ⊆ liveAtStart sets last exit body)
    (hout : out.names ⊆ start ∪ (Stmt.exposed body).names) :
    (analyzeAll out after body).live.names ⊆ liveAtStart sets start exit body := by
  cases body with
  | nil => exact fun x hx => (hout hx).resolve_right notMem_empty
  | cons s ss => exact hlive

mutual
theorem analyze_below : ∀ (after exit' : NameSet) {exit : Set String} (s : Stmt ν), after.names ⊆ sets s.note →
    exit'.names ⊆ exit → Balanced sets exit s →
    Forall₂ (fun n m => n.names ⊆ sets m) (notes (analyze after exit' s).part) (notes s) ∧
      (analyze after exit' s).live.names ⊆ liveBefore sets exit s
  | after, exit', exit, .assign m ts e, hafter, _, _ | after, exit', exit, .annAssign m t a e, hafter, _, _
  | after, exit', exit, .expr m e, hafter, _, _ | after, exit', exit, .imports m as, hafter, _, _
  | after, exit', exit, .importFrom m module as, hafter, _, _ => by
    refine ⟨.cons hafter .nil, ?_⟩
    simp only [analyze, liveBefore, names_union, names_diff, names_ofList, names_uses, names_usesOption]
    gcongr
    exact hafter
  | after, exit', exit, .ret m e, hafter, _, _ => ⟨.cons hafter .nil, (names_usesOption e).subset⟩
  | after, exit', exit, .brk m, hafter, hexit, _ => ⟨.cons hafter .nil, hexit⟩
  | after, exit', exit, .pass m, hafter, _, _ => ⟨.cons hafter .nil, hafter⟩
  | after, exit', exit, .cond m e body orelse, hafter, hexit, ⟨hbody, horelse⟩ => by
    obtain ⟨hnotes, hlive⟩ := analyzeAll_below after exit' body hafter hexit hbody
    obtain ⟨hnotes', hlive'⟩ := analyzeAll_below after exit' orelse hafter hexit horelse
    refine ⟨.cons hafter (rel_append hnotes hnotes'), ?_⟩
    simp only [analyze, liveBefore, names_union, names_uses]
    gcongr
    · exact hlive
    · exact hlive'
  | after, exit', exit, .forLoop m t e body orelse, hafter, _, hbody => by
    have hregular := regular_analyzeAll body
    obtain ⟨out, hout, hmem⟩ := settle_for t hregular after
    -- what the body reads is live at its start in the family too, so the repetition stays below the family
    have hexposed := liveAtStart_below (sets m.note)
      (analyzeAll_below ∅ ∅ body (empty_names_subset _) (empty_names_subset _) hbody).2 (empty_names_subset _)
    have hround : out.names ⊆ sets m.note ∪ (liveAtStart sets (sets m.note) (sets m.note) body \ {x | x ∈ t.targets}) :=
      fun x hx => ((hmem x).1 hx).imp (fun h => hafter h) fun h => ⟨hexposed h.1, h.2⟩
    obtain ⟨hnotes, hlive⟩ := analyzeAll_below out after body hround hafter hbody
    have hstart := liveAtStart_below (sets m.note) hlive
      fun x hx => ((hmem x).1 hx).imp (fun h => hafter h) fun h => h.1
    simp only [analyze, hout, liveBefore, notes, names_union, names_diff, names_ofList, names_uses]
    refine ⟨.cons hafter hnotes, ?_⟩
    gcongr
    · exact hstart
    · exact hafter
  | after, exit', exit, .whileLoop m e body orelse, hafter, _, hbody => by
    have hregular := regular_analyzeAll body
    obtain ⟨out, hout, hmem⟩ := settle_while e hregular after
    have hexposed := liveAtStart_below (sets m.note ∪ {x | x ∈ e.reads})
      (analyzeAll_below ∅ ∅ body (empty_names_subset _) (empty_names_subset _) hbody).2 (empty_names_subset _)
    have hround : out.names ⊆ sets m.note ∪ {x | x ∈ e.reads} ∪
        liveAtStart sets (sets m.note ∪ {x | x ∈ e.reads}) (sets m.note) body :=
      fun x hx => ((hmem x).1 hx).imp (Or.imp_left fun h => hafter h) fun h => hexposed h
    obtain ⟨hnotes, hlive⟩ := analyzeAll_below out after body hround hafter hbody
    have hstart := liveAtStart_below (sets m.note ∪ {x | x ∈ e.reads}) hlive
      fun x hx => ((hmem x).1 hx).imp_left (Or.imp_left fun h => hafter h)
    simp only [analyze, hout, liveBefore, notes, names_union, names_uses]
    refine ⟨.cons hafter hnotes, ?_⟩
    gcongr
    · exact hstart
    · exact hafter
  | after, exit', exit, .function m ⟨_, _, _, body, _⟩, hafter, _, hbody => by
    obtain ⟨hnotes, -⟩ := analyzeAll_below ∅ ∅ body names_empty.subset names_empty.subset hbody
    refine ⟨.cons hafter hnotes, ?_⟩
    simp only [analyze, liveBefore, names_union, names_diff, names_ofList, names_captured, live_eq_exposed]
    gcongr
    · exact hafter
    · simp
theorem analyzeAll_below : ∀ (after' exit' : NameSet) {after exit : Set String} (ss : List (Stmt ν)),
    after'.names ⊆ after → exit'.names ⊆ exit → BalancedAll sets after exit ss →
    Forall₂ (fun n m => n.names ⊆ sets m) (notesAll (analyzeAll after' exit' ss).part) (notesAll ss) ∧
      (analyzeAll after' exit' ss).live.names ⊆ liveAtStart sets after exit ss
  | after', exit', after, exit, [], hafter, _, _ => ⟨.nil, hafter⟩
  | after', exit', after, exit, s :: ss, hafter, hexit, ⟨hnote, hs, hss⟩ => by
    obtain ⟨hrest, hlive⟩ := analyzeAll_below after' exit' ss hafter hexit hss
    obtain ⟨hfirst, hbefore⟩ :=
      analyze_below (analyzeAll after' exit' ss).live exit' s (by rw [hnote]; exact hlive) hexit hs
    exact ⟨rel_append hfirst hrest, hbefore⟩
end

end Least

/-! ### The repetition stops by itself -/

/-- The repetition of a visit without a bound on the rounds, from the names at the end of the body of a loop. -/
inductive Repeats {α : Type} (visit : NameSet → Flow α → Prop) (next : NameSet → NameSet) : NameSet → Flow α → Prop
  | stop {out : NameSet} {flow : Flow α} : visit out flow → (next flow.live).same out = true →
    Repeats visit next out flow
  | again {out : NameSet} {flow last : Flow α} : visit out flow → (next flow.live).same out = false →
    Repeats visit next (next flow.live) last → Repeats visit next out last

mutual
/-- A visit of a statement that comes to an end, with no bound on the rounds of a loop. -/
def Visits (after exit : NameSet) : Stmt ν → Flow (Stmt NameSet) → Prop
  | .cond m e body orelse, flow => ∃ first second, VisitsAll after exit body first ∧
    VisitsAll after exit orelse second ∧
    flow = ⟨(first.live.union second.live).union e.uses, .cond ⟨m.pos, after⟩ e first.part second.part⟩
  | .forLoop m t e body orelse, flow => ∃ last,
    Repeats (fun out => VisitsAll out after body) (fun live => after.union (live.diff (.ofList t.targets))) after last ∧
    flow = ⟨((last.live.diff (.ofList t.targets)).union e.uses).union (after.diff (.ofList t.targets)),
      .forLoop ⟨m.pos, after⟩ t e last.part (blankAll orelse)⟩
  | .whileLoop m e body orelse, flow => ∃ last,
    Repeats (fun out => VisitsAll out after body) (fun live => (after.union e.uses).union live) (after.union e.uses)
      last ∧
    flow = ⟨(last.live.union e.uses).union after, .whileLoop ⟨m.pos, after⟩ e last.part (blankAll orelse)⟩
  | .function m ⟨name, params, defaults, body, returns⟩, flow => ∃ inner, VisitsAll ∅ ∅ body inner ∧
    flow = ⟨(after.diff (.ofList [name])).union (inner.live.diff (.ofList (params.map (·.name)))),
      .function ⟨m.pos, after⟩ ⟨name, params, defaults, inner.part, returns⟩⟩
  | s, flow => flow = analyze after exit s
def VisitsAll (after exit : NameSet) : List (Stmt ν) → Flow (List (Stmt NameSet)) → Prop
  | [], flow => flow = ⟨after, []⟩
  | s :: ss, flow => ∃ rest first, VisitsAll after exit ss rest ∧ Visits rest.live exit s first ∧
    flow = ⟨first.live, first.part :: rest.part⟩
end

section Repeats

variable {α : Type} {step : NameSet → Flow α} {next : NameSet → NameSet} {limit : String → Prop}

theorem Repeats.unique {flow flow' : Flow α} (h : Repeats (fun out flow => flow = step out) next start flow)
    (h' : Repeats (fun out flow => flow = step out) next start flow') : flow' = flow := by
  induction h with
  | stop hvisit hsame =>
    cases h' with
    | stop hvisit' _ => rw [hvisit, hvisit']
    | again hvisit' hmore _ => simp [hvisit', ← hvisit, hsame] at hmore
  | again hvisit hmore _ ih =>
    cases h' with
    | stop hvisit' hsame => simp [hvisit', ← hvisit, hmore] at hsame
    | again hvisit' _ hrest => exact ih (by rw [hvisit, ← hvisit']; exact hrest)

variable (hnext : ∀ out, (∀ x, x ∈ out → limit x) → ∀ x, x ∈ next (step out).live ↔ limit x)
include hnext

theorem repeats_of_limit (hout : ∀ x, x ∈ out ↔ limit x) (rounds : ℕ) :
    Repeats (fun out flow => flow = step out) next out (settle step next rounds out) := by
  have hsame : (next (step out).live).same out = true :=
    NameSet.same_iff.2 fun x => (hnext out (fun y hy => (hout y).1 hy) x).trans (hout x).symm
  have hsettle : settle step next rounds out = step out := by
    cases rounds with
    | zero => rfl
    | succ rounds => rw [settle, if_pos hsame]
  rw [hsettle]
  exact .stop rfl hsame

theorem repeats_settle (hstart : ∀ x, x ∈ start → limit x) (rounds : ℕ)
    (hzero : rounds = 0 → ∀ x, limit x → x ∈ start) :
    Repeats (fun out flow => flow = step out) next start (settle step next rounds start) := by
  cases rounds with
  | zero => exact repeats_of_limit hnext (fun x => ⟨hstart x, hzero rfl x⟩) 0
  | succ rounds =>
    rw [settle]
    split
    · rename_i hsame
      exact .stop rfl hsame
    · rename_i hmore
      exact .again rfl (Bool.eq_false_of_not_eq_true hmore) (repeats_of_limit hnext (hnext start hstart) rounds)

end Repeats

theorem repeats_body_iff {body : List (Stmt ν)} {next : NameSet → NameSet} {keep : String → Prop}
    (hafter : ∀ x ∈ after, x ∈ start) (hnext : ∀ live x, x ∈ next live ↔ x ∈ start ∨ x ∈ live ∧ keep x)
    (hvisit : ∀ out flow, VisitsAll out after body flow ↔ flow = analyzeAll out after body)
    (last : Flow (List (Stmt NameSet))) :
    Repeats (fun out => VisitsAll out after body) next start last ↔
      last = settle (fun out => analyzeAll out after body) next (Stmt.occurrencesAll body).length start := by
  have hbody := regular_analyzeAll body
  have hstops := repeats_settle (fun _ hout => mem_next_body hbody.pointwise hafter hnext hout)
    (fun _ hx => .inl hx) _ (mem_start_of_length_eq_zero hbody.reads)
  rw [show (fun out => VisitsAll out after body) = fun out flow => flow = analyzeAll out after body from
    funext₂ fun out flow => propext (hvisit out flow)]
  exact ⟨hstops.unique, fun hlast => hlast ▸ hstops⟩

/-- **Every visit comes to an end**, and there is one way it can. -/
theorem visitsAll_iff {after exit : NameSet} (ss : List (Stmt ν)) {flow : Flow (List (Stmt NameSet))} :
    VisitsAll after exit ss flow ↔ flow = analyzeAll after exit ss := by
  induction ss using blankAll.induct
    (fun s => ∀ after exit flow, Visits after exit s flow ↔ flow = analyze after exit s)
    generalizing after exit flow with
  | case6 m t e body orelse hvisit _ after exit flow =>
    have hbody := repeats_body_iff (fun _ hx => hx) (mem_next_for after t) fun _ _ => hvisit
    simp only [Visits, hbody, exists_eq_left, analyze]
  | case7 m e body orelse hvisit _ after exit flow =>
    have hbody := repeats_body_iff (fun x hx => mem_union.2 (.inl hx)) (mem_next_while after e) fun _ _ => hvisit
    simp only [Visits, hbody, exists_eq_left, analyze]
  | _ => simp_all only [Visits, VisitsAll, exists_and_left, exists_eq_left, analyze, analyzeAll]

end Liveness

/-- **Liveness is the least solution of its equations**: a visit of the body comes to an end, in one way, with the sets
of the analysis; these solve the equations at all statements at once; and every other family that does has their names,
set by set. -/
theorem FunctionDef.analyze_least {ν : Type} (fn : FunctionDef ν) :
    (∃ flow, (∀ flow', Liveness.VisitsAll ∅ ∅ fn.body flow' ↔ flow' = flow) ∧ flow.part = fn.analyze.body) ∧
    Liveness.BalancedAll NameSet.names ∅ ∅ fn.analyze.body ∧
    ∀ family : List (Stmt (Set String)), Liveness.blankAll family = Liveness.blankAll fn.body →
      Liveness.BalancedAll id ∅ ∅ family →
      List.Forall₂ (fun recorded other => recorded.names ⊆ other) (Liveness.notesAll fn.analyze.body)
        (Liveness.notesAll family) := by
  refine ⟨⟨_, fun flow' => Liveness.visitsAll_iff fn.body, rfl⟩, ?_, fun family hshape hfamily => ?_⟩
  · have h := (Liveness.balancedAll_analyzeAll ∅ ∅ fn.body).1
    rwa [Liveness.names_empty] at h
  · -- the analysis does not look at notes, so it gives the same on the statements of the family
    have hsame : fn.analyze.body = (Liveness.analyzeAll ∅ ∅ family).part := by
      rw [← Liveness.analyzeAll_blankAll, hshape, Liveness.analyzeAll_blankAll, FunctionDef.analyze]
    rw [hsame]
    exact (Liveness.analyzeAll_below ∅ ∅ family (Liveness.empty_names_subset _) (Liveness.empty_names_subset _)
      hfamily).1

/-- `while c: x = -x`, with a set for the loop and one for the assignment. -/
def loopSample {ν : Type} (outer inner : ν) : List (Stmt ν) :=
  [.whileLoop ⟨default, outer⟩ (.name default "c")
    [.assign ⟨default, inner⟩ [.name default "x"] (.unary default .minus (.name default "x"))] []]

/-- The sample has more than one solution: the names of the analysis with any other name added to the loop. -/
theorem analyze_least_sample : Liveness.BalancedAll id ∅ ∅ (loopSample ∅ {"c", "x", "z"}) ∧
    List.Forall₂ (fun recorded other => recorded.names ⊆ other)
      (Liveness.notesAll (FunctionDef.analyze ⟨"f", [], [], loopSample () (), none⟩).body) [∅, {"c", "x", "z"}] := by
  have hfamily : Liveness.BalancedAll id ∅ ∅ (loopSample ∅ {"c", "x", "z"}) := by
    refine ⟨rfl, ⟨?_, trivial, trivial⟩, trivial⟩
    refine Set.ext fun x => ?_
    simp [Liveness.liveAtStart, Liveness.liveBefore, Stmt.note, Stmt.mark, Expr.reads, Expr.targetsAll, Expr.targets]
    tauto
  exact ⟨hfamily, (FunctionDef.analyze_least ⟨"f", [], [], loopSample () (), none⟩).2.2 _ rfl hfamily⟩

end OpGraph
