import Mathlib
import OpGraph.Analysis.Liveness

/-!
Liveness of names. The analysis only fills in notes: apart from them, the statements stay as they are, and so does
everything that does not look at notes. It works name by name, and the repetition for a loop reaches a set that the body
of the loop no longer widens.
-/

namespace OpGraph

open List

variable {reads : List String} {x : String}
variable {reads' : List String} {f : NameSet → NameSet → NameSet}

theorem NameSet.mem_ofList {xs : List String} : x ∈ NameSet.ofList xs ↔ x ∈ xs := by
  have hempty : x ∉ (∅ : NameSet) := not_mem_nil
  rw [NameSet.ofList, NameSet.mem_insertAll]
  exact ⟨fun h => h.resolve_left hempty, .inr⟩

/-! ### Names of statements -/

namespace Stmt

variable {ν : Type}

mutual
/-- Names that a statement, and those inside it, read or bind. -/
def identifiers : Stmt ν → List String
  | function _ ⟨name, _, _, body, _⟩ => name :: identifiersAll body
  | assign _ ts e => Expr.targetsAll ts ++ e.reads
  | annAssign _ t _ e => t.targets ++ Expr.readsOption e
  | ret _ e => Expr.readsOption e
  | cond _ e body orelse => e.reads ++ (identifiersAll body ++ identifiersAll orelse)
  | forLoop _ t e body _ => t.targets ++ (e.reads ++ identifiersAll body)
  | whileLoop _ e body _ => e.reads ++ identifiersAll body
  | imports _ as => as.map importName
  | importFrom _ _ as => as.map fun a => a.asName.getD a.name
  | expr _ e => e.reads
  | brk _ | pass _ => []
def identifiersAll : List (Stmt ν) → List String
  | [] => []
  | s :: ss => s.identifiers ++ identifiersAll ss
end

theorem mem_identifiersAll_of_assignsAll {ss : List (Stmt ν)} : x ∈ assignsAll ss → x ∈ identifiersAll ss := by
  induction ss using identifiersAll.induct (fun s => x ∈ s.assigns → x ∈ s.identifiers) <;>
    grind [assigns, assignsAll, identifiers, identifiersAll]

end Stmt

namespace Liveness

variable {ν : Type}

/-! ### Statements without notes -/

theorem settle_eq_step {α : Type} (step : NameSet → Flow α) (next : NameSet → NameSet) :
    ∀ (rounds : ℕ) (after : NameSet), ∃ out, settle step next rounds after = step out
  | 0, after => ⟨after, rfl⟩
  | rounds + 1, after => by
    rw [settle]
    split
    · exact ⟨after, rfl⟩
    · exact settle_eq_step step next rounds _

theorem blankAll_blankAll (ss : List (Stmt ν)) : blankAll (blankAll ss) = blankAll ss := by
  induction ss using blankAll.induct (fun s => blank (blank s) = blank s) <;> simp_all only [blank, blankAll]

theorem blankAll_analyzeAll (after exit : NameSet) (ss : List (Stmt ν)) :
    blankAll (analyzeAll after exit ss).part = blankAll ss := by
  induction ss using blankAll.induct (fun s => ∀ after exit, blank (analyze after exit s).part = blank s)
    generalizing after exit with
  | case6 m t e body orelse hbody _ after exit =>
    obtain ⟨out, hout⟩ := settle_eq_step (fun out => analyzeAll out after body)
      (fun live => after.union (live.diff (.ofList t.targets))) (Stmt.occurrencesAll body).length after
    simp only [analyze, blank, hout, hbody, blankAll_blankAll]
  | case7 m e body orelse hbody _ after exit =>
    obtain ⟨out, hout⟩ := settle_eq_step (fun out => analyzeAll out after body)
      (fun live => (after.union e.uses).union live) (Stmt.occurrencesAll body).length (after.union e.uses)
    simp only [analyze, blank, hout, hbody, blankAll_blankAll]
  | _ => simp_all only [analyze, analyzeAll, blank, blankAll]

theorem blank_analyze (after exit : NameSet) (s : Stmt ν) : blank (analyze after exit s).part = blank s := by
  simpa [analyzeAll, blankAll] using blankAll_analyzeAll after exit [s]

theorem identifiersAll_blankAll (ss : List (Stmt ν)) :
    Stmt.identifiersAll (blankAll ss) = Stmt.identifiersAll ss := by
  induction ss using blankAll.induct (fun s => (blank s).identifiers = s.identifiers) <;>
    simp_all only [blank, blankAll, Stmt.identifiers, Stmt.identifiersAll]

theorem identifiersAll_analyzeAll (after exit : NameSet) (ss : List (Stmt ν)) :
    Stmt.identifiersAll (analyzeAll after exit ss).part = Stmt.identifiersAll ss := by
  rw [← identifiersAll_blankAll, blankAll_analyzeAll, identifiersAll_blankAll]

theorem occurrencesAll_blankAll (ss : List (Stmt ν)) :
    Stmt.occurrencesAll (blankAll ss) = Stmt.occurrencesAll ss := by
  induction ss using blankAll.induct (fun s => (blank s).occurrences = s.occurrences) <;>
    simp_all only [blank, blankAll, Stmt.occurrences, Stmt.occurrencesAll]

theorem assignsAll_blankAll (ss : List (Stmt ν)) : Stmt.assignsAll (blankAll ss) = Stmt.assignsAll ss := by
  induction ss using blankAll.induct (fun s => (blank s).assigns = s.assigns) <;>
    simp_all only [blank, blankAll, Stmt.assigns, Stmt.assignsAll]

theorem analyzeAll_blankAll (after exit : NameSet) (ss : List (Stmt ν)) :
    analyzeAll after exit (blankAll ss) = analyzeAll after exit ss := by
  induction ss using blankAll.induct (fun s => ∀ after exit, analyze after exit (blank s) = analyze after exit s)
    generalizing after exit <;>
    simp_all only [analyze, analyzeAll, blank, blankAll, occurrencesAll_blankAll, blankAll_blankAll]

theorem assignsAll_analyzeAll (after exit : NameSet) (ss : List (Stmt ν)) :
    Stmt.assignsAll (analyzeAll after exit ss).part = Stmt.assignsAll ss := by
  rw [← assignsAll_blankAll, blankAll_analyzeAll, assignsAll_blankAll]

theorem exposed_analyzeAll (after exit : NameSet) (ss : List (Stmt ν)) :
    Stmt.exposed (analyzeAll after exit ss).part = Stmt.exposed ss := by
  rw [Stmt.exposed, ← analyzeAll_blankAll, blankAll_analyzeAll, analyzeAll_blankAll, Stmt.exposed]

end Liveness

/-! ### Live names -/

namespace NameSet

theorem notMem_empty : x ∉ (∅ : NameSet) :=
  not_mem_nil

theorem mem_of_same {s t : NameSet} (h : s.same t = true) (hx : x ∈ s) : x ∈ t := by
  simp only [same, Bool.and_eq_true, all_eq_true, decide_eq_true_eq] at h
  exact h.2 x hx

end NameSet

open NameSet (mem_union mem_diff mem_ofList notMem_empty)

theorem Expr.mem_uses {e : Expr} : x ∈ e.uses ↔ x ∈ e.reads :=
  mem_ofList

theorem Expr.mem_usesOption {e : Option Expr} : x ∈ Expr.usesOption e ↔ x ∈ Expr.readsOption e :=
  mem_ofList

namespace Stmt

variable {ν : Type}

mutual
/-- Names that a statement reads outside the loops that count with them. -/
def outerReads : Stmt ν → List String
  | function _ ⟨_, _, _, body, _⟩ => outerReadsAll body
  | assign _ _ e => e.reads
  | annAssign _ _ _ e => Expr.readsOption e
  | ret _ e => Expr.readsOption e
  | cond _ e body orelse => e.reads ++ (outerReadsAll body ++ outerReadsAll orelse)
  | forLoop _ t e body _ => e.reads ++ (outerReadsAll body).filter (· ∉ t.targets)
  | whileLoop _ e body _ => e.reads ++ outerReadsAll body
  | expr _ e => e.reads
  | imports .. | importFrom .. | brk _ | pass _ => []
def outerReadsAll : List (Stmt ν) → List String
  | [] => []
  | s :: ss => s.outerReads ++ outerReadsAll ss
end

theorem mem_occurrencesAll_of_outerReadsAll {ss : List (Stmt ν)} : x ∈ outerReadsAll ss → x ∈ occurrencesAll ss := by
  induction ss using outerReadsAll.induct (fun s => x ∈ s.outerReads → x ∈ s.occurrences) <;>
    grind [outerReads, outerReadsAll, occurrences, occurrencesAll]

end Stmt

namespace Liveness

variable {ν : Type}

/-- The names before a part depend on those after it, and on those at the exit of the loop, name by name: a name stays
if it is kept in both. -/
def Pointwise (f : NameSet → NameSet → NameSet) : Prop :=
  ∀ ⦃x : String⦄ ⦃after exit after' exit' : NameSet⦄, (x ∈ after → x ∈ after') → (x ∈ exit → x ∈ exit') →
    x ∈ f after exit → x ∈ f after' exit'

/-- A name is live before a part because the part reads it, or because it is live after the part or at the exit. -/
theorem Pointwise.cases (hf : Pointwise f) {after exit : NameSet} (hx : x ∈ f after exit) :
    x ∈ f ∅ ∅ ∨ x ∈ after ∨ x ∈ exit := by
  by_cases ha : x ∈ after
  · exact .inr (.inl ha)
  · by_cases he : x ∈ exit
    · exact .inr (.inr he)
    · exact .inl (hf (fun h => absurd h ha) (fun h => absurd h he) hx)

theorem Pointwise.of_empty (hf : Pointwise f) (after exit : NameSet) (hx : x ∈ f ∅ ∅) : x ∈ f after exit :=
  hf (fun h => absurd h notMem_empty) (fun h => absurd h notMem_empty) hx

section Settle

variable {α : Type} {step : NameSet → Flow α} {next : NameSet → NameSet} {limit : String → Prop}
  (hnext : ∀ out, (∀ x, x ∈ out → limit x) → ∀ x, x ∈ next (step out).live ↔ limit x)
include hnext

theorem settle_of_limit :
    ∀ (rounds : ℕ) (after : NameSet), (∀ x, x ∈ after ↔ limit x) →
      ∃ out, settle step next rounds after = step out ∧ ∀ x, x ∈ out ↔ limit x
  | 0, after, h => ⟨after, rfl, h⟩
  | rounds + 1, after, h => by
    rw [settle]
    split
    · exact ⟨after, rfl, h⟩
    · exact settle_of_limit rounds _ (hnext after fun x hx => (h x).1 hx)

/-- **Repetition reaches the limit**: the names it starts from, and those that the step adds to any of them. One round
is enough, and none is needed if the step adds nothing. -/
theorem settle_limit {start : NameSet} (hstart : ∀ x, x ∈ start → limit x) (rounds : ℕ)
    (hzero : rounds = 0 → ∀ x, limit x → x ∈ start) :
    ∃ out, settle step next rounds start = step out ∧ ∀ x, x ∈ out ↔ limit x := by
  cases rounds with
  | zero => exact ⟨start, rfl, fun x => ⟨hstart x, hzero rfl x⟩⟩
  | succ rounds =>
    have hwider := hnext start hstart
    rw [settle]
    split
    · rename_i hsame
      exact ⟨start, rfl, fun x => ⟨hstart x, fun hx => NameSet.mem_of_same hsame ((hwider x).2 hx)⟩⟩
    · exact settle_of_limit hnext rounds _ hwider

end Settle

section Body

variable {body : List (Stmt ν)} {after start : NameSet} {next : NameSet → NameSet} {keep : String → Prop}

/-- A round over the body of a loop adds the names that the body reads and that may come from the round before. -/
theorem mem_next_body (hbody : Pointwise fun out exit => (analyzeAll out exit body).live)
    (hafter : ∀ x ∈ after, x ∈ start) (hnext : ∀ live x, x ∈ next live ↔ x ∈ start ∨ x ∈ live ∧ keep x) {out : NameSet}
    (hout : ∀ x, x ∈ out → x ∈ start ∨ x ∈ Stmt.exposed body ∧ keep x) (x : String) :
    x ∈ next (analyzeAll out after body).live ↔ x ∈ start ∨ x ∈ Stmt.exposed body ∧ keep x := by
  rw [hnext]
  constructor
  · rintro (hx | ⟨hx, hkeep⟩)
    · exact .inl hx
    · rcases hbody.cases hx with hx | hx | hx
      · exact .inr ⟨hx, hkeep⟩
      · exact hout x hx
      · exact .inl (hafter x hx)
  · exact Or.imp_right fun hx => ⟨hbody.of_empty out after hx.1, hx.2⟩

theorem mem_start_of_length_eq_zero (hreads : ∀ x ∈ Stmt.exposed body, x ∈ Stmt.outerReadsAll body)
    (hzero : (Stmt.occurrencesAll body).length = 0) (x : String) (hx : x ∈ start ∨ x ∈ Stmt.exposed body ∧ keep x) :
    x ∈ start := by
  refine hx.resolve_right fun hx => ?_
  have := Stmt.mem_occurrencesAll_of_outerReadsAll (hreads x hx.1)
  rw [eq_nil_of_length_eq_zero hzero] at this
  exact not_mem_nil this

/-- The names at the end of the body of a loop: those it starts from, and those that the body reads and that may come
from the round before. -/
theorem settle_body (hbody : Pointwise fun out exit => (analyzeAll out exit body).live)
    (hreads : ∀ x ∈ Stmt.exposed body, x ∈ Stmt.outerReadsAll body) (hafter : ∀ x ∈ after, x ∈ start)
    (hnext : ∀ live x, x ∈ next live ↔ x ∈ start ∨ x ∈ live ∧ keep x) :
    ∃ out, settle (fun out => analyzeAll out after body) next (Stmt.occurrencesAll body).length start =
        analyzeAll out after body ∧ ∀ x, x ∈ out ↔ x ∈ start ∨ x ∈ Stmt.exposed body ∧ keep x :=
  settle_limit (fun _ hout => mem_next_body hbody hafter hnext hout) (fun _ hx => .inl hx) _
    (mem_start_of_length_eq_zero hreads)

end Body

theorem mem_next_for (after : NameSet) (t : Expr) (live : NameSet) (x : String) :
    x ∈ after.union (live.diff (.ofList t.targets)) ↔ x ∈ after ∨ x ∈ live ∧ x ∉ t.targets := by
  rw [mem_union, mem_diff, mem_ofList]

theorem mem_next_while (after : NameSet) (e : Expr) (live : NameSet) (x : String) :
    x ∈ (after.union e.uses).union live ↔ x ∈ after.union e.uses ∨ x ∈ live ∧ True := by
  rw [mem_union, and_true]

/-- The analysis of a part works name by name, and what is live before it without anything live after it is read. -/
structure Regular (live : NameSet → NameSet → NameSet) (reads : List String) : Prop where
  pointwise : Pointwise live
  reads : ∀ x ∈ live ∅ ∅, x ∈ reads

section Loops

variable {body : List (Stmt ν)} (m : Mark ν) (t e : Expr) (orelse : List (Stmt ν))
  (h : Regular (fun after exit => (analyzeAll after exit body).live) (Stmt.outerReadsAll body)) (after exit : NameSet)
include h

theorem settle_for :
    ∃ out, settle (fun out => analyzeAll out after body) (fun live => after.union (live.diff (.ofList t.targets)))
        (Stmt.occurrencesAll body).length after = analyzeAll out after body ∧
      ∀ x, x ∈ out ↔ x ∈ after ∨ x ∈ Stmt.exposed body ∧ x ∉ t.targets :=
  settle_body h.pointwise h.reads (fun _ hx => hx) (mem_next_for after t)

theorem settle_while :
    ∃ out, settle (fun out => analyzeAll out after body) (fun live => (after.union e.uses).union live)
        (Stmt.occurrencesAll body).length (after.union e.uses) = analyzeAll out after body ∧
      ∀ x, x ∈ out ↔ (x ∈ after ∨ x ∈ e.reads) ∨ x ∈ Stmt.exposed body := by
  obtain ⟨out, hout, hmem⟩ :=
    settle_body h.pointwise h.reads (fun x hx => mem_union.2 (.inl hx)) (mem_next_while after e)
  refine ⟨out, hout, fun x => ?_⟩
  rw [hmem, mem_union, Expr.mem_uses, and_true]

theorem mem_live_for (x : String) : x ∈ (analyze after exit (.forLoop m t e body orelse)).live ↔
      (x ∈ after ∨ x ∈ Stmt.exposed body) ∧ x ∉ t.targets ∨ x ∈ e.reads := by
  obtain ⟨out, hout, hmem⟩ := settle_for t h after
  simp only [analyze, hout, mem_union, mem_diff, Expr.mem_uses, mem_ofList]
  constructor
  · rintro ((⟨hx, ht⟩ | hx) | ⟨hx, ht⟩)
    · refine .inl ⟨?_, ht⟩
      rcases h.pointwise.cases hx with hx | hx | hx
      · exact .inr hx
      · exact ((hmem x).1 hx).imp_right (·.1)
      · exact .inl hx
    · exact .inr hx
    · exact .inl ⟨.inl hx, ht⟩
  · rintro (⟨hx | hx, ht⟩ | hx)
    · exact .inr ⟨hx, ht⟩
    · exact .inl (.inl ⟨h.pointwise.of_empty out after hx, ht⟩)
    · exact .inl (.inr hx)

theorem mem_live_while (x : String) : x ∈ (analyze after exit (.whileLoop m e body orelse)).live ↔
      x ∈ after ∨ x ∈ Stmt.exposed body ∨ x ∈ e.reads := by
  obtain ⟨out, hout, hmem⟩ := settle_while e h after
  simp only [analyze, hout, mem_union, Expr.mem_uses]
  constructor
  · rintro ((hx | hx) | hx)
    · rcases h.pointwise.cases hx with hx | hx | hx
      · exact .inr (.inl hx)
      · rcases (hmem x).1 hx with (hx | hx) | hx
        · exact .inl hx
        · exact .inr (.inr hx)
        · exact .inr (.inl hx)
      · exact .inl hx
    · exact .inr (.inr hx)
    · exact .inl hx
  · rintro (hx | hx | hx)
    · exact .inr hx
    · exact .inl (.inl (h.pointwise.of_empty out after hx))
    · exact .inl (.inr hx)

end Loops

theorem regular_reads (dropped : List String) {live : NameSet → NameSet → NameSet}
    (h : ∀ after exit x, x ∈ live after exit ↔ x ∈ after ∧ x ∉ dropped ∨ x ∈ reads) : Regular live reads := by
  refine ⟨fun x after exit after' exit' ha _ hx => ?_, fun x hx => ?_⟩
  · rw [h] at hx ⊢
    exact hx.imp_left fun hx => ⟨ha hx.1, hx.2⟩
  · exact ((h ∅ ∅ x).1 hx).resolve_left fun hx => notMem_empty hx.1

theorem Regular.seq {first rest : NameSet → NameSet → NameSet} (h : Regular first reads) (h' : Regular rest reads') :
    Regular (fun after exit => first (rest after exit) exit) (reads ++ reads') := by
  refine ⟨fun x after exit after' exit' ha he hx => h.pointwise (h'.pointwise ha he) he hx, fun x hx => ?_⟩
  rcases h.pointwise.cases hx with hx | hx | hx
  · exact mem_append_left _ (h.reads x hx)
  · exact mem_append_right _ (h'.reads x hx)
  · exact absurd hx notMem_empty

theorem Regular.cond {body orelse : NameSet → NameSet → NameSet} (e : Expr) (h : Regular body reads)
    (h' : Regular orelse reads') :
    Regular (fun after exit => ((body after exit).union (orelse after exit)).union e.uses)
      (e.reads ++ (reads ++ reads')) := by
  refine ⟨fun x after exit after' exit' ha he hx => ?_, fun x hx => ?_⟩
  · rw [mem_union, mem_union] at hx ⊢
    exact hx.imp_left (Or.imp (h.pointwise ha he) (h'.pointwise ha he))
  · rw [mem_union, mem_union, Expr.mem_uses] at hx
    rcases hx with (hx | hx) | hx
    · exact mem_append_right _ (mem_append_left _ (h.reads x hx))
    · exact mem_append_right _ (mem_append_right _ (h'.reads x hx))
    · exact mem_append_left _ hx

mutual
/-- **Liveness works name by name**: whether a name is live before a statement depends only on whether it is live after
it and at the exit of the loop. -/
theorem regular_analyze : ∀ s : Stmt ν, Regular (fun after exit => (analyze after exit s).live) s.outerReads
  | .assign m ts e => regular_reads (Expr.targetsAll ts) fun after exit x => by
    simp only [analyze, mem_union, mem_diff, Expr.mem_uses, mem_ofList, Stmt.outerReads]
  | .annAssign m t a e => regular_reads t.targets fun after exit x => by
    simp only [analyze, mem_union, mem_diff, Expr.mem_usesOption, mem_ofList, Stmt.outerReads]
  | .ret m e => ⟨fun x after exit after' exit' _ _ hx => hx, fun x hx => Expr.mem_usesOption.1 hx⟩
  | .cond m e body orelse => (regular_analyzeAll body).cond e (regular_analyzeAll orelse)
  | .forLoop m t e body orelse => by
    have h := mem_live_for m t e orelse (regular_analyzeAll body)
    refine ⟨fun x after exit after' exit' ha _ hx => ?_, fun x hx => ?_⟩
    · rw [h] at hx ⊢
      exact hx.imp_left fun hx => ⟨hx.1.imp_left ha, hx.2⟩
    · rw [h] at hx
      rcases hx with ⟨hx | hx, ht⟩ | hx
      · exact absurd hx notMem_empty
      · refine mem_append_right _ (mem_filter.2 ⟨(regular_analyzeAll body).reads x hx, ?_⟩)
        simpa using ht
      · exact mem_append_left _ hx
  | .whileLoop m e body orelse => by
    have h := mem_live_while m e orelse (regular_analyzeAll body)
    refine ⟨fun x after exit after' exit' ha _ hx => ?_, fun x hx => ?_⟩
    · rw [h] at hx ⊢
      exact hx.imp_left ha
    · rw [h] at hx
      rcases hx with hx | hx | hx
      · exact absurd hx notMem_empty
      · exact mem_append_right _ ((regular_analyzeAll body).reads x hx)
      · exact mem_append_left _ hx
  | .brk m => ⟨fun x after exit after' exit' _ he hx => he hx, fun x hx => absurd hx notMem_empty⟩
  | .function m ⟨name, params, defaults, body, returns⟩ => by
    have h : ∀ after exit x, x ∈ (analyze after exit (.function m ⟨name, params, defaults, body, returns⟩)).live ↔
        x ∈ after ∧ x ∉ [name] ∨ x ∈ Stmt.exposed body ∧ x ∉ params.map (·.name) := by
      intro after exit x
      simp only [analyze, mem_union, mem_diff, mem_ofList, Stmt.exposed]
    refine ⟨fun x after exit after' exit' ha _ hx => ?_, fun x hx => ?_⟩
    · rw [h] at hx ⊢
      exact hx.imp_left fun hx => ⟨ha hx.1, hx.2⟩
    · rcases (h ∅ ∅ x).1 hx with hx | hx
      · exact absurd hx.1 notMem_empty
      · exact (regular_analyzeAll body).reads x hx.1
  | .imports m as => regular_reads (as.map Stmt.importName) fun after exit x => by
    simp [analyze, mem_diff, mem_ofList, Stmt.outerReads]
  | .importFrom m module as => regular_reads (as.map fun a => a.asName.getD a.name) fun after exit x => by
    simp [analyze, mem_diff, mem_ofList, Stmt.outerReads]
  | .expr m e => regular_reads [] fun after exit x => by
    simp [analyze, mem_union, Expr.mem_uses, Stmt.outerReads]
  | .pass m => regular_reads [] fun after exit x => by
    simp [analyze, Stmt.outerReads]
theorem regular_analyzeAll : ∀ ss : List (Stmt ν),
    Regular (fun after exit => (analyzeAll after exit ss).live) (Stmt.outerReadsAll ss)
  | [] => regular_reads [] fun after exit x => by simp [analyzeAll, Stmt.outerReadsAll]
  | s :: ss => (regular_analyze s).seq (regular_analyzeAll ss)
end

end Liveness

end OpGraph
