import Mathlib
import OpGraph.Lowering.DefaultOpset

/-!
Where the default operator set of a function is found. The statements and expressions that are evaluated have places, which
are ordered as they are evaluated. The set that is found is that of the first call of an operator of the default domain
that is not inside a bound of a slice; such bounds are passed over, although they are evaluated as well.
-/

namespace OpGraph

open List

/-- A part of a function that is evaluated. -/
inductive Piece (ν : Type) where
  | stmt (s : Stmt ν)
  | expr (e : Expr)

namespace Piece

variable {ν : Type}

/-- What is evaluated in a piece, in order. -/
def parts : Piece ν → List (Piece ν)
  | stmt (.assign _ targets e) => targets.map expr ++ [expr e]
  | stmt (.annAssign _ _ _ e) | stmt (.ret _ e) => e.toList.map expr
  | stmt (.expr _ e) => [expr e]
  | stmt (.cond _ e body orelse) | stmt (.whileLoop _ e body orelse) | stmt (.forLoop _ _ e body orelse) =>
    expr e :: (body.map stmt ++ orelse.map stmt)
  | stmt (.function _ fn) => fn.body.map stmt
  | stmt (.brk _) | stmt (.pass _) | stmt (.imports ..) | stmt (.importFrom ..) => []
  | expr (.call _ _ args keywords) => args.map expr ++ keywords.map fun k => expr k.value
  | expr (.binary _ l _ r) => [expr l, expr r]
  | expr (.unary _ _ e) => [expr e]
  | expr (.boolean _ _ es) | expr (.tuple _ es) | expr (.list _ es) => es.map expr
  | expr (.compare _ l _ es) => expr l :: es.map expr
  | expr (.subscript _ e s) => [expr e, expr s]
  | expr (.slice _ l u s) => (l.toList ++ u.toList ++ s.toList).map expr
  | expr (.constant ..) | expr (.name ..) | expr (.attr ..) => []

def isSlice : Piece ν → Bool
  | expr (.slice ..) => true
  | _ => false

/-- The operator set of the default domain that a call takes its operator from. -/
def opset? (globals : Globals) : Piece ν → Option Opset
  | expr (.call _ func _ _) => func.calleeOpset? globals
  | _ => none

/-- The piece at a place, which is given by the numbers of the parts that lead to it, and whether it is in a bound of a
slice. -/
def locate (ps : List (Piece ν)) : List ℕ → Option (Piece ν × Bool)
  | [] => none
  | i :: is => ps[i]?.bind fun p =>
    if is = [] then some (p, false) else (locate p.parts is).map fun q => (q.1, q.2 || p.isSlice)

/-- At a place is a call of an operator of the default domain. -/
def CallsAt (globals : Globals) (ps : List (Piece ν)) (place : List ℕ) (sliced : Bool) (o : Opset) : Prop :=
  ∃ p, locate ps place = some (p, sliced) ∧ p.opset? globals = some o

/-- The result of a search: the set of the first call outside of slices, if there is one. Places are ordered as words are,
so a call comes before the calls among its arguments. -/
def Finds (globals : Globals) (ps : List (Piece ν)) : Option Opset → Prop
  | none => ∀ place o, ¬CallsAt globals ps place false o
  | some o => ∃ place, CallsAt globals ps place false o ∧ ∀ earlier < place, ∀ o', ¬CallsAt globals ps earlier false o'

variable {globals : Globals} {p : Piece ν} {ps : List (Piece ν)} {r r' : Option Opset}

theorem finds_nil : Finds globals ([] : List (Piece ν)) none := by
  rintro (_ | ⟨i, is⟩) o ⟨p, hp, -⟩ <;> simp [locate] at hp

theorem callsAt_cons {place : List ℕ} {o : Opset} : CallsAt globals (p :: ps) place false o ↔
    (place = [0] ∧ p.opset? globals = some o) ∨
      (∃ is, place = 0 :: is ∧ CallsAt globals (if p.isSlice then [] else p.parts) is false o) ∨
        ∃ i is, place = (i + 1) :: is ∧ CallsAt globals ps (i :: is) false o := by
  rcases place with _ | ⟨_ | i, _ | ⟨j, is⟩⟩
  · simp [CallsAt, locate]
  · simp [CallsAt, locate]
  · have hlocate : locate (p :: ps) (0 :: j :: is) = (locate p.parts (j :: is)).map fun q => (q.1, q.2 || p.isSlice) := rfl
    unfold CallsAt
    rw [hlocate]
    cases hp : p.isSlice with
    | false => simp
    | true => rcases locate p.parts (j :: is) with _ | q <;> simp [locate]
  · simp [CallsAt, locate]
  · simp [CallsAt, locate]

/-- **One piece after the other**: a piece itself, then its parts unless it is a slice, then what follows it. -/
theorem Finds.cons (h : Finds globals (if p.isSlice then [] else p.parts) r) (h' : Finds globals ps r') :
    Finds globals (p :: ps) (((p.opset? globals).or r).or r') := by
  cases hp : p.opset? globals with
  | some o =>
    refine ⟨[0], callsAt_cons.2 (.inl ⟨rfl, hp⟩), fun earlier hlt o' hcall => ?_⟩
    rcases callsAt_cons.1 hcall with ⟨rfl, -⟩ | ⟨is, rfl, -⟩ | ⟨i, is, rfl, -⟩ <;> simp [cons_lt_cons_iff] at hlt
  | none =>
    cases r with
    | some o =>
      obtain ⟨place, hcall, hfirst⟩ := h
      refine ⟨0 :: place, callsAt_cons.2 (.inr (.inl ⟨place, rfl, hcall⟩)), fun earlier hlt o' hcall' => ?_⟩
      rcases callsAt_cons.1 hcall' with ⟨rfl, ho⟩ | ⟨is, rfl, his⟩ | ⟨i, is, rfl, -⟩
      · rw [hp] at ho
        cases ho
      · exact hfirst is (by simpa [cons_lt_cons_iff] using hlt) o' his
      · simp [cons_lt_cons_iff] at hlt
    | none =>
      cases r' with
      | some o =>
        obtain ⟨place, hcall, hfirst⟩ := h'
        obtain ⟨i, is, rfl⟩ : ∃ i is, place = i :: is := by
          rcases place with _ | ⟨i, is⟩
          · obtain ⟨_, hnil, -⟩ := hcall
            cases hnil
          · exact ⟨i, is, rfl⟩
        refine ⟨(i + 1) :: is, callsAt_cons.2 (.inr (.inr ⟨i, is, rfl, hcall⟩)), fun earlier hlt o' hcall' => ?_⟩
        rcases callsAt_cons.1 hcall' with ⟨rfl, ho⟩ | ⟨js, rfl, hjs⟩ | ⟨j, js, rfl, hjs⟩
        · rw [hp] at ho
          cases ho
        · exact h js o' hjs
        · exact hfirst (j :: js) (by simpa [cons_lt_cons_iff] using hlt) o' hjs
      | none =>
        intro place o hcall
        rcases callsAt_cons.1 hcall with ⟨-, ho⟩ | ⟨is, -, his⟩ | ⟨i, is, -, his⟩
        · rw [hp] at ho
          cases ho
        · exact h is o his
        · exact h' _ o his

/-! ### The search -/

theorem Finds.within (hp : p.opset? globals = none) (h : Finds globals (if p.isSlice then [] else p.parts) r)
    (h' : Finds globals ps r') : Finds globals (p :: ps) (r.or r') := by
  have := h.cons h'
  rwa [hp, Option.none_or] at this

theorem Finds.or_none (h : Finds globals ps (r.or none)) : Finds globals ps r := by
  rwa [Option.or_none] at h

theorem Finds.last (h : Finds globals (ps ++ []) (r.or none)) : Finds globals ps r := by
  rwa [append_nil, Option.or_none] at h

mutual
theorem finds_expr : ∀ (e : Expr) {ps : List (Piece ν)} {r : Option Opset}, Finds globals ps r →
    Finds globals (expr e :: ps) ((e.defaultOpset? globals).or r)
  | .call _ func args keywords, _, _, h => by
    rw [Expr.defaultOpset?]
    exact Finds.cons (finds_exprs args (finds_keywords keywords)) h
  | .binary _ l _ r, _, _, h => by
    rw [Expr.defaultOpset?]
    exact Finds.within rfl (finds_expr l (finds_expr r finds_nil).or_none) h
  | .unary _ _ e, _, _, h => by
    rw [Expr.defaultOpset?]
    exact Finds.within rfl (finds_expr e finds_nil).or_none h
  | .boolean _ _ es, _, _, h | .tuple _ es, _, _, h | .list _ es, _, _, h => by
    rw [Expr.defaultOpset?]
    exact Finds.within rfl (finds_exprs es finds_nil).last h
  | .compare _ l _ es, _, _, h => by
    rw [Expr.defaultOpset?]
    exact Finds.within rfl (finds_expr l (finds_exprs es finds_nil).last) h
  | .subscript _ e s, _, _, h => by
    rw [Expr.defaultOpset?]
    exact Finds.within rfl (finds_expr e (finds_expr s finds_nil).or_none) h
  | .constant .., _, _, h | .name .., _, _, h | .attr .., _, _, h | .slice .., _, _, h => by
    rw [Expr.defaultOpset?]
    exact Finds.within rfl finds_nil h
theorem finds_exprs : ∀ (es : List Expr) {ps : List (Piece ν)} {r : Option Opset}, Finds globals ps r →
    Finds globals (es.map expr ++ ps) ((Expr.firstDefaultOpset? globals es).or r)
  | [], _, _, h => by rwa [Expr.firstDefaultOpset?, Option.none_or]
  | e :: es, _, _, h => by
    rw [Expr.firstDefaultOpset?, Option.or_assoc]
    exact finds_expr e (finds_exprs es h)
theorem finds_keywords : ∀ ks : List Keyword,
    Finds globals (ks.map fun k => expr (ν := ν) k.value) (Expr.keywordDefaultOpset? globals ks)
  | [] => finds_nil
  | ⟨_, _, e⟩ :: ks => by
    rw [Expr.keywordDefaultOpset?]
    exact finds_expr e (finds_keywords ks)
end

mutual
theorem finds_stmt : ∀ (s : Stmt ν) {ps : List (Piece ν)} {r : Option Opset}, Finds globals ps r →
    Finds globals (stmt s :: ps) ((s.defaultOpset? globals).or r)
  | .assign _ targets e, _, _, h => by
    rw [Stmt.defaultOpset?]
    exact Finds.within rfl (finds_exprs targets (finds_expr e finds_nil).or_none) h
  | .annAssign _ _ _ e, _, _, h | .ret _ e, _, _, h => by
    rw [Stmt.defaultOpset?]
    refine Finds.within rfl ?_ h
    cases e with
    | none => exact finds_nil
    | some e => exact (finds_expr e finds_nil).or_none
  | .expr _ e, _, _, h => by
    rw [Stmt.defaultOpset?]
    exact Finds.within rfl (finds_expr e finds_nil).or_none h
  | .cond _ e body orelse, _, _, h | .whileLoop _ e body orelse, _, _, h | .forLoop _ _ e body orelse, _, _, h => by
    rw [Stmt.defaultOpset?]
    exact Finds.within rfl (finds_expr e (finds_stmts body (finds_stmts orelse finds_nil).last)) h
  | .function _ ⟨_, _, _, body, _⟩, _, _, h => by
    rw [Stmt.defaultOpset?]
    exact Finds.within rfl (finds_stmts body finds_nil).last h
  | .brk _, _, _, h | .pass _, _, _, h | .imports .., _, _, h | .importFrom .., _, _, h => by
    rw [Stmt.defaultOpset?]
    exact Finds.within rfl finds_nil h
theorem finds_stmts : ∀ (ss : List (Stmt ν)) {ps : List (Piece ν)} {r : Option Opset}, Finds globals ps r →
    Finds globals (ss.map stmt ++ ps) ((Stmt.firstDefaultOpset? globals ss).or r)
  | [], _, _, h => by rwa [Stmt.firstDefaultOpset?, Option.none_or]
  | s :: ss, _, _, h => by
    rw [Stmt.firstDefaultOpset?, Option.or_assoc]
    exact finds_stmt s (finds_stmts ss h)
end

end Piece

open Piece

/-- **The default operator set is that of the first call** of an operator of the default domain, as long as calls in bounds
of slices are left out: there is none exactly if there is no other call, and otherwise it is that of the call at the first
place. -/
theorem Stmt.firstDefaultOpset?_iff {ν : Type} (globals : Globals) (body : List (Stmt ν)) :
    (Stmt.firstDefaultOpset? globals body = none ↔ ∀ place o, ¬CallsAt globals (body.map stmt) place false o) ∧
    ∀ o, Stmt.firstDefaultOpset? globals body = some o ↔ ∃ place, CallsAt globals (body.map stmt) place false o ∧
      ∀ earlier < place, ∀ o', ¬CallsAt globals (body.map stmt) earlier false o' := by
  have hbody : Finds globals (body.map stmt ++ []) _ := finds_stmts body finds_nil
  have hfinds := hbody.last
  cases hr : Stmt.firstDefaultOpset? globals body with
  | none =>
    rw [hr] at hfinds
    refine ⟨iff_of_true rfl hfinds, fun o => iff_of_false (by simp) ?_⟩
    rintro ⟨place, hcall, -⟩
    exact hfinds place o hcall
  | some o =>
    rw [hr] at hfinds
    obtain ⟨place, hcall, hfirst⟩ := hfinds
    refine ⟨iff_of_false (by simp) fun h => h place o hcall, fun o' => ⟨?_, ?_⟩⟩
    · rintro ⟨⟩
      exact ⟨place, hcall, hfirst⟩
    · rintro ⟨place', hcall', hfirst'⟩
      rcases lt_trichotomy place place' with hlt | rfl | hlt
      · exact absurd hcall (hfirst' place hlt o)
      · obtain ⟨p, hp, ho⟩ := hcall
        obtain ⟨p', hp', ho'⟩ := hcall'
        rw [hp] at hp'
        cases hp'
        exact ho.symm.trans ho'
      · exact absurd hcall' (hfirst place' hlt o')

/-- The assignment `y = x[op.Abs(n):]`. -/
def slicedCall : List (Stmt Unit) :=
  [.assign ⟨default, ()⟩ [.name default "y"] (.subscript default (.name default "x")
    (.slice default (some (.call default (.attr default (.name default "op") "Abs") [.name default "n"] [])) none none))]

/-- The call in the bound of a slice is passed over. -/
theorem slice_bound_passed_over :
    let globals : Globals := [("op", .opset none { domain := "", version := 15, registry := {} })]
    CallsAt globals (slicedCall.map stmt) [0, 1, 1, 0] true { domain := "", version := 15, registry := {} } ∧
      Stmt.firstDefaultOpset? globals slicedCall = none :=
  ⟨⟨_, rfl, rfl⟩, rfl⟩

end OpGraph
