import OpGraph.Syntax.Parser

/-!
Syntax trees up to positions. The positions of tokens, expressions and statements tell where a text stands and not what
it says; here they are all replaced by one and the same position, so that "the same tree up to positions" is an equation
between trees.
-/

namespace OpGraph

open List

/-- A token without its position. -/
def Token.unplaced (t : Token) : Token :=
  { t with pos := default }

/-- The same tokens, wherever they stand. -/
abbrev SameTokens (ts us : List Token) : Prop :=
  ts.map Token.unplaced = us.map Token.unplaced

namespace Token

variable {t u : Token}

theorem kind_eq_of_unplaced (h : t.unplaced = u.unplaced) : t.kind = u.kind :=
  (Token.mk.inj h).1

theorem text_eq_of_unplaced (h : t.unplaced = u.unplaced) : t.text = u.text :=
  (Token.mk.inj h).2.1

theorem isOp_eq_of_unplaced (h : t.unplaced = u.unplaced) (op : String) : t.isOp op = u.isOp op := by
  rw [isOp, isOp, kind_eq_of_unplaced h, text_eq_of_unplaced h]

theorem isWord_eq_of_unplaced (h : t.unplaced = u.unplaced) (word : String) : t.isWord word = u.isWord word := by
  rw [isWord, isWord, kind_eq_of_unplaced h, text_eq_of_unplaced h]

theorem kind_of_isWord {word : String} (h : t.isWord word = true) : t.kind = .name := by
  simp only [isWord, Bool.and_eq_true, beq_iff_eq] at h
  exact h.1

theorem exists_append_of_unplaced {ts ts' us : List Token} (h : SameTokens (ts ++ ts') us) :
    ∃ vs ws, us = vs ++ ws ∧ SameTokens ts vs ∧ SameTokens ts' ws := by
  rw [SameTokens, map_append] at h
  obtain ⟨vs, ws, rfl, hvs, hws⟩ := map_eq_append_iff.1 h.symm
  exact ⟨vs, ws, rfl, hvs.symm, hws.symm⟩

theorem exists_cons_of_unplaced {t : Token} {ts us : List Token} (h : SameTokens (t :: ts) us) :
    ∃ u vs, us = u :: vs ∧ t.unplaced = u.unplaced ∧ SameTokens ts vs := by
  obtain ⟨u, vs, rfl, hu, hvs⟩ := map_eq_cons_iff.1 h.symm
  exact ⟨u, vs, rfl, hu.symm, hvs.symm⟩

end Token

/-! ### Expressions -/

namespace Expr

mutual
/-- An expression without the positions in it. -/
def unplaced : Expr → Expr
  | constant _ v => constant default v
  | name _ x => name default x
  | binary _ l op r => binary default l.unplaced op r.unplaced
  | unary _ op e => unary default op e.unplaced
  | boolean _ op es => boolean default op (unplacedAll es)
  | compare _ l ops es => compare default l.unplaced ops (unplacedAll es)
  | call _ f args keywords => call default f.unplaced (unplacedAll args) (unplacedKeywords keywords)
  | attr _ e x => attr default e.unplaced x
  | subscript _ e i => subscript default e.unplaced i.unplaced
  | slice _ lower upper step =>
    slice default (unplacedOption lower) (unplacedOption upper) (unplacedOption step)
  | tuple _ es => tuple default (unplacedAll es)
  | list _ es => list default (unplacedAll es)

def unplacedAll : List Expr → List Expr
  | [] => []
  | e :: es => e.unplaced :: unplacedAll es

def unplacedOption : Option Expr → Option Expr
  | none => none
  | some e => some e.unplaced

def unplacedKeywords : List Keyword → List Keyword
  | [] => []
  | ⟨_, x, e⟩ :: ks => ⟨default, x, e.unplaced⟩ :: unplacedKeywords ks
end

end Expr

def Keyword.unplaced (k : Keyword) : Keyword :=
  ⟨default, k.arg, k.value.unplaced⟩

@[simp] theorem Expr.unplacedAll_eq_map (es : List Expr) : Expr.unplacedAll es = es.map Expr.unplaced := by
  induction es with
  | nil => rfl
  | cons e es ih => rw [Expr.unplacedAll, ih, map_cons]

@[simp] theorem Expr.unplacedOption_eq_map (e : Option Expr) : Expr.unplacedOption e = e.map Expr.unplaced := by
  cases e <;> rfl

@[simp] theorem Expr.unplacedKeywords_eq_map (ks : List Keyword) :
    Expr.unplacedKeywords ks = ks.map Keyword.unplaced := by
  induction ks with
  | nil => rfl
  | cons k ks ih =>
    obtain ⟨p, x, e⟩ := k
    rw [Expr.unplacedKeywords, ih, map_cons, Keyword.unplaced]

theorem Expr.eq_name_of_unplaced {e : Expr} {x : String} (h : e.unplaced = .name default x) : ∃ p, e = .name p x := by
  cases e <;> simp [Expr.unplaced] at h
  exact ⟨_, congrArg _ h⟩

theorem Expr.unplaced_unplaced (e : Expr) : e.unplaced.unplaced = e.unplaced := by
  apply unplaced.induct (fun e => e.unplaced.unplaced = e.unplaced)
    (fun e => unplacedOption (unplacedOption e) = unplacedOption e)
    (fun ks => unplacedKeywords (unplacedKeywords ks) = unplacedKeywords ks)
    (fun es => unplacedAll (unplacedAll es) = unplacedAll es) <;> intros <;>
    simp_all only [unplaced, unplacedAll, unplacedOption, unplacedKeywords]

/-! ### Statements -/

def Param.unplaced (p : Param) : Param :=
  ⟨default, p.name, p.typeExpr.map Expr.unplaced⟩

namespace Stmt

/-- A place for statements without positions. -/
def nowhere : Mark Unit :=
  ⟨default, ()⟩

mutual
/-- A statement without the positions in it. -/
def unplaced : Stmt Unit → Stmt Unit
  | function _ ⟨x, params, defaults, body, returns⟩ =>
    function nowhere ⟨x, params.map Param.unplaced, defaults.map Expr.unplaced, unplacedAll body,
      returns.map Expr.unplaced⟩
  | assign _ targets e => assign nowhere (targets.map Expr.unplaced) e.unplaced
  | annAssign _ target type value => annAssign nowhere target.unplaced type.unplaced (value.map Expr.unplaced)
  | ret _ value => ret nowhere (value.map Expr.unplaced)
  | cond _ test body orelse => cond nowhere test.unplaced (unplacedAll body) (unplacedAll orelse)
  | forLoop _ target iter body orelse =>
    forLoop nowhere target.unplaced iter.unplaced (unplacedAll body) (unplacedAll orelse)
  | whileLoop _ test body orelse => whileLoop nowhere test.unplaced (unplacedAll body) (unplacedAll orelse)
  | brk _ => brk nowhere
  | pass _ => pass nowhere
  | expr _ e => expr nowhere e.unplaced
  | imports _ names => imports nowhere names
  | importFrom _ module names => importFrom nowhere module names

def unplacedAll : List (Stmt Unit) → List (Stmt Unit)
  | [] => []
  | s :: ss => s.unplaced :: unplacedAll ss
end

@[simp] theorem unplacedAll_eq_map (ss : List (Stmt Unit)) : unplacedAll ss = ss.map unplaced := by
  induction ss with
  | nil => rfl
  | cons s ss ih => rw [unplacedAll, ih, map_cons]

theorem eq_expr_of_unplaced {s : Stmt Unit} {m : Mark Unit} {e : Expr} (h : s.unplaced = expr m e) :
    ∃ m' e', s = expr m' e' ∧ e'.unplaced = e := by
  cases s with
  | expr m' e' => exact ⟨m', e', rfl, by simpa [unplaced] using (expr.inj h).2⟩
  | function _ f =>
    obtain ⟨x, params, defaults, body, returns⟩ := f
    simp [unplaced] at h
  | _ => simp [unplaced] at h

end Stmt

end OpGraph
