import OpGraph.Proofs.Analysis.Liveness
import OpGraph.Syntax.Parser

/-!
Syntax trees as parsers give them. Their names are words of the text, and their parts stand where the grammar allows
them: an index of a subscript may be a slice, and nothing else may.
-/

namespace OpGraph

open List

variable {e : Expr} {es : List Expr} {x : String}

/-- A text that is spelled like a name. -/
def IsWord (x : String) : Prop :=
  ∃ c cs, x.toList = c :: cs ∧ Lexer.isNameStart c = true ∧ ∀ d ∈ cs, Lexer.isNamePart d = true

theorem IsWord.ne_empty (h : IsWord x) : x ≠ "" := by
  rintro rfl
  obtain ⟨c, cs, h, -⟩ := h
  simp at h

/-- A token of the kind of a name has the text of one. -/
def Token.Spelled (t : Token) : Prop :=
  t.kind = .name → IsWord t.text

namespace Syntax.Parser

variable {src : List Token}

/-- The text of a token that is a name and not reserved. -/
structure Word (src : List Token) (x : String) : Prop where
  free : x ∉ reservedWords
  token : ∃ t ∈ src, t.kind = .name ∧ t.text = x

/-- Where an expression stands: in the brackets of a subscript, as one index of it, or elsewhere. -/
inductive Place where
  | plain | index | brackets

/-- An expression that is parsed from tokens of `src`. -/
inductive Parsed (src : List Token) : Place → Expr → Prop
  | constant {pos : Position} {v : Literal} : (∀ vs, v ≠ .list vs) → Parsed src .plain (.constant pos v)
  | name {pos : Position} {x : String} : Word src x → Parsed src .plain (.name pos x)
  | binary {pos : Position} {op : BinaryOp} {l r : Expr} : Parsed src .plain l → Parsed src .plain r →
    Parsed src .plain (.binary pos l op r)
  | unary {pos : Position} {op : UnaryOp} {e : Expr} : Parsed src .plain e → Parsed src .plain (.unary pos op e)
  | boolean {pos : Position} {op : BoolOp} {es : List Expr} : 2 ≤ es.length → (∀ e ∈ es, Parsed src .plain e) →
    Parsed src .plain (.boolean pos op es)
  | compare {pos : Position} {e : Expr} {ops : List CompareOp} {es : List Expr} : Parsed src .plain e → ops ≠ [] →
    ops.length = es.length → (∀ e ∈ es, Parsed src .plain e) → Parsed src .plain (.compare pos e ops es)
  | call {pos : Position} {e : Expr} {es : List Expr} {ks : List Keyword} : Parsed src .plain e →
    (∀ e ∈ es, Parsed src .plain e) → (∀ k ∈ ks, Parsed src .plain k.value) → Parsed src .plain (.call pos e es ks)
  | attr {pos : Position} {e : Expr} {x : String} : Parsed src .plain e → Word src x →
    Parsed src .plain (.attr pos e x)
  | subscript {pos : Position} {e i : Expr} : Parsed src .plain e → Parsed src .brackets i →
    Parsed src .plain (.subscript pos e i)
  | tuple {pos : Position} {es : List Expr} : (∀ e ∈ es, Parsed src .plain e) → Parsed src .plain (.tuple pos es)
  | list {pos : Position} {es : List Expr} : (∀ e ∈ es, Parsed src .plain e) → Parsed src .plain (.list pos es)
  | slice {pos : Position} {l u s : Option Expr} : (∀ e ∈ l, Parsed src .plain e) → (∀ e ∈ u, Parsed src .plain e) →
    (∀ e ∈ s, Parsed src .plain e) → Parsed src .index (.slice pos l u s)
  | single {e : Expr} : Parsed src .plain e → Parsed src .index e
  | bracket {e : Expr} : Parsed src .index e → Parsed src .brackets e
  | indices {pos : Position} {es : List Expr} : (∀ e ∈ es, Parsed src .index e) → Parsed src .brackets (.tuple pos es)

abbrev Plain (src : List Token) : Expr → Prop :=
  Parsed src .plain

/-- A name in an import: its parts and its other name are words. -/
structure ParsedAlias (src : List Token) (a : Alias) : Prop where
  name : a.name = "*" ∨ ∃ x rest, a.name = x ++ rest ∧ Word src x
  asName : ∀ x ∈ a.asName, Word src x

/-- A block that closes as soon as it opens. -/
def Hollow (src : List Token) : Prop :=
  ∃ t u, [t, u] <:+: src ∧ t.kind = .indent ∧ u.kind = .dedent

/-- A statement that is parsed from tokens of `src`. Only a hollow block has no statements. -/
inductive ParsedStmt (src : List Token) : Stmt Unit → Prop
  | function {m : Mark Unit} {name : String} {params : List Param} {defaults : List Expr} {body : List (Stmt Unit)}
    {returns : Option Expr} : Word src name → (∀ p ∈ params, Word src p.name ∧ ∀ e ∈ p.typeExpr, Plain src e) →
    defaults.length ≤ params.length → (∀ e ∈ defaults, Plain src e) → (body = [] → Hollow src) →
    (∀ s ∈ body, ParsedStmt src s) → (∀ e ∈ returns, Plain src e) →
    ParsedStmt src (.function m ⟨name, params, defaults, body, returns⟩)
  | assign {m : Mark Unit} {ts : List Expr} {e : Expr} : ts ≠ [] → (∀ t ∈ ts, Plain src t) →
    Plain src e → ParsedStmt src (.assign m ts e)
  | annAssign {m : Mark Unit} {t e : Expr} {v : Option Expr} : Plain src t → Plain src e →
    (∀ e ∈ v, Plain src e) → ParsedStmt src (.annAssign m t e v)
  | ret {m : Mark Unit} {v : Option Expr} : (∀ e ∈ v, Plain src e) → ParsedStmt src (.ret m v)
  | cond {m : Mark Unit} {e : Expr} {body orelse : List (Stmt Unit)} : Plain src e → (body = [] → Hollow src) →
    (∀ s ∈ body, ParsedStmt src s) → (∀ s ∈ orelse, ParsedStmt src s) → ParsedStmt src (.cond m e body orelse)
  | forLoop {m : Mark Unit} {t e : Expr} {body orelse : List (Stmt Unit)} : Plain src t → Plain src e →
    (body = [] → Hollow src) → (∀ s ∈ body, ParsedStmt src s) → (∀ s ∈ orelse, ParsedStmt src s) →
    ParsedStmt src (.forLoop m t e body orelse)
  | whileLoop {m : Mark Unit} {e : Expr} {body orelse : List (Stmt Unit)} : Plain src e → (body = [] → Hollow src) →
    (∀ s ∈ body, ParsedStmt src s) → (∀ s ∈ orelse, ParsedStmt src s) → ParsedStmt src (.whileLoop m e body orelse)
  | brk {m : Mark Unit} : ParsedStmt src (.brk m)
  | pass {m : Mark Unit} : ParsedStmt src (.pass m)
  | expr {m : Mark Unit} {e : Expr} : Plain src e → ParsedStmt src (.expr m e)
  | imports {m : Mark Unit} {as : List Alias} : (∀ a ∈ as, ParsedAlias src a) → ParsedStmt src (.imports m as)
  | importFrom {m : Mark Unit} {module : String} {as : List Alias} : (∀ a ∈ as, ParsedAlias src a) →
    ParsedStmt src (.importFrom m module as)

/-! ### Optional parts and sequences -/

/-- An expression that may be left out. -/
def Optional (src : List Token) (e : Option Expr) : Prop :=
  ∀ a ∈ e, Plain src a

theorem optional_none : Optional src none := by
  simp [Optional]

theorem optional_some (h : Plain src e) : Optional src (some e) := by
  rintro _ ⟨⟩
  exact h

/-- Statements that are parsed from tokens of `src`. -/
def ParsedStmts (src : List Token) (ss : List (Stmt Unit)) : Prop :=
  ∀ s ∈ ss, ParsedStmt src s

theorem parsedStmts_nil : ParsedStmts src [] := by
  simp [ParsedStmts]

/-- The statements of a block. -/
structure ParsedBlock (src : List Token) (ss : List (Stmt Unit)) : Prop where
  filled : ss = [] → Hollow src
  stmts : ParsedStmts src ss

/-- What is known of parameters and their defaults. -/
def ParsedParams (src : List Token) (r : List Param × List Expr) : Prop :=
  (∀ p ∈ r.1, Word src p.name ∧ Optional src p.typeExpr) ∧ r.2.length ≤ r.1.length ∧ ∀ e ∈ r.2, Plain src e

theorem ParsedParams.cons {pos : Position} {name : String} {typeExpr default : Option Expr}
    {r : List Param × List Expr} (hr : ParsedParams src r) (hname : Word src name) (htype : Optional src typeExpr)
    (hdefault : Optional src default) : ParsedParams src (⟨pos, name, typeExpr⟩ :: r.1, default.toList ++ r.2) := by
  obtain ⟨hparams, hlength, hdefaults⟩ := hr
  refine ⟨forall_mem_cons.2 ⟨⟨hname, htype⟩, hparams⟩, ?_, ?_⟩
  · cases default <;> simp <;> omega
  · refine forall_mem_append.2 ⟨fun e he => hdefault e ?_, hdefaults⟩
    simpa using he

/-! ### Names -/

theorem Word.isWord (h : Word src x) (hsrc : ∀ t ∈ src, t.Spelled) : IsWord x := by
  obtain ⟨t, ht, hk, rfl⟩ := h.token
  exact hsrc t ht hk

theorem mem_readsAll : x ∈ Expr.readsAll es ↔ ∃ e ∈ es, x ∈ e.reads := by
  induction es with
  | nil => simp [Expr.readsAll]
  | cons e es ih => simp [Expr.readsAll, ih]

theorem mem_targetsAll : x ∈ Expr.targetsAll es ↔ ∃ e ∈ es, x ∈ e.targets := by
  induction es with
  | nil => simp [Expr.targetsAll]
  | cons e es ih => simp [Expr.targetsAll, ih]

theorem mem_readsKeywords {ks : List Keyword} : x ∈ Expr.readsKeywords ks ↔ ∃ k ∈ ks, x ∈ k.value.reads := by
  induction ks with
  | nil => simp [Expr.readsKeywords]
  | cons k ks ih =>
    obtain ⟨_, _, e⟩ := k
    simp [Expr.readsKeywords, ih]

theorem mem_readsOption {e : Option Expr} : x ∈ Expr.readsOption e ↔ ∃ a ∈ e, x ∈ a.reads := by
  cases e <;> simp [Expr.readsOption]

theorem mem_identifiersAll {ss : List (Stmt Unit)} : x ∈ Stmt.identifiersAll ss ↔ ∃ s ∈ ss, x ∈ s.identifiers := by
  induction ss with
  | nil => simp [Stmt.identifiersAll]
  | cons s ss ih => simp [Stmt.identifiersAll, ih]

theorem Parsed.words {place : Place} (h : Parsed src place e) :
    (∀ x ∈ e.reads, Word src x) ∧ ∀ x ∈ e.targets, Word src x := by
  induction h with
  | name hx => simp [Expr.reads, Expr.targets, hx]
  | _ => grind [Expr.reads, Expr.targets, mem_readsAll, mem_targetsAll, mem_readsKeywords, mem_readsOption]

theorem ParsedAlias.ne_empty {a : Alias} (h : ParsedAlias src a) (hsrc : ∀ t ∈ src, t.Spelled) :
    Stmt.importName a ≠ "" ∧ a.asName.getD a.name ≠ "" := by
  obtain ⟨name, other⟩ := a
  cases other with
  | some x =>
    have hx := ((h.asName x rfl).isWord hsrc).ne_empty
    exact ⟨hx, hx⟩
  | none =>
    rcases h.name with rfl | ⟨x, rest, rfl, hx⟩
    · exact ⟨by decide, by decide⟩
    · obtain ⟨c, cs, hcs, hc, -⟩ := hx.isWord hsrc
      have hdot : c ≠ '.' := by
        rintro rfl
        exact absurd hc (by decide)
      refine ⟨fun h => ?_, fun h => ?_⟩
      · simpa [Stmt.importName, hcs, hdot] using congrArg String.toList h
      · simpa [hcs] using congrArg String.toList h

theorem ParsedStmt.notMem_identifiers {s : Stmt Unit} (h : ParsedStmt src s) (hsrc : ∀ t ∈ src, t.Spelled) :
    "" ∉ s.identifiers := by
  have hword : ¬Word src "" := fun hx => (hx.isWord hsrc).ne_empty rfl
  have hexpr : ∀ {place e}, Parsed src place e → "" ∉ e.reads ∧ "" ∉ e.targets := fun he =>
    ⟨fun hx => hword (he.words.1 _ hx), fun hx => hword (he.words.2 _ hx)⟩
  induction h with
  | imports has =>
    intro hmem
    obtain ⟨a, ha, hname⟩ := mem_map.1 hmem
    exact ((has a ha).ne_empty hsrc).1 hname
  | importFrom has =>
    intro hmem
    obtain ⟨a, ha, hname⟩ := mem_map.1 hmem
    exact ((has a ha).ne_empty hsrc).2 hname
  | _ => grind [Stmt.identifiers, mem_targetsAll, mem_readsOption, mem_identifiersAll]

end Syntax.Parser

end OpGraph
