import OpGraph.Lowering.Expression
import OpGraph.Proofs.Rejection

/-!
The trees of accepted scripts. They are well formed, so that what later passes do about too few operands is never done;
and their blocks have statements, else blocks too, unless a line of the text holds nothing but a backslash. Such a line
opens a block for the line that it is joined with, and that line may be blank: then the block closes at once. That there
is no other way is shown for one move of the lexer first.
-/

namespace OpGraph

open List

/-! ### Hollow blocks -/

/-- A line that holds nothing but blanks and the backslash at its end. -/
def Source.BareLine (text : List Char) : Prop :=
  ∃ blanks, (∀ b ∈ blanks, Lexer.isBlank b = true) ∧ blanks ++ ['\\'] ∈ Source.lines text

namespace Lexer

open Syntax.Parser (Hollow isText)

variable {text u rest : List Char} {st st' : State} {tok : Option Token} {ts : List Token}

/-- No block closes as soon as it opens. The tokens are listed from the last one on. -/
def Unbroken (ts : List Token) : Prop :=
  ts.IsChain fun u t => u.kind = .dedent → t.kind ≠ .indent

theorem Unbroken.cons {t : Token} (ht : t.kind ≠ .dedent) (hts : Unbroken ts) : Unbroken (t :: ts) :=
  isChain_cons.2 ⟨fun _ _ h => absurd h ht, hts⟩

theorem Unbroken.dedents {t : Token} (hts : Unbroken ts) (hlast : ∀ u ∈ ts.head?, u.kind ≠ .indent)
    (ht : t.kind = .dedent) (k : ℕ) :
    Unbroken (List.replicate k t ++ ts) ∧ ∀ u ∈ (List.replicate k t ++ ts).head?, u.kind ≠ .indent := by
  induction k with
  | zero => exact ⟨hts, hlast⟩
  | succ k ih => exact ⟨isChain_cons.2 ⟨fun u hu _ => ih.2 u hu, ih.1⟩, by simp [replicate_succ, ht]⟩

/-- Where a block has just been opened, a token comes next. -/
structure Opening (st : State) (rest : List Char) : Prop where
  unbroken : Unbroken st.tokens
  next : ∀ t ∈ st.tokens.head?, t.kind = .indent → st.lineStart = false ∧
    ∃ c r, rest = c :: r ∧ startsToken c = true ∧ ¬ (c = '\\' ∧ r.head? = some '\n')

theorem Opening.settled (h : Opening st rest) (hst : st.lineStart = true) : ∀ t ∈ st.tokens.head?, t.kind ≠ .indent := by
  intro t ht hk
  have hfalse := (h.next t ht hk).1
  rw [hst] at hfalse
  cases hfalse

theorem Situated.bareLine {blanks r : List Char} (h : Situated text st (blanks ++ '\\' :: '\n' :: r))
    (hst : st.lineStart = true) (hblanks : ∀ b ∈ blanks, isBlank b = true) : Source.BareLine text := by
  obtain ⟨⟨front, rfl, -, hstart⟩, -⟩ := h
  have hlast : (Source.lines front).getLastD [] = [] := (hstart hst).2.resolve_left (by simp)
  have hline := Source.line_append front (blanks ++ '\\' :: '\n' :: r)
  have hall : ∀ b ∈ blanks, decide (b ≠ '\n') = true := by
    intro b hb
    refine decide_eq_true ?_
    rintro rfl
    exact absurd (hblanks _ hb) (by decide)
  rw [hlast, Source.headD_lines, takeWhile_append_of_pos hall] at hline
  exact ⟨blanks, hblanks, mem_of_getElem? hline⟩

/-- **One move**, in a text without bare lines. -/
theorem Opening.move (hbare : ¬ Source.BareLine text) (hsituated : Situated text st (u ++ rest))
    (h : Opening st (u ++ rest)) (hmove : Move st tok u st' rest) : Opening st' rest := by
  cases hmove with
  | filler hst => exact ⟨h.unbroken, fun t ht hk => absurd hk (h.settled hst.1 t ht)⟩
  | @layout _ r c _ hst hblanks hc hlayout =>
    rcases layout_eq_ok hlayout with rfl | ⟨k, -, rfl⟩
    · refine ⟨h.unbroken.cons (by simp), fun _ _ _ => ⟨rfl, c, r, rfl, hc, ?_⟩⟩
      rintro ⟨rfl, hnewline⟩
      obtain ⟨r, rfl⟩ := head?_eq_some_iff.1 hnewline
      exact hbare (hsituated.bareLine hst.1 hblanks)
    · have hclosed := h.unbroken.dedents (t := ⟨.dedent, "", ⟨(st.skip u).pos.line, blankWidth u⟩⟩) (h.settled hst.1)
        rfl k
      exact ⟨hclosed.1, fun t ht hk => absurd hk (hclosed.2 t ht)⟩
  | line =>
    have hlast : ∀ t ∈ st.tokens.head?, t.kind ≠ .indent := by
      intro t ht hk
      obtain ⟨-, c, r, hrest, hc, -⟩ := h.next t ht hk
      obtain ⟨rfl, -⟩ := List.cons.inj hrest
      simp [startsToken] at hc
    rcases endLine_eq st with hend | ⟨-, hend | ⟨t, ts, -, -, hend⟩⟩ <;> rw [State.skip, hend]
    · exact ⟨h.unbroken, fun t ht hk => absurd hk (hlast t ht)⟩
    · exact ⟨h.unbroken, fun t ht hk => absurd hk (hlast t ht)⟩
    · exact ⟨h.unbroken.cons (by simp), by simp⟩
  | @step c v _ tok _ hstep =>
    cases tok with
    | some t =>
      have ht := hstep.isText
      refine ⟨h.unbroken.cons ?_, fun t' ht' hk => ?_⟩
      · intro (hk : t.kind = .dedent)
        simp [isText, hk] at ht
      · cases ht'
        replace hk : t.kind = .indent := hk
        simp [isText, hk] at ht
    | none =>
      refine ⟨h.unbroken, fun t ht hk => ?_⟩
      obtain ⟨-, c', r, hrest, hc, hslash⟩ := h.next t ht hk
      cases hrest
      obtain ⟨w, hw, hlexeme, -⟩ := hstep
      obtain rfl := append_cancel_right hw
      -- what gives no token where one can start is a backslash at the end of its line
      cases hlexeme with
      | blank hblank => simp [startsToken, hblank] at hc
      | line => simp [startsToken] at hc
      | joined => exact absurd ⟨rfl, rfl⟩ hslash
      | comment => simp [startsToken] at hc

theorem Opening.of_reads {cs : List Char} {ps : List Piece} (hbare : ¬ Source.BareLine text)
    (hreads : Reads st cs ps st' rest) (hsituated : Situated text st cs) (h : Opening st cs) : Opening st' rest := by
  induction hreads with
  | refl => exact h
  | move hmove _ ih => exact ih (hsituated.move hmove) (h.move hbare hsituated hmove)

/-- **A text without bare lines has no hollow blocks.** -/
theorem bareLine_of_hollow {source : String} (h : tokenize source = .ok ts) (hts : Hollow ts) :
    Source.BareLine (Source.normalize source.toList) := by
  by_contra hbare
  obtain ⟨ps, st, hreads, rfl⟩ := reads_of_tokenize h
  have hopening := Opening.of_reads hbare hreads situated_start ⟨.nil, by simp⟩
  have hlast : ∀ t ∈ st.tokens.head?, t.kind ≠ .indent := by
    intro t ht hk
    obtain ⟨-, c, r, hrest, -⟩ := hopening.next t ht hk
    cases hrest
  obtain ⟨last, hnewline, hfinish⟩ := finish_eq st
  have hunbroken : Unbroken (finish st).reverse := by
    have hline : Unbroken (last ++ st.tokens) ∧ ∀ t ∈ (last ++ st.tokens).head?, t.kind ≠ .indent := by
      rcases hnewline with rfl | ⟨_, _, -, -, rfl⟩
      · exact ⟨hopening.unbroken, hlast⟩
      · exact ⟨hopening.unbroken.cons (by simp), by simp⟩
    have hreverse : last.reverse = last := by rcases hnewline with rfl | ⟨_, _, -, -, rfl⟩ <;> rfl
    have hclosed := hline.1.dedents (t := ⟨.dedent, "", ⟨st.pos.line, 0⟩⟩) hline.2 rfl st.indents.length
    rw [hfinish]
    simpa [hreverse] using hclosed.1.cons (t := ⟨.eof, "", st.pos⟩) (by simp)
  obtain ⟨t, u, hpair, ht, hu⟩ := hts
  have hchain := hunbroken.infix <| reverse_infix.2 hpair
  simp [ht, hu] at hchain

end Lexer

/-! ### Statements at any depth -/

/-- The block that a compound statement must have. -/
def Stmt.body? : Stmt Unit → Option (List (Stmt Unit))
  | .function _ f => some f.body
  | .cond _ _ body _ | .forLoop _ _ _ body _ | .whileLoop _ _ body _ => some body
  | _ => none

/-- The statements of all blocks of a statement. -/
def Stmt.inner : Stmt Unit → List (Stmt Unit)
  | .function _ f => f.body
  | .cond _ _ body orelse | .forLoop _ _ _ body orelse | .whileLoop _ _ body orelse => body ++ orelse
  | _ => []

/-- A statement of a script, at any depth. -/
inductive Script.Has (script : Script) : Stmt Unit → Prop
  | top {s : Stmt Unit} : s ∈ script → Has script s
  | inner {s s' : Stmt Unit} : Has script s → s' ∈ s.inner → Has script s'

namespace Syntax

open Syntax.Parser

variable {source : String} {script : Script} {ts us : List Token} {s : Stmt Unit}

theorem Parser.ParsedStmts.of_has (h : ParsedStmts ts script) (hs : script.Has s) : ParsedStmt ts s := by
  induction hs with
  | top hs => exact h _ hs
  | inner _ hmem ih => cases ih <;> grind [Stmt.inner]

theorem Parser.ParsedStmt.hollow (h : ParsedStmt ts s) (hbody : s.body? = some []) : Hollow ts := by
  cases h <;> simp_all [Stmt.body?]

theorem Parser.Ended.of_suffix (h : Ended ts) (hus : us <:+ ts) (hne : us ≠ []) : Ended us := by
  obtain ⟨front, rfl⟩ := hus
  induction front with
  | nil => exact h
  | cons t front ih =>
    rw [cons_append] at h
    generalize hrest : front ++ us = rest at h ih
    cases h with
    | last => exact absurd (append_eq_nil_iff.1 hrest).2 hne
    | cons h => exact ih h

/-- **Blocks have statements.** In a script whose text has no bare line this holds of every body, at any depth, and of
every block that is read anywhere among its tokens, so also of each else block that is written. -/
theorem blocks_filled (h : parseScript source = .ok script)
    (hbare : ¬ Source.BareLine (Source.normalize source.toList)) :
    (∀ s body, script.Has s → s.body? = some body → body ≠ []) ∧
    ∀ ts us k body rest, tokenize source = .ok ts → us <:+ ts → (block (statement k)).run us = .ok (body, rest) →
      body ≠ [] := by
  refine ⟨?_, ?_⟩
  · rintro s _ hs hbody rfl
    obtain ⟨ts, htokens, hscript⟩ := parsed_of_parseScript h
    exact hbare (Lexer.bareLine_of_hollow htokens ((hscript.of_has hs).hollow hbody))
  · rintro ts us k _ rest htokens hus hrun rfl
    have hne : us ≠ [] := by
      rintro rfl
      cases hrun
    have hended := (placed_of_tokenize htokens).1.of_suffix hus hne
    exact hbare (Lexer.bareLine_of_hollow htokens ((hollow_of_block hended hrun).mono hus.isInfix))

theorem exists_script_of_isOk (source : String) (h : (parseScript source).isOk = true) :
    ∃ script, parseScript source = .ok script := by
  cases hparse : parseScript source with
  | error e =>
    rw [hparse] at h
    cases h
  | ok script => exact ⟨script, rfl⟩

/-- A function with both kinds of block, and blank lines where a block opens. -/
def filledText : String :=
  "def f(x):\n\n  if x: # c\n\n    y = \\\n  1\n  else: y = 2\n  return y\n"

theorem blocks_filled_filledText : ¬ Source.BareLine (Source.normalize filledText.toList) ∧
    ∃ script, parseScript filledText = .ok script ∧ (∀ s body, script.Has s → s.body? = some body → body ≠ []) ∧
      ∀ ts us k body rest, tokenize filledText = .ok ts → us <:+ ts →
        (block (statement k)).run us = .ok (body, rest) → body ≠ [] := by
  have hbare : ¬ Source.BareLine (Source.normalize filledText.toList) := by
    rintro ⟨blanks, hblanks, hline⟩
    have hlines : ((Source.lines (Source.normalize filledText.toList)).all fun l =>
        l.getLast? != some '\\' || !l.dropLast.all Lexer.isBlank) = true := by
      decide +kernel
    have hfalse := List.all_eq_true.1 hlines _ hline
    simp [List.all_eq_true.2 hblanks] at hfalse
  obtain ⟨script, h⟩ := exists_script_of_isOk filledText (by decide +kernel)
  exact ⟨hbare, script, h, blocks_filled h hbare⟩

/-- A bare line before a blank one. -/
def bareText : String :=
  "if x:\n    \\\n\ny = 1\n"

theorem block_empty_bareText : ∃ script s, parseScript bareText = .ok script ∧ script.Has s ∧ s.body? = some [] := by
  obtain ⟨script, h⟩ := exists_script_of_isOk bareText (by decide +kernel)
  have hparse : (((parseScript bareText).toOption.bind List.head?).bind Stmt.body?).map List.length = some 0 := by
    decide +kernel
  rw [h] at hparse
  obtain ⟨body, hbody, hlength⟩ := Option.map_eq_some_iff.1 hparse
  obtain ⟨s, hs, hbody⟩ := Option.bind_eq_some_iff.1 hbody
  exact ⟨script, s, h, .top (List.mem_of_head? hs), by rw [hbody, List.length_eq_zero_iff.1 hlength]⟩

/-! ### Well-formed trees -/

open Lowering in
/-- The steps of a boolean expression, with those that are taken if there are not two operands. -/
def joinedOr (other : Lower Lowered) (op : BoolOp) (es : List Expr) : Lower Lowered := do
  let o ← defaultOp op.label
  match lowerParts es with
  | first :: second :: rest =>
    return .request (← joinOperands o (← first.lower) second.lower (rest.map (·.lower)))
  | _ => other

/-- A chain of comparisons, with what is done if there are not as many operators as operands. -/
def chainOr (other : Except Error Value) (globals : Globals) (left : Value) :
    List CompareOp → List Expr → Except Error Value
  | op :: ops, e :: es => do
    let right ← Evaluation.eval globals e
    if ← Comparison.apply op left right then chainOr other globals right ops es else return .bool false
  | [], [] => .ok (.bool true)
  | _, _ => other

theorem evalCompare_eq_chainOr {ops : List CompareOp} {es : List Expr} (hlength : ops.length = es.length)
    (other : Except Error Value) (globals : Globals) (left : Value) :
    Evaluation.evalCompare globals left ops es = chainOr other globals left ops es := by
  induction ops generalizing es left with
  | nil =>
    obtain rfl := length_eq_zero_iff.1 hlength.symm
    rfl
  | cons op ops ih =>
    obtain ⟨e, es, rfl⟩ := exists_cons_of_length_eq_add_one hlength.symm
    simp only [Evaluation.evalCompare, chainOr, ih (Nat.succ.inj hlength)]

theorem lowerExpr_eq_joinedOr {pos : Position} {op : BoolOp} {es : List Expr} (hlength : 2 ≤ es.length)
    (hconstant : (Expr.boolean pos op es).isConstant = false) (other : Lower Lowering.Lowered)
    (candidate : Option String) : Lowering.lowerExpr (.boolean pos op es) candidate = joinedOr other op es := by
  rcases es with _ | ⟨first, _ | ⟨second, rest⟩⟩
  · cases hlength
  · exact absurd hlength (by simp)
  · rw [Lowering.lowerExpr, hconstant]
    rfl

/-- **Trees are well formed.** What `ParsedStmts` says holds of the tree of every script, and its words are names that are
not reserved. So no boolean expression has too few operands for its steps, and no comparison an operator without an
operand: whatever were done then, the results would be the same. -/
theorem parsed_wellFormed (h : parseScript source = .ok script) : ∃ ts, tokenize source = .ok ts ∧
    ParsedStmts ts script ∧ (∀ x, Word ts x → IsWord x ∧ x ∉ reservedWords) ∧
    (∀ pos op es, Plain ts (.boolean pos op es) → (Expr.boolean pos op es).isConstant = false →
      ∀ other candidate, Lowering.lowerExpr (.boolean pos op es) candidate = joinedOr other op es) ∧
    ∀ pos l ops es, Plain ts (.compare pos l ops es) →
      ∀ other globals left, Evaluation.evalCompare globals left ops es = chainOr other globals left ops es := by
  obtain ⟨ts, htokens, hscript⟩ := parsed_of_parseScript h
  refine ⟨ts, htokens, hscript, fun x hx => ⟨hx.isWord (spelled_tokenize htokens), hx.free⟩, ?_, ?_⟩
  · intro pos op es hes hconstant
    cases hes with
    | boolean hlength => exact lowerExpr_eq_joinedOr hlength hconstant
  · intro pos l ops es hes
    cases hes with
    | compare _ _ hlength => exact evalCompare_eq_chainOr hlength

/-- A function with a default, two targets, a slice and a chain of comparisons. -/
def formedText : String :=
  "def f(x, n=1):\n  y = z = x.a[:n, 0]\n  return y and z or 0 < n <= x\n"

theorem parsed_wellFormed_formedText : ∃ script ts, parseScript formedText = .ok script ∧
    tokenize formedText = .ok ts ∧ ParsedStmts ts script ∧ ∀ x, Word ts x → IsWord x ∧ x ∉ reservedWords := by
  obtain ⟨script, h⟩ := exists_script_of_isOk formedText (by decide +kernel)
  obtain ⟨ts, htokens, hscript, hwords, -⟩ := parsed_wellFormed h
  exact ⟨script, ts, h, htokens, hscript, hwords⟩

end Syntax

end OpGraph
