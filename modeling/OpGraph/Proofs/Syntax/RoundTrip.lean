import OpGraph.Proofs.Syntax.Expressions
import OpGraph.Proofs.Syntax.OneLine

/-!
Expressions written out and read back. The tokens of an accepted expression are a line of a script on their own, and the
lexer reads them from any text that has them with spaces in between; so the parser gives back the expression that was
written, up to positions.
-/

namespace OpGraph

open List Syntax Syntax.Parser
open Lexer (newline endOfInput LineEnd Gapped Scans Step LineOf startsToken)

variable {w : List Char} {ts : List Token} {t : Token}

/-! ### Spelled tokens -/

theorem Spelled.advance (h : Spelled t w) : ∃ c rest st, w = c :: rest ∧
    Lexer.advance {} c rest = .ok (st, []) ∧ st.tokens.map Token.unplaced = [t.unplaced] := by
  cases h with
  | @word x hx =>
    obtain ⟨c, cs, hcs, hc, hparts⟩ := hx
    have htake : cs.takeWhile Lexer.isNamePart = cs := takeWhile_eq_self_iff.2 hparts
    have hdrop : cs.dropWhile Lexer.isNamePart = [] := dropWhile_eq_nil_iff.2 hparts
    have hstep : Step c (cs ++ []) _ _ := Lexer.step_name hc Lexer.gapped_nil
    obtain ⟨u, -, -, hadvance⟩ := hstep
    have hadvance := hadvance {}
    rw [append_nil, htake, hdrop] at hadvance
    refine ⟨c, cs, _, hcs, hadvance, ?_⟩
    simp [Lexer.State.after, Token.unplaced, wordToken, ← hcs]
  | @sign x hx =>
    unfold signs at hx
    fin_cases hx <;> exact ⟨_, _, _, rfl, rfl, rfl⟩
  | literal _ hadvance htokens => exact ⟨_, _, _, rfl, hadvance, htokens⟩

theorem Spelled.step (h : Spelled t w) : ∃ c rest u, w = c :: rest ∧
    startsToken c = true ∧ isText u = true ∧ u.unplaced = t.unplaced ∧
    ∀ x, Gapped x → Step c (rest ++ x) (some u) x := by
  obtain ⟨c, rest, st, rfl, hadvance, htokens⟩ := h.advance
  have hne : st.tokens ≠ [] := by
    intro hnil
    simp [hnil] at htokens
  have hwhole : Lexer.advance {} c (rest ++ []) = .ok (st, [] ++ []) := by simpa using hadvance
  obtain ⟨hc, u, hstep⟩ := Lexer.step_of_tokens Lexer.gapped_nil hwhole hne
  have hstep' := hstep [] Lexer.gapped_nil
  refine ⟨c, rest, u, rfl, hc, hstep'.isText, ?_, hstep⟩
  obtain ⟨v, -, -, hagain⟩ := hstep'
  have hagain := hagain {}
  rw [append_nil, hadvance] at hagain
  cases hagain
  simpa [Lexer.State.after, Token.unplaced] using htokens

theorem scans_spaces (n : Nat) (x : List Char) : Scans (List.replicate n ' ' ++ x) [] x := by
  induction n with
  | zero => exact .refl
  | succ n ih => exact .step (Lexer.step_blank rfl : Step ' ' _ none _) ih

theorem Spaced.scans {cs : List Char} (h : Spaced ts cs) : ∃ us,
    SameTokens us ts ∧ (∀ u ∈ us, isText u = true) ∧
    (∃ c rest, cs = c :: rest ∧ startsToken c = true) ∧ ∀ x, LineEnd x → Scans (cs ++ x) us x := by
  induction h with
  | last n hw =>
    obtain ⟨c, rest, u, rfl, hc, htext, hu, hstep⟩ := hw.step
    refine ⟨[u], by simp [SameTokens, hu], by simpa using htext, ⟨c, _, rfl, hc⟩, fun x hx => ?_⟩
    have hgapped : Gapped (List.replicate n ' ' ++ x) := by
      cases n with
      | zero => exact hx.gapped
      | succ n => exact Lexer.gapped_space _
    rw [append_assoc]
    exact .step (hstep _ hgapped) (scans_spaces n x)
  | cons n hw _ ih =>
    obtain ⟨us, hus, htexts, -, hscans⟩ := ih
    obtain ⟨c, rest, u, rfl, hc, htext, hu, hstep⟩ := hw.step
    refine ⟨u :: us, by simp [SameTokens, hu, hus], by simpa using ⟨htext, htexts⟩, ⟨c, _, rfl, hc⟩, fun x hx => ?_⟩
    rw [append_assoc, append_assoc]
    exact .step (hstep _ (Lexer.gapped_space _)) ((scans_spaces (n + 1) _).trans (hscans x hx))

/-! ### A line that is an expression -/

theorem closes_newline (l : List Token) : Closes (newline :: l) :=
  ⟨⟨_, l, rfl, by decide⟩, by simp [newline, Token.isWord], by simp [newline, Token.isWord],
    by simp [newline, Token.isOp]⟩

theorem itemReads_expression {r : Nat} {e : Expr} (h : ReadsIn r e ts) (hr : r ≤ 12) :
    ItemReads endsExpression newline expression ts e where
  starts := by
    obtain ⟨t, l, rfl, ht⟩ := h.starts
    exact ⟨t, l, rfl, ht.endsExpression_eq⟩
  run u hu rest := by
    have hfuel : ts.length < (ts ++ u :: rest).length + 1 := by
      rw [length_append]
      omega
    have hitem : ItemReads endsExpression newline (test ((ts ++ u :: rest).length + 1)) ts e :=
      h.itemReads hr closes_newline (fun t ht => ht.endsExpression_eq) hfuel
    rw [expression, run_remaining_bind]
    exact hitem.run u hu rest

section

variable {spell : Position → Literal → List Token} {e : Expr}

theorem tokens_cases (spell : Position → Literal → List Token) (e : Expr) (bare : Bool) :
    e.tokens spell bare = e.tokens spell false ∨ ∃ p es, e = .tuple p es ∧ es ≠ [] ∧
      e.tokens spell bare = Expr.tupleBody (Expr.tokensEach spell 12 es) := by
  by_cases htuple : ∀ p es, e = .tuple p es → es = []
  · cases bare with
    | false => exact .inl rfl
    | true => exact .inl (tokens_bare htuple)
  · push Not at htuple
    obtain ⟨p, es, rfl, hes⟩ := htuple
    cases bare with
    | false => exact .inl rfl
    | true => exact .inr ⟨p, es, rfl, hes, by simp [Expr.tokens, hes]⟩

theorem run_expressionList (he : e.Accepted spell .inner) (bare : Bool) (rest : List Token) :
    expressionList.run (e.tokens spell bare ++ newline :: rest) = .ok (e.unplaced, newline :: rest) := by
  rcases tokens_cases spell e bare with htokens | ⟨p, es, rfl, hes, htokens⟩
  · rw [htokens]
    have hitem := itemReads_expression (reads_of_accepted e he) (rank_le e)
    exact run_tupleOf_one (hitem.run newline (by simp) rest) rfl
  · rw [htokens, Expr.unplaced, Expr.unplacedAll_eq_map]
    refine run_tupleOf rest rfl rfl (forall₂_tokensEach fun e he' => ?_) (by simpa using hes) (head?_unplaced_pos es)
    exact itemReads_expression (reads_of_accepted e (accepted_of_mem he he')) (rank_le e)

theorem starts_tokens (he : e.Accepted spell .inner) (bare : Bool) : Starts 12 (e.tokens spell bare) := by
  rcases tokens_cases spell e bare with htokens | ⟨p, es, rfl, hes, htokens⟩
  · rw [htokens]
    exact (reads_of_accepted e he).starts.mono (rank_le e)
  · obtain ⟨e, es, rfl⟩ := exists_cons_of_ne_nil hes
    obtain ⟨t, l, ht, hstart⟩ := (reads_of_accepted e (accepted_of_mem he (by simp))).starts
    obtain ⟨l', hbody⟩ := exists_tupleBody t l (Expr.tokensEach spell 12 es)
    rw [htokens, Expr.tokensEach, enclose_twelve, ht, hbody]
    exact ⟨t, l', rfl, hstart.mono (rank_le e)⟩

theorem run_smallStatement (ht : StartsAt 12 t) (l : List Token) :
    smallStatement.run (t :: l) = expressionStatement.run (t :: l) := by
  rw [smallStatement, run_peek_bind]
  cases ht with
  | literal h _ => rw [if_neg (by rcases h with h | h <;> simp [h])]
  | name hk htext _ =>
    have hrejected : t.text ∉ rejectedWords := fun h => htext (mem_append_right _ h)
    rw [if_pos (by simp [hk]), if_neg hrejected]
    split
    all_goals first
      | rfl
      | exact absurd (by rw [‹t.text = _›]; decide) htext
  | bracket h => rcases h with rfl | rfl <;> rfl
  | @sign op h _ => cases op <;> rfl
  | not _ => rfl

theorem run_smallLine (he : e.Accepted spell .inner) (bare : Bool) :
    smallLine.run (e.tokens spell bare ++ newline :: [endOfInput]) =
      .ok ([.expr Stmt.nowhere e.unplaced], newline :: [endOfInput]) := by
  have hlist := run_expressionList he bare [endOfInput]
  obtain ⟨t, l, ht, hstart⟩ := starts_tokens he bare
  rw [ht, cons_append] at hlist ⊢
  have hstatement : expressionStatement.run (t :: (l ++ newline :: [endOfInput])) =
      .ok (.expr Stmt.nowhere e.unplaced, newline :: [endOfInput]) := by
    have hmark : markOf t = Stmt.nowhere := by rw [markOf, hstart.pos_eq, Stmt.nowhere]
    rw [expressionStatement, run_peek_bind, run_bind_of_ok hlist, hmark]
    rfl
  rw [smallLine, run_bind_of_ok ((run_smallStatement hstart _).trans hstatement)]
  rfl

theorem parses_tokens (he : e.Accepted spell .inner) (bare : Bool) :
    Tidy (e.tokens spell bare) ∧ Parses (e.tokens spell bare ++ [newline]) [.expr Stmt.nowhere e.unplaced] := by
  have hend : Ended [endOfInput] := .last rfl
  have hline := run_smallLine he bare
  have htidy : Tidy (e.tokens spell bare) := by
    obtain ⟨-, used, hused, htidy, -⟩ := Tracks.repeat (fun _ => tracks_smallLine) (Ended.of_append (.cons hend))
      nil_prefix hline
    rwa [append_cancel_right hused]
  have hsimple : simpleLine.run (e.tokens spell bare ++ newline :: [endOfInput]) =
      .ok ([.expr Stmt.nowhere e.unplaced], [endOfInput]) := by
    rw [simpleLine_eq, run_bind_of_ok hline]
    rfl
  obtain ⟨t, l, ht, hstart⟩ := starts_tokens he bare
  rw [ht] at htidy hsimple ⊢
  refine ⟨htidy, (of_simple ?_ htidy.text rfl hend (hstart.isOp_eq_false (by decide)) hsimple).2.2⟩
  have hword : ∀ word ∈ ["def", "if", "for", "while"], t.isWord word = false := fun word hw =>
    hstart.isWord_eq_false (by revert word; decide) fun heq => absurd hw (by simp [heq])
  simp [headOf, hword]

end

/-! ### The text of an expression -/

/-- **Expressions are read back**: the text of an accepted expression, with spaces between its tokens, is parsed as the
same expression up to positions. -/
theorem parseExpression_of_spaced {spell : Position → Literal → List Token} {e : Expr} (he : e.Accepted spell .inner)
    (bare : Bool) {text : String} (h : Spaced (e.tokens spell bare) (Source.normalize text.toList)) :
    ∃ e', parseExpression text = .ok e' ∧ e'.unplaced = e.unplaced := by
  obtain ⟨htidy, hparses⟩ := parses_tokens he bare
  obtain ⟨us, hus, htext, hstart, hscans⟩ := h.scans
  have hline : LineOf (Source.normalize text.toList) us := by
    refine ⟨hstart, ?_, htext, ?_, hscans⟩
    · rintro rfl
      exact (starts_tokens he bare).ne_nil (by simpa using hus.symm)
    · rw [depthAfter_eq_of_unplaced hus, htidy.depth]
  have hsource : Source.normalize text.toList = Lexer.joined [Source.normalize text.toList] := by
    rw [Lexer.joined_cons, Lexer.following, List.append_nil]
  have hblanks : ∀ b ∈ ([] : List Char), Lexer.isBlank b = true := by simp
  have hspread : Lexer.Spread [(0, us)] [Source.normalize text.toList] := .line hblanks hline .nil
  have hlays : Lexer.Lays [] [(0, us)] (us ++ newline :: [endOfInput]) := .same rfl .done
  rw [List.append_cons] at hlays
  obtain ⟨script, hscript, hsame⟩ := parseScript_of_lays hsource hspread hlays (.single hparses)
    (by simp [SameTokens, hus])
  obtain ⟨s, rfl, hs⟩ := List.map_eq_singleton_iff.1 hsame
  obtain ⟨m, e', rfl, he'⟩ := Stmt.eq_expr_of_unplaced hs
  refine ⟨e', ?_, he'.trans e.unplaced_unplaced⟩
  rw [parseExpression, hscript]
  rfl

theorem parseExpression_of_spaced_power :
    ∃ e', parseExpression "( a or b ) ** - c [ i :  , ( 0x_F , ) ]" = .ok e' ∧ e'.unplaced =
      Expr.unplaced (.binary default (.boolean default .or [.name default "a", .name default "b"]) .pow
        (.unary default .minus (.subscript default (.name default "c") (.tuple default
          [.slice default (some (.name default "i")) none none, .tuple default [.constant default (.int 15)]])))) := by
  have sign (x : String) (hx : x ∈ signs) : Spelled (signToken x) x.toList := .sign hx
  have letter (x : String) (hx : x ∈ ["a", "b", "c", "i"]) : Spelled (wordToken x) x.toList := by
    simp only [List.mem_cons, List.not_mem_nil, or_false] at hx
    rcases hx with rfl | rfl | rfl | rfl <;> exact .word ⟨_, [], rfl, by decide, by simp⟩
  have hor : Spelled (wordToken "or") "or".toList :=
    .word ⟨'o', ['r'], rfl, by decide, by simp [Lexer.isNamePart]⟩
  have hnumber : Spelled ⟨.number, "0x_F", default⟩ ['0', 'x', '_', 'F'] := .literal (.inl rfl) rfl rfl
  have hname (x : String) (hx : x ∉ reservedWords ++ ["True", "False", "None"]) : Expr.IsName x := by
    simpa [Expr.IsName] using hx
  have hspells : Expr.Spells [⟨.number, "0x_F", default⟩] (.int 15) := .number rfl
  refine @parseExpression_of_spaced (fun _ _ => [⟨.number, "0x_F", default⟩]) _ ?_ true _ ?_
  · exact ⟨⟨by decide, hname _ (by decide), hname _ (by decide), trivial⟩, hname _ (by decide),
      ⟨by decide, hname _ (by decide), trivial, trivial⟩, ⟨hspells, trivial⟩, trivial⟩
  · exact .cons 0 (sign "(" (by decide)) <| .cons 0 (letter "a" (by decide)) <| .cons 0 hor <|
      .cons 0 (letter "b" (by decide)) <| .cons 0 (sign ")" (by decide)) <| .cons 0 (sign "**" (by decide)) <|
      .cons 0 (sign "-" (by decide)) <| .cons 0 (letter "c" (by decide)) <| .cons 0 (sign "[" (by decide)) <|
      .cons 0 (letter "i" (by decide)) <| .cons 1 (sign ":" (by decide)) <| .cons 0 (sign "," (by decide)) <|
      .cons 0 (sign "(" (by decide)) <| .cons 0 hnumber <| .cons 0 (sign "," (by decide)) <|
      .cons 0 (sign ")" (by decide)) <| .last 0 (sign "]" (by decide))

end OpGraph
