import OpGraph.Proofs.Syntax.Lines
import OpGraph.Proofs.Syntax.Places

/-!
The tokens of a text. They are cut out of the text one after the other, and between them stands nothing but blanks, line
ends, comments and joined lines. The tokens that the layout adds open and close blocks in pairs, end every line once, and
never stand inside brackets; and inside brackets it does not matter what stands between two tokens, as long as something
does. All of this is shown for one move of the lexer first.
-/

namespace OpGraph

open List
open Syntax.Parser (isText depthStep depthAfter)

namespace Source

variable {w : List Char} {d : Option ℕ} {t : Token} {n : ℕ}

/-- Where a position lies in a text, in UTF-16 units from its start: after the lines before its own, each with its line
end, and the columns before it. -/
def offset (cs : List Char) (p : Position) : ℕ :=
  (((lines cs).take (p.line - 1)).map fun l => Text.widthOf l + 1).sum + p.column

theorem widthOf_lines (cs : List Char) :
    ((lines cs).dropLast.map fun l => Text.widthOf l + 1).sum + Text.widthOf ((lines cs).getLastD []) =
      Text.widthOf cs := by
  induction cs with
  | nil => rfl
  | cons c cs ih =>
    have hcs := lines_eq_cons cs
    rw [Text.widthOf_cons, ← ih, lines, hcs]
    split
    · rename_i hc
      cases (lines cs).tail with
      | nil => simp [hc, Text.width, Nat.add_comm]
      | cons l ls =>
        simp [hc, Text.width]
        omega
    · cases (lines cs).tail with
      | nil => simp
      | cons l ls =>
        simp
        omega

theorem offset_afterAll (a b : List Char) : offset (a ++ b) (Position.afterAll ⟨1, 0⟩ a) = Text.widthOf a := by
  have hlines : (lines (a ++ b)).take ((lines a).length - 1) = (lines a).dropLast := by
    rw [lines_append, take_left' (by simp)]
  rw [afterAll_start, offset, hlines, widthOf_lines]

end Source

namespace Lexer

variable {st st₁ st' : State} {cs u x y rest : List Char} {tok : Option Token} {ps : List Piece} {ts : List Token}
variable {source : String}

/-! ### Building up the tokens -/

theorem kind_of_isText (h : isText t = true) : t.kind = .name ∨ t.kind = .number ∨ t.kind = .string ∨ t.kind = .op := by
  simpa [isText, or_assoc] using h

/-- How the tokens of a text are built up: the number of open blocks, that of open brackets until the text has ended, and
the tokens, the last one first. -/
inductive Built : ℕ → Option ℕ → List Token → Prop
  | nil : Built 0 (some 0) []
  | text {n d : ℕ} {t : Token} {ts : List Token} :
    isText t = true → Built n (some d) ts → Built n (some (depthStep d t)) (t :: ts)
  | newline {n : ℕ} {d : Option ℕ} {t u : Token} {ts : List Token} :
    (∀ k ∈ d, k = 0) → t.kind = .newline → u.kind ≠ .newline → Built n d (u :: ts) → Built n d (t :: u :: ts)
  | indent {n : ℕ} {d : Option ℕ} {t : Token} {ts : List Token} :
    (∀ k ∈ d, k = 0) → t.kind = .indent → Built n d ts → Built (n + 1) d (t :: ts)
  | dedent {n : ℕ} {d : Option ℕ} {t : Token} {ts : List Token} :
    (∀ k ∈ d, k = 0) → t.kind = .dedent → Built (n + 1) d ts → Built n d (t :: ts)
  | ended {n : ℕ} {d : Option ℕ} {ts : List Token} : Built n d ts → Built n none ts

theorem Built.dedents {k : ℕ} (hd : ∀ k ∈ d, k = 0) (ht : t.kind = .dedent) (h : Built (n + k) d ts) :
    Built n d (List.replicate k t ++ ts) := by
  induction k generalizing n with
  | zero => exact h
  | succ k ih => exact .dedent hd ht (ih (by rwa [Nat.succ_add_eq_add_succ]))

theorem Move.built (h : Move st tok u st' rest) (hst : Built st.indents.length (some st.depth) st.tokens) :
    Built st'.indents.length (some st'.depth) st'.tokens := by
  cases h with
  | filler => exact hst
  | layout hstart _ _ hlayout =>
    have hdepth : ∀ k ∈ some st.depth, k = 0 := fun k hk => (Option.some.inj hk).symm.trans hstart.2
    rcases layout_eq_ok hlayout with rfl | ⟨k, hk, rfl⟩
    · exact .indent hdepth rfl hst
    · refine .dedents hdepth rfl ?_
      change k ≤ st.indents.length at hk
      simpa [State.skip, hk] using hst
  | line =>
    rcases endLine_eq st with hend | ⟨hdepth, hend | ⟨t, ts, htokens, ht, hend⟩⟩ <;> rw [State.skip, hend]
    · exact hst
    · exact hst
    · have hdepth : ∀ k ∈ some st.depth, k = 0 := fun k hk => (Option.some.inj hk).symm.trans hdepth
      dsimp only
      rw [htokens] at hst ⊢
      exact .newline hdepth rfl ht hst
  | @step c u _ tok _ hstep =>
    cases tok with
    | none => exact hst
    | some t => exact .text (t := { t with pos := st.pos }) hstep.isText hst

theorem Reads.built (h : Reads st cs ps st' rest) (hst : Built st.indents.length (some st.depth) st.tokens) :
    Built st'.indents.length (some st'.depth) st'.tokens := by
  induction h with
  | refl => exact hst
  | move hmove _ ih => exact ih (hmove.built hst)

theorem finish_built (h : Built st.indents.length (some st.depth) st.tokens) : ∃ us t,
    finish st = st.tokens.reverse ++ us ++ [t] ∧ t.kind = .eof ∧ (∀ u ∈ us, isText u = false) ∧
      Built 0 none (us.reverse ++ st.tokens) := by
  obtain ⟨last, hlast, hfinish⟩ := finish_eq st
  have hbuilt : Built st.indents.length none (last ++ st.tokens) := by
    rcases hlast with rfl | ⟨t, ts, htokens, ht, rfl⟩
    · exact h.ended
    · rw [htokens] at h ⊢
      exact .newline (by simp) rfl ht h.ended
  refine ⟨_, _, hfinish, rfl, ?_, ?_⟩
  · rcases hlast with rfl | ⟨t, ts, -, -, rfl⟩ <;> simp [isText]
  · have hreverse : last.reverse = last := by rcases hlast with rfl | ⟨_, _, -, -, rfl⟩ <;> rfl
    rw [reverse_append, reverse_replicate, hreverse, append_assoc]
    exact .dedents (by simp) rfl (by rwa [Nat.zero_add])

/-! ### Spans -/

/-- A text that is cut into its tokens and what stands between them: the tokens of the text in order, each where it is
placed and spelled as it says, and gaps before what is left of the text. -/
structure Cuts (text : List Char) (ts : List Token) (ps : List Piece) : Prop where
  join : Piece.join ps = text
  tokens : ps.filterMap Piece.token = ts.filter isText
  spans : ∀ a t u b, ps = a ++ ⟨some t, u⟩ :: b → u ≠ [] ∧ Spells u t ∧ Source.Inside text t.pos ∧
    Source.offset text t.pos = Text.widthOf (Piece.join a)
  gaps : ∀ a u b, ps = a ++ ⟨none, u⟩ :: b → IsGap u (Piece.join b)

theorem Reads.cuts (h : Reads {} cs ps st []) : Cuts cs (finish st) ps := by
  have hjoin : Piece.join ps = cs := by simpa using h.eq_append.symm
  refine ⟨hjoin, h.filter_finish.symm, ?_, ?_⟩
  · rintro a t u b rfl
    obtain ⟨⟨-, hspells, -⟩, ht⟩ := h.lexeme
    obtain ⟨hne, hpos⟩ := ht t rfl
    rw [hpos, ← hjoin, Piece.join_append]
    exact ⟨hne, hspells, Source.inside_afterAll _ _, Source.offset_afterAll _ _⟩
  · rintro a u b rfl
    have hlexeme := h.lexeme.1
    rwa [append_nil] at hlexeme

/-- **No text is lost.** -/
theorem exists_cuts_of_tokenize (h : tokenize source = .ok ts) : ∃ ps, Cuts (Source.normalize source.toList) ts ps := by
  obtain ⟨ps, st, hreads, rfl⟩ := reads_of_tokenize h
  exact ⟨ps, hreads.cuts⟩

/-- A block with a call that goes on in the next line. -/
def sampleText : String :=
  "if a:\n\tf('b\\n', # c\n1)\n"

def sampleTokens : List Token :=
  [⟨.name, "if", ⟨1, 0⟩⟩, ⟨.name, "a", ⟨1, 3⟩⟩, ⟨.op, ":", ⟨1, 4⟩⟩, ⟨.newline, "", ⟨1, 5⟩⟩, ⟨.indent, "", ⟨2, 8⟩⟩,
    ⟨.name, "f", ⟨2, 1⟩⟩, ⟨.op, "(", ⟨2, 2⟩⟩, ⟨.string, "b\n", ⟨2, 3⟩⟩, ⟨.op, ",", ⟨2, 8⟩⟩, ⟨.number, "1", ⟨3, 0⟩⟩,
    ⟨.op, ")", ⟨3, 1⟩⟩, ⟨.newline, "", ⟨3, 2⟩⟩, ⟨.dedent, "", ⟨4, 0⟩⟩, ⟨.eof, "", ⟨4, 0⟩⟩]

theorem tokenize_sampleText : tokenize sampleText = .ok sampleTokens := by
  decide +kernel

theorem exists_cuts_of_tokenize_sample : tokenize sampleText = .ok sampleTokens ∧
    ∃ ps, Cuts (Source.normalize sampleText.toList) sampleTokens ps :=
  ⟨tokenize_sampleText, exists_cuts_of_tokenize tokenize_sampleText⟩

/-! ### Blocks and lines -/

/-- Tokens that open and close in pairs: none closes what has not been opened, and `n` are left open. -/
structure Nested (opens closes : Token → Bool) (n : ℕ) (ts : List Token) : Prop where
  front : ∀ us, us <+: ts → us.countP closes ≤ us.countP opens
  total : ts.countP closes + n = ts.countP opens

theorem Nested.concat {opens closes : Token → Bool} {m : ℕ} (h : Nested opens closes n ts)
    (hm : [t].countP closes + m = n + [t].countP opens) : Nested opens closes m (ts ++ [t]) := by
  have htotal : (ts ++ [t]).countP closes + m = (ts ++ [t]).countP opens := by
    have := h.total
    rw [countP_append, countP_append]
    omega
  refine ⟨fun us hus => ?_, htotal⟩
  rcases prefix_concat_iff.1 hus with rfl | hus
  · omega
  · exact h.front us hus

theorem Built.blocks (h : Built n d ts) : Nested (·.kind == .indent) (·.kind == .dedent) n ts.reverse := by
  induction h with
  | nil => exact ⟨by simp, rfl⟩
  | text ht _ ih =>
    rw [reverse_cons]
    rcases kind_of_isText ht with hk | hk | hk | hk <;> exact ih.concat (by simp [hk])
  | newline _ ht _ _ ih | indent _ ht _ ih =>
    rw [reverse_cons]
    exact ih.concat (by simp [ht])
  | dedent _ ht _ ih =>
    rw [reverse_cons]
    exact ih.concat (by simp [ht, Nat.add_comm])
  | ended _ ih => exact ih

/-- No line ends twice, and none before the first token: as if a line ended before it. -/
theorem Built.lines (h : Built n d ts) :
    (ts ++ [Lexer.newline]).IsChain fun t u => u.kind = .newline → t.kind ≠ .newline := by
  have hcons : ∀ {t : Token} {us : List Token}, t.kind ≠ .newline →
      us.IsChain (fun t u => u.kind = .newline → t.kind ≠ .newline) →
      (t :: us).IsChain fun t u => u.kind = .newline → t.kind ≠ .newline := fun ht hus =>
    isChain_cons.2 ⟨fun _ _ _ => ht, hus⟩
  induction h with
  | nil => exact .singleton _
  | text ht _ ih => exact hcons (by rcases kind_of_isText ht with hk | hk | hk | hk <;> simp [hk]) ih
  | newline _ _ hu _ ih => exact isChain_cons_cons.2 ⟨fun h => absurd h hu, ih⟩
  | indent _ ht _ ih | dedent _ ht _ ih => exact hcons (by simp [ht]) ih
  | ended _ ih => exact ih

theorem Built.ne_eof (h : Built n d ts) : ∀ t ∈ ts, t.kind ≠ .eof := by
  induction h with
  | nil => simp
  | text ht _ ih =>
    exact forall_mem_cons.2 ⟨by rcases kind_of_isText ht with hk | hk | hk | hk <;> simp [hk], ih⟩
  | newline _ ht _ _ ih | indent _ ht _ ih | dedent _ ht _ ih => exact forall_mem_cons.2 ⟨by simp [ht], ih⟩
  | ended _ ih => exact ih

/-! ### Brackets -/

def opensBracket (t : Token) : Bool :=
  t.isOp "(" || t.isOp "[" || t.isOp "\x7b"

def closesBracket (t : Token) : Bool :=
  t.isOp ")" || t.isOp "]" || t.isOp "\x7d"

theorem depthStep_eq (d : ℕ) (t : Token) :
    depthStep d t = if opensBracket t then d + 1 else if closesBracket t then d - 1 else d :=
  rfl

theorem isText_of_closesBracket (h : closesBracket t = true) : isText t = true := by
  have hop : t.kind = .op := by
    simp only [closesBracket, Token.isOp, Bool.or_eq_true, Bool.and_eq_true, beq_iff_eq] at h
    rcases h with (h | h) | h <;> exact h.1
  simp [isText, hop]

theorem depthAfter_reverse_cons (t : Token) (ts : List Token) :
    depthAfter 0 (t :: ts).reverse = depthStep (depthAfter 0 ts.reverse) t := by
  rw [reverse_cons, Syntax.Parser.depthAfter_append]
  rfl

theorem depthAfter_reverse_of_ne_op (h : t.kind ≠ .op) (ts : List Token) :
    depthAfter 0 (t :: ts).reverse = depthAfter 0 ts.reverse := by
  rw [depthAfter_reverse_cons]
  simp [depthStep, Token.isOp, h]

theorem Built.depth (h : Built n d ts) : ∀ k ∈ d, depthAfter 0 ts.reverse = k := by
  induction h with
  | nil => simp [depthAfter]
  | text _ _ ih =>
    rw [depthAfter_reverse_cons, ih _ rfl]
    simp
  | newline _ ht _ _ ih | indent _ ht _ ih | dedent _ ht _ ih => rwa [depthAfter_reverse_of_ne_op (by simp [ht])]
  | ended => simp

theorem Built.of_cons {d : ℕ} (h : Built n (some d) (t :: ts)) :
    ∃ m k, Built m (some k) ts ∧ (isText t = false → k = 0) := by
  cases h with
  | text ht h => exact ⟨_, _, h, by simp [ht]⟩
  | newline hd _ _ h | indent hd _ h | dedent hd _ h => exact ⟨_, _, h, fun _ => hd _ rfl⟩

theorem Built.flat {d : ℕ} {us vs : List Token} (h : Built n (some d) (us ++ t :: vs)) (ht : isText t = false) :
    depthAfter 0 vs.reverse = 0 := by
  induction us generalizing n d with
  | nil =>
    obtain ⟨m, k, hvs, hk⟩ := h.of_cons
    rw [hvs.depth k rfl, hk ht]
  | cons u us ih =>
    obtain ⟨m, k, hrest, -⟩ := h.of_cons
    exact ih hrest

theorem add_le_depthAfter (d : ℕ) (ts : List Token) :
    d + ts.countP opensBracket ≤ depthAfter d ts + ts.countP closesBracket := by
  induction ts generalizing d with
  | nil => simp [depthAfter]
  | cons t ts ih =>
    have hstep : d + [t].countP opensBracket ≤ depthStep d t + [t].countP closesBracket := by
      rw [depthStep_eq, countP_singleton, countP_singleton]
      split_ifs <;> omega
    have hrest := ih (depthStep d t)
    rw [← singleton_append, countP_append, countP_append, Syntax.Parser.depthAfter_append]
    change _ ≤ depthAfter (depthStep d t) ts + _
    omega

/-- What the tokens of a text look like. -/
structure Blocked (ts : List Token) : Prop where
  blocks : Nested (·.kind == .indent) (·.kind == .dedent) 0 ts
  ended : ∃ us t, ts = us ++ [t] ∧ t.kind = .eof ∧ ∀ u ∈ us, u.kind ≠ .eof
  first : ∀ t ∈ ts.head?, t.kind ≠ .newline
  lines : ts.IsChain fun t u => t.kind = .newline → u.kind ≠ .newline
  brackets : ∀ us t mid u vs, ts = us ++ t :: (mid ++ u :: vs) → opensBracket t = true → closesBracket u = true →
    Nested opensBracket closesBracket 0 mid → ∀ v ∈ mid, isText v = true

theorem Built.brackets {d : ℕ} {us mid vs : List Token} {v : Token}
    (h : Built n (some d) (us ++ t :: (mid ++ vs)).reverse) (ht : opensBracket t = true)
    (hmid : ∀ front, front <+: mid → front.countP closesBracket ≤ front.countP opensBracket) (hv : v ∈ mid) :
    isText v = true := by
  by_contra htext
  obtain ⟨a, b, rfl⟩ := append_of_mem hv
  have hbuilt : Built n (some d) ((b ++ vs).reverse ++ v :: (us ++ t :: a).reverse) := by simpa using h
  have hflat := hbuilt.flat (by simpa using htext)
  have hopen : depthAfter 0 (us ++ t :: a) = depthAfter (depthAfter 0 us + 1) a := by
    rw [Syntax.Parser.depthAfter_append, depthAfter, foldl_cons, depthStep_eq, if_pos ht]
    rfl
  rw [reverse_reverse, hopen] at hflat
  have hdepth := add_le_depthAfter (depthAfter 0 us + 1) a
  have hfront := hmid a (prefix_append a _)
  omega

/-- **Blocks, lines and brackets.** -/
theorem blocked_of_tokenize (h : tokenize source = .ok ts) : Blocked ts := by
  obtain ⟨ps, st, hreads, rfl⟩ := reads_of_tokenize h
  have hst := hreads.built .nil
  obtain ⟨us, e, hfinish, he, hus, hbuilt⟩ := finish_built hst
  have htokens : finish st = (us.reverse ++ st.tokens).reverse ++ [e] := by simp [hfinish]
  have hchain : (newline :: finish st).IsChain fun t u => t.kind = .newline → u.kind ≠ .newline := by
    rw [htokens, ← List.cons_append, ← List.reverse_concat']
    refine List.isChain_append.2 ⟨List.isChain_reverse.2 hbuilt.lines, .singleton e, fun t _ u hu _ => ?_⟩
    obtain rfl : e = u := by simpa using hu
    simp [he]
  refine ⟨?_, ⟨_, e, htokens, he, fun u hu => hbuilt.ne_eof u (List.mem_reverse.1 hu)⟩, ?_, ?_, ?_⟩
  · rw [htokens]
    exact hbuilt.blocks.concat (by simp [he])
  · exact fun t ht => (List.isChain_cons.1 hchain).1 t ht rfl
  · exact (List.isChain_cons.1 hchain).2
  · intro front t mid u back hts ht hu hmid v hv
    have hnotMem : u ∉ us ++ [e] := fun hmem => by
      have htext := isText_of_closesBracket hu
      rcases List.mem_append.1 hmem with hmem | hmem
      · simp [hus u hmem] at htext
      · simp [List.mem_singleton.1 hmem, isText, he] at htext
    -- the closing bracket is read from the text, and so is all that stands before it
    have hsplit : st.tokens.reverse ++ (us ++ [e]) = (front ++ t :: mid) ++ u :: back := by
      rw [← List.append_assoc, ← hfinish, hts, List.append_assoc]
      rfl
    rcases List.append_eq_append_iff.1 hsplit with ⟨w, -, hw⟩ | ⟨w, hw, -⟩
    · exact absurd (by rw [hw]; simp) hnotMem
    · rw [List.append_assoc, List.cons_append] at hw
      rw [← List.reverse_reverse st.tokens, hw] at hst
      exact hst.brackets ht hmid.front hv

theorem blocked_of_tokenize_sample : tokenize sampleText = .ok sampleTokens ∧ Blocked sampleTokens :=
  ⟨tokenize_sampleText, blocked_of_tokenize tokenize_sampleText⟩

/-! ### Gaps inside brackets -/

theorem IsGap.gapped (h : IsGap u x) (hu : u ≠ []) : Gapped (u ++ x) := by
  have hblank : ∀ {c : Char}, isBlank c = true → c ∈ gapStarts := by
    intro c hc
    rcases Bool.or_eq_true_iff.1 hc with hc | hc <;> simp [of_decide_eq_true hc, gapStarts]
  cases h with
  | nil => exact absurd rfl hu
  | blank hc => simpa [Gapped] using hblank hc
  | line => simp [Gapped, gapStarts]
  | joined => simp [Gapped, gapStarts]
  | comment => simp [Gapped, gapStarts]

theorem Reads.skip {c : Char} {v : List Char} (hst : ¬ st.AtStart) (hstep : Step c (v ++ (w ++ x)) none (w ++ x))
    (h : ∃ ps, Reads (st.skip (c :: v)) (w ++ x) ps ((st.skip (c :: v)).skip w) x) :
    ∃ ps, Reads st (c :: (v ++ w) ++ x) ps (st.skip (c :: (v ++ w))) x := by
  obtain ⟨ps, hps⟩ := h
  rw [← cons_append, append_assoc, State.skip, Position.afterAll_append]
  exact ⟨_, .move (.step hst hstep) hps⟩

theorem IsGap.reads (h : IsGap u x) (hdepth : st.depth ≠ 0) : ∃ ps, Reads st (u ++ x) ps (st.skip u) x := by
  have hst : ¬ st.AtStart := fun h => hdepth h.2
  induction h generalizing st with
  | nil => exact ⟨[], .refl⟩
  | blank hc _ ih => exact Reads.skip (v := []) hst (step_blank hc) (ih hdepth hst)
  | @line u x _ ih =>
    have hline : Move st none _ _ (u ++ x) := .line hst
    rw [endLine, if_neg hdepth] at hline
    obtain ⟨ps, hps⟩ := @ih (st.skip ['\n']) hdepth hst
    exact ⟨_, Reads.move (u := ['\n']) hline hps⟩
  | joined _ ih => exact Reads.skip (v := ['\n']) hst step_joined (ih hdepth hst)
  | comment htext hend _ ih => exact Reads.skip hst (step_comment hend htext) (ih hdepth hst)

theorem State.after_eq_of_unplaced {tok' : Option Token} (h : tok'.map Token.unplaced = tok.map Token.unplaced)
    (st : State) (pos : Position) : st.after tok' pos = st.after tok pos ∧
      (tok'.map fun t => { t with pos := st.pos }) = tok.map fun t => { t with pos := st.pos } := by
  cases tok with
  | none => simp_all
  | some t =>
    obtain ⟨t', rfl, ht⟩ := Option.map_eq_some_iff.1 h
    simp [State.after, depthStep, Token.isOp, Token.kind_eq_of_unplaced ht, Token.text_eq_of_unplaced ht]

theorem Move.before_gap (h : Move st tok u st' (w ++ x)) (hw : w = [] → tok ≠ none) (hx : Gapped x) (hne : x ≠ [])
    (hy : Gapped y) : Move st tok u st' (w ++ y) := by
  generalize hrest : w ++ x = rest at h
  cases h with
  | filler hst hf hnl =>
    refine .filler hst hf (hnl.imp_right fun hnl => absurd ?_ hne)
    exact (append_eq_nil_iff.1 (hrest.trans hnl.2)).2
  | layout hst hblanks hc hlayout =>
    obtain ⟨d, w, rfl⟩ := exists_cons_of_ne_nil fun hnil => hw hnil rfl
    obtain ⟨rfl, -⟩ := List.cons.inj hrest
    exact .layout hst hblanks hc hlayout
  | line hst => exact .line hst
  | step hst hstep =>
    subst hrest
    obtain ⟨tok', htok, hstep'⟩ := hstep.before_gap hx
    obtain ⟨hafter, hpos⟩ := State.after_eq_of_unplaced htok st (st.pos.afterAll (_ :: _))
    rw [← hafter, ← hpos]
    exact .step hst (hstep' y hy fun hnil htok => absurd (by rw [htok]; rfl) (hw hnil))

theorem Reads.before_gap (h : Reads st cs ps st' (w ++ x)) (hw : w ≠ []) (hx : Gapped x) (hne : x ≠ []) (hy : Gapped y) :
    Reads st (Piece.join ps ++ (w ++ y)) ps st' (w ++ y) := by
  generalize hrest : w ++ x = rest at h
  induction h with
  | refl => exact .refl
  | @move _ _ _ _ _ _ _ ps hmove hreads ih =>
    rw [hreads.eq_append, ← hrest, ← append_assoc] at hmove
    have hmove' := hmove.before_gap (fun hnil => absurd (append_eq_nil_iff.1 hnil).2 hw) hx hne hy
    rw [append_assoc] at hmove'
    rw [Piece.join_cons, append_assoc]
    exact .move hmove' (ih hrest)

theorem Reads.token_before_gap (h : Reads st cs (ps ++ [⟨some t, u⟩]) st' x) (hx : Gapped x) (hne : x ≠ [])
    (hy : Gapped y) : Reads st (Piece.join (ps ++ [⟨some t, u⟩]) ++ y) (ps ++ [⟨some t, u⟩]) st' y := by
  have hu : u ≠ [] := (h.lexeme.2 t rfl).1
  obtain ⟨st₁, mid, hps, hlast⟩ := h.split
  cases hlast with
  | move hmove hrefl =>
    cases hrefl
    have hmove' := Move.before_gap (w := []) hmove (by simp) hx hne hy
    rw [Piece.join_append, append_assoc, Piece.join_cons, Piece.join_nil, append_nil]
    exact (hps.before_gap hu hx hne hy).trans (.move (by simpa using hmove') .refl)

/-! ### Alike states -/

theorem Reached.depth_eq (h : Reached st [] st₁) : st₁.depth = st.depth :=
  h.depth

theorem Reached.tokens_eq (h : Reached st [] st₁) : st₁.tokens.map Token.unplaced = st.tokens.map Token.unplaced :=
  h.tokens

theorem Reached.skip (h : Reached st [] st₁) (v v₁ : List Char) : Reached (st.skip v) [] (st₁.skip v₁) :=
  ⟨h.depth, h.indents, h.lineStart, h.tokens⟩

theorem Reached.atStart (h : Reached st [] st₁) : st₁.AtStart ↔ st.AtStart := by
  rw [State.AtStart, State.AtStart, h.lineStart, h.depth_eq]

theorem Reached.lastKind_eq (h : Reached st [] st₁) : st₁.lastKind = st.lastKind := by
  have hkind : ∀ st : State, st.lastKind = (st.tokens.map Token.unplaced).head?.map Token.kind := fun st => by
    rw [head?_map, Option.map_map]
    rfl
  rw [hkind, h.tokens_eq, hkind]

theorem Reached.layout {width : ℕ} (h : Reached st [] st₁) (hlayout : Lexer.layout st width = .ok st') :
    ∃ st₁', Lexer.layout st₁ width = .ok st₁' ∧ Reached st' [] st₁' := by
  have hindent : st₁.indentation = st.indentation := by rw [State.indentation, h.indents, State.indentation]
  unfold Lexer.layout at hlayout ⊢
  rw [hindent]
  split at hlayout
  · rename_i hw
    cases hlayout
    rw [if_pos hw]
    exact ⟨_, rfl, ⟨h.depth, congrArg (width :: ·) h.indents, rfl, congrArg (indent :: ·) h.tokens_eq⟩⟩
  · rename_i hw
    rw [closeBlocks_eq] at hlayout ⊢
    rw [if_neg hw, h.indents]
    dsimp only at hlayout ⊢
    split at hlayout
    · rename_i hw
      cases hlayout
      rw [if_pos hw]
      exact ⟨_, rfl, ⟨h.depth, rfl, rfl, by simpa [Token.unplaced] using h.tokens_eq⟩⟩
    · cases hlayout

theorem Reached.endLine (h : Reached st [] st₁) : Reached (endLine st) [] (endLine st₁) := by
  unfold Lexer.endLine
  rw [h.depth_eq, h.lastKind_eq]
  split
  · cases st.lastKind with
    | none => exact ⟨h.depth, h.indents, rfl, h.tokens⟩
    | some k =>
      cases k with
      | newline | indent | dedent => exact ⟨h.depth, h.indents, rfl, h.tokens⟩
      | name | number | string | op | eof => exact ⟨h.depth, h.indents, rfl, congrArg (Lexer.newline :: ·) h.tokens_eq⟩
  · exact h

theorem Reached.finish (h : Reached st [] st₁) : (finish st₁).map Token.unplaced = (finish st).map Token.unplaced := by
  unfold Lexer.finish
  rw [h.lastKind_eq, h.indents]
  simp only [map_append, map_reverse, h.tokens_eq]
  cases st.lastKind with
  | none => simp [Token.unplaced]
  | some k => cases k <;> simp [Token.unplaced]

/-- A move that is made in one state is made in every state that is like it but for positions. -/
theorem Move.alike (h : Move st tok u st' rest) (hst : Reached st [] st₁) :
    ∃ tok' st₁', Move st₁ tok' u st₁' rest ∧ Reached st' [] st₁' := by
  cases h with
  | filler hstart hf hnl => exact ⟨_, _, .filler (hst.atStart.2 hstart) hf hnl, hst.skip _ _⟩
  | layout hstart hblanks hc hlayout =>
    obtain ⟨st₁', hlayout', hst'⟩ := (hst.skip u u).layout hlayout
    exact ⟨_, _, .layout (hst.atStart.2 hstart) hblanks hc hlayout', hst'⟩
  | line hstart => exact ⟨_, _, .line (mt hst.atStart.1 hstart), hst.endLine.skip _ _⟩
  | @step c u _ tok hstart hstep =>
    refine ⟨_, _, .step (mt hst.atStart.1 hstart) hstep, ?_⟩
    cases tok with
    | none => exact ⟨hst.depth, hst.indents, hst.lineStart, hst.tokens⟩
    | some t =>
      exact ⟨congrArg (depthStep · t) hst.depth_eq, hst.indents, hst.lineStart, congrArg (t.unplaced :: ·) hst.tokens_eq⟩

theorem Reads.alike (h : Reads st cs ps st' rest) (hst : Reached st [] st₁) :
    ∃ qs st₁', Reads st₁ cs qs st₁' rest ∧ Reached st' [] st₁' := by
  induction h generalizing st₁ with
  | refl => exact ⟨[], st₁, .refl, hst⟩
  | move hmove _ ih =>
    obtain ⟨tok, st₂, hmove', hst₂⟩ := hmove.alike hst
    obtain ⟨qs, st', hreads, hst'⟩ := ih hst₂
    exact ⟨_, st', .move hmove' hreads, hst'⟩

/-! ### Gaps between tokens -/

theorem IsGap.append {v : List Char} (hu : IsGap u (v ++ x)) (hv : IsGap v x) : IsGap (u ++ v) x := by
  generalize hx : v ++ x = w at hu
  induction hu with
  | nil => exact hv
  | blank hc _ ih => exact .blank hc (ih hx)
  | line _ ih => exact .line (ih hx)
  | joined _ ih => exact .joined (ih hx)
  | comment htext hend _ ih =>
    rw [cons_append, append_assoc]
    refine .comment htext ?_ (ih hx)
    rwa [append_assoc, hx]

theorem Move.skip_eq (h : Move st none u st' rest) (hdepth : st.depth ≠ 0) : st' = st.skip u := by
  generalize htok : (none : Option Token) = tok at h
  cases h with
  | filler hst => exact absurd hst.2 hdepth
  | layout hst => exact absurd hst.2 hdepth
  | line => rw [endLine, if_neg hdepth]
  | step _ _ =>
    rw [Option.map_eq_none_iff.1 htok.symm]
    rfl

theorem Reads.isGap (h : Reads st cs ps st' rest) (hdepth : st.depth ≠ 0) (hps : ∀ p ∈ ps, p.token = none) :
    IsGap (Piece.join ps) rest ∧ st' = st.skip (Piece.join ps) := by
  induction h with
  | refl => exact ⟨.nil, rfl⟩
  | @move _ _ _ tok _ _ _ _ hmove hreads ih =>
    obtain ⟨rfl, hrest⟩ := forall_mem_cons.1 hps
    obtain rfl := hmove.skip_eq hdepth
    obtain ⟨hgap, rfl⟩ := ih hdepth hrest
    have hlexeme := hmove.lexeme.1
    rw [hreads.eq_append] at hlexeme
    rw [Piece.join_cons]
    exact ⟨hlexeme.append hgap, by simp [State.skip, Position.afterAll_append]⟩

theorem depthAfter_filter_isText (d : ℕ) (ts : List Token) : depthAfter d (ts.filter isText) = depthAfter d ts := by
  rw [depthAfter, foldl_filter]
  refine foldl_ext _ _ _ fun d t _ => ?_
  split
  · rfl
  · rename_i ht
    have hop : t.kind ≠ .op := fun hop => ht (by simp [isText, hop])
    simp [depthStep, Token.isOp, hop]

/-- A text that is cut at a gap inside brackets: the front ends with a token, and some bracket is open there. -/
structure Gaps (ps front gap back : List Piece) : Prop where
  cut : ps = front ++ (gap ++ back)
  last : ∃ t u, front.getLast? = some ⟨some t, u⟩
  depth : 0 < depthAfter 0 (front.filterMap Piece.token)
  between : ∀ p ∈ gap, p.token = none
  ne_nil : Piece.join gap ≠ []

/-- **Inside brackets one gap is like another.** A text that has tokens is cut so that every gap inside brackets may be
replaced by any other one: the new text has tokens, too, and they are the same but for their positions. -/
theorem tokenize_gap_in_brackets (h : tokenize source = .ok ts) : ∃ ps, Cuts (Source.normalize source.toList) ts ps ∧
    ∀ front gap back, Gaps ps front gap back → ∀ gap' (source' : String), IsGap gap' (Piece.join back) → gap' ≠ [] →
      Source.normalize source'.toList = Piece.join front ++ (gap' ++ Piece.join back) →
      ∃ ts', tokenize source' = .ok ts' ∧ ts'.map Token.unplaced = ts.map Token.unplaced := by
  obtain ⟨ps, st', hreads, rfl⟩ := reads_of_tokenize h
  refine ⟨ps, hreads.cuts, fun front gap back hgaps gap' source' hgap' hne' hsource' => ?_⟩
  obtain ⟨rfl, ⟨t, u, hlast⟩, hdepth, hnone, hne⟩ := hgaps
  obtain ⟨st, mid, hfront, hmid⟩ := hreads.split
  obtain ⟨st₁, x, hgap, hback⟩ := hmid.split
  obtain rfl : x = Piece.join back := by simpa using hback.eq_append
  rw [hgap.eq_append] at hfront
  have hopen : st.depth ≠ 0 := by
    rw [← (hfront.built .nil).depth st.depth rfl, ← depthAfter_filter_isText, hfront.text]
    exact hdepth.ne'
  obtain ⟨hisGap, rfl⟩ := hgap.isGap hopen hnone
  -- up to the gap both texts are read alike
  obtain ⟨qs, rfl⟩ := List.getLast?_eq_some_iff.1 hlast
  have hfront' : Reads {} (Source.normalize source'.toList) (qs ++ [⟨some t, u⟩]) st (gap' ++ Piece.join back) := by
    rw [hsource']
    exact hfront.token_before_gap (hisGap.gapped hne) (by simp [hne]) (hgap'.gapped hne')
  -- and so they are after the gap
  obtain ⟨gs, hgs⟩ := hgap'.reads hopen
  have hskip : Reached (st.skip (Piece.join gap)) [] (st.skip gap') := ⟨rfl, rfl, rfl, rfl⟩
  obtain ⟨bs, st₂, hbs, hst⟩ := hback.alike hskip
  exact ⟨finish st₂, tokenize_of_reads ((hfront'.trans hgs).trans hbs), hst.finish⟩

/-- A line end becomes a comment, a tab and a joined line. -/
theorem tokenize_gap_in_brackets_sample : ∃ ts ts', tokenize "(\n)" = .ok ts ∧ tokenize "( # a\n\t\\\n)" = .ok ts' ∧
    ts'.map Token.unplaced = ts.map Token.unplaced := by
  have h : tokenize "(\n)" = .ok [⟨.op, "(", ⟨1, 0⟩⟩, ⟨.op, ")", ⟨2, 0⟩⟩, ⟨.newline, "", ⟨2, 1⟩⟩, ⟨.eof, "", ⟨2, 1⟩⟩] := by
    decide +kernel
  obtain ⟨ps, hcuts, hgaps⟩ := tokenize_gap_in_brackets h
  obtain ⟨a, ⟨_, u⟩, back, rfl, ha, rfl, hback⟩ := List.filterMap_eq_cons_iff.1 hcuts.tokens
  obtain ⟨gap, ⟨_, v⟩, b, rfl, hgap, rfl, -⟩ := List.filterMap_eq_cons_iff.1 hback
  have hu : u = ['('] := (hcuts.spans _ _ _ _ rfl).2.1
  have hv : v = [')'] := (hcuts.spans _ _ v b (List.append_assoc a (_ :: gap) _).symm).2.1
  subst hu hv
  obtain ⟨ha', hgap', hb⟩ : Piece.join a = [] ∧ Piece.join gap = ['\n'] ∧ Piece.join b = [] := by
    have hjoin : Piece.join a ++ '(' :: (Piece.join gap ++ ')' :: Piece.join b) = ['(', '\n', ')'] := by
      simpa [Source.normalize] using hcuts.join
    simpa [List.append_eq_cons_iff, List.cons_eq_append_iff] using hjoin
  have hnew : IsGap " # a\n\t\\\n".toList [')'] :=
    .blank rfl (@IsGap.comment [' ', 'a'] _ _ (by simp) (fun c hc => (Option.some.inj hc).symm)
      (.line (.blank rfl (.joined .nil))))
  obtain ⟨ts', hts', heq⟩ := hgaps (a ++ [⟨some ⟨.op, "(", ⟨1, 0⟩⟩, ['(']⟩]) gap (⟨some ⟨.op, ")", ⟨2, 0⟩⟩, [')']⟩ :: b)
    ⟨by simp, ⟨_, _, List.getLast?_concat⟩, by rw [List.filterMap_append, List.filterMap_eq_nil_iff.2 ha]; decide, hgap,
      by simp [hgap']⟩ _ "( # a\n\t\\\n)" (by simpa [hb] using hnew) (by simp) (by simp [ha', hb]; decide +kernel)
  exact ⟨_, ts', h, hts', heq⟩

end Lexer

end OpGraph
