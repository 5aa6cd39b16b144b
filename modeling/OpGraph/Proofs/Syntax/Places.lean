import OpGraph.Proofs.Syntax.Moves

/-!
Where tokens and errors are placed. The lexer counts lines and columns as it reads, so that the positions it gives lie in
the text: at most one past the end of an existing line. Two kinds of position are not counted: the column of an indent or
dedent is the width of the indentation, in which a tab is wider than a character, and a string that breaks off in a
backslash is reported one column past the end of the text.
-/

namespace OpGraph

open List
open Lexer (isBlank)
open Position (afterAll afterAll_append)

variable {a cs : List Char} {p : Position}

/-- Width of a text in UTF-16 units. -/
def Text.widthOf (cs : List Char) : ℕ :=
  (cs.map Text.width).sum

@[simp] theorem Text.widthOf_nil : Text.widthOf [] = 0 :=
  rfl

@[simp] theorem Text.widthOf_append (a b : List Char) : Text.widthOf (a ++ b) = Text.widthOf a + Text.widthOf b := by
  simp [Text.widthOf]

@[simp] theorem Text.widthOf_cons (c : Char) (cs : List Char) :
    Text.widthOf (c :: cs) = Text.width c + Text.widthOf cs := by
  simp [Text.widthOf]

namespace Source

/-! ### Lines -/

/-- A position in a text, on one of its lines and at most just after the line. -/
def Inside (cs : List Char) (p : Position) : Prop :=
  1 ≤ p.line ∧ ∃ text, (lines cs)[p.line - 1]? = some text ∧ p.column ≤ Text.widthOf text

/-- The end of the indentation of a line that is indented by tabs, where a tab counts up to eight columns. -/
def TabbedMargin (cs : List Char) (p : Position) : Prop :=
  1 ≤ p.line ∧ ∃ text, (lines cs)[p.line - 1]? = some text ∧ '\t' ∈ text.takeWhile Lexer.isBlank ∧
    p.column = Lexer.blankWidth (text.takeWhile Lexer.isBlank)

/-- Where tokens are placed. -/
def Placed (cs : List Char) (p : Position) : Prop :=
  Inside cs p ∨ TabbedMargin cs p

/-- One column past the end of a text that ends in a backslash. -/
def PastBackslash (cs : List Char) (p : Position) : Prop :=
  ∃ text, (lines cs).getLast? = some text ∧ text.getLast? = some '\\' ∧ p.line = (lines cs).length ∧
    p.column = Text.widthOf text + 1

theorem lines_eq_cons (cs : List Char) : lines cs = (lines cs).headD [] :: (lines cs).tail := by
  cases h : lines cs with
  | nil => exact absurd h (lines_ne_nil cs)
  | cons l ls => rfl

theorem lines_append (a b : List Char) :
    lines (a ++ b) = (lines a).dropLast ++ ((lines a).getLastD [] ++ (lines b).headD []) :: (lines b).tail := by
  induction a with
  | nil => exact lines_eq_cons b
  | cons c a ih =>
    rw [cons_append, lines, lines, ih]
    have ha := lines_eq_cons a
    split
    · rw [ha]
      simp
    · rw [ha]
      cases (lines a).tail <;> simp

theorem line_append (a b : List Char) :
    (lines (a ++ b))[(lines a).length - 1]? = some ((lines a).getLastD [] ++ (lines b).headD []) := by
  rw [lines_append, getElem?_append_right (by simp)]
  simp

theorem getLastD_lines_concat (a : List Char) (c : Char) :
    (lines (a ++ [c])).getLastD [] = if c = '\n' then [] else (lines a).getLastD [] ++ [c] := by
  rw [lines_append, lines]
  split <;> simp [lines]

theorem headD_lines (cs : List Char) : (lines cs).headD [] = cs.takeWhile (· ≠ '\n') := by
  induction cs with
  | nil => rfl
  | cons c cs ih =>
    rw [lines]
    split
    · rename_i h
      simp [h]
    · rename_i h
      rw [lines_eq_cons cs, ih]
      simp [h]

/-- Counting from the start of a text gives the end of its last line. -/
theorem afterAll_start (cs : List Char) :
    afterAll ⟨1, 0⟩ cs = ⟨(lines cs).length, Text.widthOf ((lines cs).getLastD [])⟩ := by
  induction cs using List.reverseRecOn with
  | nil => rfl
  | append_singleton cs c ih =>
    have hpos := length_pos_iff.2 (lines_ne_nil cs)
    have hlength : (lines (cs ++ [c])).length = if c = '\n' then (lines cs).length + 1 else (lines cs).length := by
      rw [lines_append, lines]
      split <;> simp [lines] <;> omega
    rw [afterAll_append, ih, hlength, getLastD_lines_concat]
    by_cases hc : c = '\n'
    · simp [afterAll, Position.after, hc]
    · simp [afterAll, Position.after, hc]

theorem inside_afterAll (a b : List Char) : Inside (a ++ b) (afterAll ⟨1, 0⟩ a) := by
  have := length_pos_iff.2 (lines_ne_nil a)
  rw [afterAll_start]
  exact ⟨this, _, line_append a b, by simp⟩

theorem Inside.lineStart (h : Inside cs p) : Inside cs ⟨p.line, 0⟩ := by
  obtain ⟨hline, text, htext, -⟩ := h
  exact ⟨hline, text, htext, Nat.zero_le _⟩

theorem pastBackslash (hp : p = afterAll ⟨1, 0⟩ a) : PastBackslash (a ++ ['\\']) ⟨p.line, p.column + 2⟩ := by
  have hend := afterAll_start (a ++ ['\\'])
  have hlast := getLastD_lines_concat a '\\'
  rw [afterAll_append, ← hp] at hend
  obtain ⟨hline, hcolumn⟩ := Position.mk.inj hend
  refine ⟨(lines (a ++ ['\\'])).getLastD [], ?_, ?_, ?_, ?_⟩
  · rw [getLastD_eq_getLast?, getLast?_eq_some_getLast (lines_ne_nil _)]
    rfl
  · rw [hlast]
    simp
  · exact hline
  · exact congrArg (· + 1) hcolumn

theorem foldl_spaces {bs : List Char} (h : ∀ b ∈ bs, b = ' ') (w : ℕ) :
    bs.foldl (fun w c => if c = '\t' then (w / 8 + 1) * 8 else w + 1) w = w + Text.widthOf bs := by
  induction bs generalizing w with
  | nil => rfl
  | cons b bs ih =>
    obtain ⟨rfl, hbs⟩ := forall_mem_cons.1 h
    rw [foldl_cons, ih hbs]
    change w + 1 + Text.widthOf bs = w + (1 + Text.widthOf bs)
    omega

/-- A line is indented to a position in the text, unless there are tabs in its indentation. -/
theorem placed_margin {b : List Char} (ha : (lines a).getLastD [] = []) :
    Placed (a ++ b) ⟨(lines a).length, Lexer.blankWidth (b.takeWhile isBlank)⟩ := by
  have hline := line_append a b
  rw [ha, headD_lines, nil_append] at hline
  have hblanks : (b.takeWhile (· ≠ '\n')).takeWhile isBlank = b.takeWhile isBlank := by
    have hblank : ∀ c, (isBlank c = true ∧ decide (c ≠ '\n') = true) ↔ isBlank c = true := by
      intro c
      refine ⟨And.left, fun h => ⟨h, decide_eq_true ?_⟩⟩
      rintro rfl
      exact absurd h (by decide)
    rw [takeWhile_takeWhile]
    simp only [hblank, Bool.decide_eq_true]
  have hpos := length_pos_iff.2 (lines_ne_nil a)
  by_cases htab : '\t' ∈ b.takeWhile isBlank
  · exact .inr ⟨hpos, _, hline, by rwa [hblanks], by rw [hblanks]⟩
  · have hspaces : ∀ c ∈ b.takeWhile isBlank, c = ' ' := by
      intro c hc
      have hblank : isBlank c = true := mem_takeWhile_imp hc
      rcases Bool.or_eq_true_iff.1 hblank with h | h
      · exact of_decide_eq_true h
      · exact absurd (of_decide_eq_true h ▸ hc) htab
    have hwidth : Lexer.blankWidth (b.takeWhile isBlank) = Text.widthOf (b.takeWhile isBlank) := by
      rw [Lexer.blankWidth, foldl_spaces hspaces, Nat.zero_add]
    refine .inl ⟨hpos, _, hline, ?_⟩
    rw [hwidth, ← hblanks]
    conv_rhs => rw [← takeWhile_append_dropWhile (p := isBlank) (l := b.takeWhile _), Text.widthOf_append]
    exact Nat.le_add_right _ _

end Source

namespace Lexer

/-! ### Errors -/

variable {q : Position} {e : Error} {st st' : State} {c : Char} {rest : List Char}

/-- An error that is given while `cs` is read from a position on: it is placed where a part of `cs` ends, or tells of a
string that ends in a backslash. -/
inductive Stops (p : Position) (cs : List Char) : Error → Prop
  | after {f : SyntaxFault} {front rest : List Char} : f ≠ .tooDeep → cs = front ++ rest →
    Stops p cs ⟨.script f, some (p.afterAll front).location⟩
  | backslash {front : List Char} {q : Position} : cs = front ++ ['\\'] → q = p.afterAll front →
    Stops p cs ⟨.script .unterminatedString, some (Position.mk q.line (q.column + 2)).location⟩

theorem Stops.here {f : SyntaxFault} (hf : f ≠ .tooDeep) : Stops p cs ⟨.script f, some p.location⟩ :=
  @Stops.after _ _ _ [] _ hf rfl

theorem Stops.append (front : List Char) (h : Stops (p.afterAll front) cs e) : Stops p (front ++ cs) e := by
  cases h with
  | @after f mid rest hf hcs =>
    rw [← afterAll_append]
    exact .after hf (by rw [hcs, append_assoc])
  | backslash hcs hq =>
    rw [← afterAll_append] at hq
    exact .backslash (by rw [hcs, append_assoc]) hq

theorem stops_of_splitString {quote : Char} {triple : Bool} (h : splitString quote triple p cs = .error e) :
    Stops p cs e := by
  fun_induction splitString quote triple p cs with
  | case1 | case3 =>
    cases h
    exact .here (by simp)
  | case2 => cases h
  | case4 p =>
    cases h
    exact @Stops.backslash _ _ [] _ rfl rfl
  | case5 p e' cs hnl hc ih =>
    have herror : splitString quote triple ((p.after '\\').after e') cs = .error e := by
      cases hr : splitString quote triple ((p.after '\\').after e') cs with
      | error e'' => rw [hr] at h; exact h
      | ok r => rw [hr] at h; cases h
    exact (ih herror).append ['\\', e']
  | case6 p c cs hc hnl hslash ih =>
    have herror : splitString quote triple (p.after c) cs = .error e := by
      cases hr : splitString quote triple (p.after c) cs with
      | error e'' => rw [hr] at h; exact h
      | ok r => rw [hr] at h; cases h
    exact (ih herror).append [c]

theorem stops_of_number (h : number st cs = .error e) : Stops st.pos cs e := by
  have hsplit := (splitNumber_eq_append cs).symm
  unfold number at h
  dsimp only at h
  split at h
  · split at h
    · cases h
      exact .after (by simp) hsplit
    split at h
    · cases h
      exact .after (by simp) hsplit
    · cases h
  · cases h

theorem stops_of_string (h : string st c rest = .error e) : Stops st.pos (c :: rest) e := by
  obtain ⟨body, hbody, hstring⟩ := string_eq c rest
  rw [hstring] at h
  rw [hbody]
  cases hr : splitString c ([c, c].isPrefixOf rest) (st.pos.afterAll (quotes c ([c, c].isPrefixOf rest))) body with
  | error e' =>
    rw [hr] at h
    obtain rfl := Except.error.inj h
    exact (stops_of_splitString hr).append _
  | ok r =>
    rw [hr] at h
    cases h

theorem stops_of_operator (h : operator st c rest = .error e) : Stops st.pos (c :: rest) e := by
  unfold operator at h
  split at h
  · cases h
  split at h
  · cases h
  · cases h
    exact .here (by simp)

theorem stops_of_advance (h : advance st c rest = .error e) : Stops st.pos (c :: rest) e := by
  unfold advance at h
  iterate 5
    split at h
    · cases h
  split at h
  · exact stops_of_number h
  split at h
  · exact stops_of_string h
  · exact stops_of_operator h

/-! ### The layout -/

theorem error_of_layout {width : ℕ} (h : layout st width = .error e) :
    e = ⟨.script .unindent, some st.pos.location⟩ := by
  unfold layout at h
  split at h
  · cases h
  · dsimp only at h
    split at h
    · cases h
    · exact (Except.error.inj h).symm

theorem afterAll_line (p : Position) (h : '\n' ∉ cs) : (p.afterAll cs).line = p.line := by
  induction cs generalizing p with
  | nil => rfl
  | cons c cs ih =>
    rw [mem_cons, not_or] at h
    change ((p.after c).afterAll cs).line = p.line
    rw [ih _ h.2, Position.after, if_neg (Ne.symm h.1)]

/-! ### Reading a text -/

variable {text u : List Char} {tok : Option Token}

/-- A state that is reached in a text, with what is left of it. A line starts where no character of it has been read. -/
structure Situated (text : List Char) (st : State) (rest : List Char) : Prop where
  reads : ∃ front, text = front ++ rest ∧ st.pos = Position.afterAll ⟨1, 0⟩ front ∧
    (st.lineStart = true → st.depth = 0 ∧ (rest = [] ∨ (Source.lines front).getLastD [] = []))
  tokens : ∀ t ∈ st.tokens, Source.Placed text t.pos

theorem situated_start : Situated text {} text :=
  ⟨⟨[], rfl, rfl, fun _ => ⟨rfl, .inr rfl⟩⟩, by simp⟩

theorem Situated.inside (h : Situated text st rest) : Source.Inside text st.pos := by
  obtain ⟨front, rfl, hpos, -⟩ := h.reads
  rw [hpos]
  exact Source.inside_afterAll front rest

theorem Situated.margin {blanks : List Char} (h : Situated text st (blanks ++ c :: rest)) (hst : st.lineStart = true)
    (hblanks : ∀ b ∈ blanks, isBlank b = true) (hc : isBlank c = false) :
    Source.Placed text ⟨(st.skip blanks).pos.line, blankWidth blanks⟩ := by
  obtain ⟨⟨front, rfl, hpos, hstart⟩, -⟩ := h
  have hlast : (Source.lines front).getLastD [] = [] := (hstart hst).2.resolve_left (by simp)
  have hline : (st.skip blanks).pos.line = (Source.lines front).length := by
    rw [State.skip, hpos, afterAll_line, Source.afterAll_start]
    exact fun hmem => absurd (hblanks _ hmem) (by decide)
  have hmargin := Source.placed_margin (b := blanks ++ c :: rest) hlast
  rwa [takeWhile_append_of_pos hblanks, takeWhile_cons_of_neg (by simp [hc]), append_nil,
    ← hline] at hmargin

/-- **One move**, in a text. -/
theorem Situated.move (h : Situated text st (u ++ rest)) (hmove : Move st tok u st' rest) : Situated text st' rest := by
  have hinside := h.inside
  obtain ⟨front, htext, hpos, hstart⟩ := h.reads
  have hreads (hline : st'.lineStart = true → st'.depth = 0 ∧ (rest = [] ∨ ∃ v, u = v ++ ['\n'])) :
      ∃ front, text = front ++ rest ∧ st'.pos = afterAll ⟨1, 0⟩ front ∧
        (st'.lineStart = true → st'.depth = 0 ∧ (rest = [] ∨ (Source.lines front).getLastD [] = [])) := by
    refine ⟨front ++ u, by rw [htext, append_assoc], by rw [hmove.pos, hpos, afterAll_append], fun h => ?_⟩
    refine ⟨(hline h).1, (hline h).2.imp_right ?_⟩
    rintro ⟨v, rfl⟩
    rw [← append_assoc, Source.getLastD_lines_concat, if_pos rfl]
  cases hmove with
  | filler hst _ hnl => exact ⟨hreads fun _ => ⟨hst.2, hnl.symm.imp And.right fun hnl => ⟨_, by rw [hnl]⟩⟩, h.tokens⟩
  | @layout blanks _ c _ hst hblanks hc hlayout =>
    have hc : isBlank c = false := by
      simp only [startsToken, Bool.and_eq_true, Bool.not_eq_true'] at hc
      exact hc.1.1
    have hmargin := h.margin hst.1 hblanks hc
    rcases layout_eq_ok hlayout with rfl | ⟨k, -, rfl⟩
    · exact ⟨hreads (by simp), forall_mem_cons.2 ⟨hmargin, h.tokens⟩⟩
    · refine ⟨hreads (by simp), forall_mem_append.2 ⟨fun t ht => ?_, h.tokens⟩⟩
      exact (mem_replicate.1 ht).2 ▸ hmargin
  | line =>
    have hdepth : (endLine st).lineStart = true → (endLine st).depth = 0 := by
      rcases endLine_eq st with hend | ⟨hdepth, hend | ⟨_, _, -, -, hend⟩⟩ <;> rw [hend]
      · exact fun hline => (hstart hline).1
      · exact fun _ => hdepth
      · exact fun _ => hdepth
    refine ⟨hreads fun hline => ⟨hdepth hline, .inr ⟨[], rfl⟩⟩, fun t ht => ?_⟩
    rcases endLine_eq st with hend | ⟨-, hend | ⟨_, _, -, -, hend⟩⟩ <;> rw [State.skip, hend] at ht
    · exact h.tokens t ht
    · exact h.tokens t ht
    · rcases mem_cons.1 ht with rfl | ht
      · exact .inl hinside
      · exact h.tokens t ht
  | @step c u _ tok hst =>
    have hline : st.lineStart = false := by
      by_contra hline
      rw [Bool.not_eq_false] at hline
      exact hst ⟨hline, (hstart hline).1⟩
    cases tok with
    | none => exact ⟨hreads fun h => by simp [State.after, hline] at h, h.tokens⟩
    | some t =>
      refine ⟨hreads fun h => by simp [State.after, hline] at h, fun v hv => ?_⟩
      rcases mem_cons.1 hv with rfl | hv
      · exact .inl hinside
      · exact h.tokens v hv

theorem Situated.of_reads {ps : List Piece} (hreads : Reads st cs ps st' rest) (h : Situated text st cs) :
    Situated text st' rest := by
  induction hreads with
  | refl => exact h
  | move hmove _ ih => exact ih (h.move hmove)

/-- An error of the lexer: it is placed in the text, or just past a backslash at its end. -/
inductive Refuses (text : List Char) : Error → Prop
  | inside {f : SyntaxFault} {p : Position} : f ≠ .tooDeep → Source.Inside text p →
    Refuses text ⟨.script f, some p.location⟩
  | backslash {p : Position} : Source.PastBackslash text p →
    Refuses text ⟨.script .unterminatedString, some p.location⟩

theorem Situated.refuses (h : Situated text st rest) (hstuck : Stuck st rest e) : Refuses text e := by
  obtain ⟨front, rfl, hpos, -⟩ := h.reads
  cases hstuck with
  | @layout blanks _ _ _ _ _ hlayout =>
    rw [error_of_layout hlayout, State.skip, hpos, ← afterAll_append, ← append_assoc]
    exact .inside (by simp) (Source.inside_afterAll _ _)
  | advance hadvance =>
    have hstop := stops_of_advance hadvance
    rw [hpos] at hstop
    cases hstop with
    | @after f mid rest' hf hrest =>
      rw [← afterAll_append, hrest, ← append_assoc]
      exact .inside hf (Source.inside_afterAll _ _)
    | backslash hrest hq =>
      rw [← afterAll_append] at hq
      rw [hrest, ← append_assoc]
      exact .backslash (Source.pastBackslash hq)

end Lexer

end OpGraph
