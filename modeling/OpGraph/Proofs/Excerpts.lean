import OpGraph.Proofs.Rejection

/-!
What messages show of the text. A message is given the text as it stands, and its lines end at line feeds; the lexer
counts lines after every end of line has become a line feed. The two agree if every carriage return stands before a line
feed: then the line shown is the one that is counted, up to the carriage return at its end.
-/

namespace OpGraph

open List
open Source (lines normalize)

namespace Source

/-- Every carriage return stands before a line feed. -/
def Paired (cs : List Char) : Prop :=
  ∀ i < cs.length, cs[i]? = some '\r' → cs[i + 1]? = some '\n'

theorem Paired.of_cons {c : Char} {cs : List Char} (h : Paired (c :: cs)) : Paired cs :=
  fun i hi => h (i + 1) (Nat.succ_lt_succ hi)

theorem Paired.lines {cs : List Char} (h : Paired cs) :
    Forall₂ (fun raw line => ∃ cr, (cr = [] ∨ cr = ['\r']) ∧ raw = line ++ cr) (lines cs)
      (lines (normalize cs)) := by
  fun_induction normalize cs with
  | case1 cs ih =>
    exact .cons ⟨['\r'], .inr rfl, rfl⟩ (ih h.of_cons.of_cons)
  | case2 cs hcs =>
    have hnext := h 0 (Nat.succ_pos _) rfl
    rw [getElem?_cons_succ, ← head?_eq_getElem?] at hnext
    obtain ⟨rest, rfl⟩ := head?_eq_some_iff.1 hnext
    exact absurd rfl (hcs rest)
  | case3 c cs _ _ ih =>
    have hlines := ih h.of_cons
    rw [Source.lines, Source.lines]
    split
    · exact .cons ⟨[], .inl rfl, rfl⟩ hlines
    · rw [lines_eq_cons cs, lines_eq_cons (normalize cs)] at hlines ⊢
      obtain ⟨⟨cr, hcr, hraw⟩, hrest⟩ := forall₂_cons.1 hlines
      exact .cons ⟨cr, hcr, by rw [hraw, cons_append]⟩ hrest
  | case4 => exact .cons ⟨[], .inl rfl, rfl⟩ .nil

end Source

/-- A line and a caret under one of its columns. -/
def excerpt (line : List Char) (column : ℕ) : String :=
  "\n" ++ String.ofList line ++ "\n" ++ String.ofList (List.replicate column ' ') ++ "^"

variable {source : String} {l : Location}

/-- A location on a line of the text. -/
def Location.On (l : Location) (source : String) : Prop :=
  1 ≤ l.line ∧ l.line ≤ (Source.lines (Source.normalize source.toList)).length

theorem Location.format_eq (hsource : Source.Paired source.toList) (hl : l.On source) : ∃ line cr,
    (lines (normalize source.toList))[l.line - 1]? = some line ∧
    (cr = [] ∨ cr = ['\r'] ∧ '\r' ∈ source.toList) ∧
    l.format (some source) = l.format none ++ excerpt (line ++ cr) l.column := by
  obtain ⟨hpos, hline⟩ := hl
  have hlines := hsource.lines
  have hlt : l.line - 1 < (lines (normalize source.toList)).length := by omega
  have hraw : l.line - 1 < (lines source.toList).length := hlines.length_eq ▸ hlt
  obtain ⟨cr, hcr, hget⟩ := hlines.get hraw hlt
  refine ⟨_, cr, getElem?_eq_getElem hlt, hcr.imp_right fun hcr => ⟨hcr, ?_⟩, ?_⟩
  · by_contra hnone
    simp [Lexer.normalize_of_notMem hnone, hcr] at hget
  · have hshown : Source.line? source l.line = some ((lines source.toList).get ⟨_, hraw⟩) := by
      rw [Source.line?, if_neg (by omega), getElem?_eq_getElem hraw]
      rfl
    simp only [format, Option.bind_some, Option.bind_none, hshown, hget]
    simp [excerpt, String.append_assoc]

namespace Syntax

theorem on_of_placed {p : Position} (h : Source.Placed (normalize source.toList) p) : p.location.On source := by
  rcases h with ⟨hpos, text, htext, -⟩ | ⟨hpos, text, htext, -⟩ <;>
    exact ⟨hpos, by have := (List.getElem?_eq_some_iff.1 htext).1; change p.line ≤ _; omega⟩

theorem on_of_parseScript {e : Error} (h : parseScript source = .error e) (hl : e.location = some l) : l.On source := by
  unfold parseScript at h
  cases hts : tokenize source with
  | error e' =>
    rw [hts] at h
    obtain rfl := Except.error.inj h
    cases refuses_of_tokenize hts with
    | inside _ hp =>
      cases hl
      exact on_of_placed (.inl hp)
    | @backslash p hp =>
      cases hl
      obtain ⟨-, -, -, hline, -⟩ := hp
      have hpos := length_pos_iff.2 (Source.lines_ne_nil (normalize source.toList))
      rw [← hline] at hpos
      exact ⟨hpos, hline.le⟩
  | ok ts =>
    obtain ⟨hended, hplaced⟩ := placed_of_tokenize hts
    rw [hts] at h
    replace h : (Parser.statements (ts.length + 1)).run ts >>= (fun r => pure r.1) = .error e := h
    cases hrun : (Parser.statements (ts.length + 1)).run ts with
    | ok r =>
      rw [hrun] at h
      cases h
    | error e' =>
      rw [hrun] at h
      obtain rfl := Except.error.inj h
      cases Parser.justified_of_statements hended hrun with
      | placed _ ht =>
        cases hl
        exact on_of_placed (hplaced _ ht)
      | number _ _ hvalue =>
        obtain ⟨-, literal, rfl⟩ := misspelt_of_numberValue hvalue
        cases hl

end Syntax

/-- **Messages show the line.** -/
theorem format_shows_line (hsource : Source.Paired source.toList) :
    (∀ e l, Syntax.parseScript source = .error e → e.location = some l → l.On source) ∧
    ∀ l, l.On source → ∃ line cr, (lines (normalize source.toList))[l.line - 1]? = some line ∧
      (cr = [] ∨ cr = ['\r'] ∧ '\r' ∈ source.toList) ∧
      (∀ e : Error, e.location = some l →
        e.format (some source) = e.format none ++ excerpt (line ++ cr) l.column) ∧
      ∀ d : Diagnostic, d.location = some l →
        d.format (some source) = d.format none ++ excerpt (line ++ cr) l.column := by
  refine ⟨fun e l => Syntax.on_of_parseScript, fun l hl => ?_⟩
  obtain ⟨line, cr, hline, hcr, hformat⟩ := Location.format_eq hsource hl
  refine ⟨line, cr, hline, hcr, fun e he => ?_, fun d hd => ?_⟩
  · simp [Error.format, he, hformat, toString, String.append_assoc]
  · simp [Diagnostic.format, hd, hformat, toString, String.append_assoc]

/-- Both kinds of line end, and an error on the second line. -/
def mixedText : String :=
  "x = 1\r\ny = $\n"

theorem format_shows_line_mixedText : Source.Paired mixedText.toList ∧
    ∀ l, l.On mixedText → ∃ line cr, (lines (normalize mixedText.toList))[l.line - 1]? = some line ∧
      (cr = [] ∨ cr = ['\r'] ∧ '\r' ∈ mixedText.toList) ∧
      ∀ e : Error, e.location = some l →
        e.format (some mixedText) = e.format none ++ excerpt (line ++ cr) l.column := by
  have hpaired : Source.Paired mixedText.toList := by
    unfold Source.Paired
    decide +kernel
  refine ⟨hpaired, fun l hl => ?_⟩
  obtain ⟨line, cr, hline, hcr, herror, -⟩ := (format_shows_line hpaired).2 l hl
  exact ⟨line, cr, hline, hcr, herror⟩

/-- The carriage return of a line end is shown as part of the line; and a line that ends in nothing else is not shown. -/
theorem format_carriage_return : tokenize "x = 1\r\ny = $\r\n" = .error ⟨.script (.unexpectedUnit 36), some ⟨2, 4, none⟩⟩ ∧
    Error.format ⟨.script (.unexpectedUnit 36), some ⟨2, 4, none⟩⟩ (some "x = 1\r\ny = $\r\n") =
      "ERROR: Unexpected character '$'.\nat: Line 2\ny = $\r\n    ^" ∧
    tokenize "x = 1\ry = $\r" = .error ⟨.script (.unexpectedUnit 36), some ⟨2, 4, none⟩⟩ ∧
    Error.format ⟨.script (.unexpectedUnit 36), some ⟨2, 4, none⟩⟩ (some "x = 1\ry = $\r") =
      "ERROR: Unexpected character '$'.\nat: Line 2" := by
  decide +kernel

end OpGraph
