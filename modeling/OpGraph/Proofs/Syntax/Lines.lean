import OpGraph.Proofs.Syntax.Moves

/-!
The tokens of a text that is laid out in lines. Every line of a script has a width, that of its leading blanks, and the
tokens of its text; `Lays` says which tokens a sequence of such lines gives, with the blocks that its widths open and
close, and the lexer is shown to give just these. Lines that hold only blanks and a comment may stand anywhere.
-/

namespace OpGraph.Lexer

open List
open Token (unplaced)
open Syntax.Parser (isText depthAfter)

variable {ps : List (List Char)} {cs text : List Char} {ws : List Nat} {qs : List Piece} {ts us : List Token}
variable {st : State}

/-! ### Lines and their tokens -/

def newline : Token :=
  ⟨.newline, "", default⟩

def indent : Token :=
  ⟨.indent, "", default⟩

def dedent : Token :=
  ⟨.dedent, "", default⟩

def endOfInput : Token :=
  ⟨.eof, "", default⟩

/-- A text that the lexer reads as some tokens at the start of a line, with no bracket left open. -/
structure LineOf (text : List Char) (ts : List Token) : Prop where
  start : ∃ c rest, text = c :: rest ∧ startsToken c = true
  tokens : ts ≠ []
  kinds : ∀ t ∈ ts, isText t = true
  depth : depthAfter 0 ts = 0
  scans : ∀ x, LineEnd x → Scans (text ++ x) ts x

/-- Lines with their widths and tokens, and the text of each, with fillers between them. -/
inductive Spread : List (Nat × List Token) → List (List Char) → Prop
  | nil : Spread [] []
  | filler {ls : List (Nat × List Token)} {f : List Char} {ps : List (List Char)} :
    IsFiller f → Spread ls ps → Spread ls (f :: ps)
  | line {ts : List Token} {blanks text : List Char} {ls : List (Nat × List Token)} {ps : List (List Char)} :
    (∀ b ∈ blanks, isBlank b = true) → LineOf text ts → Spread ls ps →
    Spread ((blankWidth blanks, ts) :: ls) ((blanks ++ text) :: ps)

/-- The tokens that lines give when some blocks are open: the widths of these blocks, the innermost first, the lines, and
the tokens up to the end of the input. -/
inductive Lays : List Nat → List (Nat × List Token) → List Token → Prop
  | done {ws : List Nat} : Lays ws [] (ws.map (fun _ => dedent) ++ [endOfInput])
  | same {ws : List Nat} {w : Nat} {ts us : List Token} {ls : List (Nat × List Token)} :
    ws.headD 0 = w → Lays ws ls us → Lays ws ((w, ts) :: ls) (ts ++ newline :: us)
  | opens {ws : List Nat} {w : Nat} {ts us : List Token} {ls : List (Nat × List Token)} :
    ws.headD 0 < w → Lays (w :: ws) ls us → Lays ws ((w, ts) :: ls) (indent :: ts ++ newline :: us)
  | closes {ws : List Nat} {v w : Nat} {ts us : List Token} {ls : List (Nat × List Token)} :
    w < v → w ≤ ws.headD 0 → Lays ws ((w, ts) :: ls) us → Lays (v :: ws) ((w, ts) :: ls) (dedent :: us)

theorem eq_of_lays_nil (h : Lays ws [] us) : us = ws.map (fun _ => dedent) ++ [endOfInput] := by
  cases h
  rfl

/-! ### The layout of one line -/

section

variable {st' : State} {w width : Nat} {ls : List (Nat × List Token)}

theorem layout_same (h : st.indentation = width) : layout st width = .ok { st with lineStart := false } := by
  have hclose : closeBlocks width st.pos st.indents st.tokens = (st.indents, st.tokens) := by
    cases hi : st.indents with
    | nil => rfl
    | cons w ws => rw [closeBlocks, if_neg (by simp [State.indentation, hi] at h; omega)]
  unfold layout
  rw [if_neg (by omega), hclose]
  exact if_pos h.symm

theorem layout_open (h : st.indentation < width) : layout st width =
    .ok { (st.push .indent "" ⟨st.pos.line, width⟩) with indents := width :: st.indents, lineStart := false } := by
  rw [layout, if_pos h]

theorem layout_close {w : Nat} (hst : st.indents = w :: ws) (h : width < w) (hws : width ≤ ws.headD 0) :
    layout st width =
      layout { st with indents := ws, tokens := ⟨.dedent, "", ⟨st.pos.line, width⟩⟩ :: st.tokens } width := by
  have hopen : ¬ st.indentation < width := by
    rw [State.indentation, hst]
    exact h.le.not_gt
  have hopen' : ¬ ({ st with indents := ws, tokens := ⟨.dedent, "", ⟨st.pos.line, width⟩⟩ :: st.tokens }
      : State).indentation < width := hws.not_gt
  unfold layout
  rw [if_neg hopen, if_neg hopen', hst, closeBlocks, if_pos h]

/-- A state that differs from another one by some more tokens only, and its position and open blocks. -/
structure Extends (st : State) (ts : List Token) (st' : State) : Prop where
  depth : st'.depth = st.depth
  tokens : st'.tokens.reverse.map Token.unplaced = st.tokens.reverse.map Token.unplaced ++ ts.map Token.unplaced

theorem layout_of_lays (h : Lays st.indents ((w, ts) :: ls) us) : ∃ st' front us', layout st w = .ok st' ∧
    Extends st front st' ∧ us = front ++ (ts ++ newline :: us') ∧ Lays st'.indents ls us' := by
  generalize hws : st.indents = ws at h
  generalize hls : (w, ts) :: ls = ls₁ at h
  induction h generalizing st with
  | done => cases hls
  | same hw hrest =>
    obtain ⟨hwt, rfl⟩ := List.cons.inj hls
    cases hwt
    exact ⟨_, [], _, layout_same (by rw [State.indentation, hws, hw]), ⟨rfl, by simp⟩, rfl, hws ▸ hrest⟩
  | opens hw hrest =>
    obtain ⟨hwt, rfl⟩ := List.cons.inj hls
    cases hwt
    refine ⟨_, [indent], _, layout_open (by rw [State.indentation, hws]; exact hw), ⟨rfl, ?_⟩, rfl, hws ▸ hrest⟩
    simp [State.push, unplaced, indent]
  | @closes ws _ _ _ _ _ hvw hw _ ih =>
    obtain ⟨hwt, rfl⟩ := List.cons.inj hls
    cases hwt
    let closed : State := { st with indents := ws, tokens := ⟨.dedent, "", ⟨st.pos.line, w⟩⟩ :: st.tokens }
    obtain ⟨st', front, us', hlayout, hext, hus, hrest⟩ := ih (show closed.indents = ws from rfl) rfl
    refine ⟨st', dedent :: front, us', by rw [layout_close hws hvw hw, hlayout], ⟨hext.depth, ?_⟩, by rw [hus]; rfl,
      hrest⟩
    rw [hext.tokens]
    simp [closed, unplaced, dedent]

/-! ### The lexer on lines -/

/-- A state at the start of a line. -/
structure AtLine (st : State) : Prop where
  start : st.AtStart
  last : st.lastKind = none ∨ st.lastKind = some .newline

def joined (ps : List (List Char)) : List Char :=
  ['\n'].intercalate ps

/-- What follows a line: the end of the text, or a line end and more lines. -/
def following : List (List Char) → List Char
  | [] => []
  | p :: ps => '\n' :: joined (p :: ps)

theorem joined_cons (p : List Char) (ps : List (List Char)) : joined (p :: ps) = p ++ following ps := by
  cases ps with
  | nil | cons q ps => simp [joined, following, List.intercalate]

theorem lineEnd_following (ps : List (List Char)) : LineEnd (following ps) := by
  cases ps <;> simp [LineEnd, following]

theorem Reached.tokens_reverse (h : Reached st ts st') : st'.tokens.reverse.map unplaced =
    st.tokens.reverse.map unplaced ++ ts.map unplaced := by
  rw [map_reverse, h.tokens, reverse_append, reverse_reverse, map_reverse]

theorem Reached.exists_head (h : Reached st ts st') (hts : ts ≠ []) (hkinds : ∀ t ∈ ts, isText t = true) :
    ∃ t, st'.tokens.head? = some t ∧ isText t = true := by
  obtain ⟨us, t, rfl⟩ := (eq_nil_or_concat' ts).resolve_left hts
  have htokens := h.tokens
  rw [map_append, reverse_append] at htokens
  cases hcases : st'.tokens with
  | nil => simp [hcases] at htokens
  | cons v vs =>
    rw [hcases] at htokens
    have hv : v.unplaced = t.unplaced := (List.cons.inj htokens).1
    refine ⟨v, rfl, ?_⟩
    have := hkinds t (by simp)
    rwa [isText, ← Token.kind_eq_of_unplaced hv] at this

theorem Reached.lastKind (h : Reached st ts st') (hts : ts ≠ []) (hkinds : ∀ t ∈ ts, isText t = true) :
    ∃ k, st'.lastKind = some k ∧ k ≠ .newline ∧ k ≠ .indent ∧ k ≠ .dedent := by
  obtain ⟨t, ht, htext⟩ := h.exists_head hts hkinds
  refine ⟨t.kind, by rw [State.lastKind, ht]; rfl, ?_, ?_, ?_⟩ <;>
  · intro hk
    simp [isText, hk] at htext

theorem endLine_of_reached (h : Reached st ts st') (hts : ts ≠ []) (hkinds : ∀ t ∈ ts, isText t = true)
    (hdepth : st'.depth = 0) : AtLine (endLine st') ∧ Extends st' [newline] (endLine st') ∧
      (endLine st').indents = st'.indents := by
  obtain ⟨k, hk, h1, h2, h3⟩ := h.lastKind hts hkinds
  have hend : endLine st' = { (st'.push .newline "" st'.pos) with lineStart := true } := by
    unfold endLine
    rw [if_pos hdepth, hk]
    cases k <;> simp_all
  rw [hend]
  refine ⟨⟨⟨rfl, hdepth⟩, .inr rfl⟩, ⟨rfl, ?_⟩, rfl⟩
  simp [State.push, unplaced, newline]

theorem finish_of_reached (h : Reached st ts st') (hts : ts ≠ []) (hkinds : ∀ t ∈ ts, isText t = true) :
    (finish st').map unplaced = st'.tokens.reverse.map unplaced ++
      newline :: (st'.indents.map (fun _ => dedent) ++ [endOfInput]) := by
  obtain ⟨k, hk, h1, h2, h3⟩ := h.lastKind hts hkinds
  unfold finish
  rw [hk]
  cases k <;> simp_all [unplaced, newline, dedent, endOfInput]

theorem finish_of_atLine (h : AtLine st) : (finish st).map unplaced = st.tokens.reverse.map unplaced ++
    (st.indents.map (fun _ => dedent) ++ [endOfInput]) := by
  unfold finish
  rcases h.last with hk | hk <;> rw [hk] <;> simp [unplaced, dedent, endOfInput]

theorem Scans.reads {rest : List Char} (h : Scans cs ts rest) (hst : st.lineStart = false) :
    ∃ qs st', Reads st cs qs st' rest ∧ Reached st ts st' := by
  induction h generalizing st with
  | refl => exact ⟨[], st, .refl, ⟨rfl, rfl, rfl, rfl⟩⟩
  | @step c _ _ _ tok _ hstep _ ih =>
    obtain ⟨u, rfl, hlexeme, hadvance⟩ := hstep
    have hafter := reached_after st tok (st.pos.afterAll (c :: u))
    obtain ⟨qs, st', hreads, hreached⟩ := ih (hafter.lineStart.trans hst)
    exact ⟨_, st', .move (.step (State.not_atStart hst) ⟨u, rfl, hlexeme, hadvance⟩) hreads, hafter.trans hreached⟩

/-- **The lexer gives the tokens of the lines.** -/
theorem reads_lines (hps : Spread ls ps) (hst : AtLine st) (hlays : Lays st.indents ls us) :
    ∃ qs st', Reads st (joined ps) qs st' [] ∧
      (finish st').map unplaced = st.tokens.reverse.map unplaced ++ us.map unplaced := by
  induction hps generalizing st us with
  | nil =>
    refine ⟨[], st, .refl, ?_⟩
    rw [finish_of_atLine hst, eq_of_lays_nil hlays]
    simp [unplaced, dedent, endOfInput]
  | @filler ls f ps hf hps ih =>
    obtain ⟨nl, hnl, hjoined⟩ : ∃ nl, (nl = ['\n'] ∨ nl = [] ∧ joined ps = []) ∧ joined (f :: ps) = f ++ nl ++ joined ps := by
      rw [joined_cons]
      cases ps with
      | nil => exact ⟨[], .inr ⟨rfl, rfl⟩, by simp [following, joined, List.intercalate]⟩
      | cons p ps => exact ⟨['\n'], .inl rfl, by simp [following]⟩
    obtain ⟨qs, st', hreads, hfinish⟩ := ih (show AtLine (st.skip (f ++ nl)) from ⟨hst.start, hst.last⟩) hlays
    rw [hjoined]
    exact ⟨_, st', .move (.filler hst.start hf hnl) hreads, hfinish⟩
  | @line ts blanks text ls ps hblanks hline hps ih =>
    obtain ⟨c, rest, rfl, hc⟩ := hline.start
    have hskip : Lays (st.skip blanks).indents ((blankWidth blanks, ts) :: ls) us := hlays
    obtain ⟨st₁, front, us', hlayout, hext, rfl, hrest⟩ := layout_of_lays hskip
    obtain ⟨qs, st₂, hreads, hreached⟩ := (hline.scans _ (lineEnd_following ps)).reads (lineStart_of_layout hlayout)
    have hline' : Reads st (joined ((blanks ++ c :: rest) :: ps)) (⟨none, blanks⟩ :: qs) st₂ (following ps) := by
      rw [joined_cons, append_assoc]
      exact .move (.layout hst.start hblanks hc hlayout) hreads
    have hdepth : st₂.depth = 0 := by
      rw [hreached.depth, hext.depth]
      exact hst.start.2 ▸ hline.depth
    have htokens : st₂.tokens.reverse.map unplaced =
        st.tokens.reverse.map unplaced ++ (front ++ ts).map unplaced := by
      rw [hreached.tokens_reverse, hext.tokens, map_append, append_assoc]
      rfl
    cases ps with
    | nil =>
      cases hps
      refine ⟨_, st₂, hline', ?_⟩
      rw [finish_of_reached hreached hline.tokens hline.kinds, htokens, hreached.indents, eq_of_lays_nil hrest]
      simp [unplaced, newline, dedent, endOfInput]
    | cons p ps =>
      obtain ⟨hat, hnewline, hindents⟩ := endLine_of_reached hreached hline.tokens hline.kinds hdepth
      have hlays' : Lays ((endLine st₂).skip ['\n']).indents ls us' := by
        rwa [State.skip, hindents, hreached.indents]
      obtain ⟨qs', st₃, hreads', hfinish⟩ := ih (show AtLine ((endLine st₂).skip ['\n']) from ⟨hat.start, hat.last⟩) hlays'
      have hinside : ¬ st₂.AtStart := State.not_atStart (hreached.lineStart.trans (lineStart_of_layout hlayout))
      refine ⟨_, st₃, hline'.trans (.move (.line hinside) hreads'), ?_⟩
      rw [hfinish]
      change (endLine st₂).tokens.reverse.map unplaced ++ _ = _
      rw [hnewline.tokens, htokens]
      simp

end

/-! ### Whole texts -/

theorem normalize_of_notMem (h : '\r' ∉ cs) : Source.normalize cs = cs := by
  induction cs with
  | nil => rfl
  | cons c cs ih =>
    simp only [mem_cons, not_or] at h
    have hc : c = '\r' → False := fun hc => h.1 hc.symm
    rw [Source.normalize, ih h.2]
    · exact fun _ hc' _ => hc hc'
    · exact hc

theorem tokenize_of_lays {source : String} {ls : List (Nat × List Token)}
    (hsource : Source.normalize source.toList = joined ps) (hps : Spread ls ps) (hlays : Lays [] ls us) :
    ∃ ts, tokenize source = .ok ts ∧ SameTokens ts us := by
  obtain ⟨qs, st, hreads, hfinish⟩ := reads_lines hps (show AtLine {} from ⟨⟨rfl, rfl⟩, .inl rfl⟩) hlays
  exact ⟨finish st, tokenize_of_reads (hsource ▸ hreads), by simpa using hfinish⟩

/-- The text of a line without its indentation. -/
structure IsLine (text : List Char) : Prop where
  start : ∃ c rest, text = c :: rest ∧ startsToken c = true
  newline : '\n' ∉ text
  carriage : '\r' ∉ text

theorem run_start {c : Char} (hc : startsToken c = true) (n : Nat) (rest : List Char) :
    run (n + 1) {} (c :: rest) = run (n + 1) { lineStart := false } (c :: rest) := by
  have hblanks : ∀ b ∈ ([] : List Char), isBlank b = true := by simp
  refine (run_line hblanks hc rfl rfl n rest).trans ?_
  rw [layout_same (show (State.skip {} []).indentation = blankWidth [] from rfl)]
  rfl

theorem finish_of_start (h : Reached { lineStart := false } ts st) (hts : ts ≠ []) (hkinds : ∀ t ∈ ts, isText t = true) :
    SameTokens (finish st) (ts ++ [newline, endOfInput]) := by
  rw [SameTokens, finish_of_reached h hts hkinds, h.tokens_reverse, h.indents, map_append]
  rfl

theorem tokenize_of_start (hline : ∃ c rest, text = c :: rest ∧ startsToken c = true) (hcarriage : '\r' ∉ text)
    (h : Reads { lineStart := false } text qs st []) : tokenize (String.ofList text) = .ok (finish st) := by
  obtain ⟨c, rest, rfl, hc⟩ := hline
  obtain ⟨m, -, hrun⟩ := h.run le_rfl
  rw [tokenize, String.toList_ofList, normalize_of_notMem hcarriage, length_cons, run_start hc, ← length_cons, hrun, run_nil]
  rfl

theorem scans_of_reads {st' : State} (h : Reads st cs qs st' []) (hst : st.lineStart = false) (hcs : '\n' ∉ cs) :
    ∃ ts, (∀ t ∈ ts, isText t = true) ∧ (∀ c ∈ cs.head?, startsToken c = true → ts ≠ []) ∧
      ∀ x, LineEnd x → Scans (cs ++ x) ts x := by
  generalize hend : [] = stop at h
  induction h with
  | refl => exact ⟨[], by simp, by simp [← hend], fun x _ => hend ▸ .refl⟩
  | @move _ _ _ _ _ rest _ _ hmove _ ih =>
    cases hmove with
    | filler hstart | layout hstart => exact absurd hstart (State.not_atStart hst)
    | line => simp at hcs
    | @step c u _ tok _ hstep =>
      simp only [mem_append, mem_cons, not_or] at hcs
      obtain ⟨ts, hts, -, hscans⟩ := ih ((reached_after _ tok _).lineStart.trans hst) hcs.2 hend
      obtain ⟨tok', htok, hbefore⟩ := Step.before_gap (u := u) (w := rest) (x := []) (by simpa using hstep) gapped_nil
      refine ⟨tok'.toList ++ ts, ?_, ?_, fun x hx => ?_⟩
      · have hstep' := hbefore [] gapped_nil fun _ _ => by simp [LineEnd]
        cases tok' with
        | none => exact hts
        | some t => exact forall_mem_cons.2 ⟨hstep'.isText, hts⟩
      · intro d hd hstarts
        obtain rfl : c = d := by simpa using hd
        cases tok' with
        | some t => simp
        | none =>
          -- what gives no token is a blank, a comment or the end of a line
          obtain rfl : tok = none := by simpa using htok.symm
          obtain ⟨v, hv, hlexeme, -⟩ := hstep
          obtain rfl := append_cancel_right hv
          cases hlexeme with
          | blank hc => simp [startsToken, hc] at hstarts
          | line | comment => simp [startsToken] at hstarts
          | joined => simp at hcs
      · rw [append_assoc]
        exact .step (hbefore x hx.gapped fun _ _ => hx) (hscans x hx)

/-- A line that can be read on its own is read in the same way before any line end. -/
theorem tokens_of_line (hline : IsLine text) (h : tokenize (String.ofList text) = .ok ts) :
    ∃ us, us ≠ [] ∧ (∀ t ∈ us, isText t = true) ∧
      (∀ x, LineEnd x → Scans (text ++ x) us x) ∧
      SameTokens ts (us ++ [newline, endOfInput]) := by
  obtain ⟨c, rest, rfl, hc⟩ := hline.start
  obtain ⟨st, hrun, -⟩ := bind_eq_ok.1 h
  rw [String.toList_ofList, normalize_of_notMem hline.carriage, length_cons, run_start hc] at hrun
  obtain ⟨qs, hreads⟩ := (ends_run (length_cons ▸ le_rfl)).1 st hrun
  obtain ⟨us, hkinds, hne, hscans⟩ := scans_of_reads hreads rfl hline.newline
  have hus : us ≠ [] := hne c rfl hc
  refine ⟨us, hus, hkinds, hscans, ?_⟩
  obtain ⟨qs', st', hreads', hreached⟩ := (hscans [] (by simp [LineEnd])).reads
    (show ({ lineStart := false } : State).lineStart = false from rfl)
  rw [append_nil] at hreads'
  rw [tokenize_of_start hline.start hline.carriage hreads'] at h
  rw [← Except.ok.inj h]
  exact finish_of_start hreached hus hkinds

end OpGraph.Lexer
