import OpGraph.Proofs.Syntax.OneLine

/-!
Scripts written out in indented lines and read back. `Writes` says how statements may be laid out: every block is
indented more than its header, by the same width throughout, and lines that are blank or hold only a comment stand
anywhere. The lines of a block give tokens that depend on its statements and not on the widths that were chosen, and the
parser reads these tokens as the statements, up to positions.
-/

namespace OpGraph

open List
open Token (exists_cons_of_unplaced kind_eq_of_unplaced)
open Syntax Syntax.Parser
open Lexer (newline indent dedent endOfInput IsLine IsFiller LineOf LineEnd Scans Spread Lays)

variable {l ts us : List Token} {t : Token}

/-! ### Writing statements -/

/-- A line that is a script on its own. -/
structure OneLine (text : List Char) (ss : List (Stmt Unit)) : Prop where
  line : IsLine text
  parse : parseScript (String.ofList text) = .ok ss

/-- A line that heads a compound statement, as it does when a least block follows. -/
structure Header (text : List Char) (s : Stmt Unit) : Prop where
  line : IsLine text
  tokens : (tokenize (String.ofList text)).isOk = true
  parse : parseScript (String.ofList (text ++ "\n pass".toList)) = .ok [s]

/-- A line that heads an else block. -/
structure ElseLine (text : List Char) : Prop where
  line : IsLine text
  tokens : (tokenize (String.ofList text)).map (List.map Token.unplaced) =
    .ok [wordToken "else", signToken ":", newline, endOfInput]

/-- Blanks that indent a line by some width. -/
def Indents (w : Nat) (blanks : List Char) : Prop :=
  (∀ b ∈ blanks, Lexer.isBlank b = true) ∧ Lexer.blankWidth blanks = w

/-- Parts of a script: the statements of a block, or what follows the block of a compound statement. -/
inductive Part where
  | block
  | tail (k : Tail)

/-- Lines that a part of a script may be written as, when its statements are indented by some width. -/
inductive Writes : Part → Nat → List (Stmt Unit) → List (List Char) → Prop
  | nil {w : Nat} : Writes .block w [] []
  | filler {part : Part} {w : Nat} {ss : List (Stmt Unit)} {f : List Char} {lines : List (List Char)} :
    IsFiller f → Writes part w ss lines → Writes part w ss (f :: lines)
  | line {w : Nat} {blanks text : List Char} {ss rs : List (Stmt Unit)} {lines : List (List Char)} :
    Indents w blanks → OneLine text ss → Writes .block w rs lines →
    Writes .block w (ss ++ rs) ((blanks ++ text) :: lines)
  | compound {w v : Nat} {blanks text : List Char} {s : Stmt Unit} {body orelse rs : List (Stmt Unit)}
    {inner tail lines : List (List Char)} :
    Indents w blanks → Header text s → w < v → body ≠ [] → Writes .block v body inner →
    Writes (.tail s.tail) w orelse tail → Writes .block w rs lines →
    Writes .block w (s.fill body orelse :: rs) ((blanks ++ text) :: (inner ++ tail ++ lines))
  | closed {k : Tail} {w : Nat} : Writes (.tail k) w [] []
  | otherwise {k : Tail} {w v : Nat} {blanks text : List Char} {body : List (Stmt Unit)} {inner : List (List Char)} :
    k ≠ .closed → Indents w blanks → ElseLine text → w < v → body ≠ [] → Writes .block v body inner →
    Writes (.tail k) w body ((blanks ++ text) :: inner)
  | branch {w v : Nat} {blanks text : List Char} {s : Stmt Unit} {body orelse : List (Stmt Unit)}
    {inner tail : List (List Char)} :
    Indents w blanks → Header ("if".toList ++ text) s → w < v → body ≠ [] → Writes .block v body inner →
    Writes (.tail .branch) w orelse tail →
    Writes (.tail .branch) w [s.fill body orelse] ((blanks ++ ("elif".toList ++ text)) :: (inner ++ tail))

/-! ### Lines of a block -/

/-- The tokens of a line and of the block under it. -/
def withBlock (ts body : List Token) : List Token :=
  ts ++ newline :: indent :: (body ++ [dedent])

/-- Lines that start at a width and give some tokens where that is the width of the open block. -/
structure Fills (w : Nat) (ls : List (Nat × List Token)) (ts : List Token) : Prop where
  width : ∀ l ∈ ls.head?, l.1 = w
  lays : ∀ ⦃ws rest us⦄, ws.headD 0 = w → (∀ l ∈ rest.head?, l.1 ≤ w) → Lays ws rest us →
    Lays ws (ls ++ rest) (ts ++ us)

section

variable {w v : Nat} {ls ls' : List (Nat × List Token)}

theorem Fills.nil (w : Nat) : Fills w [] [] :=
  ⟨by simp, fun _ _ _ _ _ h => h⟩

theorem head?_append_le {rest : List (Nat × List Token)} (h : ∀ l ∈ ls.head?, l.1 = w)
    (hrest : ∀ l ∈ rest.head?, l.1 ≤ w) : ∀ l ∈ (ls ++ rest).head?, l.1 ≤ w := by
  cases ls with
  | nil => exact hrest
  | cons l ls => exact fun l' hl' => (h l' hl').le

theorem Fills.append (h : Fills w ls ts) (h' : Fills w ls' us) : Fills w (ls ++ ls') (ts ++ us) where
  width := by
    cases ls with
    | nil => exact h'.width
    | cons l ls => exact h.width
  lays ws rest vs hws hrest hlays := by
    rw [append_assoc, append_assoc]
    exact h.lays hws (head?_append_le h'.width hrest) (h'.lays hws hrest hlays)

theorem Fills.line (w : Nat) (ts : List Token) : Fills w [(w, ts)] (ts ++ [newline]) where
  width := by simp
  lays ws rest us hws _ hlays := by
    rw [append_assoc]
    exact .same hws hlays

theorem lays_indent {ws : List Nat} (hws : ws.headD 0 < v) (h : Lays (v :: ws) ((v, ts) :: ls) us) :
    Lays ws ((v, ts) :: ls) (indent :: us) := by
  cases h with
  | same _ h => exact .opens hws h
  | opens hv _ => simp at hv
  | closes hv _ _ => exact absurd hv (lt_irrefl v)

theorem lays_dedent {ws : List Nat} (hws : ws.headD 0 = w) (hv : w < v) (hls : ∀ l ∈ ls.head?, l.1 ≤ w)
    (h : Lays ws ls us) : Lays (v :: ws) ls (dedent :: us) := by
  cases ls with
  | nil =>
    rw [Lexer.eq_of_lays_nil h]
    exact .done
  | cons l ls =>
    have hl : l.1 ≤ w := hls l rfl
    exact .closes (hl.trans_lt hv) (hl.trans hws.ge) h

theorem Fills.withBlock (h : Fills v ls us) (hls : ls ≠ []) (hv : w < v) (ts : List Token) :
    Fills w ((w, ts) :: ls) (withBlock ts us) where
  width := by simp
  lays ws rest vs hws hrest hlays := by
    have hinner : Lays (v :: ws) (ls ++ rest) (us ++ dedent :: vs) :=
      h.lays rfl (fun l hl => (hrest l hl).trans hv.le) (lays_dedent hws hv hrest hlays)
    obtain ⟨⟨v', ts'⟩, ls, rfl⟩ := exists_cons_of_ne_nil hls
    obtain rfl : v' = v := h.width _ rfl
    have hline : Lays ws ((w, ts) :: (_ :: ls ++ rest)) (ts ++ newline :: indent :: (us ++ dedent :: vs)) :=
      .same hws (lays_indent (hws.trans_lt hv) hinner)
    simpa [OpGraph.withBlock] using hline

theorem spread_append {ps qs : List (List Char)} (h : Spread ls ps) (h' : Spread ls' qs) :
    Spread (ls ++ ls') (ps ++ qs) := by
  induction h with
  | nil => exact h'
  | filler hf _ ih => exact .filler hf ih
  | line hblanks hline _ ih => exact .line hblanks hline ih

end

/-! ### Compound statements -/

namespace Syntax.Parser

/-- Some tokens, wherever they are placed, are read as what follows the block of a compound statement. -/
def Continues (k : Tail) (ts : List Token) (os : List (Stmt Unit)) : Prop :=
  ∀ ⦃j n : Nat⦄ ⦃us rest : List Token⦄, ts.map Token.unplaced = us.map Token.unplaced → ts.length ≤ j → ts.length ≤ n →
    Follows rest → ∃ os', (elsePart (statement (j + 1)) n k).run (us ++ rest) = .ok (os', rest) ∧
      os'.map Stmt.unplaced = os.map Stmt.unplaced

section

variable {bs os rest : List Token} {ss body orelse : List (Stmt Unit)} {s : Stmt Unit} {k n : Nat}
  {head : Parser (Stmt Unit)}

theorem continues_nil (k : Tail) : Continues k [] [] := fun j n us rest hus _ _ hrest => by
  obtain rfl : us = [] := by simpa using hus.symm
  exact ⟨[], run_elsePart hrest _ n k, rfl⟩

theorem exists_withBlock_of_unplaced (h : SameTokens (withBlock ts bs ++ os) us) :
    ∃ vs t u cs v ds, us = vs ++ t :: u :: (cs ++ v :: ds) ∧ SameTokens ts vs ∧
      t.unplaced = newline.unplaced ∧ u.kind = .indent ∧ SameTokens bs cs ∧ v.kind = .dedent ∧
      SameTokens os ds := by
  have hsplit : withBlock ts bs ++ os = ts ++ newline :: indent :: (bs ++ dedent :: os) := by simp [withBlock]
  rw [hsplit] at h
  obtain ⟨vs, us, rfl, h1, h2⟩ := Token.exists_append_of_unplaced h
  obtain ⟨t, us, rfl, ht, h3⟩ := exists_cons_of_unplaced h2
  obtain ⟨u, us, rfl, hu, h4⟩ := exists_cons_of_unplaced h3
  obtain ⟨cs, us, rfl, h5, h6⟩ := Token.exists_append_of_unplaced h4
  obtain ⟨v, ds, rfl, hv, h7⟩ := exists_cons_of_unplaced h6
  exact ⟨vs, t, u, cs, v, ds, rfl, h1, ht.symm, (kind_eq_of_unplaced hu).symm, h5, (kind_eq_of_unplaced hv).symm, h7⟩

theorem run_blockRest (h : ParsesAll bs body) {u v : Token} (ht : t.kind = .newline) (hu : u.kind = .indent)
    (hv : v.kind = .dedent) (hus : SameTokens bs us) (hk : bs.length ≤ k)
    (hrest : rest ≠ []) :
    ∃ body', (blockRest (statement (k + 1))).run (t :: u :: (us ++ v :: rest)) = .ok (body', rest) ∧
      body'.map Stmt.unplaced = body.map Stmt.unplaced := by
  have haccept : (acceptKind .newline).run (t :: u :: (us ++ v :: rest)) = .ok (true, u :: (us ++ v :: rest)) :=
    run_acceptIf_true (by simp [ht]) (by simp)
  have hindent : (discard (expectKind .indent)).run (u :: (us ++ v :: rest)) = .ok ((), us ++ v :: rest) :=
    run_discard (run_expectIf (by simp [hu]) (by simp))
  have hdedent : (discard (expectKind .dedent)).run (v :: rest) = .ok ((), rest) :=
    run_discard (run_expectIf (by simp [hv]) hrest)
  have hlength : bs.length < (us ++ v :: rest).length := by
    have := congrArg List.length hus
    simp only [length_map] at this
    simp [this]
  obtain ⟨body', hbody, hsame⟩ := run_blockBody h hus hk hlength hv rest
  refine ⟨body', ?_, hsame⟩
  rw [blockRest, run_bind_of_ok haccept, if_pos rfl, run_bind_of_ok hindent, run_remaining_bind, run_bind_of_ok hbody,
    run_bind_of_ok hdedent]
  rfl

/-- **A compound statement** is read from its head, the block under it and what follows the block. -/
theorem run_compound (hhead : Leads head ts s) (hbody : ParsesAll bs body) (helse : Continues s.tail os orelse)
    (hus : SameTokens (withBlock ts bs ++ os) us) (hk : bs.length + os.length ≤ k)
    (hn : os.length ≤ n) (hrest : Follows rest) :
    ∃ s', (compound head (statement (k + 1)) n).run (us ++ rest) = .ok (s', rest) ∧
      s'.unplaced = (s.fill body orelse).unplaced := by
  obtain ⟨vs, t, u, cs, v, ds, rfl, h1, ht, hu, h2, hv, h3⟩ := exists_withBlock_of_unplaced hus
  obtain ⟨s', hlead, hs'⟩ := hhead.run vs t (u :: (cs ++ v :: (ds ++ rest))) h1 ht
  obtain ⟨body', hblock, hbody'⟩ := run_blockRest hbody (kind_eq_of_unplaced ht) hu hv h2
    (show bs.length ≤ k by omega) (show ds ++ rest ≠ [] by simp [hrest.ne_nil])
  obtain ⟨orelse', hmore, horelse'⟩ := helse h3 (show os.length ≤ k by omega) hn hrest
  have htail : s'.tail = s.tail := by rw [← Stmt.tail_unplaced, hs', Stmt.tail_unplaced]
  refine ⟨s'.fill body' orelse', ?_, by rw [Stmt.unplaced_fill, Stmt.unplaced_fill, hs', hbody', horelse']⟩
  have hstate : vs ++ t :: u :: (cs ++ v :: ds) ++ rest = vs ++ t :: u :: (cs ++ v :: (ds ++ rest)) := by simp
  rw [hstate, compound_eq, run_bind_of_ok hlead, run_bind_of_ok hblock, htail, run_bind_of_ok hmore]
  rfl

theorem length_withBlock (ts bs : List Token) : (withBlock ts bs).length = ts.length + bs.length + 3 := by
  simp [withBlock]
  omega

theorem parses_compound (ht : isText t = true) (hword : headOf t = some head) (hhead : Leads head (t :: l) s)
    (hbody : ParsesAll bs body) (helse : Continues s.tail os orelse) :
    Parses (withBlock (t :: l) bs ++ os) [s.fill body orelse] := by
  refine ⟨⟨t, _, rfl, ht, word_of_headOf hword⟩, fun k us rest hus hk hrest => ?_⟩
  have hlength := congrArg List.length hus
  simp only [length_append, length_map, length_withBlock, length_cons] at hk hlength
  obtain _ | j := k
  · omega
  have hword' : (us ++ rest).head?.bind headOf = some head := by
    obtain ⟨u, us, rfl, hu, -⟩ := exists_cons_of_unplaced hus
    exact (headOf_eq_of_unplaced hu).symm.trans hword
  obtain ⟨s', hrun, hs'⟩ := run_compound hhead hbody helse hus (show bs.length + os.length ≤ j by omega)
    (show os.length ≤ (us ++ rest).length - 1 by rw [length_append]; omega) hrest
  refine ⟨[s'], ?_, by simp [hs']⟩
  rw [run_statement_compound hword', run_bind_of_ok hrun]
  rfl

theorem continues_branch (ht : t.unplaced = (wordToken "elif").unplaced) (hhead : Leads condHead (t :: l) s)
    (hbody : ParsesAll bs body) (helse : Continues s.tail os orelse) :
    Continues .branch (withBlock (t :: l) bs ++ os) [s.fill body orelse] := fun j n us rest hus hj hn hrest => by
  simp only [length_append, length_withBlock, length_cons] at hj hn
  obtain _ | m := n
  · omega
  obtain ⟨s', hrun, hs'⟩ := run_compound hhead hbody helse hus (show bs.length + os.length ≤ j by omega)
    (show os.length ≤ m by omega) hrest
  refine ⟨[s'], ?_, by simp [hs']⟩
  obtain ⟨u, us, rfl, hu, -⟩ := exists_cons_of_unplaced hus
  have hword (word : String) : u.isWord word = (wordToken "elif").isWord word :=
    Token.isWord_eq_of_unplaced (hu.symm.trans ht) word
  have helif : u.isWord "elif" = true := hword "elif"
  have hels : u.isWord "else" = false := hword "else"
  rw [elsePart, cons_append, run_checkWord_bind, run_bind_of_ok (p := acceptWord "else") (run_acceptIf_false hels),
    if_pos helif, conditional_eq, ← cons_append, map_eq_pure_bind, run_bind_of_ok hrun]
  rfl

theorem continues_else {k : Tail} (hk : k ≠ .closed)
    (hts : SameTokens ts [wordToken "else", signToken ":"]) (hbody : ParsesAll bs body) :
    Continues k (withBlock ts bs) body := fun j n us rest hus hj _ hrest => by
  rw [← append_nil (withBlock ts bs)] at hus
  obtain ⟨vs, t, u, cs, v, ds, rfl, h1, ht, hu, h2, hv, hnil⟩ := exists_withBlock_of_unplaced hus
  obtain rfl : ds = [] := by simpa using hnil.symm
  obtain ⟨a, vs, rfl, ha, h3⟩ := exists_cons_of_unplaced (hts.symm.trans h1)
  obtain ⟨b, vs, rfl, hb, hnil⟩ := exists_cons_of_unplaced h3
  obtain rfl : vs = [] := by simpa using hnil.symm
  rw [length_withBlock] at hj
  obtain ⟨body', hblock, hbody'⟩ := run_blockRest hbody (kind_eq_of_unplaced ht) hu hv h2
    (show bs.length ≤ j by omega) hrest.ne_nil
  have hels : a.isWord "else" = true := (Token.isWord_eq_of_unplaced ha "else").symm
  have helif : ¬ a.isWord "elif" = true := by
    rw [← Token.isWord_eq_of_unplaced ha]
    decide
  have hcolon : b.isOp ":" = true := (Token.isOp_eq_of_unplaced hb ":").symm
  have hstate : [a, b] ++ t :: u :: (cs ++ [v]) ++ rest = a :: b :: t :: u :: (cs ++ v :: rest) := by simp
  have hexpect : (discard (expectOp ":")).run (b :: t :: u :: (cs ++ v :: rest)) =
      .ok ((), t :: u :: (cs ++ v :: rest)) :=
    run_discard (run_expectIf hcolon (by simp))
  have hrun : (block (statement (j + 1))).run (b :: t :: u :: (cs ++ v :: rest)) = .ok (body', rest) := by
    rw [block_eq, run_bind_of_ok hexpect]
    exact hblock
  refine ⟨body', ?_, hbody'⟩
  rw [hstate]
  cases k with
  | closed => exact absurd rfl hk
  | loop =>
    rw [elsePart, loopElse, run_acceptWord_take hels (by simp)]
    exact hrun
  | branch =>
    rw [elsePart, run_checkWord_bind, run_bind_of_ok (p := acceptWord "else") (run_acceptIf_true hels (by simp)),
      if_neg helif, if_pos rfl]
    exact hrun

end

/-! ### What a line is read as -/

section

variable {ss : List (Stmt Unit)} {s : Stmt Unit} {head : Parser (Stmt Unit)}

theorem Parses.congr (h : Parses ts ss) (hus : SameTokens ts us) : Parses us ss where
  opens := h.exists_cons hus
  run _ _ _ hvs hk hrest :=
    h.run (hus.trans hvs) (by simpa using (congrArg List.length hus).le.trans (by simpa using hk)) hrest

theorem forall_isText_of_unplaced (hus : SameTokens ts us)
    (h : ∀ t ∈ ts, isText t = true) : ∀ u ∈ us, isText u = true := fun u hu => by
  obtain ⟨t, ht, htu⟩ := mem_map.1 (hus ▸ mem_map_of_mem hu : u.unplaced ∈ ts.map Token.unplaced)
  rw [← isText_eq_of_unplaced htu]
  exact h t ht

theorem Leads.congr (h : Leads head ts s) (hus : SameTokens ts us) : Leads head us s where
  tidy := ⟨forall_isText_of_unplaced hus h.tidy.text, fun d => by rw [← depthAfter_eq_of_unplaced hus, h.tidy.depth]⟩
  run vs u rest hvs hu := h.run vs u rest (hus.trans hvs) hu

/-- The first statements of a script whose first token belongs to the text of a line. -/
theorem of_parseScript {source : String} (h : parseScript source = .ok ss) (htokens : tokenize source = .ok (t :: l))
    (ht : isText t = true) : ∃ ss₁ ss₂ s₁ s₂,
      (statement ((t :: l).length + 1)).run (t :: l) = .ok (ss₁, s₁) ∧
      (statements (t :: l).length).run s₁ = .ok (ss₂, s₂) ∧ ss = ss₁ ++ ss₂ := by
  rw [parseScript, htokens] at h
  obtain ⟨⟨script, s₂⟩, hrun, hss⟩ := bind_eq_ok.1 (show ((statements ((t :: l).length + 1)).run (t :: l) >>=
    fun r => pure r.1) = .ok ss from h)
  cases hss
  have heof : ¬ (t.kind == .eof) = true := fun hk => by simp [isText, (beq_iff_eq.1 hk)] at ht
  have hnewline : (t.kind == .newline) = false := by
    by_contra hk
    simp [isText, (beq_iff_eq.1 (Bool.not_eq_false _ ▸ hk))] at ht
  have haccept : (acceptKind .newline).run (t :: l) = .ok (false, t :: l) := run_acceptIf_false hnewline
  rw [statements, run_checkKind_bind, if_neg heof, run_bind_of_ok haccept, if_neg Bool.false_ne_true,
    run_remaining_bind] at hrun
  obtain ⟨ss₁, s₁, hfirst, hrest⟩ := of_bind hrun
  obtain ⟨ss₂, s₃, hmore, hend⟩ := of_bind hrest
  obtain ⟨rfl, rfl⟩ := of_pure hend
  exact ⟨ss₁, ss₂, s₁, s₃, hfirst, hmore, rfl⟩

theorem of_statements_eof {n : Nat} (ht : t.kind = .eof) {s : List Token} (h : (statements n).run [t] = .ok (ss, s)) :
    ss = [] := by
  cases n with
  | zero => cases h
  | succ n =>
    rw [statements, run_checkKind_bind, if_pos (by simp [ht])] at h
    exact (of_pure h).1.symm

theorem fails_statements_indent (n : Nat) (ht : t.kind = .indent) (l : List Token) : Fails (statements n) (t :: l) := by
  cases n with
  | zero => exact fails_fail
  | succ n =>
    refine fails_bind_of_ok rfl ?_
    rw [if_neg (by simp [ht])]
    refine fails_bind_of_ok (run_acceptIf_false (by simp [ht])) ?_
    rw [if_neg Bool.false_ne_true]
    refine fails_bind_of_ok rfl (Fails.bind fun r hr => ?_)
    exact (shape_of_statement hr).2 ht

theorem ended_of_unplaced (h : Ended ts) (hus : SameTokens ts us) : Ended us := by
  induction h generalizing us with
  | last ht =>
    obtain ⟨u, us, rfl, hu, hnil⟩ := exists_cons_of_unplaced hus
    obtain rfl : us = [] := by simpa using hnil.symm
    exact .last ((kind_eq_of_unplaced hu).symm.trans ht)
  | cons _ ih =>
    obtain ⟨u, us, rfl, -, htail⟩ := exists_cons_of_unplaced hus
    exact .cons (ih htail)

theorem follows_of_unplaced (h : Follows ts) (hus : SameTokens ts us) : Follows us := by
  obtain ⟨t, ts, rfl, helse, helif⟩ := h
  obtain ⟨u, us, rfl, hu, -⟩ := exists_cons_of_unplaced hus
  exact ⟨u, us, rfl, by rwa [← Token.isWord_eq_of_unplaced hu], by rwa [← Token.isWord_eq_of_unplaced hu]⟩

/-- The first line of a script: it is read as statements wherever it stands, or it heads a compound statement and the
next line is indented. -/
theorem of_line {source : String} {rest : List Token} (h : parseScript source = .ok ss)
    (htokens : tokenize source = .ok ts) (hts : SameTokens ts (us ++ newline :: rest))
    (hne : us ≠ []) (hkinds : ∀ u ∈ us, isText u = true) (hended : Ended rest) (hfollows : Follows rest) :
    (∃ ss₁ ss₂ n vs s', ss = ss₁ ++ ss₂ ∧ Tidy us ∧ Parses (us ++ [newline]) ss₁ ∧
      SameTokens rest vs ∧ (statements n).run vs = .ok (ss₂, s')) ∨
    ∃ t l head s body orelse ss₂, us = t :: l ∧ headOf t = some head ∧ Leads head us s ∧
      ss = s.fill body orelse :: ss₂ ∧ ∃ u vs, rest = u :: vs ∧ u.kind = .indent := by
  obtain ⟨ws, vs, rfl, hws, hrest⟩ := Token.exists_append_of_unplaced hts.symm
  obtain ⟨nl, vs, rfl, hnl, hvs⟩ := exists_cons_of_unplaced hrest
  obtain ⟨t, l, rfl⟩ := exists_cons_of_ne_nil hne
  obtain ⟨w, ws, rfl, hw, hl⟩ := exists_cons_of_unplaced hws
  have hkinds' := forall_isText_of_unplaced hws hkinds
  obtain ⟨ss₁, ss₂, s₁, s₂, hfirst, hmore, rfl⟩ := of_parseScript h htokens (hkinds' w (by simp))
  rcases of_statement hkinds' hnl.symm (ended_of_unplaced hended hvs) (follows_of_unplaced hfollows hvs) hfirst with
    ⟨rfl, htidy, hparses⟩ | ⟨head, s, body, orelse, hhead, hlead, rfl, u, vs', rfl, hu⟩
  · have halike : SameTokens (w :: ws ++ [nl]) (t :: l ++ [newline]) := by
      simp [SameTokens, hw, hl, hnl]
    refine .inl ⟨ss₁, ss₂, _, s₁, s₂, rfl, ⟨hkinds, fun d => ?_⟩, hparses.congr halike, hvs, hmore⟩
    rw [depthAfter_eq_of_unplaced hws, htidy.depth]
  · refine .inr ⟨t, l, head, s, body, orelse, ss₂, rfl, ?_, hlead.congr hws.symm, rfl, ?_⟩
    · rw [headOf_eq_of_unplaced hw, hhead]
    · obtain ⟨v, rest, rfl, hv, -⟩ := exists_cons_of_unplaced hvs.symm
      exact ⟨v, rest, rfl, (kind_eq_of_unplaced hv).symm.trans hu⟩

end

end Syntax.Parser

section

variable {text : List Char} {ss : List (Stmt Unit)} {s : Stmt Unit}

theorem ended_eof : Ended [endOfInput] :=
  .last rfl

theorem follows_eof : Follows [endOfInput] :=
  follows_of_kind (by decide) []

theorem OneLine.parses (h : OneLine text ss) : ∃ us, LineOf text us ∧ Parses (us ++ [newline]) ss := by
  obtain ⟨ts, htokens, -⟩ := bind_eq_ok.1 h.parse
  obtain ⟨us, hne, hkinds, hscans, hus⟩ := Lexer.tokens_of_line h.line htokens
  rcases of_line h.parse htokens hus hne hkinds ended_eof follows_eof with
    ⟨ss₁, ss₂, n, vs, s', rfl, htidy, hparses, hvs, hmore⟩ | ⟨_, _, _, _, _, _, _, _, _, _, _, u, vs, hrest, hu⟩
  · obtain ⟨v, vs, rfl, hv, hnil⟩ := exists_cons_of_unplaced hvs
    obtain rfl : vs = [] := by simpa using hnil.symm
    obtain rfl := of_statements_eof (kind_eq_of_unplaced hv).symm hmore
    exact ⟨us, ⟨h.line.start, hne, hkinds, htidy.depth 0, hscans⟩, by simpa using hparses⟩
  · obtain ⟨rfl, -⟩ := List.cons.inj hrest
    cases hu

/-! ### Header lines -/

theorem lineOf_pass : LineOf "pass".toList [wordToken "pass"] where
  start := ⟨'p', _, rfl, by decide⟩
  tokens := by simp
  kinds := by decide
  depth := by decide
  scans x hx := by
    have hstep : Lexer.Step 'p' ("ass".toList ++ x) _ _ := Lexer.step_name (by decide) hx.gapped
    exact .step hstep .refl

theorem tokens_of_header (hline : LineOf text us) (hr : '\r' ∉ text) :
    ∃ ts, tokenize (String.ofList (text ++ "\n pass".toList)) = .ok ts ∧ ts.map Token.unplaced =
      (us ++ newline :: [indent, wordToken "pass", newline, dedent, endOfInput]).map Token.unplaced := by
  have hsource : Source.normalize (String.ofList (text ++ "\n pass".toList)).toList =
      Lexer.joined [text, [' '] ++ "pass".toList] := by
    rw [String.toList_ofList, Lexer.normalize_of_notMem]
    · simp [Lexer.joined, List.intercalate]
    · simp [hr]
  have hblanks : ∀ b ∈ ([] : List Char), Lexer.isBlank b = true := by simp
  have hspace : ∀ b ∈ [' '], Lexer.isBlank b = true := by simp [Lexer.isBlank]
  have hspread : Spread [(0, us), (1, [wordToken "pass"])] [text, [' '] ++ "pass".toList] :=
    .line hblanks hline (.line hspace lineOf_pass .nil)
  have hpass : Lays [] [(1, [wordToken "pass"])] [indent, wordToken "pass", newline, dedent, endOfInput] :=
    .opens Nat.one_pos .done
  exact Lexer.tokenize_of_lays hsource hspread (.same rfl hpass)

theorem tokens_of_open (hline : IsLine text) (hkinds : ∀ u ∈ us, isText u = true)
    (hscans : ∀ x, LineEnd x → Scans (text ++ x) us x) (hdepth : depthAfter 0 us ≠ 0) :
    ∃ ts, tokenize (String.ofList (text ++ "\n pass".toList)) = .ok ts ∧ ts.map Token.unplaced =
      (us ++ [wordToken "pass"] ++ newline :: [endOfInput]).map Token.unplaced := by
  have hkinds' := forall_mem_append.2 ⟨hkinds, lineOf_pass.kinds⟩
  have hend : LineEnd "\n pass".toList := by simp [LineEnd]
  have hpass : Scans " pass".toList [wordToken "pass"] [] :=
    .step (Lexer.step_blank (by decide) : Lexer.Step ' ' _ none _) (lineOf_pass.scans [] (by simp [LineEnd]))
  obtain ⟨qs, st, hreads, hreached⟩ := (hscans _ hend).reads
    (show ({ lineStart := false } : Lexer.State).lineStart = false from rfl)
  have hmove : Lexer.Move st none _ _ " pass".toList := .line (Lexer.State.not_atStart hreached.lineStart)
  rw [Lexer.endLine, if_neg (hreached.depth ▸ hdepth)] at hmove
  obtain ⟨qs', st', hreads', hreached'⟩ := hpass.reads (show (st.skip ['\n']).lineStart = false from hreached.lineStart)
  have hall : Lexer.Reached { lineStart := false } (us ++ [wordToken "pass"]) st' :=
    hreached.trans ⟨hreached'.depth, hreached'.indents, hreached'.lineStart, hreached'.tokens⟩
  have hstart : ∃ c rest, text ++ "\n pass".toList = c :: rest ∧ Lexer.startsToken c = true := by
    obtain ⟨c, rest, rfl, hc⟩ := hline.start
    exact ⟨c, _, rfl, hc⟩
  exact ⟨Lexer.finish st', Lexer.tokenize_of_start hstart (by simpa using hline.carriage)
    (hreads.trans (.move hmove hreads')), Lexer.finish_of_start hall (by simp) hkinds'⟩

theorem Header.leads (h : Header text s) : ∃ t l head s₀ body orelse, LineOf text (t :: l) ∧ headOf t = some head ∧
    Leads head (t :: l) s₀ ∧ s = s₀.fill body orelse := by
  obtain ⟨ts, htokens⟩ : ∃ ts, tokenize (String.ofList text) = .ok ts := by
    have hok := h.tokens
    cases htokens : tokenize (String.ofList text) with
    | error e => simp [htokens, Except.isOk, Except.toBool] at hok
    | ok ts => exact ⟨ts, rfl⟩
  obtain ⟨us, hne, hkinds, hscans, -⟩ := Lexer.tokens_of_line h.line htokens
  by_cases hdepth : depthAfter 0 us = 0
  · have hline : LineOf text us := ⟨h.line.start, hne, hkinds, hdepth, hscans⟩
    obtain ⟨ts, htokens, hts⟩ := tokens_of_header hline h.line.carriage
    have hended : Ended ([indent, wordToken "pass", newline, dedent] ++ [endOfInput]) := Ended.of_append ended_eof
    rcases of_line h.parse htokens hts hne hkinds hended (follows_of_kind (by decide) _) with
      ⟨ss₁, ss₂, n, vs, s', -, -, -, hvs, hmore⟩ | ⟨t, l, head, s₀, body, orelse, ss₂, rfl, hhead, hlead, hs, -⟩
    · obtain ⟨v, vs, rfl, hv, -⟩ := exists_cons_of_unplaced hvs
      exact absurd hmore (fails_statements_indent n (kind_eq_of_unplaced hv).symm vs _)
    · exact ⟨t, l, head, s₀, body, orelse, hline, hhead, hlead, (List.cons.inj hs).1⟩
  · -- with a bracket open, the line goes on and the bracket is never closed
    obtain ⟨ts, htokens, hts⟩ := tokens_of_open h.line hkinds hscans hdepth
    have hkinds' := forall_mem_append.2 ⟨hkinds, lineOf_pass.kinds⟩
    rcases of_line h.parse htokens hts (by simp) hkinds' ended_eof follows_eof with
      ⟨_, _, _, _, _, -, htidy, -⟩ | ⟨_, _, _, _, _, _, _, _, _, _, _, u, vs, hrest, hu⟩
    · refine absurd ?_ hdepth
      have hall := htidy.depth 0
      rwa [depthAfter_append] at hall
    · obtain ⟨rfl, -⟩ := List.cons.inj hrest
      cases hu

theorem headOf_if {cs : List Char} {head : Parser (Stmt Unit)}
    (ht : t.unplaced = ⟨.name, String.ofList ('i' :: 'f' :: cs), default⟩) (h : headOf t = some head) :
    cs = [] ∧ head = condHead := by
  have htext : t.text = String.ofList ('i' :: 'f' :: cs) := (Token.mk.inj ht).2.1
  have hword (word : String) (hw : t.isWord word = true) : word.toList = 'i' :: 'f' :: cs := by
    simp only [Token.isWord, Bool.and_eq_true, beq_iff_eq] at hw
    rw [← hw.2, htext, String.toList_ofList]
  unfold headOf at h
  split at h
  · exact absurd (hword _ ‹_›) (by simp)
  split at h
  · have hif : ['i', 'f'] = 'i' :: 'f' :: cs := hword "if" ‹_›
    exact ⟨by simpa using hif.symm, (Option.some.inj h).symm⟩
  split at h
  · exact absurd (hword _ ‹_›) (by simp)
  split at h
  · exact absurd (hword _ ‹_›) (by simp)
  · cases h

theorem leads_branch {u : Token} (ht : t.kind = .name) (hu : u.kind = .name) (h : Leads condHead (t :: l) s) :
    Leads condHead (u :: l) s where
  tidy := by
    have hname {v : Token} (hv : v.kind = .name) : Tidy [v] := tidy_of_kind (.inl hv)
    refine (hname hu).cons ⟨fun v hv => h.tidy.text v (by simp [hv]), fun d => ?_⟩
    have hall := h.tidy.depth d
    rwa [show t :: l = [t] ++ l from rfl, depthAfter_append, (hname ht).depth] at hall
  run vs v rest hvs hv := by
    obtain ⟨w, vs, rfl, -, hl⟩ := exists_cons_of_unplaced hvs
    obtain ⟨s', hrun, hs'⟩ := h.run (t :: vs) v rest (by simp [hl]) hv
    simp only [lead, condHead, bind_assoc, pure_bind] at hrun ⊢
    rw [cons_append, run_bind_of_ok (run_next (by simp))] at hrun ⊢
    obtain ⟨test, s₁, htest, hcolon⟩ := of_bind hrun
    obtain ⟨_, s₂, hcolon, hend⟩ := of_bind hcolon
    obtain ⟨rfl, rfl⟩ := of_pure hend
    refine ⟨.cond (markOf w) test [] [], ?_, by simpa [Stmt.unplaced] using hs'⟩
    rw [run_bind_of_ok htest, run_bind_of_ok hcolon]
    rfl

theorem tail_of_leads (h : Leads condHead ts s) : s.tail = .branch := by
  obtain ⟨s', hrun, hs'⟩ := h.run ts newline [] rfl rfl
  obtain ⟨c, _, hhead, hcolon⟩ := of_bind hrun
  obtain ⟨_, _, -, hend⟩ := of_bind hcolon
  obtain ⟨rfl, -⟩ := of_pure hend
  obtain ⟨start, _, -, htest⟩ := of_bind hhead
  obtain ⟨test, _, -, hend'⟩ := of_bind htest
  obtain ⟨rfl, -⟩ := of_pure hend'
  rw [← Stmt.tail_unplaced, ← hs']
  rfl

theorem Header.branch (h : Header ("if".toList ++ text) s) : ∃ l s₀ body orelse,
    LineOf ("elif".toList ++ text) (wordToken "elif" :: l) ∧ Leads condHead (wordToken "elif" :: l) s₀ ∧
      s = s₀.fill body orelse := by
  obtain ⟨t, l, head, s₀, body, orelse, hline, hhead, hlead, hs⟩ := h.leads
  have hname (x : List Char) (hx : LineEnd x) :
      t.unplaced = ⟨.name, String.ofList ('i' :: 'f' :: text.takeWhile Lexer.isNamePart), default⟩ ∧
        Scans (text.dropWhile Lexer.isNamePart ++ x) l x :=
    (hline.scans x hx).of_name (by decide) hx.gapped
  have ht := (hname [] (by simp [LineEnd])).1
  obtain ⟨htake, rfl⟩ := headOf_if ht hhead
  have hleads : Leads condHead (wordToken "elif" :: l) s₀ := leads_branch (Token.mk.inj ht).1 rfl hlead
  have hscans (x : List Char) (hx : LineEnd x) : Scans ("elif".toList ++ text ++ x) (wordToken "elif" :: l) x := by
    have hstep : Lexer.Step 'e' ("lif".toList ++ text ++ x)
        (some ⟨.name, String.ofList ('e' :: 'l' :: 'i' :: 'f' :: text.takeWhile Lexer.isNamePart), default⟩)
        (text.dropWhile Lexer.isNamePart ++ x) := Lexer.step_name (by decide) hx.gapped
    rw [htake] at hstep
    exact .step hstep (hname x hx).2
  exact ⟨l, s₀, body, orelse,
    ⟨⟨'e', _, rfl, by decide⟩, by simp, hleads.tidy.text, hleads.tidy.depth 0, hscans⟩, hleads, hs⟩

theorem ElseLine.lineOf (h : ElseLine text) : ∃ us, LineOf text us ∧
    SameTokens us [wordToken "else", signToken ":"] := by
  obtain ⟨ts, htokens, hts⟩ : ∃ ts, tokenize (String.ofList text) = .ok ts ∧
      ts.map Token.unplaced = [wordToken "else", signToken ":", newline, endOfInput] := by
    have hmap := h.tokens
    cases htokens : tokenize (String.ofList text) with
    | error e => simp [htokens, Except.map] at hmap
    | ok ts => exact ⟨ts, rfl, by simpa [htokens, Except.map] using hmap⟩
  obtain ⟨us, hne, hkinds, hscans, hus⟩ := Lexer.tokens_of_line h.line htokens
  have hus : SameTokens us [wordToken "else", signToken ":"] := by
    rw [SameTokens, map_append, hts] at hus
    have hall : us.map Token.unplaced ++ [newline, endOfInput] =
      [wordToken "else", signToken ":"] ++ [newline, endOfInput] := hus.symm
    exact append_cancel_right hall
  refine ⟨us, ⟨h.line.start, hne, hkinds, ?_, hscans⟩, hus⟩
  rw [depthAfter_eq_of_unplaced hus]
  rfl

end

/-! ### Scripts -/

/-- Some tokens are read as a part of a script. -/
def Part.Reads (ts : List Token) (ss : List (Stmt Unit)) : Part → Prop
  | .block => ParsesAll ts ss
  | .tail k => Continues k ts ss

/-- Written lines give tokens that are read as what was written. -/
theorem Writes.reads {part : Part} {w : Nat} {ss : List (Stmt Unit)} {lines : List (List Char)}
    (h : Writes part w ss lines) :
    ∃ ls ts, Spread ls lines ∧ Fills w ls ts ∧ (ss ≠ [] → ls ≠ []) ∧ part.Reads ts ss := by
  induction h with
  | nil => exact ⟨[], [], .nil, .nil _, by simp, .nil⟩
  | filler hf _ ih =>
    obtain ⟨ls, ts, hspread, hfills, hne, hreads⟩ := ih
    exact ⟨ls, ts, .filler hf hspread, hfills, hne, hreads⟩
  | line hblanks htext _ ih =>
    obtain ⟨ls, ts, hspread, hfills, -, hreads⟩ := ih
    obtain ⟨us, hline, hparses⟩ := htext.parses
    obtain ⟨hblanks, rfl⟩ := hblanks
    exact ⟨_ :: ls, _, .line hblanks hline hspread, (Fills.line _ us).append hfills, by simp, .cons hparses hreads⟩
  | compound hblanks htext hv hbody _ _ _ ihbody ihelse ih =>
    obtain ⟨ls₁, ts₁, hspread₁, hfills₁, hne, hreads₁⟩ := ihbody
    obtain ⟨ls₂, ts₂, hspread₂, hfills₂, -, hreads₂⟩ := ihelse
    obtain ⟨ls₃, ts₃, hspread₃, hfills₃, -, hreads₃⟩ := ih
    obtain ⟨t, l, head, s₀, body, orelse, hline, hhead, hlead, rfl⟩ := htext.leads
    obtain ⟨hblanks, rfl⟩ := hblanks
    rw [Stmt.tail_fill] at hreads₂
    rw [Stmt.fill_fill]
    have hparses := parses_compound (hline.kinds t (by simp)) hhead hlead hreads₁ hreads₂
    exact ⟨_, _, .line hblanks hline (spread_append (spread_append hspread₁ hspread₂) hspread₃),
      ((hfills₁.withBlock (hne hbody) hv (t :: l)).append hfills₂).append hfills₃, by simp, .cons hparses hreads₃⟩
  | closed => exact ⟨[], [], .nil, .nil _, by simp, continues_nil _⟩
  | otherwise hk hblanks htext hv hbody _ ihbody =>
    obtain ⟨ls, ts, hspread, hfills, hne, hreads⟩ := ihbody
    obtain ⟨us, hline, hus⟩ := htext.lineOf
    obtain ⟨hblanks, rfl⟩ := hblanks
    exact ⟨_, _, .line hblanks hline hspread, hfills.withBlock (hne hbody) hv us, by simp, continues_else hk hus hreads⟩
  | branch hblanks htext hv hbody _ _ ihbody ihelse =>
    obtain ⟨ls₁, ts₁, hspread₁, hfills₁, hne, hreads₁⟩ := ihbody
    obtain ⟨ls₂, ts₂, hspread₂, hfills₂, -, hreads₂⟩ := ihelse
    obtain ⟨l, s₀, body, orelse, hline, hlead, rfl⟩ := htext.branch
    obtain ⟨hblanks, rfl⟩ := hblanks
    rw [Stmt.fill_fill]
    rw [← tail_of_leads hlead] at hreads₂
    exact ⟨_, _, .line hblanks hline (spread_append hspread₁ hspread₂),
      (hfills₁.withBlock (hne hbody) hv (wordToken "elif" :: l)).append hfills₂, by simp,
      continues_branch rfl hlead hreads₁ hreads₂⟩

/-- **Scripts are read back**: statements that are laid out in indented lines are parsed as the same statements, up to
positions. -/
theorem parseScript_of_writes {ss : List (Stmt Unit)} {lines : List (List Char)} (h : Writes .block 0 ss lines)
    {source : String} (hsource : Source.normalize source.toList = Lexer.joined lines) :
    ∃ script, parseScript source = .ok script ∧ script.map Stmt.unplaced = ss.map Stmt.unplaced := by
  obtain ⟨ls, ts, hspread, hfills, -, hreads⟩ := h.reads
  have hlays : Lays [] (ls ++ []) (ts ++ [endOfInput]) := hfills.lays rfl (by simp) .done
  rw [List.append_nil] at hlays
  exact parseScript_of_lays hsource hspread hlays hreads rfl

theorem parseScript_of_writes_branches :
    ∃ script, parseScript ("def f(x):\n\tif x: # why\n\t  pass\n\n # aside\n\telif f:\n\t\tpass\n" ++
        "\telse :\n  \t pass\n  \t pass\npass\n") = .ok script ∧
      script.map Stmt.unplaced =
        [.function Stmt.nowhere ⟨"f", [⟨default, "x", none⟩], [],
          [.cond Stmt.nowhere (.name default "x") [.pass Stmt.nowhere]
            [.cond Stmt.nowhere (.name default "f") [.pass Stmt.nowhere]
              [.pass Stmt.nowhere, .pass Stmt.nowhere]]], none⟩,
          .pass Stmt.nowhere] := by
  have hempty : IsFiller [] := .blank (by simp)
  have haside : IsFiller ([' '] ++ '#' :: " aside".toList) := .comment (by simp [Lexer.isBlank]) (by decide)
  have hflush : Indents 0 [] := ⟨by simp, rfl⟩
  have htab : Indents 8 ['\t'] := ⟨by simp [Lexer.isBlank], rfl⟩
  have hten : Indents 10 ['\t', ' ', ' '] := ⟨by simp [Lexer.isBlank], rfl⟩
  have htabs : Indents 16 ['\t', '\t'] := ⟨by simp [Lexer.isBlank], rfl⟩
  have hmixed : Indents 9 [' ', ' ', '\t', ' '] := ⟨by simp [Lexer.isBlank], rfl⟩
  have hwidths : 0 < 8 ∧ 8 < 10 ∧ 8 < 16 ∧ 8 < 9 := by decide
  have hpass : OneLine "pass".toList [.pass ⟨⟨1, 0⟩, ()⟩] :=
    ⟨⟨⟨'p', _, rfl, by decide⟩, by decide, by decide⟩, by cbv⟩
  have hdef : Header "def f(x):".toList
      (.function ⟨⟨1, 0⟩, ()⟩ ⟨"f", [⟨⟨1, 6⟩, "x", none⟩], [], [.pass ⟨⟨2, 1⟩, ()⟩], none⟩) :=
    ⟨⟨⟨'d', _, rfl, by decide⟩, by decide, by decide⟩, by decide +kernel, by cbv⟩
  have hif : Header "if x: # why".toList (.cond ⟨⟨1, 0⟩, ()⟩ (.name ⟨1, 3⟩ "x") [.pass ⟨⟨2, 1⟩, ()⟩] []) :=
    ⟨⟨⟨'i', _, rfl, by decide⟩, by decide, by decide⟩, by decide +kernel, by cbv⟩
  have helif : Header ("if".toList ++ " f:".toList) (.cond ⟨⟨1, 0⟩, ()⟩ (.name ⟨1, 3⟩ "f") [.pass ⟨⟨2, 1⟩, ()⟩] []) :=
    ⟨⟨⟨'i', _, rfl, by decide⟩, by decide, by decide⟩, by decide +kernel, by cbv⟩
  have helse : ElseLine "else :".toList :=
    ⟨⟨⟨'e', _, rfl, by decide⟩, by decide, by decide⟩, by cbv⟩
  exact parseScript_of_writes
    (.compound hflush hdef hwidths.1 (List.cons_ne_nil _ _)
      (.compound htab hif hwidths.2.1 (List.cons_ne_nil _ _)
        (.line hten hpass (.filler hempty (.filler haside .nil)))
        (.branch htab helif hwidths.2.2.1 (List.cons_ne_nil _ _) (.line htabs hpass .nil)
          (.otherwise (by simp) htab helse hwidths.2.2.2 (List.cons_ne_nil _ _)
            (.line hmixed hpass (.line hmixed hpass .nil))))
        .nil)
      .closed (.line hflush hpass (.filler hempty .nil)))
    (by decide +kernel)

end OpGraph
