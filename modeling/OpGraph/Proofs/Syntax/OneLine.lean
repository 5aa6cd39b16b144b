import OpGraph.Proofs.Syntax.Blocks

/-!
Single lines. If the tokens of a line are read as statements, or as the head of a compound statement, before one thing
that follows the line, then they are so before anything else that does not carry them on, and in any place.
-/

namespace OpGraph.Syntax.Parser

open List
open Lexer (newline)

variable {ss : List (Stmt Unit)} {rest s s' ts us : List Token} {t : Token} {α : Type}
variable {p : Parser α} {u : Token} {x : Unit} {a : α}

/-! ### What a run of a parser says about its input -/

def blockRest (statement : Parser (List (Stmt Unit))) : Parser (List (Stmt Unit)) := do
  if ← acceptKind .newline then
    discard (expectKind .indent)
    let body ← blockBody statement (← remaining)
    discard (expectKind .dedent)
    return body
  else simpleLine

theorem block_eq (statement : Parser (List (Stmt Unit))) :
    block statement = discard (expectOp ":") >>= fun _ => blockRest statement :=
  rfl

theorem compound_eq (head : Parser (Stmt Unit)) (statement : Parser (List (Stmt Unit))) (n : Nat) :
    compound head statement n = (do
      let s ← lead head
      let body ← blockRest statement
      return s.fill body (← elsePart statement n s.tail)) := by
  simp only [compound, lead, block_eq, bind_assoc, pure_bind]

theorem of_expectIf {test : Token → Bool} {wanted : String} (htest : ∀ t, test t = true → t.kind ≠ .eof) (hs : Ended s)
    (h : (expectIf test wanted).run s = .ok (t, s')) : s = t :: s' ∧ test t = true ∧ Ended s' := by
  obtain ⟨u, ts, rfl⟩ := hs.exists_cons
  rw [expectIf, run_peek_bind] at h
  split at h
  · rename_i hu
    have hts := hs.tail (htest u hu)
    obtain ⟨v, vs, rfl⟩ := hts.exists_cons
    cases h
    exact ⟨rfl, hu, hts⟩
  · cases h

theorem of_bind {β : Type} {f : α → Parser β} {r : β × List Token} (h : (p >>= f).run s = .ok r) :
    ∃ a s', p.run s = .ok (a, s') ∧ (f a).run s' = .ok r := by
  obtain ⟨⟨a, s'⟩, hp, hf⟩ := bind_eq_ok.1 h
  exact ⟨a, s', hp, hf⟩

theorem of_pure {b : α} (h : (pure a : Parser α).run s = .ok (b, s')) : a = b ∧ s = s' :=
  Prod.mk.inj (Except.ok.inj h)

theorem of_discard (h : (discard p).run s = .ok (x, s')) : ∃ a, p.run s = .ok (a, s') := by
  rw [← bind_pure (discard p), discard_bind] at h
  obtain ⟨a, s₁, hp, hend⟩ := of_bind h
  obtain ⟨-, rfl⟩ := of_pure hend
  exact ⟨a, hp⟩

theorem of_expectKind {kind : TokenKind} (hkind : kind ≠ .eof) (hs : Ended s)
    (h : (discard (expectKind kind)).run s = .ok (x, s')) : ∃ t, s = t :: s' ∧ t.kind = kind := by
  obtain ⟨t, h⟩ := of_discard h
  obtain ⟨rfl, ht, -⟩ := of_expectIf (fun t ht => by simpa [(beq_iff_eq.1 ht)] using hkind) hs h
  exact ⟨t, rfl, by simpa using ht⟩

theorem append_newline_inj {rest' : List Token} (hts : ∀ v ∈ ts, isText v = true) (hus : ∀ v ∈ us, isText v = true)
    (ht : isText t = false) (hu : isText u = false) (h : ts ++ t :: rest = us ++ u :: rest') :
    ts = us ∧ t = u ∧ rest = rest' := by
  induction ts generalizing us with
  | nil =>
    cases us with
    | nil => simpa using h
    | cons v us =>
      obtain ⟨rfl, -⟩ := List.cons.inj h
      simp [hus t (by simp)] at ht
  | cons v ts ih =>
    cases us with
    | nil =>
      obtain ⟨rfl, -⟩ := List.cons.inj h
      simp [hts v (by simp)] at hu
    | cons w us =>
      obtain ⟨rfl, htail⟩ := List.cons.inj h
      obtain ⟨rfl, rfl, rfl⟩ := ih (fun x hx => hts x (by simp [hx])) (fun x hx => hus x (by simp [hx])) htail
      exact ⟨rfl, rfl, rfl⟩

theorem exists_of_append_newline {used : List Token} (hused : ∀ v ∈ used, isText v = true) (ht : isText t = false)
    (h : ts ++ t :: rest = used ++ s) : ∃ us, ts = used ++ us ∧ s = us ++ t :: rest := by
  rcases append_eq_append_iff.1 h with ⟨us, rfl, hs⟩ | ⟨us, rfl, rfl⟩
  · cases us with
    | nil => exact ⟨[], by simp, by simpa using hs.symm⟩
    | cons v us =>
      obtain ⟨rfl, -⟩ := List.cons.inj hs
      simp [hused t (by simp)] at ht
  · exact ⟨us, rfl, rfl⟩

theorem run_elsePart (h : Follows rest) (statement : Parser (List (Stmt Unit))) (n : Nat) (tail : Tail) :
    (elsePart statement n tail).run rest = .ok ([], rest) := by
  obtain ⟨t, ts, rfl, helse, helif⟩ := h
  cases tail with
  | closed => rfl
  | loop =>
    exact run_acceptWord_skip helse
  | branch =>
    rw [elsePart, run_checkWord_bind, run_bind_of_ok (p := acceptWord "else") (run_acceptIf_false helse), if_neg (by simp [helif])]
    rfl

/-! ### Lines of simple statements -/

theorem fits_newline (ht : t.kind = .newline) (htu : t.unplaced = u.unplaced) (ts us : List Token) :
    Fits (t :: ts) (u :: us) :=
  .mk htu fun hk => by simp [ht] at hk

theorem isText_newline (ht : t.kind = .newline) : isText t = false := by
  simp [isText, ht]

section

variable {nl : Token}

/-- A run of a tracked parser up to the end of a line can be repeated. -/
theorem Tracks.repeat {γ : Type} {v : α → γ} {P : α → Prop} {front : List Token}
    (h : ∀ K, Tracks s s.length K front P v p p) (hs : Ended s) (hfront : front <+: s) (hrun : p.run s = .ok (a, s')) :
    Ended s' ∧ ∃ used, s = used ++ s' ∧ Tidy used ∧ ∀ us rest, SameTokens used us →
      Fits s' rest → ∃ b, p.run (us ++ rest) = .ok (b, rest) ∧ v b = v a := by
  have hleft : Left s s := ⟨suffix_rfl, hs⟩
  obtain ⟨hs', used, hused, ⟨_, -, -, htidy⟩, -⟩ := (h 0 hleft le_rfl hfront).2 a s' hrun
  refine ⟨hs', used, hused, htidy, fun us rest hus hfits => ?_⟩
  subst hused
  obtain ⟨b, hb, -, hv, -⟩ := (h (used.length + 1)).again hleft le_rfl hfront hrun (Nat.lt_succ_self _) hus hfits
  exact ⟨b, hb, hv.symm⟩

theorem of_simpleLine (hts : ∀ t ∈ ts, isText t = true) (hnl : nl.kind = .newline) (hrest : Ended rest)
    (h : simpleLine.run (ts ++ nl :: rest) = .ok (ss, s')) :
    s' = rest ∧ Tidy ts ∧ ∀ us u rest', SameTokens ts us → nl.unplaced = u.unplaced →
      rest' ≠ [] → ∃ ss', simpleLine.run (us ++ u :: rest') = .ok (ss', rest') ∧
        ss'.map Stmt.unplaced = ss.map Stmt.unplaced := by
  rw [simpleLine_eq] at h
  obtain ⟨ss₁, s₁, hsmall, hrun⟩ := of_bind h
  obtain ⟨_, s₂, hnewline, hend⟩ := of_bind hrun
  obtain ⟨rfl, rfl⟩ := of_pure hend
  obtain ⟨hs₁, used, hused, htidy, hrepeat⟩ := Tracks.repeat (fun _ => tracks_smallLine)
    (Ended.of_append (.cons hrest)) nil_prefix hsmall
  obtain ⟨v, rfl, hv⟩ := of_expectKind (by decide) hs₁ hnewline
  obtain ⟨rfl, rfl, rfl⟩ := append_newline_inj hts htidy.text (isText_newline hnl) (isText_newline hv) hused
  refine ⟨rfl, htidy, fun us u rest' hus hu hne => ?_⟩
  obtain ⟨ss', hrun, hss'⟩ := hrepeat us (u :: rest') hus (fits_newline hnl hu _ _)
  have hexpect : (discard (expectKind .newline)).run (u :: rest') = .ok ((), rest') :=
    run_discard (run_expectIf (by simp [← Token.kind_eq_of_unplaced hu, hnl]) hne)
  refine ⟨ss', ?_, hss'⟩
  rw [simpleLine_eq, run_bind_of_ok hrun, run_bind_of_ok hexpect]
  rfl

/-- Some tokens are read as the head of a compound statement, up to the end of its line. -/
structure Leads (head : Parser (Stmt Unit)) (ts : List Token) (s : Stmt Unit) : Prop where
  tidy : Tidy ts
  run : ∀ us u rest, ts.map Token.unplaced = us.map Token.unplaced → u.unplaced = newline →
    ∃ s', (lead head).run (us ++ u :: rest) = .ok (s', u :: rest) ∧ s'.unplaced = s.unplaced

variable {l : List Token} {head : Parser (Stmt Unit)} {k : Nat}

theorem word_of_headOf (h : headOf t = some head) : t.isWord "else" = false ∧ t.isWord "elif" = false := by
  constructor <;>
  · by_contra hword
    simp only [Token.isWord, Bool.not_eq_false, Bool.and_eq_true, beq_iff_eq] at hword
    simp [headOf, Token.isWord, hword] at h

theorem of_inline (hhead : headOf t = some head) (hts : ∀ v ∈ t :: l, isText v = true) (hnl : nl.kind = .newline)
    (hrest : Ended rest) {s : Stmt Unit} {s₁ s₂ : List Token} {body : List (Stmt Unit)}
    (hlead : (lead head).run (t :: l ++ nl :: rest) = .ok (s, s₁)) (hend : ∀ u ∈ s₁.head?, u.kind ≠ .newline)
    (hbody : simpleLine.run s₁ = .ok (body, s₂)) :
    s₂ = rest ∧ Tidy (t :: l) ∧ Parses (t :: l ++ [nl]) [s.fill body []] := by
  obtain ⟨hs₁, used, hused, htidy, hrepeat⟩ := Tracks.repeat (fun _ => tracks_lead (tracks_headOf hhead))
    (Ended.of_append (.cons hrest)) ⟨l ++ nl :: rest, rfl⟩ hlead
  obtain ⟨ts, hsplit, rfl⟩ := exists_of_append_newline htidy.text (isText_newline hnl) hused
  have hts' : ∀ v ∈ ts, isText v = true := fun v hv => hts v (by rw [hsplit]; exact mem_append_right _ hv)
  obtain ⟨rfl, htidy', hrepeat'⟩ := of_simpleLine hts' hnl hrest hbody
  obtain ⟨v, vs, rfl⟩ : ∃ v vs, ts = v :: vs := by
    cases ts with
    | nil => exact absurd hnl (hend nl rfl)
    | cons v vs => exact ⟨v, vs, rfl⟩
  refine ⟨rfl, hsplit ▸ htidy.append htidy', ⟨t, _, rfl, hts t (by simp), word_of_headOf hhead⟩, ?_⟩
  intro k us rest' hus hk hfollows
  have hhead' : (us ++ rest').head?.bind headOf = some head := by
    obtain ⟨u, vs, rfl, hu, -⟩ := Token.exists_cons_of_unplaced hus
    exact (headOf_eq_of_unplaced hu).symm.trans hhead
  rw [hsplit, append_assoc] at hus
  obtain ⟨us₁, us', rfl, h1, hus'⟩ := Token.exists_append_of_unplaced hus
  obtain ⟨us₂, us₃, rfl, h2, h3⟩ := Token.exists_append_of_unplaced hus'
  obtain ⟨u, us₃, rfl, hu, hnil⟩ := Token.exists_cons_of_unplaced h3
  obtain rfl : us₃ = [] := by simpa using hnil.symm
  obtain ⟨s', hlead', hs'⟩ := hrepeat us₁ (us₂ ++ u :: rest') h1 (Fits.append h2 (fits_newline hnl hu _ _))
  obtain ⟨body', hbody', hbody''⟩ := hrepeat' us₂ u rest' h2 hu hfollows.ne_nil
  refine ⟨[s'.fill body' []], ?_, by simp [Stmt.unplaced_fill, hs', hbody'']⟩
  obtain ⟨w, ws, rfl, hw, -⟩ := Token.exists_cons_of_unplaced h2
  have hinline : (acceptKind .newline).run (w :: ws ++ u :: rest') = .ok (false, w :: ws ++ u :: rest') := by
    refine run_acceptIf_false ?_
    rw [← Token.kind_eq_of_unplaced hw]
    simpa using hend v rfl
  have hstate : us₁ ++ (w :: ws ++ [u]) ++ rest' = us₁ ++ (w :: ws ++ u :: rest') := by simp
  rw [run_statement_compound hhead', compound_eq, hstate]
  simp only [bind_assoc]
  rw [run_bind_of_ok hlead', blockRest, bind_assoc, run_bind_of_ok hinline, if_neg Bool.false_ne_true,
    run_bind_of_ok hbody', run_bind_of_ok (run_elsePart hfollows _ _ _)]
  rfl

theorem of_simple (hhead : headOf t = none) (hts : ∀ v ∈ t :: l, isText v = true) (hnl : nl.kind = .newline)
    (hrest : Ended rest) (hat : t.isOp "@" = false) (h : simpleLine.run (t :: l ++ nl :: rest) = .ok (ss, s')) :
    s' = rest ∧ Tidy (t :: l) ∧ Parses (t :: l ++ [nl]) ss := by
  obtain ⟨rfl, htidy, hrepeat⟩ := of_simpleLine hts hnl hrest h
  have hword {word : String} (hword : word = "else" ∨ word = "elif") : t.isWord word = false := by
    by_contra hw
    simp only [Token.isWord, Bool.not_eq_false, Bool.and_eq_true, beq_iff_eq] at hw
    exact fails_simpleLine hw.1 (hw.2 ▸ hword) _ h
  refine ⟨rfl, htidy, ⟨t, _, rfl, hts t (by simp), hword (.inl rfl), hword (.inr rfl)⟩, ?_⟩
  intro k us rest' hus _ hfollows
  obtain ⟨us, us', rfl, h1, h2⟩ := Token.exists_append_of_unplaced hus
  obtain ⟨u, us', rfl, hu, hnil⟩ := Token.exists_cons_of_unplaced h2
  obtain rfl : us' = [] := by simpa using hnil.symm
  obtain ⟨ss', hrun, hss'⟩ := hrepeat us u rest' h1 hu hfollows.ne_nil
  refine ⟨ss', ?_, hss'⟩
  obtain ⟨v, vs, rfl, hv, -⟩ := Token.exists_cons_of_unplaced h1
  have hindent : v.kind ≠ .indent := by
    intro hk
    have := hts t (by simp)
    simp [isText, Token.kind_eq_of_unplaced hv, hk] at this
  rw [append_assoc, singleton_append, cons_append, run_statement_simple _ _ hindent]
  · exact hrun
  · rw [← headOf_eq_of_unplaced hv, hhead]
  · rw [← Token.isOp_eq_of_unplaced hv, hat]

/-- **The line at the front of a script**: its tokens are read as statements on their own, or they are the head of a
compound statement and an indented line follows. -/
theorem of_statement (hts : ∀ v ∈ t :: l, isText v = true) (hnl : nl.unplaced = newline) (hrest : Ended rest)
    (hfollows : Follows rest) (h : (statement (k + 1)).run (t :: l ++ nl :: rest) = .ok (ss, s')) :
    (s' = rest ∧ Tidy (t :: l) ∧ Parses (t :: l ++ [nl]) ss) ∨
    ∃ head s body orelse, headOf t = some head ∧ Leads head (t :: l) s ∧ ss = [s.fill body orelse] ∧
      ∃ u us, rest = u :: us ∧ u.kind = .indent := by
  have hnl' : nl.kind = .newline := Token.kind_eq_of_unplaced (u := newline) hnl
  cases hhead : headOf t with
  | none =>
    obtain ⟨hat, hindent⟩ := shape_of_statement h
    rw [cons_append, run_statement_simple hhead hat hindent, ← cons_append] at h
    exact .inl (of_simple hhead hts hnl' hrest hat h)
  | some head =>
    rw [run_statement_compound (show (t :: l ++ nl :: rest).head?.bind headOf = some head from hhead), compound_eq] at h
    obtain ⟨c, s₃, hcompound, hss⟩ := of_bind h
    obtain ⟨s, s₁, hlead, hrun⟩ := of_bind hcompound
    obtain ⟨body, s₂, hbody, hrun'⟩ := of_bind hrun
    obtain ⟨orelse, s₄, helse, hc⟩ := of_bind hrun'
    obtain ⟨rfl, rfl⟩ := of_pure hc
    obtain ⟨rfl, rfl⟩ := of_pure hss
    obtain ⟨hs₁, used, hused, htidy, hrepeat⟩ := Tracks.repeat (fun _ => tracks_lead (tracks_headOf hhead))
      (Ended.of_append (.cons hrest)) ⟨l ++ nl :: rest, rfl⟩ hlead
    obtain ⟨v, vs, rfl⟩ := hs₁.exists_cons
    by_cases hv : v.kind = .newline
    · -- the block is indented
      obtain ⟨hl, rfl, rfl⟩ := append_newline_inj hts htidy.text (isText_newline hnl') (isText_newline hv) hused
      refine .inr ⟨head, s, body, orelse, rfl, ⟨hl ▸ htidy, fun us u rest' hus hu => ?_⟩, rfl, ?_⟩
      · rw [hl] at hus
        exact hrepeat us (u :: rest') hus (fits_newline hv (hnl.trans hu.symm) _ _)
      · have haccept : (acceptKind .newline).run (nl :: rest) = .ok (true, rest) :=
          run_acceptIf_true (by simp [hv]) hfollows.ne_nil
        rw [blockRest, run_bind_of_ok haccept, if_pos rfl] at hbody
        obtain ⟨_, s₅, hindent, -⟩ := of_bind hbody
        obtain ⟨u, rfl, hu⟩ := of_expectKind (by decide) hrest hindent
        exact ⟨u, s₅, rfl, hu⟩
    · -- the block is on the same line
      have haccept : (acceptKind .newline).run (v :: vs) = .ok (false, v :: vs) :=
        run_acceptIf_false (by simpa using hv)
      rw [blockRest, run_bind_of_ok haccept, if_neg Bool.false_ne_true] at hbody
      obtain ⟨rfl, htidy', hparses⟩ := of_inline hhead hts hnl' hrest hlead (by simpa using hv) hbody
      rw [run_elsePart hfollows] at helse
      cases helse
      exact .inl ⟨rfl, htidy', hparses⟩

end

/-! ### Scripts -/

theorem depthAfter_eq_of_unplaced (h : SameTokens ts us) (d : Nat) :
    depthAfter d ts = depthAfter d us := by
  induction ts generalizing us d with
  | nil =>
    obtain rfl : us = [] := by simpa using h.symm
    rfl
  | cons t ts ih =>
    obtain ⟨u, us, rfl, htu, hus⟩ := Token.exists_cons_of_unplaced h
    have hstep : depthStep d t = depthStep d u := by simp only [depthStep, Token.isOp_eq_of_unplaced htu]
    change depthAfter (depthStep d t) ts = depthAfter (depthStep d u) us
    rw [hstep, ih hus]

theorem ParsesAll.single (h : Parses ts ss) : ParsesAll ts ss := by
  simpa using ParsesAll.cons h .nil

theorem parseScript_of_lays {source : String} {ls : List (Nat × List Token)} {ps : List (List Char)}
    (hsource : Source.normalize source.toList = Lexer.joined ps) (hps : Lexer.Spread ls ps)
    (hlays : Lexer.Lays [] ls (us ++ [Lexer.endOfInput])) (hts : ParsesAll ts ss)
    (hus : SameTokens ts us) :
    ∃ script, parseScript source = .ok script ∧ script.map Stmt.unplaced = ss.map Stmt.unplaced := by
  obtain ⟨vs, htokens, hvs⟩ := Lexer.tokenize_of_lays hsource hps hlays
  obtain ⟨vs, ws, rfl, h1, h2⟩ := Token.exists_append_of_unplaced hvs.symm
  obtain ⟨t, ws, rfl, ht, hnil⟩ := Token.exists_cons_of_unplaced h2
  obtain rfl : ws = [] := by simpa using hnil.symm
  have hlength : ts.length < (vs ++ [t]).length + 1 := by
    have hv := congrArg List.length (hus.trans h1)
    simp only [length_map, length_append] at hv ⊢
    omega
  obtain ⟨script, hrun, hscript⟩ := run_statements hts (hus.trans h1) hlength (Token.kind_eq_of_unplaced ht.symm)
  refine ⟨script, ?_, hscript⟩
  rw [parseScript, htokens]
  change ((statements ((vs ++ [t]).length + 1)).run (vs ++ [t]) >>= fun r => pure r.1) = _
  rw [hrun]
  rfl

end OpGraph.Syntax.Parser
