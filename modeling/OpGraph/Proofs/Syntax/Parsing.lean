import OpGraph.Proofs.Syntax.Blocks

/-!
What parsers give. The statements of a script are parsed from its tokens, or the tokens justify the error. Within a line
this is what the parsers of expressions and simple statements are tracked with; here it is carried on to blocks, where a
statement takes at least one token and so the fuel is enough.
-/

namespace OpGraph.Syntax

open List

variable {script : Script} {source : String} {ss : List (Stmt Unit)}

namespace Parser

variable {α β : Type} {src front ts : List Token} {m n d : ℕ} {wanted : String} {test : Token → Bool}

/-- A parser that is given at most `n` tokens takes at least `d` of them, and `P` holds of what it gives. -/
abbrev Takes (src : List Token) (n d : ℕ) (front : List Token) (p : Parser α) (P : α → Prop) : Prop :=
  Replays src n 0 front p p fun a _ used => d ≤ used.length ∧ P a

/-! ### Rules -/

section

variable {p q : Parser α} {f : α → Parser β} {P : α → Prop} {R : β → Prop}

theorem Takes.within {n' d' : ℕ} (h : Takes src n d front p P) (hn : n' ≤ n) (hd : d' ≤ d) : Takes src n' d' front p P :=
  Replays.mono h ⟨hn, le_rfl⟩ fun _ _ _ h => ⟨hd.trans h.1, h.2⟩

theorem Tracks.takes {γ : Type} {K : ℕ} {v : α → γ} (h : Tracks src n K front P v p p) : Takes src n 0 front p P :=
  Replays.mono h ⟨le_rfl, Nat.zero_le K⟩ fun _ _ _ h => ⟨Nat.zero_le _, h.1⟩

theorem Takes.and (h : Takes src n d front p P) {P' : α → Prop}
    (hP : ∀ s a s', Left src s → p.run s = .ok (a, s') → P a → P' a) : Takes src n d front p P' := by
  intro s hs hn hfront
  obtain ⟨herror, hok⟩ := h hs hn hfront
  refine ⟨herror, fun a s' hr => ?_⟩
  obtain ⟨hs', used, rfl, ⟨b, hlen, ha⟩, -⟩ := hok a s' hr
  exact ⟨hs', used, rfl, ⟨b, hlen, hP _ a s' hs hr ha⟩, fun _ _ hlt => absurd hlt (Nat.not_lt_zero _)⟩

theorem takes_pure {a : α} (ha : P a) : Takes src n 0 front (pure a) P :=
  replays_pure ⟨le_rfl, ha⟩

theorem takes_bind {k : ℕ} (hp : Takes src n k front p P) (hf : ∀ a, P a → Takes src (n - k) (d - k) [] (f a) R) :
    Takes src n d front (p >>= f) R := by
  refine replays_bind hp fun a b u h => Replays.mono (hf a h.2).of_zero (by omega) fun c _ v h' => ⟨?_, h'.2⟩
  rw [length_append]
  omega

theorem takes_last {g : α → β} (hp : Takes src n d front p P) (hg : ∀ a, P a → R (g a)) :
    Takes src n d front (p >>= fun a => pure (g a)) R :=
  takes_bind hp fun a ha => by
    rw [Nat.sub_self]
    exact takes_pure (hg a ha)

theorem takes_ite {c : Prop} [Decidable c] (hp : c → Takes src n d front p P) (hq : ¬c → Takes src n d front q P) :
    Takes src n d front (if c then p else q) P :=
  replays_ite Iff.rfl hp hq

theorem takes_peek {f : Token → Parser α} (h : ∀ t ∈ src, Takes src n d [t] (f t) P) :
    Takes src n d front (peek >>= f) P :=
  replays_peek fun t _ ht _ => (h t ht).of_zero

theorem takes_peek_front {t : Token} {f : Token → Parser α} (h : Takes src n d [t] (f t) P) :
    Takes src n d [t] (peek >>= f) P :=
  replays_peek_front fun _ _ => h.of_zero

theorem takes_remaining {f : ℕ → Parser α} (h : ∀ k m, m ≤ n → m ≤ k → Takes src m d front (f k) P) :
    Takes src n d front (remaining >>= f) P :=
  replays_remaining fun k _ m _ hm hk => Replays.mono (h k m hm.1 hk.1).of_zero (by omega) fun _ _ _ h => h

theorem takes_accept {f : Bool → Parser α} (htest : ∀ t, test t.unplaced = test t)
    (hkind : ∀ t, test t = true → t.kind ≠ .eof) (htrue : Takes src (n - 1) (d - 1) [] (f true) P)
    (hfalse : Takes src n d [] (f false) P) : Takes src n d front (acceptIf test >>= f) P := by
  refine replays_accept htest hkind (fun t _ => Replays.mono htrue ⟨le_rfl, le_rfl⟩ fun _ _ _ h => ⟨?_, h.2⟩) hfalse
  rw [length_cons]
  omega

theorem takes_expect {f : Unit → Parser α} (htest : ∀ t, test t.unplaced = test t)
    (hkind : ∀ t, test t = true → t.kind ≠ .eof) (h : Takes src (n - 1) (d - 1) [] (f ()) P) :
    Takes src n d front (discard (expectIf test wanted) >>= f) P := by
  rw [discard_bind]
  refine replays_expect htest hkind fun t u _ _ _ => Replays.mono h ⟨le_rfl, le_rfl⟩ fun _ _ _ h => ⟨?_, h.2⟩
  rw [length_cons]
  omega

theorem ne_eof_of_kind {kind : TokenKind} (hkind : kind ≠ .eof) (t : Token) (ht : (t.kind == kind) = true) :
    t.kind ≠ .eof := by
  rwa [eq_of_beq ht]

end

/-! ### Hollow blocks -/

section

variable {s s' : List Token} {k : ℕ}

theorem Hollow.mono {us : List Token} (h : Hollow ts) (hts : ts <:+: us) : Hollow us := by
  obtain ⟨t, u, hpair, hkinds⟩ := h
  exact ⟨t, u, hpair.trans hts, hkinds⟩

theorem exists_of_run_bind {p : Parser α} {f : α → Parser β} {r : β × List Token} (h : (p >>= f).run s = .ok r) :
    ∃ a s', p.run s = .ok (a, s') ∧ (f a).run s' = .ok r := by
  rw [StateT.run_bind] at h
  obtain ⟨⟨a, s'⟩, hp, hf⟩ := bind_eq_ok.1 h
  exact ⟨a, s', hp, hf⟩

theorem exists_of_expect {f : Unit → Parser α} {r : α × List Token} (hs : Ended s)
    (hkind : ∀ t, test t = true → t.kind ≠ .eof) (h : (discard (expectIf test wanted) >>= f).run s = .ok r) :
    ∃ t s', s = t :: s' ∧ test t = true ∧ Ended s' ∧ (f ()).run s' = .ok r := by
  obtain ⟨t, s', rfl⟩ := hs.exists_cons
  rw [discard_bind, expectIf_bind, run_peek_bind] at h
  split at h
  · rename_i ht
    have hs' := hs.tail (hkind t ht)
    obtain ⟨u, us, rfl⟩ := hs'.exists_cons
    rw [run_bind_of_ok (run_next (by simp))] at h
    exact ⟨t, _, rfl, ht, hs', h⟩
  · cases h

theorem simpleLine_ne_nil (h : simpleLine.run s = .ok (ss, s')) : ss ≠ [] := by
  obtain ⟨first, _, -, h⟩ := exists_of_run_bind h
  obtain ⟨_, _, -, h⟩ := exists_of_run_bind h
  obtain ⟨rest, _, -, h⟩ := exists_of_run_bind h
  obtain ⟨_, _, -, h⟩ := exists_of_run_bind h
  cases h
  simp

theorem statement_ne_nil (h : (statement k).run s = .ok (ss, s')) : ss ≠ [] := by
  have hone {p : Parser (Stmt Unit)} {s : List Token} (h : (p >>= fun c => pure [c]).run s = .ok (ss, s')) :
      ss ≠ [] := by
    obtain ⟨c, _, -, h⟩ := exists_of_run_bind h
    cases h
    simp
  cases k with
  | zero =>
    obtain ⟨_, _, -, h⟩ := exists_of_run_bind h
    cases h
  | succ k =>
    rw [statement] at h
    obtain ⟨t, s₁, -, h⟩ := exists_of_run_bind h
    split at h
    · cases h
    split at h
    · cases h
    split at h
    · exact hone h
    split at h
    · obtain ⟨n, _, -, h⟩ := exists_of_run_bind h
      exact hone h
    split at h
    · exact hone h
    split at h
    · exact hone h
    · exact simpleLine_ne_nil h

/-- A block without statements is read where a block closes as soon as it opens. -/
theorem hollow_of_block (hs : Ended s) (h : (block (statement k)).run s = .ok ([], s')) : Hollow s := by
  obtain ⟨colon, s₁, rfl, -, hs1, h⟩ := exists_of_expect hs (fun _ => ne_eof_of_isOp) h
  obtain ⟨t, l, rfl⟩ := hs1.exists_cons
  rw [acceptKind, acceptIf_bind, run_peek_bind] at h
  split at h
  · rename_i hnewline
    have hl := hs1.tail (ne_eof_of_kind (by decide) t hnewline)
    obtain ⟨u, us, rfl⟩ := hl.exists_cons
    rw [run_bind_of_ok (run_next (by simp))] at h
    obtain ⟨opening, s₂, hopen, hindent, hs2, h⟩ := exists_of_expect hl (ne_eof_of_kind (by decide)) h
    obtain ⟨v, vs, rfl⟩ := hs2.exists_cons
    rw [run_remaining_bind] at h
    obtain ⟨body, s₃, hbody, h⟩ := exists_of_run_bind h
    rw [length_cons, blockBody, run_peek_bind] at hbody
    split at hbody
    · cases hbody
      obtain ⟨_, _, hv, hdedent, -⟩ := exists_of_expect hs2 (ne_eof_of_kind (by decide)) h
      obtain ⟨rfl, -⟩ := List.cons.inj hv
      exact ⟨opening, v, ⟨[colon, t], vs, by rw [hopen]; rfl⟩, eq_of_beq hindent, eq_of_beq hdedent⟩
    · obtain ⟨ss, _, hss, hmore⟩ := exists_of_run_bind hbody
      obtain ⟨more, _, -, hmore⟩ := exists_of_run_bind hmore
      cases hmore
      obtain ⟨_, _, -, h⟩ := exists_of_run_bind h
      obtain ⟨hnil, -⟩ := Prod.mk.inj (Except.ok.inj h)
      exact absurd (append_eq_nil_iff.1 hnil).1 (statement_ne_nil hss)
  · exact absurd rfl (simpleLine_ne_nil h)

end

/-! ### Blocks -/

theorem takes_simpleLine : Takes src n 1 front simpleLine (ParsedStmts src) := by
  rw [simpleLine_eq]
  refine takes_bind (Tracks.takes (K := 0) tracks_smallLine) fun _ hss => ?_
  exact takes_expect (fun _ => rfl) (ne_eof_of_kind (by decide)) (takes_pure hss)

section

variable {k : ℕ}

theorem takes_blockBody : ∀ {fuel n : ℕ} {front : List Token}, n ≤ fuel →
    Takes src n 1 [] (statement k) (ParsedStmts src) → Takes src n 0 front (blockBody (statement k) fuel) (ParsedStmts src)
  | 0, _, _, hn, _ => .of_empty hn
  | fuel + 1, n, _, hn, hstatement => by
    refine takes_peek fun t _ => takes_ite (fun _ => takes_pure parsedStmts_nil) fun _ => ?_
    refine takes_bind hstatement.anywhere fun _ hss => ?_
    exact takes_last (takes_blockBody (by omega) (hstatement.within (by omega) le_rfl)) fun _ hmore =>
      forall_mem_append.2 ⟨hss, hmore⟩

theorem takes_block (hstatement : Takes src (n - 1) 1 [] (statement k) (ParsedStmts src)) :
    Takes src n 1 front (block (statement k)) (ParsedBlock src) := by
  have hblock : Takes src n 1 front (block (statement k)) (ParsedStmts src) := by
    refine takes_expect (fun _ => rfl) (fun _ => ne_eof_of_isOp) ?_
    refine takes_accept (fun _ => rfl) (ne_eof_of_kind (by decide)) ?_ (takes_simpleLine.within le_rfl (by omega))
    refine takes_expect (fun _ => rfl) (ne_eof_of_kind (by decide)) (takes_remaining fun k m hm hk => ?_)
    refine takes_bind (takes_blockBody hk (hstatement.within (by omega) le_rfl)) fun _ hss => ?_
    exact takes_expect (fun _ => rfl) (ne_eof_of_kind (by decide)) (takes_pure hss)
  refine hblock.and fun s body s' hs hrun hss => ⟨?_, hss⟩
  rintro rfl
  exact (hollow_of_block hs.ended hrun).mono hs.suffix.isInfix

theorem takes_elsePart (hstatement : Takes src (n - 1) 1 [] (statement k) (ParsedStmts src))
    (hcond : ∀ t, t.kind = .name → Takes src n 1 [t] (conditional (statement k) m) (ParsedStmt src)) (tail : Tail) :
    Takes src n 0 front (elsePart (statement k) m tail) (ParsedStmts src) := by
  have hblock : Takes src (n - 1) 0 [] (block (statement k)) (ParsedStmts src) :=
    Replays.mono (takes_block (hstatement.within (by omega) le_rfl)) ⟨le_rfl, le_rfl⟩ fun _ _ _ h =>
      ⟨Nat.zero_le _, h.2.stmts⟩
  cases tail with
  | closed => exact takes_pure parsedStmts_nil
  | loop =>
    exact takes_accept (fun _ => rfl) (fun _ h => (tidy_of_isWord h).ne_eof) hblock (takes_pure parsedStmts_nil)
  | branch =>
    simp only [elsePart, checkWord, bind_assoc, pure_bind, acceptWord, acceptIf_bind]
    refine takes_peek fun t _ => takes_peek_front ?_
    by_cases helif : t.isWord "elif" = true
    · have helse : t.isWord "else" = false := by
        simp only [Token.isWord, Bool.and_eq_true, beq_iff_eq] at helif
        simp [Token.isWord, helif]
      simp only [helse, helif, if_true, Bool.false_eq_true, if_false, map_eq_pure_bind]
      refine takes_last ((hcond t (Token.kind_of_isWord helif)).within le_rfl (by omega)) fun s hs => ?_
      exact forall_mem_singleton.2 hs
    · simp only [helif, Bool.false_eq_true, if_false, if_true]
      refine takes_ite (fun helse => ?_) fun _ => takes_pure parsedStmts_nil
      exact replays_next (tidy_of_isWord helse).ne_eof fun _ _ =>
        Replays.mono hblock ⟨le_rfl, le_rfl⟩ fun _ _ _ h => ⟨Nat.zero_le _, h.2⟩

theorem takes_compound {head : Parser (Stmt Unit)} (hhead : TracksHead src n 0 front head head)
    (hstatement : Takes src (n - 1) 1 [] (statement k) (ParsedStmts src))
    (hcond : ∀ t, t.kind = .name → Takes src (n - 1) 1 [t] (conditional (statement k) m) (ParsedStmt src)) :
    Takes src n 1 front (compound head (statement k) m) (ParsedStmt src) := by
  refine takes_bind hhead.takes fun s hs => takes_bind (takes_block hstatement) fun body hbody => ?_
  exact takes_last (takes_elsePart (hstatement.within (by omega) le_rfl) hcond s.tail) fun _ => hs hbody

theorem takes_conditional : ∀ {fuel n : ℕ} {t : Token}, t.kind = .name → n ≤ fuel →
    Takes src (n - 1) 1 [] (statement k) (ParsedStmts src) →
    Takes src n 1 [t] (conditional (statement k) fuel) (ParsedStmt src)
  | 0, _, _, _, hn, _ => .of_empty hn
  | fuel + 1, n, t, ht, hn, hstatement => by
    rw [conditional_eq]
    exact takes_compound (tracks_condHead ht) hstatement fun _ hu =>
      takes_conditional hu (by omega) (hstatement.within (by omega) le_rfl)

end

theorem takes_statement : ∀ {fuel n : ℕ} {front : List Token}, n ≤ fuel →
    Takes src n 1 front (statement fuel) (ParsedStmts src)
  | 0, _, _, hn => .of_empty hn
  | fuel + 1, n, _, hn => by
    have hinner : Takes src (n - 1) 1 [] (statement fuel) (ParsedStmts src) := takes_statement (by omega)
    have hcond : ∀ m t, m ≤ n → t.kind = .name →
        Takes src m 1 [t] (conditional (statement fuel) m) (ParsedStmt src) := fun m t hm ht =>
      takes_conditional ht le_rfl (hinner.within (by omega) le_rfl)
    have hone : ∀ s, ParsedStmt src s → ParsedStmts src [s] := fun _ => forall_mem_singleton.2
    have hcompound : ∀ {t head}, TracksHead src n 0 [t] head head → Takes src n 1 [t]
        (compound head (statement fuel) (n - 1) >>= fun s => pure [s]) (ParsedStmts src) := fun hhead =>
      takes_last (takes_compound hhead hinner fun t ht => hcond _ t (Nat.sub_le _ _) ht) hone
    refine takes_peek fun t ht => takes_ite (fun _ => replays_failAt (by simp) ht) fun _ => ?_
    refine takes_ite (fun _ => replays_failAt (by simp) ht) fun _ => ?_
    rw [functionStatement_eq _ (n - 1), forStatement_eq _ (n - 1), whileStatement_eq _ (n - 1)]
    refine takes_ite (fun _ => hcompound tracks_functionHead) fun _ => ?_
    refine takes_ite (fun hif => takes_remaining fun k m hm hk => ?_) fun _ => ?_
    · exact takes_last (takes_conditional (Token.kind_of_isWord hif) hk (hinner.within (by omega) le_rfl)) hone
    refine takes_ite (fun _ => hcompound tracks_forHead) fun _ => ?_
    exact takes_ite (fun _ => hcompound tracks_whileHead) fun _ => takes_simpleLine

theorem takes_statements : ∀ {fuel n : ℕ} {front : List Token}, n ≤ fuel →
    Takes src n 0 front (statements fuel) (ParsedStmts src)
  | 0, _, _, hn => .of_empty hn
  | fuel + 1, n, _, hn => by
    refine takes_bind (takes_peek fun t _ => takes_pure trivial) fun atEnd (_ : anything atEnd) => ?_
    refine takes_ite (fun _ => takes_pure parsedStmts_nil) fun _ => ?_
    refine takes_accept (fun _ => rfl) (ne_eof_of_kind (by decide)) (takes_statements (by omega)) ?_
    refine takes_remaining fun k m hm hk => takes_bind (takes_statement (by omega)) fun _ hss => ?_
    exact takes_last (takes_statements (by omega)) fun _ hmore => forall_mem_append.2 ⟨hss, hmore⟩

theorem takes_script (hts : Ended ts) :
    (∀ e, (statements (ts.length + 1)).run ts = .error e → Justified ts e) ∧
    ∀ script us, (statements (ts.length + 1)).run ts = .ok (script, us) → ParsedStmts ts script := by
  have htakes : Takes ts ts.length 0 [] (statements (ts.length + 1)) (ParsedStmts ts) :=
    takes_statements (Nat.le_succ _)
  obtain ⟨herror, hok⟩ := htakes ⟨suffix_rfl, hts⟩ le_rfl nil_prefix
  refine ⟨herror, fun script us h => ?_⟩
  obtain ⟨-, used, -, ⟨_, -, hscript⟩, -⟩ := hok script us h
  exact hscript

/-- **The tokens of a text are a script, or they justify the error.** -/
theorem justified_of_statements {e : Error} (hts : Ended ts) (h : (statements (ts.length + 1)).run ts = .error e) :
    Justified ts e :=
  (takes_script hts).1 e h

end Parser

/-! ### Scripts -/

theorem ended_finish (st : Lexer.State) : Parser.Ended (Lexer.finish st) :=
  Parser.Ended.of_append (.last rfl)

theorem parsed_of_parseScript (h : parseScript source = .ok script) :
    ∃ ts, tokenize source = .ok ts ∧ Parser.ParsedStmts ts script := by
  obtain ⟨ts, htokens, h⟩ := bind_eq_ok.1 h
  obtain ⟨⟨ss, us⟩, hrun, h⟩ := bind_eq_ok.1 h
  obtain rfl := Except.ok.inj h
  refine ⟨ts, htokens, (Parser.takes_script ?_).2 ss us hrun⟩
  obtain ⟨st, -, hts⟩ := bind_eq_ok.1 htokens
  cases hts
  exact ended_finish st

/-- **No name in a parsed script is empty.** -/
theorem notMem_identifiers_of_parseScript (h : parseScript source = .ok script) {s : Stmt Unit} (hs : s ∈ script) :
    "" ∉ s.identifiers := by
  obtain ⟨ts, htokens, hscript⟩ := parsed_of_parseScript h
  exact (hscript s hs).notMem_identifiers (spelled_tokenize htokens)

end OpGraph.Syntax
