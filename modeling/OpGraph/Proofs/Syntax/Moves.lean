import OpGraph.Proofs.Syntax.Lexing

/-!
The lexer as a machine that makes one move after the other. A move passes a line without tokens, lays out the start of a
line, ends a line, or reads a token or a part of a gap; `Move` says all that it can do, so that what holds of every text
is shown for a single move. The moves cut the text into pieces: a run that gives tokens makes moves to the end of the text,
and one that fails makes moves up to a place where there is none.
-/

namespace OpGraph

open List

variable {source : String} {ts : List Token}

namespace Lexer

open Syntax.Parser (isText depthAfter)

variable {c : Char} {f nl x : List Char} {width : ℕ}

/-- A line that holds only blanks, or blanks and a comment. -/
inductive IsFiller : List Char → Prop
  | blank {bs : List Char} : (∀ b ∈ bs, isBlank b = true) → IsFiller bs
  | comment {bs cs : List Char} : (∀ b ∈ bs, isBlank b = true) → '\n' ∉ cs → IsFiller (bs ++ '#' :: cs)

/-- The layout of a line comes next. -/
abbrev State.AtStart (st : State) : Prop :=
  st.lineStart = true ∧ st.depth = 0

/-- **One move**: the token that it gives, if it gives one, what it reads, the state after it and the text that is left. -/
inductive Move (st : State) : Option Token → List Char → State → List Char → Prop
  | filler {f nl rest : List Char} : st.AtStart → IsFiller f → nl = ['\n'] ∨ nl = [] ∧ rest = [] →
    Move st none (f ++ nl) (st.skip (f ++ nl)) rest
  | layout {blanks rest : List Char} {c : Char} {st' : State} : st.AtStart → (∀ b ∈ blanks, isBlank b = true) →
    startsToken c = true → Lexer.layout (st.skip blanks) (blankWidth blanks) = .ok st' →
    Move st none blanks st' (c :: rest)
  | line {rest : List Char} : ¬ st.AtStart → Move st none ['\n'] ((endLine st).skip ['\n']) rest
  | step {c : Char} {u rest : List Char} {tok : Option Token} : ¬ st.AtStart → Step c (u ++ rest) tok rest →
    Move st (tok.map fun t => { t with pos := st.pos }) (c :: u) (st.after tok (st.pos.afterAll (c :: u))) rest

/-- A place where the lexer cannot go on, with its error. -/
inductive Stuck (st : State) : List Char → Error → Prop
  | layout {blanks rest : List Char} {c : Char} {e : Error} : st.AtStart → (∀ b ∈ blanks, isBlank b = true) →
    Lexer.layout (st.skip blanks) (blankWidth blanks) = .error e → Stuck st (blanks ++ c :: rest) e
  | advance {c : Char} {rest : List Char} {e : Error} : Lexer.advance st c rest = .error e → Stuck st (c :: rest) e

/-- A part of a text that is read in one move, with the token that it is, if it is one. -/
structure Piece where
  token : Option Token
  text : List Char

def Piece.join (ps : List Piece) : List Char :=
  ps.flatMap Piece.text

@[simp] theorem Piece.join_nil : Piece.join [] = [] :=
  rfl

@[simp] theorem Piece.join_cons (p : Piece) (ps : List Piece) : Piece.join (p :: ps) = p.text ++ Piece.join ps :=
  flatMap_cons

@[simp] theorem Piece.join_append (ps qs : List Piece) : Piece.join (ps ++ qs) = Piece.join ps ++ Piece.join qs :=
  flatMap_append

/-- **Moves one after the other**, with the pieces that they read. -/
inductive Reads : State → List Char → List Piece → State → List Char → Prop
  | refl {st : State} {cs : List Char} : Reads st cs [] st cs
  | move {st st₁ st' : State} {tok : Option Token} {u rest rest' : List Char} {ps : List Piece} :
    Move st tok u st₁ rest → Reads st₁ rest ps st' rest' → Reads st (u ++ rest) (⟨tok, u⟩ :: ps) st' rest'

variable {st st₁ st' : State} {cs u rest rest' : List Char} {tok : Option Token} {ps qs : List Piece} {n : ℕ}

theorem Reads.trans (h : Reads st cs ps st₁ rest) (h' : Reads st₁ rest qs st' rest') : Reads st cs (ps ++ qs) st' rest' := by
  induction h with
  | refl => exact h'
  | move hmove _ ih => exact .move hmove (ih h')

theorem Reads.eq_append (h : Reads st cs ps st' rest) : cs = Piece.join ps ++ rest := by
  induction h with
  | refl => rfl
  | move _ _ ih => rw [ih, Piece.join_cons, append_assoc]

theorem Reads.split (h : Reads st cs (ps ++ qs) st' rest) :
    ∃ st₁ mid, Reads st cs ps st₁ mid ∧ Reads st₁ mid qs st' rest := by
  induction ps generalizing st cs with
  | nil => exact ⟨st, cs, .refl, h⟩
  | cons p ps ih =>
    rw [cons_append] at h
    cases h with
    | move hmove hrest =>
      obtain ⟨st₁, mid, hps, hqs⟩ := ih hrest
      exact ⟨st₁, mid, .move hmove hps, hqs⟩

/-! ### What the layout and a line end do -/

theorem closeBlocks_eq (width : ℕ) (pos : Position) (ws : List ℕ) (ts : List Token) :
    closeBlocks width pos ws ts = (ws.drop (ws.takeWhile (width < ·)).length,
      List.replicate (ws.takeWhile (width < ·)).length ⟨.dedent, "", ⟨pos.line, width⟩⟩ ++ ts) := by
  induction ws generalizing ts with
  | nil => rfl
  | cons w ws ih =>
    unfold closeBlocks
    split
    · rename_i hw
      rw [ih, takeWhile_cons_of_pos (by simpa using hw), length_cons, replicate_succ', append_assoc]
      rfl
    · rename_i hw
      rw [takeWhile_cons_of_neg (by simpa using hw)]
      rfl

theorem layout_eq_ok (h : layout st width = .ok st') :
    st' = { st with
      indents := width :: st.indents, lineStart := false,
      tokens := ⟨.indent, "", ⟨st.pos.line, width⟩⟩ :: st.tokens } ∨
    ∃ k ≤ st.indents.length, st' = { st with
      indents := st.indents.drop k, lineStart := false,
      tokens := List.replicate k ⟨.dedent, "", ⟨st.pos.line, width⟩⟩ ++ st.tokens } := by
  unfold layout at h
  split at h
  · exact .inl (Except.ok.inj h).symm
  · rw [closeBlocks_eq] at h
    dsimp only at h
    split at h
    · exact .inr ⟨_, (takeWhile_sublist _).length_le, (Except.ok.inj h).symm⟩
    · cases h

theorem lineStart_of_layout (h : layout st width = .ok st') : st'.lineStart = false := by
  rcases layout_eq_ok h with rfl | ⟨k, -, rfl⟩ <;> rfl

theorem endLine_eq (st : State) : endLine st = st ∨ st.depth = 0 ∧
    (endLine st = { st with lineStart := true } ∨ ∃ t ts, st.tokens = t :: ts ∧ t.kind ≠ .newline ∧
      endLine st = { st with lineStart := true, tokens := ⟨.newline, "", st.pos⟩ :: st.tokens }) := by
  unfold endLine
  split
  · rename_i hdepth
    refine .inr ⟨hdepth, ?_⟩
    cases htokens : st.tokens with
    | nil => simp [State.lastKind, htokens]
    | cons t ts => cases hk : t.kind <;> simp [State.lastKind, State.push, htokens, hk]
  · exact .inl rfl

/-! ### From runs to moves -/

theorem leadingBlanks?_eq_some {blanks : List Char} (h : leadingBlanks? cs = some (blanks, rest)) :
    (∀ b ∈ blanks, isBlank b = true) ∧ cs = blanks ++ rest ∧ ∃ c r, rest = c :: r ∧ startsToken c = true := by
  unfold leadingBlanks? at h
  split at h
  · cases h
  · rename_i c r hdrop
    have hc : isBlank c = false := by
      have := head?_dropWhile_not isBlank cs
      rwa [hdrop] at this
    split at h
    · cases h
    · rename_i hend
      cases h
      refine ⟨fun b hb => mem_takeWhile_imp hb, ?_, c, r, rfl, ?_⟩
      · rw [← hdrop, takeWhile_append_dropWhile]
      · simpa [startsToken, hc] using hend

theorem isFiller_of_leadingBlanks? (h : leadingBlanks? cs = none) : IsFiller (cs.takeWhile (· ≠ '\n')) := by
  have hblanks : ∀ b ∈ cs.takeWhile isBlank, isBlank b = true := fun b hb => mem_takeWhile_imp hb
  have hline : ∀ b ∈ cs.takeWhile isBlank, decide (b ≠ '\n') = true := by
    intro b hb
    refine decide_eq_true ?_
    rintro rfl
    exact absurd (hblanks _ hb) (by decide)
  rw [← takeWhile_append_dropWhile (p := isBlank) (l := cs), takeWhile_append_of_pos hline]
  unfold leadingBlanks? at h
  split at h
  · rename_i hdrop
    simpa [hdrop] using IsFiller.blank hblanks
  · rename_i c r hdrop
    rw [hdrop]
    split at h
    · rename_i hend
      rcases hend with rfl | rfl
      · simpa using IsFiller.blank hblanks
      · have hcomment : '\n' ∉ r.takeWhile (· ≠ '\n') := fun hmem => by simpa using mem_takeWhile_imp hmem
        simpa using IsFiller.comment hblanks hcomment
    · cases h

theorem step_or_line (h : advance st c rest = .ok (st', rest')) : c = '\n' ∨ ∃ tok, Step c rest tok rest' := by
  by_cases hline : c = '\n'
  · exact .inl hline
  refine .inr ?_
  by_cases hblank : isBlank c = true
  · rw [advance, if_pos hblank] at h
    cases h
    exact ⟨none, step_blank hblank⟩
  by_cases hhash : c = '#'
  · subst hhash
    rw [advance, if_neg hblank, if_pos rfl] at h
    have hend : LineEnd (rest.dropWhile (· ≠ '\n')) := fun d hd => by
      have := head?_dropWhile_not (fun c : Char => decide (c ≠ '\n')) rest
      rw [Option.mem_def.1 hd] at this
      simpa using this
    have htext : '\n' ∉ rest.takeWhile (· ≠ '\n') := fun hmem => by
      simpa using mem_takeWhile_imp hmem
    have hstep := step_comment hend htext
    rw [takeWhile_append_dropWhile] at hstep
    cases h
    exact ⟨none, hstep⟩
  by_cases hslash : c = '\\' ∧ rest.head? = some '\n'
  · rw [advance, if_neg hblank, if_neg hhash, if_pos hslash] at h
    obtain ⟨rfl, hrest⟩ := hslash
    obtain ⟨r, rfl⟩ := head?_eq_some_iff.1 hrest
    cases h
    exact ⟨none, step_joined⟩
  obtain ⟨t, hstep⟩ := step_of_advance (x := []) gapped_nil (by simpa using h) hblank hhash hline (by simpa using hslash)
  exact ⟨some t, by simpa using hstep [] gapped_nil⟩

theorem move_of_advance (hst : ¬ st.AtStart) (h : advance st c rest = .ok (st', rest')) :
    ∃ tok u, c :: rest = c :: u ++ rest' ∧ Move st tok (c :: u) st' rest' := by
  rcases step_or_line h with rfl | ⟨tok, hstep⟩
  · cases h
    exact ⟨none, [], rfl, .line hst⟩
  · obtain ⟨u, rfl, hlexeme, hadvance⟩ := hstep
    obtain ⟨rfl, -⟩ := Prod.mk.inj (Except.ok.inj ((hadvance st).symm.trans h))
    exact ⟨_, u, rfl, .step hst ⟨u, rfl, hlexeme, hadvance⟩⟩

theorem State.not_atStart (h : st.lineStart = false) : ¬ st.AtStart := by
  simp [State.AtStart, h]

/-- What a run comes to: the end of the text, or a place where the lexer is stuck. -/
def Ends (st : State) (cs : List Char) (r : Except Error State) : Prop :=
  (∀ st', r = .ok st' → ∃ ps, Reads st cs ps st' []) ∧
    ∀ e, r = .error e → ∃ ps st' rest, Reads st cs ps st' rest ∧ Stuck st' rest e

theorem Ends.move {r : Except Error State} (hmove : Move st tok u st₁ rest) (h : Ends st₁ rest r) :
    Ends st (u ++ rest) r := by
  refine ⟨fun st' hr => ?_, fun e hr => ?_⟩
  · obtain ⟨ps, hps⟩ := h.1 st' hr
    exact ⟨_, .move hmove hps⟩
  · obtain ⟨ps, st', rest', hps, hstuck⟩ := h.2 e hr
    exact ⟨_, st', rest', .move hmove hps, hstuck⟩

theorem Ends.stuck {e : Error} (h : Stuck st cs e) : Ends st cs (.error e) := by
  refine ⟨by simp, fun e' he => ?_⟩
  obtain rfl := Except.error.inj he
  exact ⟨[], st, cs, .refl, h⟩

theorem ends_advance (hst : ¬ st.AtStart)
    (ih : ∀ {st : State} {cs : List Char}, cs.length ≤ rest.length → Ends st cs (run n st cs)) :
    Ends st (c :: rest) (advance st c rest >>= fun r => run n r.1 r.2) := by
  cases h : advance st c rest with
  | error e => exact .stuck (.advance h)
  | ok r =>
    obtain ⟨tok, u, hrest, hmove⟩ := move_of_advance hst h
    have hlen : r.2.length ≤ rest.length := by
      rw [(List.cons.inj hrest).2]
      simp
    rw [hrest]
    exact .move hmove (ih hlen)

/-- **A run is a sequence of moves.** -/
theorem ends_run (hn : cs.length ≤ n) : Ends st cs (run n st cs) := by
  have hdone : ∀ {st : State}, Ends st [] (.ok st) := fun {st} =>
    ⟨fun st' h => ⟨[], Except.ok.inj h ▸ .refl⟩, by simp⟩
  induction n generalizing st cs with
  | zero =>
    obtain rfl : cs = [] := by simpa using hn
    exact hdone
  | succ n ih =>
    cases cs with
    | nil => exact hdone
    | cons c rest =>
      have hn : rest.length ≤ n := by simpa using hn
      have ih : ∀ {st : State} {cs : List Char}, cs.length ≤ rest.length → Ends st cs (run n st cs) := fun h =>
        ih (h.trans hn)
      rw [run]
      split
      · rename_i hst
        split
        · rename_i hblanks
          have hfiller := isFiller_of_leadingBlanks? hblanks
          have hend := head?_dropWhile_not (fun c : Char => decide (c ≠ '\n')) (c :: rest)
          have hlen := (dropWhile_suffix (l := c :: rest) (fun c => decide (c ≠ '\n'))).length_le
          have hsplit := takeWhile_append_dropWhile (p := fun c => decide (c ≠ '\n')) (l := c :: rest)
          generalize (c :: rest).dropWhile (· ≠ '\n') = ds at hend hlen hsplit ⊢
          generalize (c :: rest).takeWhile (· ≠ '\n') = f at hfiller hsplit ⊢
          rw [← hsplit]
          cases ds with
          | nil =>
            rw [← append_nil (f ++ [])]
            exact .move (.filler hst hfiller (.inr ⟨rfl, rfl⟩)) (ih (by simp))
          | cons d ds =>
            obtain rfl : d = '\n' := by simpa using hend
            rw [append_cons]
            exact .move (.filler hst hfiller (.inl rfl)) (ih (by simpa using hlen))
        · rename_i blanks rest' hblanks
          obtain ⟨hblank, hcs, d, r, rfl, hd⟩ := leadingBlanks?_eq_some hblanks
          rw [hcs]
          cases hlayout : layout (st.skip blanks) (blankWidth blanks) with
          | error e => exact .stuck (.layout hst hblank hlayout)
          | ok st₁ =>
            refine .move (.layout hst hblank hd hlayout) (ends_advance (State.not_atStart (lineStart_of_layout hlayout)) ?_)
            intro st cs hlen
            refine ih (hlen.trans ?_)
            have := congrArg List.length hcs
            simp at this
            omega
      · rename_i hst
        exact ends_advance hst ih

/-! ### From moves to runs -/

theorem leadingBlanks?_eq {blanks : List Char} (hblanks : ∀ b ∈ blanks, isBlank b = true) (hc : startsToken c = true)
    (rest : List Char) : leadingBlanks? (blanks ++ c :: rest) = some (blanks, c :: rest) := by
  simp only [startsToken, Bool.and_eq_true, Bool.not_eq_true', decide_eq_true_eq] at hc
  have hdrop : (blanks ++ c :: rest).dropWhile isBlank = c :: rest := by
    rw [dropWhile_append_of_pos hblanks, dropWhile_cons_of_neg (by simp [hc])]
  have htake : (blanks ++ c :: rest).takeWhile isBlank = blanks := by
    rw [takeWhile_append_of_pos hblanks, takeWhile_cons_of_neg (by simp [hc]), append_nil]
  unfold leadingBlanks?
  rw [hdrop, htake]
  exact if_neg (by simp [hc])

theorem run_line {blanks : List Char} (hblanks : ∀ b ∈ blanks, isBlank b = true) (hc : startsToken c = true)
    (hst : st.lineStart = true) (hdepth : st.depth = 0) (n : Nat) (rest : List Char) :
    Lexer.run (n + 1) st (blanks ++ c :: rest) =
      layout (st.skip blanks) (blankWidth blanks) >>= fun st' => Lexer.run (n + 1) st' (c :: rest) := by
  obtain ⟨d, ds, hd⟩ : ∃ d ds, blanks ++ c :: rest = d :: ds := by cases blanks <;> exact ⟨_, _, rfl⟩
  rw [hd, Lexer.run, if_pos ⟨hst, hdepth⟩, ← hd, leadingBlanks?_eq hblanks hc]
  dsimp only
  cases hlayout : layout (st.skip blanks) (blankWidth blanks) with
  | error e => rfl
  | ok st' =>
    change _ = Lexer.run (n + 1) st' (c :: rest)
    rw [Lexer.run, if_neg (by simp [lineStart_of_layout hlayout])]
    rfl

theorem IsFiller.newline_notMem (hf : IsFiller f) : '\n' ∉ f := by
  have hblank : ∀ {bs : List Char}, (∀ b ∈ bs, isBlank b = true) → '\n' ∉ bs := fun h hmem =>
    absurd (h _ hmem) (by decide)
  cases hf with
  | blank h => exact hblank h
  | comment h hcs => simp [hblank h, hcs]

theorem LineEnd.dropWhile_ne (hx : LineEnd x) : x.dropWhile (· ≠ '\n') = x := by
  cases x with
  | nil => rfl
  | cons c x =>
    obtain rfl := hx c rfl
    rfl

theorem leadingBlanks?_filler (hf : IsFiller f) (hx : LineEnd x) : leadingBlanks? (f ++ x) = none := by
  unfold leadingBlanks?
  cases hf with
  | blank h =>
    rw [dropWhile_append_of_pos h]
    cases x with
    | nil => rfl
    | cons c x =>
      obtain rfl := hx c rfl
      rfl
  | comment h =>
    rw [append_assoc, dropWhile_append_of_pos h]
    rfl

theorem run_nil (n : Nat) (st : State) : run n st [] = .ok st := by
  cases n <;> rfl

theorem run_filler {rest : List Char} (hf : IsFiller f) (hline : st.lineStart = true) (hdepth : st.depth = 0)
    (hnl : nl = ['\n'] ∨ nl = [] ∧ rest = []) {n : Nat} (hn : (f ++ nl ++ rest).length ≤ n) :
    ∃ m, rest.length ≤ m ∧ run n st (f ++ nl ++ rest) = run m (st.skip (f ++ nl)) rest := by
  have hx : LineEnd (nl ++ rest) := by rcases hnl with rfl | ⟨rfl, rfl⟩ <;> simp [LineEnd]
  have hall : ∀ c ∈ f, decide (c ≠ '\n') = true := fun c hc => by
    simpa using fun h : c = '\n' => hf.newline_notMem (h ▸ hc)
  have htake : (f ++ (nl ++ rest)).takeWhile (· ≠ '\n') = f := by
    rw [takeWhile_append_of_pos hall]
    rcases hnl with rfl | ⟨rfl, rfl⟩ <;> simp
  have hdrop : (f ++ (nl ++ rest)).dropWhile (· ≠ '\n') = nl ++ rest := by
    rw [dropWhile_append_of_pos hall, hx.dropWhile_ne]
  have hrest : (nl ++ rest).take 1 = nl ∧ (nl ++ rest).drop 1 = rest := by
    rcases hnl with rfl | ⟨rfl, rfl⟩ <;> exact ⟨rfl, rfl⟩
  rw [append_assoc] at hn ⊢
  cases htext : f ++ (nl ++ rest) with
  | nil =>
    obtain ⟨rfl, hrest⟩ := append_eq_nil_iff.1 htext
    obtain ⟨rfl, rfl⟩ := append_eq_nil_iff.1 hrest
    exact ⟨n, Nat.zero_le _, rfl⟩
  | cons c cs =>
    obtain ⟨k, rfl⟩ : ∃ k, n = k + 1 := ⟨n - 1, by simp [htext] at hn; omega⟩
    have hlen : rest.length ≤ k := by
      rw [← hrest.2, length_drop]
      rw [length_append] at hn
      omega
    refine ⟨k, hlen, ?_⟩
    rw [run, if_pos ⟨hline, hdepth⟩, ← htext, leadingBlanks?_filler hf hx]
    dsimp only
    rw [htake, hdrop, hrest.1, hrest.2]

theorem Move.run (h : Move st tok u st' rest) (hn : (u ++ rest).length ≤ n) :
    ∃ m, rest.length ≤ m ∧ Lexer.run n st (u ++ rest) = Lexer.run m st' rest := by
  cases h with
  | filler hst hf hnl => exact run_filler hf hst.1 hst.2 hnl hn
  | @layout blanks rest c _ hst hblanks hc hlayout =>
    obtain ⟨k, rfl⟩ : ∃ k, n = k + 1 := ⟨n - 1, by simp at hn; omega⟩
    refine ⟨k + 1, by simp at hn ⊢; omega, ?_⟩
    rw [run_line hblanks hc hst.1 hst.2, hlayout]
    rfl
  | line hst =>
    obtain ⟨k, rfl⟩ : ∃ k, n = k + 1 := ⟨n - 1, by simp at hn; omega⟩
    refine ⟨k, by simpa using hn, ?_⟩
    rw [singleton_append, Lexer.run, if_neg hst]
    rfl
  | step hst hstep =>
    obtain ⟨v, hv, -, hadvance⟩ := hstep
    obtain rfl := append_cancel_right hv
    obtain ⟨k, rfl⟩ : ∃ k, n = k + 1 := ⟨n - 1, by simp at hn; omega⟩
    refine ⟨k, by simp at hn; omega, ?_⟩
    rw [cons_append, Lexer.run, if_neg hst, hadvance]
    rfl

/-- **Moves are made by a run.** -/
theorem Reads.run (h : Reads st cs ps st' rest) (hn : cs.length ≤ n) :
    ∃ m, rest.length ≤ m ∧ Lexer.run n st cs = Lexer.run m st' rest := by
  induction h generalizing n with
  | refl => exact ⟨n, hn, rfl⟩
  | move hmove _ ih =>
    obtain ⟨k, hk, hrun⟩ := hmove.run hn
    obtain ⟨m, hm, hrun'⟩ := ih hk
    exact ⟨m, hm, hrun.trans hrun'⟩

theorem reads_of_tokenize (h : tokenize source = .ok ts) :
    ∃ ps st, Reads {} (Source.normalize source.toList) ps st [] ∧ ts = finish st := by
  obtain ⟨st, hrun, hts⟩ := bind_eq_ok.1 h
  obtain ⟨ps, hps⟩ := (ends_run le_rfl).1 st hrun
  exact ⟨ps, st, hps, (Except.ok.inj hts).symm⟩

theorem tokenize_of_reads (h : Reads {} (Source.normalize source.toList) ps st []) :
    tokenize source = .ok (finish st) := by
  obtain ⟨m, -, hrun⟩ := h.run le_rfl
  rw [tokenize, hrun, run_nil]
  rfl

/-! ### What is read -/

theorem Move.pos (h : Move st tok u st' rest) : st'.pos = st.pos.afterAll u := by
  cases h with
  | filler => rfl
  | layout _ _ _ hlayout => rcases layout_eq_ok hlayout with rfl | ⟨k, -, rfl⟩ <;> rfl
  | line => rcases endLine_eq st with hend | ⟨-, hend | ⟨_, _, -, -, hend⟩⟩ <;> rw [State.skip, hend]
  | @step c u _ tok => cases tok <;> rfl

theorem Reads.pos (h : Reads st cs ps st' rest) : st'.pos = st.pos.afterAll (Piece.join ps) := by
  induction h with
  | refl => rfl
  | move hmove _ ih => rw [ih, hmove.pos, Piece.join_cons, Position.afterAll_append]

theorem IsGap.blanks {blanks : List Char} (h : ∀ b ∈ blanks, isBlank b = true) (hu : IsGap u x) :
    IsGap (blanks ++ u) x := by
  induction blanks with
  | nil => exact hu
  | cons b bs ih =>
    obtain ⟨hb, hbs⟩ := forall_mem_cons.1 h
    exact .blank hb (ih hbs)

theorem IsFiller.isGap (hf : IsFiller f) (hx : LineEnd (nl ++ x)) (hnl : IsGap nl x) : IsGap (f ++ nl) x := by
  cases hf with
  | blank hblanks => exact hnl.blanks hblanks
  | comment hblanks hcs =>
    rw [append_assoc, cons_append]
    exact (IsGap.comment hcs hx hnl).blanks hblanks

/-- What a move reads is a token that is placed where the move starts, or a part of a gap. -/
theorem Move.lexeme (h : Move st tok u st' rest) : Lexeme u rest tok ∧ ∀ t ∈ tok, u ≠ [] ∧ t.pos = st.pos := by
  cases h with
  | filler _ hf hnl =>
    refine ⟨?_, by simp⟩
    rcases hnl with rfl | ⟨rfl, rfl⟩
    · exact hf.isGap (by simp [LineEnd]) (.line .nil)
    · exact hf.isGap (by simp [LineEnd]) .nil
  | layout _ hblanks => exact ⟨by simpa [Lexeme] using IsGap.nil.blanks hblanks, by simp⟩
  | line => exact ⟨.line .nil, by simp⟩
  | @step c u _ tok _ hstep =>
    obtain ⟨v, hv, hlexeme, -⟩ := hstep
    obtain rfl := append_cancel_right hv
    cases tok with
    | none => exact ⟨hlexeme, by simp⟩
    | some t => exact ⟨hlexeme, by simp⟩

theorem Reads.lexeme {a b : List Piece} (h : Reads st cs (a ++ ⟨tok, u⟩ :: b) st' rest) :
    Lexeme u (Piece.join b ++ rest) tok ∧ ∀ t ∈ tok, u ≠ [] ∧ t.pos = st.pos.afterAll (Piece.join a) := by
  obtain ⟨st₁, mid, ha, hmove⟩ := h.split
  cases hmove with
  | move hmove hb =>
    rw [← hb.eq_append, ← ha.pos]
    exact hmove.lexeme

theorem Move.text (h : Move st tok u st' rest) : st'.tokens.filter isText = tok.toList ++ st.tokens.filter isText := by
  cases h with
  | filler => rfl
  | layout _ _ _ hlayout => rcases layout_eq_ok hlayout with rfl | ⟨k, -, rfl⟩ <;> simp [isText, State.skip]
  | line =>
    rcases endLine_eq st with hend | ⟨-, hend | ⟨_, _, -, -, hend⟩⟩ <;> rw [State.skip, hend] <;> simp [isText]
  | @step c u _ tok _ hstep =>
    cases tok with
    | none => rfl
    | some t => exact filter_cons_of_pos hstep.isText

theorem Reads.text (h : Reads st cs ps st' rest) : st'.tokens.reverse.filter isText =
    st.tokens.reverse.filter isText ++ ps.filterMap Piece.token := by
  induction h with
  | refl => simp
  | @move _ _ _ tok _ _ _ ps hmove _ ih =>
    have htext := hmove.text
    rw [ih, filter_reverse, htext, filter_reverse]
    cases tok <;> simp

/-- The end of the text ends the last line and closes the blocks that are open. -/
theorem finish_eq (st : State) : ∃ last, (last = [] ∨ ∃ t ts, st.tokens = t :: ts ∧ t.kind ≠ .newline ∧
      last = [⟨.newline, "", st.pos⟩]) ∧
    finish st = st.tokens.reverse ++ (last ++ List.replicate st.indents.length ⟨.dedent, "", ⟨st.pos.line, 0⟩⟩) ++
      [⟨.eof, "", st.pos⟩] := by
  unfold finish
  rw [map_const']
  cases htokens : st.tokens with
  | nil => exact ⟨[], .inl rfl, by simp [State.lastKind, htokens]⟩
  | cons t ts => cases hk : t.kind <;> simp [State.lastKind, htokens, hk]

theorem Reads.filter_finish (h : Reads {} cs ps st []) : (finish st).filter isText = ps.filterMap Piece.token := by
  obtain ⟨last, hlast, hfinish⟩ := finish_eq st
  have hlayout : last.filter isText = [] := by rcases hlast with rfl | ⟨_, _, -, -, rfl⟩ <;> rfl
  rw [hfinish, filter_append, filter_append, h.text, filter_append, hlayout]
  simp [isText]

end Lexer

theorem spelled_tokenize (h : tokenize source = .ok ts) : ∀ t ∈ ts, t.Spelled := by
  obtain ⟨ps, st, hreads, rfl⟩ := Lexer.reads_of_tokenize h
  intro t ht hk
  have hmem : t ∈ ps.filterMap Lexer.Piece.token := by
    rw [← hreads.filter_finish]
    exact mem_filter.2 ⟨ht, by simp [Syntax.Parser.isText, hk]⟩
  obtain ⟨p, hp, hpt⟩ := mem_filterMap.1 hmem
  obtain ⟨a, b, rfl⟩ := append_of_mem hp
  have hlexeme : Lexer.Lexeme p.text _ p.token := (Lexer.Reads.lexeme hreads).1
  rw [hpt] at hlexeme
  exact hlexeme.2.2 hk

end OpGraph
