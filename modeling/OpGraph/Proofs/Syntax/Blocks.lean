import OpGraph.Proofs.Syntax.Precedence

/-!
Statements and their blocks. A compound statement is a head up to its colon, a block, and what may follow the block; the
head and the simple statements of a line are tracked as the parsers of expressions are, so that they can be read again
from the tokens of another text. `Parses` says that some tokens, wherever they are placed, are read as statements before
whatever does not carry them on.
-/

namespace OpGraph

open List

variable {s : List Token} {fault : SyntaxFault} {u : Token} {α : Type}

/-- A compound statement with other blocks. -/
def Stmt.fill (body orelse : List (Stmt Unit)) : Stmt Unit → Stmt Unit
  | function m f => function m { f with body }
  | cond m test _ _ => cond m test body orelse
  | forLoop m target iter _ _ => forLoop m target iter body orelse
  | whileLoop m test _ _ => whileLoop m test body orelse
  | s => s

@[simp] theorem Stmt.fill_fill (b o b' o' : List (Stmt Unit)) (s : Stmt Unit) :
    (s.fill b o).fill b' o' = s.fill b' o' := by
  cases s <;> rfl

theorem Stmt.unplaced_fill (b o : List (Stmt Unit)) (s : Stmt Unit) :
    (s.fill b o).unplaced = s.unplaced.fill (b.map Stmt.unplaced) (o.map Stmt.unplaced) := by
  cases s with
  | function m f =>
    obtain ⟨x, params, defaults, body, returns⟩ := f
    simp [Stmt.fill, Stmt.unplaced]
  | _ => simp [Stmt.fill, Stmt.unplaced]

/-- What may follow the block of a compound statement: nothing, an else block, or also more branches. -/
inductive Tail where
  | closed
  | loop
  | branch
  deriving DecidableEq

def Stmt.tail : Stmt Unit → Tail
  | cond .. => .branch
  | forLoop .. | whileLoop .. => .loop
  | _ => .closed

@[simp] theorem Stmt.tail_fill (b o : List (Stmt Unit)) (s : Stmt Unit) : (s.fill b o).tail = s.tail := by
  cases s <;> rfl

@[simp] theorem Stmt.tail_unplaced (s : Stmt Unit) : s.unplaced.tail = s.tail := by
  cases s with
  | function m f =>
    obtain ⟨x, params, defaults, body, returns⟩ := f
    rfl
  | _ => rfl

namespace Syntax.Parser

variable {src front rest : List Token} {n K : ℕ} {head : Parser (Stmt Unit)} {t : Token}

/-! ### Lines -/

/-- Simple statements of one line, up to its end. -/
def smallLine : Parser (List (Stmt Unit)) := do
  let first ← smallStatement
  return first :: (← lineRest (← remaining))

theorem simpleLine_eq : simpleLine = (do
    let ss ← smallLine
    discard (expectKind .newline)
    return ss) := by
  simp [simpleLine, smallLine]

theorem tracks_smallLine : Tracks src n K front (ParsedStmts src) (List.map Stmt.unplaced) smallLine smallLine := by
  refine tracks_bind tracks_smallStatement fun s s' hs hss => tracks_remaining fun k m n' K' _ hm => ?_
  refine tracks_last (tracks_lineRest hm) fun rs rs' hrs hrss => ?_
  exact ⟨forall_mem_cons.2 ⟨hs, hrs⟩, by rw [map_cons, map_cons, hss, hrss]⟩

/-! ### Heads of compound statements -/

def parametersView (r : List Param × List Expr) : List Param × List Expr :=
  (r.1.map Param.unplaced, r.2.map Expr.unplaced)

theorem tracks_optional {γ : Type} {v : α → γ} {P : α → Prop} {op : String} (hop : op ∉ brackets)
    {f g : Option Expr → Parser α}
    (h : ∀ e e', Optional src e → e.map Expr.unplaced = e'.map Expr.unplaced → Tracks src n K [] P v (f e) (g e')) :
    Tracks src n K front P v
      (acceptOp op >>= fun b => if b then some <$> expression >>= f else pure none >>= f)
      (acceptOp op >>= fun b => if b then some <$> expression >>= g else pure none >>= g) := by
  refine tracks_acceptOp hop ?_ (tracks_bind tracks_none h)
  exact tracks_bind (tracks_some tracks_expression) fun e e' he hee => (h e e' he hee).mono (by omega)

theorem tracks_parameters {function : String} : ∀ {fuel m n K : ℕ} {front : List Token} {seen : Bool},
    n ≤ fuel ∧ K ≤ m →
    Tracks src n K front (ParsedParams src) parametersView (parameters function seen fuel) (parameters function seen m)
  | 0, _, _, _, _, _, h => .of_empty h.1
  | fuel + 1, _, n, K, _, seen, h => by
    have hnil : ParsedParams src ([], []) := ⟨by simp, le_rfl, by simp⟩
    refine replays_fuel (F := parameters function seen) (fun m hm => ?_) h.2
    refine tracks_peek fun t u ht htu => ?_
    rw [← Token.isOp_eq_of_unplaced htu, ← Token.isOp_eq_of_unplaced htu, ← Token.isOp_eq_of_unplaced htu]
    refine tracks_ite Iff.rfl (fun _ => tracks_pure hnil rfl) fun _ => ?_
    refine tracks_ite Iff.rfl (fun _ => replays_failAt (by simp) ht) fun _ => ?_
    refine tracks_bind tracks_identifier fun x y hx hxy => ?_
    obtain rfl : x = y := hxy
    refine tracks_optional (by decide) fun type type' htype htype' => ?_
    refine tracks_optional (by decide) fun default default' hdefault hdefault' => ?_
    have hsome : default.isSome = default'.isSome := by
      rw [← Option.isSome_map (f := Expr.unplaced), hdefault', Option.isSome_map]
    have hlist : default.toList.map Expr.unplaced = default'.toList.map Expr.unplaced := by
      rw [← Option.toList_map, hdefault', Option.toList_map]
    have hparam : (⟨t.pos, x, type⟩ : Param).unplaced = (⟨u.pos, x, type'⟩ : Param).unplaced := by
      simp [Param.unplaced, htype']
    refine tracks_ite (by rw [← Option.not_isSome, ← Option.not_isSome, hsome]) (fun _ => replays_failAt (by simp) ht) ?_
    refine fun _ => tracks_acceptOp (by decide) ?_ (tracks_pure ?_ (by simp [parametersView, hparam, hlist]))
    · rw [hsome]
      refine tracks_last (tracks_parameters (by omega)) fun r r' hr hrr => ⟨hr.cons hx htype hdefault, ?_⟩
      simp only [parametersView, Prod.mk.injEq] at hrr
      simp [parametersView, hparam, hlist, hrr]
    · simpa using hnil.cons hx htype hdefault

def functionHead : Parser (Stmt Unit) := do
  let start ← expectWord "def"
  let name ← identifier
  discard (expectOp "(")
  let (params, defaults) ← parameters name false (← remaining)
  discard (expectOp ")")
  let returns ← if ← acceptOp "->" then some <$> expression else pure none
  return .function (markOf start) { name, params, defaults, body := [], returns }

def condHead : Parser (Stmt Unit) := do
  let start ← next
  let test ← condition
  return .cond (markOf start) test [] []

def forHead : Parser (Stmt Unit) := do
  let start ← expectWord "for"
  let target ← loopTarget
  discard (expectWord "in")
  let iter ← expressionList
  return .forLoop (markOf start) target iter [] []

def whileHead : Parser (Stmt Unit) := do
  let start ← expectWord "while"
  let test ← condition
  return .whileLoop (markOf start) test [] []

/-- The parser of the head that a word begins. -/
def headOf (t : Token) : Option (Parser (Stmt Unit)) :=
  if t.isWord "def" then some functionHead
  else if t.isWord "if" then some condHead
  else if t.isWord "for" then some forHead
  else if t.isWord "while" then some whileHead
  else none

/-- What may follow the block of a compound statement. -/
def elsePart (statement : Parser (List (Stmt Unit))) (n : Nat) : Tail → Parser (List (Stmt Unit))
  | .closed => pure []
  | .loop => loopElse statement
  | .branch => do
    let elif ← checkWord "elif"
    let els ← acceptWord "else"
    if elif then (fun s => [s]) <$> conditional statement n
    else if els then block statement
    else pure []

/-- A compound statement from the parser of its head. -/
def compound (head : Parser (Stmt Unit)) (statement : Parser (List (Stmt Unit))) (n : Nat) : Parser (Stmt Unit) := do
  let s ← head
  let body ← block statement
  return s.fill body (← elsePart statement n s.tail)

section

variable (statement : Parser (List (Stmt Unit))) (n : Nat)

theorem functionStatement_eq : functionStatement statement = compound functionHead statement n := by
  simp only [functionStatement, compound, functionHead, bind_assoc]
  congr 1; funext start; congr 1; funext x; congr 1; funext _; congr 1; funext k; congr 1; funext r; congr 1; funext _
  congr 1; funext b
  cases b <;> simp [elsePart, Stmt.fill, Stmt.tail]

theorem conditional_eq : conditional statement (n + 1) = compound condHead statement n := by
  simp only [conditional, compound, condHead, bind_assoc, pure_bind, elsePart, Stmt.fill, Stmt.tail]
  congr 1; funext start; congr 1; funext test; congr 1; funext body; congr 1; funext elif; congr 1; funext els
  cases elif <;> cases els <;> simp

theorem forStatement_eq : forStatement statement = compound forHead statement n := by
  simp [forStatement, compound, forHead, elsePart, Stmt.fill, Stmt.tail]

theorem whileStatement_eq : whileStatement statement = compound whileHead statement n := by
  simp [whileStatement, compound, whileHead, elsePart, Stmt.fill, Stmt.tail]

end

/-! ### Tracking heads -/

/-- The head of a statement: with parsed blocks it is a parsed statement. -/
def ParsedHead (src : List Token) (s : Stmt Unit) : Prop :=
  ∀ ⦃body orelse⦄, ParsedBlock src body → ParsedStmts src orelse → ParsedStmt src (s.fill body orelse)

/-- Parsers of one head. -/
abbrev TracksHead (src : List Token) (n K : ℕ) (front : List Token) (p q : Parser (Stmt Unit)) : Prop :=
  Tracks src n K front (ParsedHead src) Stmt.unplaced p q

theorem tracks_functionHead : TracksHead src n K front functionHead functionHead := by
  refine tracks_expectWord fun t u => tracks_bind tracks_identifier fun x y hx hxy => ?_
  obtain rfl : x = y := hxy
  rw [discard_bind, discard_bind]
  refine replays_expect (fun _ => rfl) (fun _ => ne_eof_of_isOp) fun v _ _ hv _ => ?_
  refine replays_remaining fun k m n' K' _ hm => replays_closing .round hv (tracks_parameters hm) fun r r' hr hrr => ?_
  refine tracks_optional (by decide) fun e e' he hee => tracks_pure ?_ ?_
  · exact fun _ _ hbody _ => .function hx hr.1 hr.2.1 hr.2.2 hbody.filled hbody.stmts he
  · simp only [parametersView, Prod.mk.injEq] at hrr
    simp [Stmt.unplaced, hrr, hee]

theorem tracks_condHead (ht : t.kind = .name) : TracksHead src n K [t] condHead condHead := by
  refine tracks_next (tidy_of_kind (.inl ht)) fun u _ => tracks_last tracks_condition fun e e' he hee => ?_
  exact ⟨fun _ _ hbody => .cond he hbody.filled hbody.stmts, by simp [Stmt.unplaced, hee]⟩

theorem tracks_forHead : TracksHead src n K front forHead forHead := by
  refine tracks_expectWord fun t u => tracks_bind tracks_loopTarget fun e e' he hee => ?_
  rw [discard_bind, discard_bind]
  refine tracks_expectWord fun _ _ => tracks_last tracks_expressionList fun i i' hi hii => ?_
  exact ⟨fun _ _ hbody => .forLoop he hi hbody.filled hbody.stmts, by simp [Stmt.unplaced, hee, hii]⟩

theorem tracks_whileHead : TracksHead src n K front whileHead whileHead := by
  refine tracks_expectWord fun t u => tracks_last tracks_condition fun e e' he hee => ?_
  exact ⟨fun _ _ hbody => .whileLoop he hbody.filled hbody.stmts, by simp [Stmt.unplaced, hee]⟩

theorem headOf_eq_of_unplaced (h : t.unplaced = u.unplaced) : headOf t = headOf u := by
  simp only [headOf, Token.isWord_eq_of_unplaced h]

theorem tracks_headOf (h : headOf t = some head) : TracksHead src n K [t] head head := by
  unfold headOf at h
  split at h
  · cases h
    exact tracks_functionHead
  split at h
  · cases h
    exact tracks_condHead (Token.kind_of_isWord ‹_›)
  split at h
  · cases h
    exact tracks_forHead
  split at h
  · cases h
    exact tracks_whileHead
  · cases h

def lead (head : Parser (Stmt Unit)) : Parser (Stmt Unit) := do
  let s ← head
  discard (expectOp ":")
  return s

theorem tracks_lead (h : TracksHead src n K front head head) : TracksHead src n K front (lead head) (lead head) := by
  refine tracks_bind h fun s s' hs hss => ?_
  rw [discard_bind, discard_bind]
  exact tracks_expect (fun _ => rfl) (fun t ht => tidy_of_isOp ht (by decide)) fun _ _ _ _ _ => tracks_pure hs hss

/-! ### Statements by their first token -/

section

variable {k : Nat} {ts : List Token}

theorem kind_of_headOf (h : headOf t = some head) : t.kind = .name := by
  by_contra hk
  simp [headOf, Token.isWord, hk] at h

theorem run_statement_compound (h : s.head?.bind headOf = some head) :
    (statement (k + 1)).run s = (compound head (statement k) (s.length - 1) >>= fun c => pure [c]).run s := by
  obtain ⟨t, ts, rfl⟩ : ∃ t ts, s = t :: ts := exists_cons_of_ne_nil (by rintro rfl; cases h)
  replace h : headOf t = some head := h
  have hk := kind_of_headOf h
  rw [statement, run_peek_bind, if_neg (by simp [Token.isOp, hk]), if_neg (by simp [hk])]
  unfold headOf at h
  split at h
  · cases h
    rw [if_pos ‹_›, functionStatement_eq]
  rw [if_neg ‹_›]
  split at h
  · cases h
    rw [if_pos ‹_›, run_remaining_bind, length_cons, conditional_eq, Nat.add_sub_cancel]
  rw [if_neg ‹_›]
  split at h
  · cases h
    rw [if_pos ‹_›, forStatement_eq]
  rw [if_neg ‹_›]
  split at h
  · cases h
    rw [if_pos ‹_›, whileStatement_eq]
  · cases h

theorem run_statement_simple (h : headOf t = none) (hat : t.isOp "@" = false) (hindent : t.kind ≠ .indent) :
    (statement (k + 1)).run (t :: ts) = simpleLine.run (t :: ts) := by
  unfold headOf at h
  split at h
  · cases h
  split at h
  · cases h
  split at h
  · cases h
  split at h
  · cases h
  rw [statement, run_peek_bind, if_neg (by simp [hat]), if_neg (by simpa using hindent), if_neg ‹_›, if_neg ‹_›,
    if_neg ‹_›, if_neg ‹_›]

/-- Decorators and lines that are indented too much are no statements. -/
theorem shape_of_statement {r : List (Stmt Unit) × List Token} (h : (statement (k + 1)).run (t :: ts) = .ok r) :
    t.isOp "@" = false ∧ t.kind ≠ .indent := by
  rw [statement, run_peek_bind] at h
  split at h
  · cases h
  split at h
  · cases h
  rename_i hat hindent
  exact ⟨by simpa using hat, by simpa using hindent⟩

end

/-! ### Groups of statements -/

/-- What does not carry on a statement before it. -/
def Follows (rest : List Token) : Prop :=
  ∃ t ts, rest = t :: ts ∧ t.isWord "else" = false ∧ t.isWord "elif" = false

theorem Follows.ne_nil (h : Follows rest) : rest ≠ [] := by
  obtain ⟨t, ts, rfl, -⟩ := h
  simp

theorem follows_of_kind (h : t.kind ≠ .name) (ts : List Token) : Follows (t :: ts) :=
  ⟨t, ts, rfl, by simp [Token.isWord, h], by simp [Token.isWord, h]⟩

/-- Some tokens, wherever they are placed, are read as statements before whatever does not carry them on. -/
structure Parses (ts : List Token) (ss : List (Stmt Unit)) : Prop where
  opens : ∃ t l, ts = t :: l ∧ isText t = true ∧ t.isWord "else" = false ∧ t.isWord "elif" = false
  run : ∀ ⦃k : Nat⦄ ⦃us rest : List Token⦄, ts.map Token.unplaced = us.map Token.unplaced → ts.length ≤ k →
    Follows rest → ∃ ss', (statement (k + 1)).run (us ++ rest) = .ok (ss', rest) ∧
      ss'.map Stmt.unplaced = ss.map Stmt.unplaced

/-- The tokens of the statements of a block, one group after the other. -/
inductive ParsesAll : List Token → List (Stmt Unit) → Prop
  | nil : ParsesAll [] []
  | cons {ts us : List Token} {ss rs : List (Stmt Unit)} : Parses ts ss → ParsesAll us rs →
    ParsesAll (ts ++ us) (ss ++ rs)

section

variable {ts us : List Token} {ss : List (Stmt Unit)}

theorem isText_eq_of_unplaced (h : t.unplaced = u.unplaced) : isText t = isText u := by
  rw [isText, isText, Token.kind_eq_of_unplaced h]

theorem Parses.exists_cons (h : Parses ts ss) (hus : SameTokens ts us) :
    ∃ u l, us = u :: l ∧ isText u = true ∧ u.isWord "else" = false ∧ u.isWord "elif" = false := by
  obtain ⟨t, l, rfl, htext, helse, helif⟩ := h.opens
  obtain ⟨u, us, rfl, htu, -⟩ := Token.exists_cons_of_unplaced hus
  refine ⟨u, us, rfl, ?_, ?_, ?_⟩
  · rwa [← isText_eq_of_unplaced htu]
  · rwa [← Token.isWord_eq_of_unplaced htu]
  · rwa [← Token.isWord_eq_of_unplaced htu]

theorem ParsesAll.follows (h : ParsesAll ts ss) (hus : SameTokens ts us)
    (hrest : Follows rest) : Follows (us ++ rest) := by
  cases h with
  | nil =>
    obtain rfl : us = [] := by simpa using hus.symm
    exact hrest
  | cons h _ =>
    obtain ⟨vs, ws, rfl, hvs, -⟩ := Token.exists_append_of_unplaced hus
    obtain ⟨u, l, rfl, -, helse, helif⟩ := h.exists_cons hvs
    exact ⟨u, _, rfl, helse, helif⟩

theorem ParsesAll.split {rs : List Token} {qs : List (Stmt Unit)} (h : Parses ts ss) (hrs : ParsesAll rs qs)
    (hus : SameTokens (ts ++ rs) us) (hrest : Follows rest) :
    ∃ u l ws, us = u :: l ++ ws ∧ isText u = true ∧ SameTokens rs ws ∧ 0 < ts.length ∧
      ∀ k, ts.length ≤ k → ∃ ss', (statement (k + 1)).run (u :: (l ++ (ws ++ rest))) = .ok (ss', ws ++ rest) ∧
        ss'.map Stmt.unplaced = ss.map Stmt.unplaced := by
  obtain ⟨vs, ws, rfl, hvs, hws⟩ := Token.exists_append_of_unplaced hus
  obtain ⟨u, l, rfl, htext, -⟩ := h.exists_cons hvs
  refine ⟨u, l, ws, rfl, htext, hws, ?_, fun k hk => h.run hvs hk (hrs.follows hws hrest)⟩
  have := congrArg List.length hvs
  simp at this
  omega

theorem run_blockBody (h : ParsesAll ts ss) (hus : SameTokens ts us) {k m : Nat}
    (hk : ts.length ≤ k) (hm : ts.length < m) (ht : t.kind = .dedent) (rest : List Token) :
    ∃ ss', (blockBody (statement (k + 1)) m).run (us ++ t :: rest) = .ok (ss', t :: rest) ∧
      ss'.map Stmt.unplaced = ss.map Stmt.unplaced := by
  obtain _ | m := m
  · omega
  induction h generalizing us m with
  | nil =>
    obtain rfl : us = [] := by simpa using hus.symm
    refine ⟨[], ?_, rfl⟩
    rw [nil_append, blockBody, run_peek_bind, if_pos (by simp [ht])]
    rfl
  | cons hts hrs ih =>
    obtain ⟨u, l, ws, rfl, htext, hws, hpos, hrun⟩ :=
      hrs.split hts hus (follows_of_kind (show t.kind ≠ .name by simp [ht]) rest)
    rw [length_append] at hk hm
    obtain _ | m := m
    · omega
    obtain ⟨ss₁, hrun, hss₁⟩ := hrun k (by omega)
    obtain ⟨ss₂, hmore, hss₂⟩ := ih hws (by omega) m (by omega)
    refine ⟨ss₁ ++ ss₂, ?_, by rw [map_append, map_append, hss₁, hss₂]⟩
    have hkind : ¬ (u.kind == .dedent || u.kind == .eof) = true := by
      intro hk
      simp only [Bool.or_eq_true, beq_iff_eq] at hk
      rcases hk with hk | hk <;> simp [isText, hk] at htext
    rw [append_assoc, cons_append, blockBody, run_peek_bind, if_neg hkind, run_bind_of_ok hrun, run_bind_of_ok hmore]
    rfl

theorem run_checkKind_bind {t : Token} {kind : TokenKind} {f : Bool → Parser α} :
    (checkKind kind >>= f).run (t :: s) = (f (t.kind == kind)).run (t :: s) :=
  rfl

theorem run_statements (h : ParsesAll ts ss) (hus : SameTokens ts us) {m : Nat}
    (hm : ts.length < m) (ht : t.kind = .eof) :
    ∃ ss', (statements m).run (us ++ [t]) = .ok (ss', [t]) ∧ ss'.map Stmt.unplaced = ss.map Stmt.unplaced := by
  obtain _ | m := m
  · omega
  induction h generalizing us m with
  | nil =>
    obtain rfl : us = [] := by simpa using hus.symm
    refine ⟨[], ?_, rfl⟩
    rw [nil_append, statements, run_checkKind_bind, if_pos (by simp [ht])]
    rfl
  | @cons ts rs _ _ hts hrs ih =>
    obtain ⟨u, l, ws, rfl, htext, hws, hpos, hrun⟩ :=
      hrs.split hts hus (follows_of_kind (show t.kind ≠ .name by simp [ht]) [])
    have hlength : ts.length ≤ (u :: (l ++ (ws ++ [t]))).length := by
      have := congrArg List.length hus
      simp only [length_map, length_append, length_cons] at this ⊢
      omega
    rw [length_append] at hm
    obtain _ | m := m
    · omega
    obtain ⟨ss₁, hrun, hss₁⟩ := hrun _ hlength
    obtain ⟨ss₂, hmore, hss₂⟩ := ih hws m (by omega)
    refine ⟨ss₁ ++ ss₂, ?_, by rw [map_append, map_append, hss₁, hss₂]⟩
    have heof : ¬ (u.kind == .eof) = true := fun hk => by simp [isText, (beq_iff_eq.1 hk)] at htext
    have hnewline : (u.kind == .newline) = false := by
      by_contra hk
      simp [isText, (beq_iff_eq.1 (Bool.not_eq_false _ ▸ hk))] at htext
    have haccept : (acceptKind .newline).run (u :: (l ++ (ws ++ [t]))) = .ok (false, u :: (l ++ (ws ++ [t]))) :=
      run_acceptIf_false hnewline
    rw [append_assoc, cons_append, statements, run_checkKind_bind, if_neg heof, run_bind_of_ok haccept,
      if_neg Bool.false_ne_true, run_remaining_bind, run_bind_of_ok hrun,
      run_bind_of_ok hmore]
    rfl

end

/-! ### Words that begin no statement -/

/-- A parser gives no result on an input. -/
def Fails {α : Type} (p : Parser α) (s : List Token) : Prop :=
  ∀ r, p.run s ≠ .ok r

section

variable {β : Type} {p : Parser α} {f : α → Parser β}

theorem Fails.bind (h : Fails p s) : Fails (p >>= f) s := fun r hr => by
  obtain ⟨_, hp, -⟩ := bind_eq_ok.1 hr
  exact h _ hp

theorem fails_bind (h : ∀ a s', p.run s = .ok (a, s') → Fails (f a) s') : Fails (p >>= f) s := fun r hr => by
  obtain ⟨⟨a, s'⟩, hp, hf⟩ := bind_eq_ok.1 hr
  exact h a s' hp r hf

theorem fails_bind_of_ok {a : α} {s' : List Token} (hp : p.run s = .ok (a, s')) (h : Fails (f a) s') :
    Fails (p >>= f) s := fun r hr => h r (by rwa [run_bind_of_ok hp] at hr)

theorem fails_failAt : Fails (failAt fault t : Parser α) s :=
  nofun

theorem fails_fail : Fails (fail fault : Parser α) s :=
  fails_bind fun _ _ _ => fails_failAt

variable {ts : List Token}

theorem fails_atom {test : Parser Expr} (hk : t.kind = .name) (ht : t.text ∈ reservedWords) :
    Fails (atom test) (t :: ts) := by
  refine fails_bind_of_ok rfl ?_
  rw [hk]
  refine fails_bind fun _ _ _ => ?_
  split
  · rename_i h
    exact absurd ht (by rw [h]; decide)
  · rename_i h
    exact absurd ht (by rw [h]; decide)
  · rename_i h
    exact absurd ht (by rw [h]; decide)
  · rw [if_pos ht]
    exact fails_failAt

theorem fails_bitOr {test : Parser Expr} (hk : t.kind = .name) (ht : t.text ∈ reservedWords) :
    Fails (bitOr test) (t :: ts) := by
  refine fails_bind_of_ok rfl ?_
  have hfactor : Fails (factor test ((t :: ts).length + 1)) (t :: ts) := by
    refine fails_bind_of_ok rfl ?_
    rw [show unaryOf t = none by simp [unaryOf, Token.isOp, hk]]
    exact (Fails.bind (Fails.bind (fails_atom hk ht)))
  generalize binaryLevels = levels
  generalize factor test ((t :: ts).length + 1) = operand at hfactor
  induction levels generalizing operand with
  | nil => exact hfactor
  | cons level levels ih => exact ih _ hfactor.bind

theorem fails_test {n : Nat} (hk : t.kind = .name) (ht : t.text ∈ reservedWords) (hnot : t.text ≠ "not") :
    Fails (test n) (t :: ts) := by
  cases n with
  | zero => exact fails_fail
  | succ n =>
    have hnegation : Fails (negation (test n) ((t :: ts).length + 1)) (t :: ts) := by
      refine fails_bind_of_ok rfl (fails_bind_of_ok (run_acceptIf_false ?_) ?_)
      · simp [Token.isWord, hnot]
      · exact (fails_bitOr hk ht).bind
    have hconjunction : Fails (conjunction (test n)) (t :: ts) :=
      fails_bind_of_ok rfl hnegation.bind
    refine fails_bind_of_ok rfl ?_
    split
    · exact fails_fail
    · exact hconjunction.bind.bind

theorem fails_simpleLine (hk : t.kind = .name) (ht : t.text = "else" ∨ t.text = "elif") :
    Fails simpleLine (t :: ts) := by
  have hreserved : t.text ∈ reservedWords := by rcases ht with h | h <;> rw [h] <;> decide
  have hnot : t.text ≠ "not" := by rcases ht with h | h <;> rw [h] <;> decide
  have hexpression : Fails expressionStatement (t :: ts) :=
    fails_bind_of_ok rfl (Fails.bind (Fails.bind (fails_bind_of_ok rfl (fails_test hk hreserved hnot))))
  refine Fails.bind (fails_bind_of_ok rfl ?_)
  rw [if_pos (by simp [hk])]
  split
  · exact fails_failAt
  · rcases ht with h | h <;> rw [h] <;> exact hexpression

end

end Syntax.Parser

end OpGraph
