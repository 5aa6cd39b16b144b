import OpGraph.Proofs.Syntax.Rendering

/-!
The parser by ranks. `parserOf` gives the parser of the expressions that bind at most as loosely as a rank. An expression
that one of them reads is read by all looser ones too, unless the next token carries on at a looser rank; the tokens of a
rank that is parsed by a loop are read up to the loop with the expression so far.
-/

namespace OpGraph.Syntax.Parser

open List

variable {l rest s : List Token} {j r r' : Nat} {op word : String} {t : Token}

/-! ### Running single parsers -/

section

variable {α : Type} {p q : Parser α} {test : Token → Bool}

theorem run_acceptIf_true (h : test t = true) (hs : s ≠ []) : (acceptIf test).run (t :: s) = .ok (true, s) := by
  obtain ⟨u, us, rfl⟩ := exists_cons_of_ne_nil hs
  unfold acceptIf
  rw [run_peek_bind, if_pos h]
  rfl

theorem run_acceptIf_false (h : test t = false) : (acceptIf test).run (t :: s) = .ok (false, t :: s) := by
  unfold acceptIf
  rw [run_peek_bind, if_neg (by simp [h])]
  rfl

theorem run_acceptOp_take (h : t.isOp op = true) (hs : s ≠ []) :
    (acceptOp op >>= fun b => if b then p else q).run (t :: s) = p.run s :=
  run_bind_of_ok (run_acceptIf_true h hs)

theorem run_acceptOp_skip (h : t.isOp op = false) :
    (acceptOp op >>= fun b => if b then p else q).run (t :: s) = q.run (t :: s) :=
  run_bind_of_ok (run_acceptIf_false h)

theorem run_acceptWord_take (h : t.isWord word = true) (hs : s ≠ []) :
    (acceptWord word >>= fun b => if b then p else q).run (t :: s) = p.run s :=
  run_bind_of_ok (run_acceptIf_true h hs)

theorem run_acceptWord_skip (h : t.isWord word = false) :
    (acceptWord word >>= fun b => if b then p else q).run (t :: s) = q.run (t :: s) :=
  run_bind_of_ok (run_acceptIf_false h)

theorem run_expectIf {wanted : String} (h : test t = true) (hs : s ≠ []) :
    (expectIf test wanted).run (t :: s) = .ok (t, s) := by
  unfold expectIf
  rw [run_peek_bind, if_pos h, run_next hs]

theorem run_discard {a : α} {s' : List Token} (h : p.run s = .ok (a, s')) : (discard p).run s = .ok ((), s') := by
  have := run_bind_of_ok h (f := fun _ => pure ())
  rw [← bind_pure (discard p), discard_bind]
  exact this

theorem run_discard_next {f : Unit → Parser α} (hs : s ≠ []) : (discard next >>= f).run (t :: s) = (f ()).run s :=
  run_bind_of_ok (run_discard (run_next hs))

theorem run_expectOp {f : Unit → Parser α} (hs : s ≠ []) :
    (discard (expectOp op) >>= f).run (signToken op :: s) = (f ()).run s :=
  run_bind_of_ok (run_discard (run_expectIf (by simp [signToken, Token.isOp]) hs))

theorem run_checkWord_bind {f : Bool → Parser α} :
    (checkWord word >>= f).run (t :: s) = (f (t.isWord word)).run (t :: s) :=
  rfl

theorem run_checkOp_bind {f : Bool → Parser α} : (checkOp op >>= f).run (t :: s) = (f (t.isOp op)).run (t :: s) :=
  rfl

end

/-! ### Ranks of parsers -/

/-- The parser of products and of the looser binary operators, from the tightest on. -/
def chain (test : Parser Expr) (k : Nat) : Nat → Parser Expr
  | 0 => factor test k
  | j + 1 => binary (binaryLevels.getD j []) (chain test k j)

/-- The parser of the expressions up to a rank. -/
def parserOf (test : Parser Expr) (k : Nat) : Nat → Parser Expr
  | 0 => atomExpr test
  | 9 => comparison test
  | 10 => negation test k
  | 11 => conjunction test
  | 12 => disjunction test
  | r => chain test k (r - 2)

theorem bitOr_eq (test : Parser Expr) : bitOr test = remaining >>= fun fuel => chain test (fuel + 1) 6 :=
  rfl

/-- Whether a token carries on an expression at a rank. -/
def continues (t : Token) : Nat → Bool
  | 0 => t.kind == .string || t.isOp "(" || t.isOp "[" || t.isOp "."
  | 1 => t.isOp "**"
  | 2 => false
  | 9 => (t.kind == .op && (compareSpellings.find? (·.1 == t.text)).isSome) || t.isWord "in" || t.isWord "not" ||
    t.isWord "is"
  | 10 => false
  | 11 => t.isWord "and"
  | 12 => t.isWord "or"
  | r => (operatorOf (binaryLevels.getD (r - 3) []) t).isSome

/-- The next token carries on at no rank up to `r`. -/
def Halts (r : Nat) (rest : List Token) : Prop :=
  ∃ t ts, rest = t :: ts ∧ ∀ i ≤ r, continues t i = false

theorem Halts.mono (h : Halts r rest) (hr : r' ≤ r) : Halts r' rest := by
  obtain ⟨t, ts, rfl, h⟩ := h
  exact ⟨t, ts, rfl, fun i hi => h i (hi.trans hr)⟩

/-- What can start an expression that binds at most as loosely as `r`. -/
inductive StartsAt (r : Nat) : Token → Prop
  | literal {t : Token} : t.kind = .number ∨ t.kind = .string → t.pos = default → StartsAt r t
  | name {t : Token} : t.kind = .name → t.text ∉ reservedWords → t.pos = default → StartsAt r t
  | bracket {t : Token} : t = signToken "(" ∨ t = signToken "[" → StartsAt r t
  | sign {op : UnaryOp} : op ≠ .not → 2 ≤ r → StartsAt r op.token
  | not : 10 ≤ r → StartsAt r (wordToken "not")

theorem StartsAt.mono (h : StartsAt r t) (hr : r ≤ r') : StartsAt r' t := by
  cases h with
  | literal h hp => exact .literal h hp
  | name h h' hp => exact .name h h' hp
  | bracket h => exact .bracket h
  | sign h h' => exact .sign h (h'.trans hr)
  | not h => exact .not (h.trans hr)

theorem StartsAt.unaryOf_eq (h : StartsAt r t) (hr : r < 2) : unaryOf t = none := by
  cases h with
  | literal h _ => rcases h with h | h <;> simp [unaryOf, Token.isOp, h]
  | name h h' _ => simp [unaryOf, Token.isOp, h]
  | bracket h => rcases h with rfl | rfl <;> rfl
  | sign h h' => omega
  | not h => omega

theorem StartsAt.isWord_eq_false (h : StartsAt r t) (hword : word ∈ reservedWords) (hnot : word = "not" → r < 10) :
    t.isWord word = false := by
  cases h with
  | literal h _ => rcases h with h | h <;> simp [Token.isWord, h]
  | name h h' _ =>
    have : t.text ≠ word := fun heq => h' (by rwa [heq])
    simp [Token.isWord, this]
  | bracket h => rcases h with rfl | rfl <;> rfl
  | @sign op h h' => cases op <;> simp [UnaryOp.token, Token.isWord, signToken] at h ⊢
  | not h =>
    have : "not" ≠ word := fun heq => absurd (hnot heq.symm) (by omega)
    simp [Token.isWord, wordToken, this]

theorem StartsAt.isOp_eq_false (h : StartsAt r t) (hop : op ∉ ["(", "[", "-", "+", "~"]) : t.isOp op = false := by
  simp only [mem_cons, not_mem_nil, or_false, not_or] at hop
  obtain ⟨h1, h2, h3, h4, h5⟩ := hop
  cases h with
  | literal h _ => rcases h with h | h <;> simp [Token.isOp, h]
  | name h h' _ => simp [Token.isOp, h]
  | bracket h => rcases h with rfl | rfl <;> simp [Token.isOp, signToken, Ne.symm h1, Ne.symm h2]
  | @sign o h h' =>
    cases o <;> simp [UnaryOp.token, Token.isOp, signToken, wordToken, Ne.symm h3, Ne.symm h4, Ne.symm h5]
  | not h => rfl

theorem StartsAt.endsExpression_eq (h : StartsAt r t) : endsExpression t = false := by
  cases h with
  | literal h _ => rcases h with h | h <;> simp [endsExpression, h]
  | name h h' _ => simp [endsExpression, h]
  | bracket h => rcases h with rfl | rfl <;> rfl
  | @sign op h h' => cases op <;> rfl
  | not h => rfl

theorem StartsAt.pos_eq (h : StartsAt r t) : t.pos = default := by
  cases h with
  | literal _ hp => exact hp
  | name _ _ hp => exact hp
  | bracket h => rcases h with rfl | rfl <;> rfl
  | @sign op h h' => cases op <;> rfl
  | not h => rfl

/-- The first token of an expression that binds at most as loosely as `r`. -/
def Starts (r : Nat) (ts : List Token) : Prop :=
  ∃ t l, ts = t :: l ∧ StartsAt r t

/-- Some tokens are read as an expression by the parser of a rank, before whatever does not carry on. -/
def Parse (r : Nat) (ts : List Token) (e : Expr) : Prop :=
  ∀ n k rest, ts.length ≤ n → ts.length < k → Halts r rest →
    (parserOf (test n) k r).run (ts ++ rest) = .ok (e, rest)

/-- Some tokens are read by the loop of a binary rank, which goes on from the expression they stand for. -/
def ChainForm (j : Nat) (ts : List Token) (e : Expr) : Prop :=
  ∀ n k rest, ts.length ≤ n → ts.length < k → Halts (j + 2) rest →
    ∃ m, rest.length ≤ m ∧ (parserOf (test n) k (j + 3)).run (ts ++ rest) =
      (binaryRest (binaryLevels.getD j []) (parserOf (test n) k (j + 2)) m e).run rest

/-- Some tokens are read as an atom with trailers, and more trailers may follow. -/
def AtomForm (ts : List Token) (e : Expr) : Prop :=
  ∀ n rest, ts.length ≤ n → (∃ t l, rest = t :: l ∧ t.kind ≠ .string) →
    ∃ m, rest.length ≤ m ∧ (atomExpr (test n)).run (ts ++ rest) = (trailers (test n) m e).run rest

/-! ### From rank to rank -/

section

variable {ts : List Token} {e : Expr}

theorem Halts.length_pos {m : Nat} (h : Halts r rest) (hm : rest.length ≤ m) : ∃ m', m = m' + 1 := by
  obtain ⟨t, ts, rfl, -⟩ := h
  exact ⟨m - 1, by simp at hm; omega⟩

theorem AtomForm.parse (h : AtomForm ts e) : Parse 0 ts e := by
  intro n k rest hn _ hrest
  have hrest' := hrest
  obtain ⟨t, l, rfl, hcont⟩ := hrest
  have hcont : (t.kind == .string || t.isOp "(" || t.isOp "[" || t.isOp ".") = false := hcont 0 le_rfl
  simp only [Bool.or_eq_false_iff, beq_eq_false_iff_ne] at hcont
  obtain ⟨⟨⟨hstring, h1⟩, h2⟩, h3⟩ := hcont
  obtain ⟨m, hm, hrun⟩ := h n (t :: l) hn ⟨t, l, rfl, hstring⟩
  obtain ⟨m, rfl⟩ := hrest'.length_pos hm
  change (atomExpr (test n)).run _ = _
  rw [hrun, trailers, run_acceptOp_skip h1, run_acceptOp_skip h2, run_acceptOp_skip h3]
  rfl

theorem Parse.one (h : Parse 0 ts e) (hs : Starts 0 ts) : Parse 1 ts e := by
  intro n k rest hn hk hrest
  obtain _ | k := k
  · omega
  have hrun : (atomExpr (test n)).run (ts ++ rest) = .ok (e, rest) := h n (k + 1) rest hn hk (hrest.mono (by omega))
  obtain ⟨t, l, rfl, ht⟩ := hs
  obtain ⟨u, us, rfl, hcont⟩ := hrest
  change (factor (test n) (k + 1)).run _ = _
  rw [cons_append] at hrun ⊢
  rw [factor, run_peek_bind, ht.unaryOf_eq (by omega)]
  dsimp only
  rw [run_bind_of_ok hrun, run_acceptOp_skip (hcont 1 le_rfl)]
  rfl

theorem Parse.two (h : Parse 1 ts e) : Parse 2 ts e := fun n k rest hn hk hrest =>
  h n k rest hn hk (hrest.mono (by omega))

theorem parserOf_chain (hj : j < 6) (test : Parser Expr) (k : Nat) :
    parserOf test k (j + 3) = binary (binaryLevels.getD j []) (parserOf test k (j + 2)) := by
  interval_cases j <;> rfl

theorem continues_chain (hj : j < 6) (t : Token) :
    continues t (j + 3) = (operatorOf (binaryLevels.getD j []) t).isSome := by
  interval_cases j <;> rfl

theorem Parse.chainForm (hj : j < 6) (h : Parse (j + 2) ts e) : ChainForm j ts e := by
  intro n k rest hn hk hrest
  refine ⟨rest.length, le_rfl, ?_⟩
  rw [parserOf_chain hj, binary, run_bind_of_ok (h n k rest hn hk hrest), run_remaining_bind]

theorem ChainForm.parse (hj : j < 6) (h : ChainForm j ts e) : Parse (j + 3) ts e := by
  intro n k rest hn hk hrest
  obtain ⟨m, hm, hrun⟩ := h n k rest hn hk (hrest.mono (by omega))
  obtain ⟨m, rfl⟩ := hrest.length_pos hm
  obtain ⟨t, l, rfl, hcont⟩ := hrest
  have hnone : operatorOf (binaryLevels.getD j []) t = none := by
    simpa [continues_chain hj] using hcont (j + 3) le_rfl
  rw [hrun, binaryRest, run_peek_bind, hnone]
  rfl

theorem run_bitOr (h : Parse 8 ts e) {n : Nat} (hn : ts.length ≤ n) (hrest : Halts 8 rest) :
    (bitOr (test n)).run (ts ++ rest) = .ok (e, rest) := by
  rw [bitOr_eq, run_remaining_bind]
  exact h n _ rest hn (by simp) hrest

theorem run_compareOp_none (h : continues t 9 = false) : compareOp.run (t :: l) = .ok (none, t :: l) := by
  have h : ((t.kind == .op && (compareSpellings.find? (·.1 == t.text)).isSome) || t.isWord "in" || t.isWord "not" ||
    t.isWord "is") = false := h
  simp only [Bool.or_eq_false_iff] at h
  obtain ⟨⟨⟨hop, hin⟩, hnot⟩, his⟩ := h
  rw [compareOp, run_peek_bind]
  split
  · rename_i hk
    have hfind : compareSpellings.find? (·.1 == t.text) = none := by
      simpa [hk, -find?_eq_none] using hop
    rw [hfind]
    rfl
  · obtain ⟨v, hv, -⟩ := run_peekSecond (t :: l)
    rw [if_neg (by simp [hin]), run_bind_of_ok hv, if_neg (by simp [hnot]), if_neg (by simp [his])]
    rfl

theorem Parse.nine (h : Parse 8 ts e) : Parse 9 ts e := by
  intro n k rest hn hk hrest
  have hrest' := hrest
  obtain ⟨m, hm⟩ := hrest.length_pos le_rfl
  obtain ⟨t, l, rfl, hcont⟩ := hrest
  change (comparison (test n)).run _ = _
  rw [comparison, run_bind_of_ok (run_bitOr h hn (hrest'.mono (by omega))), run_remaining_bind, hm, compareRest,
    bind_assoc, run_bind_of_ok (run_compareOp_none (hcont 9 le_rfl))]
  rfl

theorem Parse.ten (h : Parse 9 ts e) (hs : Starts 9 ts) : Parse 10 ts e := by
  intro n k rest hn hk hrest
  obtain _ | k := k
  · omega
  have hrun : (comparison (test n)).run (ts ++ rest) = .ok (e, rest) := h n (k + 1) rest hn hk (hrest.mono (by omega))
  obtain ⟨t, l, rfl, ht⟩ := hs
  change (negation (test n) (k + 1)).run _ = _
  rw [cons_append] at hrun ⊢
  rw [negation, run_peek_bind, run_acceptWord_skip (ht.isWord_eq_false (by decide) (by omega)), hrun]

theorem run_boolean_one {op : BoolOp} {operand : Parser Expr} (h : operand.run s = .ok (e, t :: l))
    (ht : t.isWord word = false) : (boolean word op operand).run s = .ok (e, t :: l) := by
  have hrest : (booleanRest word operand (l.length + 1)).run (t :: l) = .ok ([], t :: l) := run_acceptWord_skip ht
  rw [boolean, run_bind_of_ok h, run_remaining_bind, length_cons, run_bind_of_ok hrest]
  rfl

theorem Parse.eleven (h : Parse 10 ts e) : Parse 11 ts e := by
  intro n k rest hn hk hrest
  have hrun : (negation (test n) ((ts ++ rest).length + 1)).run (ts ++ rest) = .ok (e, rest) :=
    h n ((ts ++ rest).length + 1) rest hn (by simp) (hrest.mono (by omega))
  obtain ⟨t, l, rfl, hcont⟩ := hrest
  change (conjunction (test n)).run _ = _
  rw [conjunction, run_remaining_bind]
  exact run_boolean_one hrun (hcont 11 le_rfl)

theorem Parse.twelve (h : Parse 11 ts e) : Parse 12 ts e := by
  intro n k rest hn hk hrest
  have hrun : (conjunction (test n)).run (ts ++ rest) = .ok (e, rest) := h n k rest hn hk (hrest.mono (by omega))
  obtain ⟨t, l, rfl, hcont⟩ := hrest
  exact run_boolean_one hrun (hcont 12 le_rfl)

/-- **What a parser reads the looser ones read too.** -/
theorem Parse.succ (hr : r < 12) (h : Parse r ts e) (hs : Starts r ts) : Parse (r + 1) ts e := by
  match r, hr with
  | 0, _ => exact h.one hs
  | 1, _ => exact h.two
  | 8, _ => exact h.nine
  | 9, _ => exact h.ten hs
  | 10, _ => exact h.eleven
  | 11, _ => exact h.twelve
  | 2, _ | 3, _ | 4, _ | 5, _ | 6, _ | 7, _ => exact (h.chainForm (by omega)).parse (by omega)

theorem Starts.mono (h : Starts r ts) (hr : r ≤ r') : Starts r' ts := by
  obtain ⟨t, l, rfl, ht⟩ := h
  exact ⟨t, l, rfl, ht.mono hr⟩

theorem Parse.mono (h : Parse r ts e) (hs : Starts r ts) (hr : r ≤ r') (hr' : r' ≤ 12) : Parse r' ts e := by
  induction r', hr using Nat.le_induction with
  | base => exact h
  | succ r' hr ih => exact (ih (by omega)).succ (by omega) (hs.mono hr)

end

/-! ### Atoms -/

/-- The end of an expression inside brackets, of a line or of a part of a subscript. -/
structure Closes (rest : List Token) : Prop where
  halts : Halts 12 rest
  notIf : ∀ t ∈ rest.head?, t.isWord "if" = false
  notFor : ∀ t ∈ rest.head?, t.isWord "for" = false
  notAssign : ∀ t ∈ rest.head?, t.isOp "=" = false

theorem closes_sign {x : String} (hx : x ∈ [")", "]", ",", ":"]) (l : List Token) : Closes (signToken x :: l) := by
  have hcont : ∀ x ∈ [")", "]", ",", ":"], ∀ i ≤ 12, continues (signToken x) i = false := by decide
  have hassign : ∀ x ∈ [")", "]", ",", ":"], (signToken x).isOp "=" = false := by decide
  exact ⟨⟨_, l, rfl, hcont x hx⟩, by simp [signToken, Token.isWord], by simp [signToken, Token.isWord],
    by simpa using hassign x hx⟩

theorem bracketAtom_round {test : Parser Expr} : bracketAtom test (signToken "(") = (do
    discard next
    if ← acceptOp ")" then return .tuple default []
    else
      let inner ← testList test
      discard (expectOp ")")
      return inner) :=
  rfl

theorem bracketAtom_square {test : Parser Expr} : bracketAtom test (signToken "[") = (do
    discard next
    let elts ← items (·.isOp "]") (listItem test)
    discard (expectOp "]")
    return .list default elts) :=
  rfl

theorem run_atom_sign {test : Parser Expr} (x : String) (s : List Token) :
    (atom test).run (signToken x :: s) = (bracketAtom test (signToken x)).run (signToken x :: s) :=
  rfl

theorem atomForm_of_atom {ts : List Token} {e : Expr}
    (h : ∀ n rest, ts.length ≤ n → (∃ t l, rest = t :: l ∧ t.kind ≠ .string) →
      (atom (test n)).run (ts ++ rest) = .ok (e, rest)) : AtomForm ts e := by
  intro n rest hn hrest
  refine ⟨rest.length, le_rfl, ?_⟩
  rw [atomExpr, run_bind_of_ok (h n rest hn hrest), run_remaining_bind]

/-! ### Expressions in their places -/

/-- Some tokens do not begin like a keyword argument. -/
def Unkeyed (ts : List Token) : Prop :=
  ∀ t u l, ts = t :: u :: l → t.kind = .name → u.isOp "=" = false

theorem unkeyed_cons (h : t.kind ≠ .name) (ts : List Token) : Unkeyed (t :: ts) := by
  rintro _ u l ⟨⟩ hk
  exact absurd hk h

theorem unkeyed_singleton (t : Token) : Unkeyed [t] :=
  nofun

/-- Some tokens are read as an expression in a place for expressions up to a rank. -/
structure ReadsIn (r : Nat) (e : Expr) (ts : List Token) : Prop where
  starts : Starts r ts
  unkeyed : Unkeyed ts
  atom : r = 0 → AtomForm ts e
  chain : ∀ j, j < 6 → r = j + 3 → ChainForm j ts e
  parse : Parse r ts e

section

variable {e : Expr} {ts : List Token}

theorem AtomForm.readsIn (h : AtomForm ts e) (hs : Starts 0 ts) (hkey : Unkeyed ts) : ReadsIn 0 e ts where
  starts := hs
  unkeyed := hkey
  atom _ := h
  chain j hj hrank := by omega
  parse := h.parse

theorem ReadsIn.mono (h : ReadsIn r e ts) (hr : r ≤ r') (hr' : r' ≤ 12) : ReadsIn r' e ts where
  starts := h.starts.mono hr
  unkeyed := h.unkeyed
  atom h0 := h.atom (by omega)
  chain j hj hrank := by
    by_cases heq : r = j + 3
    · exact h.chain j hj heq
    · exact (h.parse.mono h.starts (by omega) (by omega)).chainForm hj
  parse := h.parse.mono h.starts hr hr'

theorem ReadsIn.run_test (h : ReadsIn r e ts) (hr : r ≤ 12) {n : Nat} (hn : ts.length < n) (hrest : Closes rest) :
    (test n).run (ts ++ rest) = .ok (e, rest) := by
  obtain _ | n := n
  · omega
  have hrun : (disjunction (test n)).run (ts ++ rest) = .ok (e, rest) :=
    (h.mono hr le_rfl).parse n (ts.length + 1) rest (by omega) (by omega) hrest.halts
  obtain ⟨t, l, rfl, ht⟩ := h.starts
  have hlambda : t.isWord "lambda" = false := ht.isWord_eq_false (by decide) (by simp)
  obtain ⟨u, us, rfl, -⟩ := hrest.halts
  rw [cons_append] at hrun ⊢
  rw [test, run_checkWord_bind, if_neg (by simp [hlambda]), run_bind_of_ok hrun, run_checkWord_bind,
    if_neg (by simp [hrest.notIf u rfl])]
  rfl

theorem run_tupleOf_one {stop : Token → Bool} {item : Parser Expr} (h : item.run s = .ok (e, t :: l))
    (ht : t.isOp "," = false) : (tupleOf stop item).run s = .ok (e, t :: l) := by
  rw [tupleOf, run_bind_of_ok h, run_checkOp_bind, if_neg (by simp [ht])]
  rfl

theorem ReadsIn.atomForm_paren (h : ReadsIn r e ts) (hr : r ≤ 12) :
    AtomForm (signToken "(" :: ts ++ [signToken ")"]) e := by
  refine atomForm_of_atom fun n rest hn hrest => ?_
  have hne : rest ≠ [] := by
    obtain ⟨u, us, rfl, -⟩ := hrest
    simp
  have htest : (test n).run (ts ++ signToken ")" :: rest) = .ok (e, signToken ")" :: rest) :=
    h.run_test hr (by simp at hn; omega) (closes_sign (by decide) rest)
  obtain ⟨t, l, rfl, ht⟩ := h.starts
  have hclose : t.isOp ")" = false := ht.isOp_eq_false (by decide)
  have hstate : signToken "(" :: (t :: l) ++ [signToken ")"] ++ rest =
      signToken "(" :: t :: (l ++ signToken ")" :: rest) := by simp
  rw [cons_append] at htest
  rw [hstate, run_atom_sign, bracketAtom_round, run_discard_next (by simp),
    run_acceptOp_skip hclose,
    testList, run_bind_of_ok (run_tupleOf_one htest rfl), run_expectOp hne]
  rfl

theorem rank_le (e : Expr) : e.rank ≤ 12 := by
  cases e with
  | binary _ _ op _ => cases op <;> simp [Expr.rank, BinaryOp.rank]
  | unary _ op _ => cases op <;> simp [Expr.rank, UnaryOp.rank]
  | boolean _ op _ => cases op <;> simp [Expr.rank, BoolOp.rank]
  | _ => simp [Expr.rank]

/-- Some tokens are read as an expression of its rank, up to positions. -/
abbrev Reads (e : Expr) (ts : List Token) : Prop :=
  ReadsIn e.rank e.unplaced ts

/-- **Parentheses where they are needed**: an operand that is enclosed is read in its place. -/
theorem Reads.enclose (h : Reads e ts) (hr : r ≤ 12) : ReadsIn r e.unplaced (e.enclose r ts) := by
  unfold Expr.enclose
  split
  · have hatom := h.atomForm_paren (rank_le e)
    exact (hatom.readsIn ⟨_, _, rfl, .bracket (.inl rfl)⟩ (unkeyed_cons (by decide) _)).mono (Nat.zero_le r) hr
  · exact h.mono (by omega) hr

end

end OpGraph.Syntax.Parser
