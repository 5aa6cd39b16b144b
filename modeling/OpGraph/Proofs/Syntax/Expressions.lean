import OpGraph.Proofs.Syntax.Precedence

/-!
Every form of expression is read from its tokens, given that its parts are: operators from their operands, displays,
calls and subscripts from their items. The induction over all accepted expressions comes last.
-/

namespace OpGraph.Syntax.Parser

open List
open Expr (commas tokensEach tokensKeywords tokensOption tokensCompared tokensStep)

variable {op : BinaryOp} {e i : Expr} {place : Expr.Place} {tss : List (List Token)} {es : List Expr}
variable {ks : List Keyword} {rest ts : List Token} {m n : Nat} {p : Position} {x : String} {close : Token}
variable {stop : Token → Bool}
variable {ops : List CompareOp} {args : List Expr} {us : List Token} {v : Literal} {j : Nat} {step upper : Option Expr}
variable {spell : Position → Literal → List Token} {t : Token} {β : Type}

/-! ### First tokens -/

theorem Unkeyed.append (h : Unkeyed ts) (hne : ts ≠ []) (ht : t.isOp "=" = false) : Unkeyed (ts ++ t :: rest) := by
  obtain ⟨a, l, rfl⟩ := exists_cons_of_ne_nil hne
  rintro t u l' heq hk
  cases l with
  | nil =>
    obtain ⟨-, rfl, -⟩ := by simpa using heq
    exact ht
  | cons b l =>
    obtain ⟨rfl, rfl, -⟩ := by simpa using heq
    exact h a b l rfl hk

theorem Unkeyed.append_closes (h : Unkeyed ts) (hne : ts ≠ []) (hrest : Closes rest) : Unkeyed (ts ++ rest) := by
  obtain ⟨t, l, rfl, -⟩ := hrest.halts
  exact h.append hne (hrest.notAssign t rfl)

theorem Starts.ne_nil {r : Nat} (h : Starts r ts) : ts ≠ [] := by
  obtain ⟨t, l, rfl, -⟩ := h
  simp

theorem Starts.append {r : Nat} (h : Starts r ts) (rest : List Token) : Starts r (ts ++ rest) := by
  obtain ⟨t, l, rfl, ht⟩ := h
  exact ⟨t, l ++ rest, rfl, ht⟩

/-! ### Signs and negations -/

section

variable {l r : Expr}

theorem readsIn_sign {op : UnaryOp} (hop : op ≠ .not) (h : ReadsIn 2 e ts) :
    ReadsIn 2 (.unary default op e) (op.token :: ts) where
  starts := ⟨_, _, rfl, .sign hop le_rfl⟩
  unkeyed := unkeyed_cons (by cases op <;> first | decide | exact absurd rfl hop) ts
  atom h0 := by omega
  chain j hj hrank := by omega
  parse := by
    intro n k rest hn hk hrest
    obtain _ | k := k
    · omega
    have hrun : (factor (test n) k).run (ts ++ rest) = .ok (e, rest) :=
      h.parse n k rest (by simp at hn; omega) (by simp at hk; omega) hrest
    have hne : ts ++ rest ≠ [] := by simp [h.starts.ne_nil]
    have hpos : op.token.pos = default := by cases op <;> rfl
    have hunary : unaryOf op.token = some op := by cases op <;> first | rfl | exact absurd rfl hop
    change (factor (test n) (k + 1)).run (op.token :: (ts ++ rest)) = _
    rw [factor, run_peek_bind, hunary]
    dsimp only
    rw [run_discard_next hne, run_bind_of_ok hrun, hpos]
    rfl

theorem readsIn_not (h : ReadsIn 10 e ts) : ReadsIn 10 (.unary default .not e) (wordToken "not" :: ts) where
  starts := ⟨_, _, rfl, .not le_rfl⟩
  unkeyed := by
    obtain ⟨t, l, rfl, ht⟩ := h.starts
    rintro _ _ _ ⟨⟩ -
    exact ht.isOp_eq_false (by decide)
  atom h0 := by omega
  chain j hj hrank := by omega
  parse := by
    intro n k rest hn hk hrest
    obtain _ | k := k
    · omega
    have hrun : (negation (test n) k).run (ts ++ rest) = .ok (e, rest) :=
      h.parse n k rest (by simp at hn; omega) (by simp at hk; omega) hrest
    have hne : ts ++ rest ≠ [] := by simp [h.starts.ne_nil]
    change (negation (test n) (k + 1)).run (wordToken "not" :: (ts ++ rest)) = _
    rw [negation, run_peek_bind, run_acceptWord_take rfl hne, run_bind_of_ok hrun]
    rfl

theorem reads_unary {op : UnaryOp} (h : Reads e ts) : Reads (.unary p op e) (op.token :: e.enclose op.rank ts) := by
  cases op with
  | not => exact readsIn_not (h.enclose (by decide))
  | minus | plus | invert => exact readsIn_sign (by decide) (h.enclose (by decide))

/-! ### Binary operators -/

theorem Halts.two (h : Halts 1 rest) : Halts 2 rest := by
  obtain ⟨t, ts, rfl, h⟩ := h
  refine ⟨t, ts, rfl, fun i hi => ?_⟩
  rcases Nat.lt_or_eq_of_le hi with hi | rfl
  · exact h i (by omega)
  · rfl

theorem halts_operator (op : BinaryOp) (rest : List Token) : Halts (op.rank - 1) (signToken op.spelling :: rest) := by
  refine ⟨_, rest, rfl, ?_⟩
  cases op <;> decide

theorem unplaced_pos (e : Expr) : e.unplaced.pos = default := by
  cases e <;> rfl

theorem head?_unplaced_pos (es : List Expr) : ∀ e ∈ (es.map Expr.unplaced).head?, e.pos = default := by
  cases es <;> simp [unplaced_pos]

theorem readsIn_pow (hl : ReadsIn 0 l ts) (hpos : l.pos = default) (hr : ReadsIn 2 r us) :
    ReadsIn 1 (.binary default l .pow r) (ts ++ signToken "**" :: us) where
  starts := (hl.starts.mono (Nat.zero_le 1)).append _
  unkeyed := hl.unkeyed.append hl.starts.ne_nil rfl
  atom h0 := by omega
  chain j hj hrank := by omega
  parse := by
    intro n k rest hn hk hrest
    obtain _ | k := k
    · omega
    simp only [length_append, length_cons] at hn hk
    have hbase : (atomExpr (test n)).run (ts ++ signToken "**" :: (us ++ rest)) =
        .ok (l, signToken "**" :: (us ++ rest)) :=
      hl.parse n (k + 1) _ (by omega) (by omega) (halts_operator .pow _)
    have hexponent : (factor (test n) k).run (us ++ rest) = .ok (r, rest) :=
      hr.parse n k rest (by omega) (by omega) hrest.two
    obtain ⟨t, ts, rfl, ht⟩ := hl.starts
    change (factor (test n) (k + 1)).run _ = _
    rw [append_assoc, cons_append, cons_append] at *
    rw [factor, run_peek_bind, ht.unaryOf_eq (by omega)]
    dsimp only
    rw [run_bind_of_ok hbase, run_acceptOp_take rfl (by simp [hr.starts.ne_nil]), run_bind_of_ok hexponent,
      hpos]
    rfl

theorem ChainForm.operator (hj : j < 6) (hop : op.rank = j + 3) (hl : ChainForm j ts l) (hpos : l.pos = default)
    (hr : Parse (j + 2) us r) (hne : us ≠ []) :
    ChainForm j (ts ++ signToken op.spelling :: us) (.binary default l op r) := by
  intro n k rest hn hk hrest
  simp only [length_append, length_cons] at hn hk
  have hhalts : Halts (j + 2) (signToken op.spelling :: (us ++ rest)) := by
    simpa [hop] using halts_operator op (us ++ rest)
  obtain ⟨m, hm, hrun⟩ := hl n k _ (by omega) (by omega) hhalts
  obtain ⟨m, rfl⟩ := hhalts.length_pos hm
  have hoperand := hr n k rest (by omega) (by omega) hrest
  have hoperator : operatorOf (binaryLevels.getD j []) (signToken op.spelling) = some op := by
    have : j = op.rank - 3 := by omega
    subst this
    cases op <;> first | rfl | simp [BinaryOp.rank] at hop
  refine ⟨m, by simp at hm; omega, ?_⟩
  rw [append_assoc, cons_append, hrun, binaryRest, run_peek_bind, hoperator]
  dsimp only
  rw [run_discard_next (by simp [hne]), run_bind_of_ok hoperand, hpos]

theorem readsIn_operator (hj : j < 6) (hop : op.rank = j + 3) (hl : ReadsIn (j + 3) l ts) (hpos : l.pos = default)
    (hr : ReadsIn (j + 2) r us) : ReadsIn (j + 3) (.binary default l op r) (ts ++ signToken op.spelling :: us) := by
  have hchain := (hl.chain j hj rfl).operator hj hop hpos hr.parse hr.starts.ne_nil
  refine ⟨hl.starts.append _, hl.unkeyed.append hl.starts.ne_nil ?_, by omega, ?_, hchain.parse hj⟩
  · cases op <;> rfl
  · intro j' _ hj'
    obtain rfl : j' = j := by omega
    exact hchain

theorem exists_rank_of_ne_pow (hop : op ≠ .pow) :
    ∃ j < 6, op.rank = j + 3 ∧ op.leftRank = j + 3 ∧ op.rightRank = j + 2 := by
  refine ⟨op.rank - 3, ?_⟩
  cases op <;> simp_all [BinaryOp.rank, BinaryOp.leftRank, BinaryOp.rightRank]

theorem reads_binary (hl : Reads l ts) (hr : Reads r us) :
    Reads (.binary p l op r) (l.enclose op.leftRank ts ++ signToken op.spelling :: r.enclose op.rightRank us) := by
  by_cases hop : op = .pow
  · subst hop
    exact readsIn_pow (hl.enclose (by decide)) (unplaced_pos l) (hr.enclose (by decide))
  · obtain ⟨j, hj, hrank, hleft, hright⟩ := exists_rank_of_ne_pow hop
    change ReadsIn op.rank (.binary default l.unplaced op r.unplaced) _
    rw [hrank, hleft, hright]
    exact readsIn_operator hj hrank (hl.enclose (by omega)) (unplaced_pos l) (hr.enclose (by omega))

/-! ### Comparisons -/

theorem exists_tokens (op : CompareOp) : ∃ t ts, op.tokens = t :: ts ∧ t.isOp "=" = false := by
  cases op <;> exact ⟨_, _, rfl, rfl⟩

theorem run_compareOp (op : CompareOp) (h : Starts 8 ts) (rest : List Token) :
    compareOp.run (op.tokens ++ (ts ++ rest)) = .ok (some op, ts ++ rest) := by
  obtain ⟨t, l, rfl, ht⟩ := h
  cases op with
  | is =>
    change (acceptWord "not" >>= fun b => if b then pure (some CompareOp.isNot) else pure (some CompareOp.is)).run
      (t :: (l ++ rest)) = _
    exact run_acceptWord_skip (ht.isWord_eq_false (by decide) (by omega))
  | _ => rfl

theorem halts_compareOp (op : CompareOp) (rest : List Token) : Halts 8 (op.tokens ++ rest) := by
  cases op <;> exact ⟨_, _, rfl, by decide⟩

end

section

theorem halts_tokensCompared (spell : Position → Literal → List Token) (ops : List CompareOp) (es : List Expr)
    (hrest : Halts 9 rest) :
    Halts 8 (tokensCompared spell ops es ++ rest) := by
  match ops, es with
  | op :: ops, e :: es =>
    rw [tokensCompared, append_assoc, append_assoc]
    exact halts_compareOp op _
  | [], _ | _ :: _, [] => simpa [tokensCompared] using hrest.mono (by omega)

theorem run_compareRest (hlength : ops.length = es.length) (h : ∀ e ∈ es, Reads e (e.tokens spell false))
    (hn : (tokensCompared spell ops es).length ≤ n) (hm : (tokensCompared spell ops es ++ rest).length ≤ m)
    (hrest : Halts 9 rest) :
    (compareRest (bitOr (test n)) m).run (tokensCompared spell ops es ++ rest) =
      .ok ((ops, es.map Expr.unplaced), rest) := by
  induction ops generalizing es m with
  | nil =>
    obtain rfl : es = [] := by simpa using hlength.symm
    obtain ⟨m, rfl⟩ := hrest.length_pos hm
    obtain ⟨t, l, rfl, hcont⟩ := hrest
    simp only [tokensCompared, nil_append]
    rw [compareRest, run_bind_of_ok (run_compareOp_none (hcont 9 le_rfl))]
    rfl
  | cons op ops ih =>
    obtain ⟨e, es, rfl⟩ : ∃ e es', es = e :: es' := exists_cons_of_length_pos (by simp at hlength; omega)
    have he := (h e (by simp)).enclose (r := 8) (by omega)
    have hpos : 0 < op.tokens.length := by cases op <;> decide
    simp only [tokensCompared, length_append] at hn hm
    obtain _ | m := m
    · omega
    have hoperand := run_bitOr he.parse (show _ ≤ n by omega) (halts_tokensCompared spell ops es hrest)
    have hmore := ih (by simpa using hlength) (fun e he => h e (by simp [he])) (m := m) (by omega)
      (by simp only [length_append]; omega)
    simp only [tokensCompared, append_assoc]
    rw [compareRest, run_bind_of_ok (run_compareOp op he.starts _)]
    dsimp only
    rw [run_bind_of_ok hoperand, run_bind_of_ok hmore]
    rfl

theorem reads_compare {l : Expr} (hl : Reads l (l.tokens spell false)) (hops : ops ≠ [])
    (hlength : ops.length = es.length) (h : ∀ e ∈ es, Reads e (e.tokens spell false)) :
    Reads (.compare p l ops es) ((Expr.compare p l ops es).tokens spell false) := by
  have hl := hl.enclose (r := 8) (by omega)
  simp only [Expr.tokens]
  change ReadsIn 9 (.compare default l.unplaced ops (Expr.unplacedAll es)) _
  refine ⟨(hl.starts.mono (by omega)).append _, ?_, by omega, by omega, ?_⟩
  · obtain ⟨op, ops, rfl⟩ := exists_cons_of_ne_nil hops
    obtain ⟨e, es, rfl⟩ : ∃ e es', es = e :: es' := exists_cons_of_length_pos (by simp at hlength; omega)
    obtain ⟨t, ts, ht, hassign⟩ := exists_tokens op
    simp only [tokensCompared, ht, cons_append]
    exact hl.unkeyed.append hl.starts.ne_nil hassign
  · intro n k rest hn hk hrest
    rw [length_append] at hn
    have hleft := run_bitOr hl.parse (show _ ≤ n by omega) (halts_tokensCompared spell ops es hrest)
    have hmore := run_compareRest hlength h (show _ ≤ n by omega) le_rfl hrest
    change (comparison (test n)).run _ = _
    rw [comparison, append_assoc, run_bind_of_ok hleft, run_remaining_bind, run_bind_of_ok hmore, unplaced_pos,
      Expr.unplacedAll_eq_map]
    dsimp only
    rw [if_neg (by simpa using hops)]
    rfl

/-! ### Boolean operators -/

theorem intercalate_cons (t : Token) (ts : List Token) (tss : List (List Token)) :
    [t].intercalate (ts :: tss) = ts ++ tss.flatMap (t :: ·) := by
  induction tss generalizing ts with
  | nil => simp
  | cons us tss ih =>
    rw [intercalate_cons_cons, ih, flatMap_cons, append_assoc, singleton_append]
    rfl

theorem tokensEach_eq_map (r : Nat) (es : List Expr) :
    tokensEach spell r es = es.map fun e => e.enclose r (e.tokens spell false) := by
  induction es with
  | nil => rfl
  | cons e es ih => rw [tokensEach, ih, map_cons]

end

section

variable {r k : Nat} {word : String}

theorem halts_flatMap (tss : List (List Token)) (hword : ∀ l, Halts r (wordToken word :: l)) (hrest : Halts r rest) :
    Halts r (tss.flatMap (wordToken word :: ·) ++ rest) := by
  cases tss with
  | nil => exact hrest
  | cons ts tss => exact hword _

theorem run_booleanRest (h : Forall₂ (ReadsIn r) es tss) (hbound : ∀ ts ∈ tss, ts.length ≤ n ∧ ts.length < k)
    (hword : ∀ l, Halts r (wordToken word :: l)) (hrest : Halts r rest) (hend : ∀ t ∈ rest.head?, t.isWord word = false)
    (hm : (tss.flatMap (wordToken word :: ·) ++ rest).length ≤ m) :
    (booleanRest word (parserOf (test n) k r) m).run (tss.flatMap (wordToken word :: ·) ++ rest) = .ok (es, rest) := by
  induction h generalizing m with
  | nil =>
    obtain ⟨m, rfl⟩ := hrest.length_pos hm
    obtain ⟨t, l, rfl, -⟩ := hrest
    simp only [flatMap_nil, nil_append]
    rw [booleanRest, run_acceptWord_skip (hend t rfl)]
    rfl
  | @cons e ts es tss he _ ih =>
    obtain ⟨hn, hk⟩ := hbound ts (by simp)
    simp only [flatMap_cons, cons_append, length_cons, append_assoc, length_append] at hm
    obtain _ | m := m
    · omega
    have hoperand := he.parse n k _ hn hk (halts_flatMap tss hword hrest)
    have hmore := ih (fun ts hts => hbound ts (by simp [hts])) (m := m) (by rw [length_append]; omega)
    simp only [flatMap_cons, cons_append, append_assoc]
    rw [booleanRest, run_acceptWord_take (by simp [wordToken, Token.isWord]) (by simp [he.starts.ne_nil]),
      run_bind_of_ok hoperand, run_bind_of_ok hmore]
    rfl

theorem length_le_intercalate (h : ts ∈ tss) : ts.length ≤ ([t].intercalate tss).length := by
  obtain ⟨us, tss, rfl⟩ := exists_cons_of_ne_nil (ne_nil_of_mem h)
  rw [intercalate_cons, length_append]
  rcases mem_cons.1 h with rfl | h
  · omega
  · have := (sublist_flatten_of_mem (mem_map_of_mem (f := (t :: ·)) h)).length_le
    rw [length_cons, ← flatMap_def] at this
    omega

theorem run_boolean (op : BoolOp) {s : List Token} (h : Forall₂ (ReadsIn r) es tss) (hmany : 2 ≤ es.length)
    (hpos : ∀ e ∈ es.head?, e.pos = default) (hword : ∀ l, Halts r (wordToken word :: l)) (hrest : Halts r rest)
    (hend : ∀ t ∈ rest.head?, t.isWord word = false) (hs : s = [wordToken word].intercalate tss)
    (hn : s.length ≤ n) (hk : s.length < k) :
    (boolean word op (parserOf (test n) k r)).run (s ++ rest) = .ok (.boolean default op es, rest) := by
  have hbound : ∀ ts ∈ tss, ts.length ≤ n ∧ ts.length < k := by
    intro ts hts
    have := hs ▸ length_le_intercalate (t := wordToken word) hts
    omega
  cases h with
  | nil => simp at hmany
  | @cons e ts es tss he hes =>
    have hoperand := he.parse n k _ (hbound ts (by simp)).1 (hbound ts (by simp)).2
      (halts_flatMap tss hword hrest)
    have hmore := run_booleanRest hes (fun ts hts => hbound ts (by simp [hts])) hword hrest hend le_rfl
    have hne : es ≠ [] := by
      rintro rfl
      simp at hmany
    rw [hs, intercalate_cons, append_assoc, boolean, run_bind_of_ok hoperand, run_remaining_bind, run_bind_of_ok hmore,
      if_neg (by simpa using hne), hpos e rfl]
    rfl

end

/-- The last word before an expression stops is not the one that carries it on. -/
theorem Halts.isWord_eq_false {op : BoolOp} (h : Halts op.rank rest) : ∀ t ∈ rest.head?, t.isWord op.word = false := by
  obtain ⟨t, l, rfl, h⟩ := h
  rintro u ⟨⟩
  cases op <;> exact h _ le_rfl

theorem halts_word (op : BoolOp) (l : List Token) : Halts (op.rank - 1) (wordToken op.word :: l) := by
  refine ⟨_, l, rfl, ?_⟩
  cases op <;> decide

theorem readsIn_boolean {op : BoolOp} (h : Forall₂ (ReadsIn (op.rank - 1)) es tss) (hmany : 2 ≤ es.length)
    (hpos : ∀ e ∈ es.head?, e.pos = default) :
    ReadsIn op.rank (.boolean default op es) ([wordToken op.word].intercalate tss) := by
  have hshape : Starts op.rank ([wordToken op.word].intercalate tss) ∧
      Unkeyed ([wordToken op.word].intercalate tss) := by
    obtain _ | ⟨he, _ | ⟨-, -⟩⟩ := h
    · simp at hmany
    · simp at hmany
    · rw [intercalate_cons, flatMap_cons, cons_append]
      exact ⟨(he.starts.mono (by omega)).append _, he.unkeyed.append he.starts.ne_nil rfl⟩
  have hrun {n k : Nat} {rest : List Token} (hn : _ ≤ n) (hk : _ < k) (hrest : Halts op.rank rest) :=
    run_boolean op h hmany hpos (halts_word op) (hrest.mono (Nat.sub_le _ _)) hrest.isWord_eq_false rfl hn hk
  refine ⟨hshape.1, hshape.2, ?_, ?_, fun n k rest hn hk hrest => ?_⟩
  · cases op <;> nofun
  · cases op <;> simp only [BoolOp.rank] <;> omega
  · cases op with
    | and =>
      change (conjunction (test n)).run _ = _
      rw [conjunction, run_remaining_bind]
      exact hrun (k := (_ ++ rest).length + 1) hn (by rw [length_append]; omega) hrest
    | or => exact hrun hn hk hrest

theorem reads_boolean {op : BoolOp} (hmany : 2 ≤ es.length) (h : ∀ e ∈ es, Reads e (e.tokens spell false)) :
    Reads (.boolean p op es) ((Expr.boolean p op es).tokens spell false) := by
  have hes : Forall₂ (ReadsIn (op.rank - 1)) (es.map Expr.unplaced) (tokensEach spell (op.rank - 1) es) := by
    have hle : op.rank - 1 ≤ 12 := by cases op <;> decide
    rw [tokensEach_eq_map, forall₂_map_left_iff, forall₂_map_right_iff, forall₂_same]
    exact fun e he => (h e he).enclose hle
  have hreads := readsIn_boolean hes (by simpa using hmany) (head?_unplaced_pos es)
  rw [← Expr.unplacedAll_eq_map] at hreads
  rw [Expr.tokens]
  exact hreads

/-! ### Separated items -/

/-- Some tokens are read as an item of a sequence that `close` ends. -/
structure ItemReads {α : Type} (stop : Token → Bool) (close : Token) (item : Parser α) (ts : List Token) (a : α) :
    Prop where
  starts : ∃ t l, ts = t :: l ∧ stop t = false
  run : ∀ u ∈ [signToken ",", close], ∀ rest, item.run (ts ++ u :: rest) = .ok (a, u :: rest)

section

variable {α : Type} {item : Parser α} {xs : List α}
  {rest : List Token}

theorem ItemReads.run_before {a : α} (h : ItemReads stop close item ts a) (tss : List (List Token)) (rest : List Token) :
    item.run (ts ++ (tss.flatMap (signToken "," :: ·) ++ close :: rest)) =
      .ok (a, tss.flatMap (signToken "," :: ·) ++ close :: rest) := by
  cases tss with
  | nil => exact h.run close (by simp) rest
  | cons us tss => exact h.run (signToken ",") (by simp) _

theorem run_moreItems (rest : List Token) (hclose : close.isOp "," = false)
    (h : Forall₂ (ItemReads stop close item) tss xs)
    (hm : (tss.flatMap (signToken "," :: ·) ++ close :: rest).length ≤ m) :
    (moreItems stop item m).run (tss.flatMap (signToken "," :: ·) ++ close :: rest) =
      .ok (xs, close :: rest) := by
  induction h generalizing m with
  | nil =>
    obtain ⟨m, rfl⟩ : ∃ m', m = m' + 1 := ⟨m - 1, by simp at hm; omega⟩
    simp only [flatMap_nil, nil_append]
    rw [moreItems, run_acceptOp_skip hclose]
    rfl
  | @cons ts a tss as ha _ ih =>
    simp only [flatMap_cons, cons_append, length_cons, append_assoc, length_append] at hm
    obtain _ | m := m
    · omega
    have hitem := ha.run_before tss rest
    have hmore := ih (m := m) (by simp only [length_append, length_cons]; omega)
    obtain ⟨t, l, rfl, ht⟩ := ha.starts
    simp only [flatMap_cons, cons_append, append_assoc] at hitem ⊢
    rw [moreItems, run_acceptOp_take rfl (by simp), run_peek_bind,
      if_neg (by simp [ht]), run_bind_of_ok hitem, run_bind_of_ok hmore]
    rfl

theorem run_items (rest : List Token) (hclose : close.isOp "," = false) (hstop : stop close = true)
    (h : Forall₂ (ItemReads stop close item) tss xs) :
    (items stop item).run (commas tss ++ close :: rest) = .ok (xs, close :: rest) := by
  cases h with
  | nil =>
    change (items stop item).run (close :: rest) = _
    rw [items, run_peek_bind, if_pos hstop]
    rfl
  | @cons ts a tss as ha has =>
    have hitem := ha.run_before tss rest
    have hmore := run_moreItems rest hclose has le_rfl
    obtain ⟨t, l, rfl, ht⟩ := ha.starts
    rw [commas, intercalate_cons, append_assoc]
    rw [cons_append] at hitem ⊢
    rw [items, run_peek_bind, if_neg (by simp [ht]), run_bind_of_ok hitem, run_remaining_bind,
      run_bind_of_ok hmore]
    rfl

end

theorem run_tupleOf {item : Parser Expr} (rest : List Token) (hclose : close.isOp "," = false)
    (hstop : stop close = true) (h : Forall₂ (ItemReads stop close item) tss es) (hne : es ≠ [])
    (hpos : ∀ e ∈ es.head?, e.pos = default) :
    (tupleOf stop item).run (Expr.tupleBody tss ++ close :: rest) =
      .ok (.tuple default es, close :: rest) := by
  have hcomma : (signToken ",").isOp "," = true := rfl
  match tss, es, h with
  | [], [], .nil => exact absurd rfl hne
  | [ts], [e], .cons he .nil =>
    have hitem := he.run (signToken ",") (by simp) (close :: rest)
    have hmore : (moreItems stop item ((close :: rest).length + 1)).run (signToken "," :: close :: rest) =
        .ok ([], close :: rest) := by
      rw [moreItems, run_acceptOp_take rfl (by simp), run_peek_bind, if_pos hstop]
      rfl
    rw [Expr.tupleBody, append_assoc, singleton_append, tupleOf, run_bind_of_ok hitem, run_checkOp_bind, if_pos hcomma,
      run_remaining_bind, length_cons, run_bind_of_ok hmore, hpos e rfl]
    rfl
  | ts :: us :: tss, e :: f :: es, .cons he hes =>
    have hitem := he.run_before (us :: tss) rest
    have hmore := run_moreItems rest hclose hes le_rfl
    change (tupleOf stop item).run (commas (ts :: us :: tss) ++ _) = _
    rw [commas, intercalate_cons, append_assoc, tupleOf, run_bind_of_ok hitem]
    rw [flatMap_cons, cons_append, cons_append] at hmore ⊢
    rw [run_checkOp_bind, if_pos hcomma, run_remaining_bind, run_bind_of_ok hmore, hpos e rfl]
    rfl

/-! ### Constants and names -/

section

variable {test : Parser Expr}

theorem run_atom_number (hv : numberValue x = .ok v) (hrest : rest ≠ []) :
    (atom test).run (⟨.number, x, default⟩ :: rest) = .ok (.constant default v, rest) := by
  change (discard next >>= fun _ => (liftM (numberValue x) : Parser Literal) >>= fun v =>
    pure (Expr.constant default v)).run (⟨.number, x, default⟩ :: rest) = _
  rw [run_discard_next hrest, hv]
  rfl

theorem run_strings (ss : List String) (hrest : ∀ t ∈ rest.head?, t.kind ≠ .string) :
    strings.run (ss.map (fun s => ⟨.string, s, default⟩) ++ rest) = .ok (String.join ss, rest) := by
  have hfront : (ss.map (fun s => (⟨.string, s, default⟩ : Token)) ++ rest).takeWhile (·.kind == .string) =
      ss.map fun s => ⟨.string, s, default⟩ := by
    rw [takeWhile_append_of_pos (by simp)]
    cases rest with
    | nil => simp
    | cons t rest => simp [hrest t rfl]
  change Except.ok (String.join (List.map _ (List.takeWhile _ _)), List.drop (List.length (List.takeWhile _ _)) _) = _
  rw [hfront, drop_left, map_map]
  simp [Function.comp_def]

theorem run_atom_name (hx : Expr.IsName x) (hrest : rest ≠ []) :
    (atom test).run (wordToken x :: rest) = .ok (.name default x, rest) := by
  change (nameAtom (wordToken x)).run (wordToken x :: rest) = _
  obtain ⟨h, htrue, hfalse, hnone⟩ := hx
  rw [nameAtom, run_discard_next hrest]
  split
  · exact absurd ‹_› htrue
  · exact absurd ‹_› hfalse
  · exact absurd ‹_› hnone
  · rw [if_neg (show (wordToken x).text ∉ reservedWords from h)]
    rfl

end

theorem reads_constant (h : Expr.Spells ts v) : Reads (.constant p v) ts := by
  have hne {rest : List Token} (h : ∃ t l, rest = t :: l ∧ t.kind ≠ .string) : rest ≠ [] := by
    obtain ⟨t, l, rfl, -⟩ := h
    simp
  cases h with
  | number hv =>
    exact (atomForm_of_atom fun n rest _ hrest => run_atom_number hv (hne hrest)).readsIn
      ⟨_, _, rfl, .literal (.inl rfl) rfl⟩ (unkeyed_singleton _)
  | @strings ss hss =>
    obtain ⟨s, ss, rfl⟩ := exists_cons_of_ne_nil hss
    refine (atomForm_of_atom fun n rest _ hrest => ?_).readsIn ⟨_, _, rfl, .literal (.inr rfl) rfl⟩
      (unkeyed_cons (by simp) _)
    obtain ⟨t, l, rfl, ht⟩ := hrest
    change (strings >>= fun x => pure (Expr.constant default (.str x))).run _ = _
    rw [run_bind_of_ok (run_strings (s :: ss) (by simpa using ht))]
    rfl
  | true | false | none =>
    refine (atomForm_of_atom fun n rest _ hrest => ?_).readsIn ⟨_, _, rfl, .name rfl (by decide) rfl⟩ (unkeyed_singleton _)
    obtain ⟨t, l, rfl, -⟩ := hrest
    rfl

theorem reads_name (hx : Expr.IsName x) : Reads (.name p x) [wordToken x] := by
  refine (atomForm_of_atom fun n rest _ hrest => run_atom_name hx ?_).readsIn ⟨_, _, rfl, .name rfl hx.1 rfl⟩
    (unkeyed_singleton _)
  obtain ⟨t, l, rfl, -⟩ := hrest
  simp

/-! ### Displays -/

theorem ReadsIn.itemReads {r : Nat} (h : ReadsIn r e ts) (hr : r ≤ 12) (hclose : ∀ l, Closes (close :: l))
    (hstop : ∀ t, StartsAt 12 t → stop t = false) (hn : ts.length < n) : ItemReads stop close (test n) ts e where
  starts := by
    obtain ⟨t, l, rfl, ht⟩ := h.starts
    exact ⟨t, l, rfl, hstop t (ht.mono hr)⟩
  run u hu rest := by
    refine h.run_test hr hn ?_
    rcases mem_pair.1 hu with rfl | rfl
    · exact closes_sign (by simp) rest
    · exact hclose rest

theorem ItemReads.listItem {test : Parser Expr} (h : ItemReads stop close test ts e) (hfor : close.isWord "for" = false) :
    ItemReads stop close (listItem test) ts e where
  starts := h.starts
  run u hu rest := by
    have hword : u.isWord "for" = false := by
      rcases mem_pair.1 hu with rfl | rfl
      · rfl
      · exact hfor
    rw [Parser.listItem, run_bind_of_ok (h.run u hu rest), run_checkWord_bind, if_neg (by simp [hword])]
    rfl

section

@[simp] theorem enclose_twelve (e : Expr) (ts : List Token) : e.enclose 12 ts = ts :=
  if_neg (by simpa using rank_le e)

theorem forall₂_tokensEach {R : List Token → Expr → Prop} (h : ∀ e ∈ es, R (e.tokens spell false) e.unplaced) :
    Forall₂ R (tokensEach spell 12 es) (es.map Expr.unplaced) := by
  rw [tokensEach_eq_map, forall₂_map_left_iff, forall₂_map_right_iff, forall₂_same]
  simpa using h

theorem length_le_tupleBody (h : ts ∈ tss) : ts.length ≤ (Expr.tupleBody tss).length := by
  unfold Expr.tupleBody
  split
  · simp_all
  · exact length_le_intercalate h

theorem mem_tokensEach (spell : Position → Literal → List Token) (he : e ∈ es) :
    e.tokens spell false ∈ tokensEach spell 12 es := by
  rw [tokensEach_eq_map]
  simpa using ⟨e, he, rfl⟩

theorem exists_tupleBody (t : Token) (l : List Token) (tss : List (List Token)) :
    ∃ l', Expr.tupleBody ((t :: l) :: tss) = t :: l' := by
  cases tss with
  | nil => exact ⟨_, rfl⟩
  | cons us tss => exact ⟨_, intercalate_cons _ _ _⟩

theorem reads_tuple (h : ∀ e ∈ es, Reads e (e.tokens spell false)) :
    Reads (.tuple p es) ((Expr.tuple p es).tokens spell false) := by
  simp only [Expr.tokens, Bool.false_and, Bool.false_eq_true, if_false]
  refine (atomForm_of_atom fun n rest hn hrest => ?_).readsIn ⟨_, _, rfl, .bracket (.inl rfl)⟩
    (unkeyed_cons (by decide) _)
  obtain ⟨u, us, rfl, -⟩ := hrest
  cases es with
  | nil => rfl
  | cons e es =>
    have hitems : Forall₂ (ItemReads endsExpression (signToken ")") (test n)) (tokensEach spell 12 (e :: es))
        ((e :: es).map Expr.unplaced) := by
      refine forall₂_tokensEach fun e' he' => (h e' he').itemReads (rank_le e') (closes_sign (by simp))
        (fun t ht => ht.endsExpression_eq) ?_
      have := length_le_tupleBody (mem_tokensEach spell he')
      simp only [length_append, length_cons, length_nil] at hn
      omega
    have htuple := run_tupleOf (u :: us) rfl rfl hitems (by simp) (head?_unplaced_pos _)
    obtain ⟨t, l, ht, hstart⟩ := (h e (by simp)).starts
    have hclose : t.isOp ")" = false := hstart.isOp_eq_false (by decide)
    simp only [tokensEach, enclose_twelve, ht] at htuple ⊢
    obtain ⟨l', hbody⟩ := exists_tupleBody t l (tokensEach spell 12 es)
    rw [hbody] at htuple ⊢
    rw [cons_append] at htuple
    have hstate : signToken "(" :: (t :: l') ++ [signToken ")"] ++ u :: us =
        signToken "(" :: t :: (l' ++ signToken ")" :: u :: us) := by simp
    rw [hstate, run_atom_sign, bracketAtom_round, run_discard_next (by simp), run_acceptOp_skip hclose, testList,
      run_bind_of_ok htuple,
      run_expectOp (by simp), ← Expr.unplacedAll_eq_map]
    rfl

theorem reads_list (h : ∀ e ∈ es, Reads e (e.tokens spell false)) :
    Reads (.list p es) ((Expr.list p es).tokens spell false) := by
  simp only [Expr.tokens]
  refine (atomForm_of_atom fun n rest hn hrest => ?_).readsIn ⟨_, _, rfl, .bracket (.inr rfl)⟩
    (unkeyed_cons (by decide) _)
  obtain ⟨u, us, rfl, -⟩ := hrest
  have hitems : Forall₂ (ItemReads (·.isOp "]") (signToken "]") (listItem (test n))) (tokensEach spell 12 es)
      (es.map Expr.unplaced) := by
    refine forall₂_tokensEach fun e he => ((h e he).itemReads (rank_le e) (closes_sign (by simp))
      (fun t ht => ht.isOp_eq_false (by decide)) ?_).listItem rfl
    have : _ ≤ (commas _).length := length_le_intercalate (mem_tokensEach spell he)
    simp only [length_append, length_cons, length_nil] at hn
    omega
  have hlist := run_items (u :: us) rfl rfl hitems
  rw [append_assoc, singleton_append, cons_append, run_atom_sign, bracketAtom_square,
    run_discard_next (by simp), run_bind_of_ok hlist, run_expectOp (by simp),
    ← Expr.unplacedAll_eq_map]
  rfl

end

/-! ### Trailers -/

theorem AtomForm.trailer {e' : Expr} (h : AtomForm ts e) (hstart : ∀ t ∈ us.head?, t.kind ≠ .string) (hne : us ≠ [])
    (hrun : ∀ n m rest, us.length ≤ n → rest ≠ [] →
      (trailers (test n) (m + 1) e).run (us ++ rest) = (trailers (test n) m e').run rest) : AtomForm (ts ++ us) e' := by
  intro n rest hn hrest
  rw [length_append] at hn
  obtain ⟨u, us, rfl⟩ := exists_cons_of_ne_nil hne
  obtain ⟨m, hm, hatom⟩ := h n (u :: us ++ rest) (by omega) ⟨_, _, rfl, hstart u rfl⟩
  obtain ⟨m, rfl⟩ : ∃ m', m = m' + 1 := ⟨m - 1, by simp at hm; omega⟩
  have hne' : rest ≠ [] := by
    obtain ⟨t, l, rfl, -⟩ := hrest
    simp
  refine ⟨m, by simp at hm; omega, ?_⟩
  rw [append_assoc, hatom, hrun n m rest (by omega) hne']

theorem run_identifier (hx : x ∉ reservedWords) (hrest : rest ≠ []) :
    identifier.run (wordToken x :: rest) = .ok (x, rest) := by
  have hword : (expectKind .name).run (wordToken x :: rest) = .ok (wordToken x, rest) := run_expectIf rfl hrest
  rw [identifier, run_bind_of_ok hword, if_neg (show (wordToken x).text ∉ _ from hx)]
  rfl

theorem reads_attr (h : Reads e ts) (hx : x ∉ reservedWords) :
    Reads (.attr p e x) (e.enclose 0 ts ++ [signToken ".", wordToken x]) := by
  have he := h.enclose (Nat.zero_le 12)
  refine ((he.atom rfl).trailer (by simp [signToken]) (by simp) fun n m rest _ hrest => ?_).readsIn
    (he.starts.append _) (he.unkeyed.append he.starts.ne_nil rfl)
  rw [cons_append, singleton_append, trailers, run_acceptOp_skip rfl, run_acceptOp_skip rfl,
    run_acceptOp_take rfl (by simp), run_bind_of_ok (run_identifier hx hrest), unplaced_pos,
    Expr.unplaced]

/-! ### Calls -/

/-- What follows an argument: a comma and more arguments, or the end. -/
def moreArguments (test : Parser Expr) (seen : Bool) (m : Nat)
    (add : List Expr × List Keyword → List Expr × List Keyword) : Parser (List Expr × List Keyword) := do
  if ← acceptOp "," then
    let more ← arguments test seen m
    return add more
  else return add ([], [])

section

variable {test : Parser Expr} {s : List Token} {seen : Bool}

theorem run_arguments_keyword (x : String) (hs : s ≠ []) :
    (arguments test seen (m + 1)).run (wordToken x :: signToken "=" :: s) =
      (test >>= fun e => moreArguments test true m fun (args, ks) => (args, ⟨default, x, e⟩ :: ks)).run s := by
  obtain ⟨t, s, rfl⟩ := exists_cons_of_ne_nil hs
  rfl

theorem run_arguments_positional {r : Nat} (hstarts : Starts r s) (hkey : Unkeyed s) :
    (arguments test false (m + 1)).run s =
      (test >>= fun e => moreArguments test false m fun (args, ks) => (e :: args, ks)).run s := by
  obtain ⟨t, l, rfl, ht⟩ := hstarts
  have hclose : t.isOp ")" = false := ht.isOp_eq_false (by decide)
  have hstar : t.isOp "*" = false := ht.isOp_eq_false (by decide)
  have hstars : t.isOp "**" = false := ht.isOp_eq_false (by decide)
  obtain ⟨u, hu, hsecond⟩ := run_peekSecond (t :: l)
  have hpositional : (t.kind == .name && u.isOp "=") = false := by
    by_cases hk : t.kind = .name
    · cases l with
      | nil =>
        obtain rfl : t = u := congrArg Prod.fst (Except.ok.inj hu)
        simp [Token.isOp, hk]
      | cons v l => simp [hsecond t v l rfl, hkey t v l rfl hk]
    · simp [hk]
  rw [arguments, run_peek_bind, if_neg (by simp [hclose]), if_neg (by simp [hstar, hstars]), run_bind_of_ok hu,
    if_neg (by simp [hpositional])]
  rfl

theorem run_moreArguments {more : List Expr × List Keyword} {add : List Expr × List Keyword → List Expr × List Keyword}
    (h : (arguments test seen m).run (commas tss ++ signToken ")" :: rest) = .ok (more, signToken ")" :: rest)) :
    (moreArguments test seen m add).run (tss.flatMap (signToken "," :: ·) ++ signToken ")" :: rest) =
      .ok (add more, signToken ")" :: rest) := by
  cases tss with
  | nil =>
    cases m with
    | zero => nomatch h
    | succ m =>
      obtain rfl : ([], []) = more := congrArg Prod.fst (Except.ok.inj h)
      rfl
  | cons ts tss =>
    rw [commas, intercalate_cons] at h
    rw [moreArguments, flatMap_cons, cons_append, cons_append, run_acceptOp_take rfl (by simp), run_bind_of_ok h]
    rfl

end

section

theorem closes_flatMap (tss : List (List Token)) (rest : List Token) :
    Closes (tss.flatMap (signToken "," :: ·) ++ signToken ")" :: rest) := by
  cases tss with
  | nil | cons ts tss => exact closes_sign (by simp) _

theorem length_commas_le (tss : List (List Token)) :
    (commas tss).length ≤ (tss.flatMap (signToken "," :: ·)).length := by
  cases tss with
  | nil => rfl
  | cons ts tss =>
    rw [commas, intercalate_cons, flatMap_cons, length_append, length_append]
    simp

theorem run_arguments_keywords (h : ∀ k ∈ ks, Reads k.value (k.value.tokens spell false)) {seen : Bool}
    (hn : (commas (tokensKeywords spell ks)).length ≤ n)
    (hm : (commas (tokensKeywords spell ks)).length < m) :
    (arguments (test n) seen m).run (commas (tokensKeywords spell ks) ++ signToken ")" :: rest) =
      .ok (([], ks.map Keyword.unplaced), signToken ")" :: rest) := by
  induction ks generalizing m seen with
  | nil =>
    obtain _ | m := m
    · omega
    rfl
  | cons k ks ih =>
    obtain ⟨p, x, e⟩ := k
    have he : Reads e (e.tokens spell false) := h ⟨p, x, e⟩ (by simp)
    have hle := length_commas_le (tokensKeywords spell ks)
    have hcommas : commas (tokensKeywords spell (⟨p, x, e⟩ :: ks)) = wordToken x :: signToken "=" ::
        (e.tokens spell false ++ (tokensKeywords spell ks).flatMap (signToken "," :: ·)) := by
      rw [tokensKeywords, commas, intercalate_cons]
      rfl
    rw [hcommas] at hn hm ⊢
    simp only [length_append, length_cons] at hn hm
    obtain _ | m := m
    · omega
    have hvalue := he.run_test (rank_le e) (show _ < n by omega)
      (closes_flatMap (tokensKeywords spell ks) rest)
    have hmore := @ih m (fun k hk => h k (by simp [hk])) true (by omega) (by omega)
    rw [cons_append, cons_append, append_assoc, run_arguments_keyword x (by simp), run_bind_of_ok hvalue,
      run_moreArguments hmore]
    rfl

theorem run_arguments (rest : List Token) (h : ∀ e ∈ args, Reads e (e.tokens spell false))
    (hks : ∀ k ∈ ks, Reads k.value (k.value.tokens spell false))
    (hn : (commas (tokensEach spell 12 args ++ tokensKeywords spell ks)).length < n)
    (hm : (commas (tokensEach spell 12 args ++ tokensKeywords spell ks)).length < m) :
    (arguments (test n) false m).run
        (commas (tokensEach spell 12 args ++ tokensKeywords spell ks) ++ signToken ")" :: rest) =
      .ok ((args.map Expr.unplaced, ks.map Keyword.unplaced), signToken ")" :: rest) := by
  induction args generalizing m with
  | nil => exact run_arguments_keywords hks (Nat.le_of_lt hn) hm
  | cons e args ih =>
    have he := h e (by simp)
    have hpos := length_pos_of_ne_nil he.starts.ne_nil
    simp only [tokensEach, enclose_twelve, cons_append, commas, intercalate_cons, length_append] at hn hm ih ⊢
    have hle := length_commas_le (tokensEach spell 12 args ++ tokensKeywords spell ks)
    rw [commas] at hle
    obtain _ | m := m
    · omega
    have hmore := ih (fun e he => h e (by simp [he])) (m := m) (by omega) (by omega)
    have hcloses := closes_flatMap (tokensEach spell 12 args ++ tokensKeywords spell ks) rest
    have hvalue := he.run_test (rank_le e) (show _ < n by omega) hcloses
    have hkey := he.unkeyed.append_closes he.starts.ne_nil hcloses
    rw [append_assoc, run_arguments_positional (he.starts.append _) hkey, run_bind_of_ok hvalue,
      run_moreArguments hmore]
    rfl

end

theorem reads_call {f : Expr} (hf : Reads f (f.tokens spell false)) (hargs : ∀ e ∈ args, Reads e (e.tokens spell false))
    (hks : ∀ k ∈ ks, Reads k.value (k.value.tokens spell false)) :
    Reads (.call p f args ks) ((Expr.call p f args ks).tokens spell false) := by
  have hf := hf.enclose (Nat.zero_le 12)
  rw [Expr.tokens]
  refine ((hf.atom rfl).trailer (by simp [signToken]) (by simp) fun n m rest hn hrest => ?_).readsIn
    (hf.starts.append _) (hf.unkeyed.append hf.starts.ne_nil rfl)
  simp only [length_append, length_cons, length_nil] at hn
  have hfuel : (commas (tokensEach spell 12 args ++ tokensKeywords spell ks)).length <
      (commas (tokensEach spell 12 args ++ tokensKeywords spell ks) ++ signToken ")" :: rest).length := by
    simp
  have harguments := run_arguments rest hargs hks (show _ < n by omega) hfuel
  rw [append_assoc, singleton_append, cons_append, trailers, run_acceptOp_take rfl (by simp), run_remaining_bind,
    run_bind_of_ok harguments]
  dsimp only
  rw [run_expectOp hrest, unplaced_pos, Expr.unplaced, Expr.unplacedAll_eq_map, Expr.unplacedKeywords_eq_map]

/-! ### Subscripts -/

section

variable {o : Option Expr}

theorem run_bound (h : ∀ e ∈ o, Reads e (e.tokens spell false)) (hn : (tokensOption spell o).length < n)
    (hx : x ∈ [":", ",", "]"]) (rest : List Token) :
    (bound (test n)).run (tokensOption spell o ++ signToken x :: rest) =
      .ok (o.map Expr.unplaced, signToken x :: rest) := by
  have hends : ∀ x ∈ [":", ",", "]"], endsBound (signToken x) = true := by decide
  have hcloses : Closes (signToken x :: rest) := closes_sign (by simp at hx ⊢; tauto) rest
  cases o with
  | none =>
    rw [tokensOption, nil_append, bound, run_peek_bind, if_pos (hends x hx)]
    rfl
  | some e =>
    have he := h e rfl
    rw [tokensOption] at hn ⊢
    have hvalue := he.run_test (rank_le e) hn hcloses
    obtain ⟨t, l, ht, hstart⟩ := he.starts
    have hstarts : endsBound t = false := by
      simp [endsBound, hstart.isOp_eq_false]
    rw [ht, cons_append] at hvalue ⊢
    rw [bound, run_peek_bind, if_neg (by simp [hstarts]), run_bind_of_ok hvalue]
    rfl

theorem run_step (h : ∀ e ∈ o, Reads e (e.tokens spell false)) (hn : (tokensStep spell o).length ≤ n)
    (hx : x ∈ [",", "]"]) (rest : List Token) (f : Option Expr → Parser β) :
    (acceptOp ":" >>= fun b => if b then bound (test n) >>= f else pure none >>= f).run
      (tokensStep spell o ++ signToken x :: rest) = (f (o.map Expr.unplaced)).run (signToken x :: rest) := by
  have hcolon : ∀ x ∈ [",", "]"], (signToken x).isOp ":" = false := by decide
  cases o with
  | none =>
    rw [tokensStep, nil_append, run_acceptOp_skip (hcolon x hx)]
    rfl
  | some e =>
    have hbound := run_bound (o := some e) h (n := n) (by simpa [tokensStep, tokensOption] using hn) (x := x)
      (by simp at hx ⊢; tauto) rest
    rw [tokensOption] at hbound
    rw [tokensStep, cons_append, run_acceptOp_take rfl (by simp),
      run_bind_of_ok hbound]

theorem itemReads_index (h : Reads e ts) (hn : ts.length < n) :
    ItemReads (·.isOp "]") (signToken "]") (index (test n)) ts e.unplaced := by
  have hitem : ItemReads (·.isOp "]") (signToken "]") (test n) ts e.unplaced :=
    h.itemReads (rank_le e) (closes_sign (by simp)) (fun t ht => ht.isOp_eq_false (by decide)) hn
  refine ⟨hitem.starts, fun u hu rest => ?_⟩
  have hvalue := hitem.run u hu rest
  have hnext : ∀ u ∈ [signToken ",", signToken "]"], u.isOp ":" = false := by decide
  obtain ⟨t, l, rfl, ht⟩ := h.starts
  have hcolon : t.isOp ":" = false := ht.isOp_eq_false (by decide)
  rw [cons_append] at hvalue ⊢
  rw [index, run_peek_bind, if_neg (by simp [hcolon]), map_eq_pure_bind, bind_assoc, run_bind_of_ok hvalue, pure_bind,
    run_acceptOp_skip (hnext u hu)]
  rfl

/-- What follows the lower bound of a slice and its colon. -/
theorem run_bounds (hupper : ∀ e ∈ upper, Reads e (e.tokens spell false))
    (hstep : ∀ e ∈ step, Reads e (e.tokens spell false))
    (hn : (tokensOption spell upper ++ tokensStep spell step).length < n) (hx : x ∈ [",", "]"]) (rest : List Token)
    (f : Option Expr → Option Expr → Parser β) :
    (bound (test n) >>= fun u => acceptOp ":" >>= fun b => if b then bound (test n) >>= f u else pure none >>= f u).run
        (tokensOption spell upper ++ (tokensStep spell step ++ signToken x :: rest)) =
      (f (upper.map Expr.unplaced) (step.map Expr.unplaced)).run (signToken x :: rest) := by
  obtain ⟨y, l, hy, hstate⟩ : ∃ y l, y ∈ [":", ",", "]"] ∧
      tokensStep spell step ++ signToken x :: rest = signToken y :: l := by
    cases step with
    | none => exact ⟨x, rest, mem_cons_of_mem _ hx, rfl⟩
    | some e => exact ⟨":", _, by simp, rfl⟩
  rw [length_append] at hn
  rw [hstate, run_bind_of_ok (run_bound hupper (by omega) hy l), ← hstate, run_step hstep (by omega) hx rest]

theorem itemReads_slice {lower : Option Expr} (hlower : ∀ e ∈ lower, Reads e (e.tokens spell false))
    (hupper : ∀ e ∈ upper, Reads e (e.tokens spell false)) (hstep : ∀ e ∈ step, Reads e (e.tokens spell false))
    (hn : ((Expr.slice p lower upper step).tokens spell false).length ≤ n) :
    ItemReads (·.isOp "]") (signToken "]") (index (test n)) ((Expr.slice p lower upper step).tokens spell false)
      (Expr.slice p lower upper step).unplaced := by
  simp only [Expr.tokens, length_append, length_cons, Expr.unplaced, Expr.unplacedOption_eq_map] at hn ⊢
  have hbound : (tokensOption spell upper ++ tokensStep spell step).length < n := by
    rw [length_append]
    omega
  cases lower with
  | none =>
    refine ⟨⟨_, _, rfl, rfl⟩, fun u hu rest => ?_⟩
    obtain ⟨x, hx, rfl⟩ : ∃ x ∈ [",", "]"], u = signToken x := by simpa using hu
    have hcolon : (signToken ":").isOp ":" = true := rfl
    rw [tokensOption, nil_append, cons_append, append_assoc, index, run_peek_bind, if_pos hcolon, pure_bind,
      run_acceptOp_take rfl (by simp)]
    exact run_bounds hupper hstep hbound hx rest _
  | some e =>
    have he := hlower e rfl
    rw [tokensOption] at hn ⊢
    obtain ⟨t, l, ht, hstart⟩ := he.starts
    refine ⟨⟨t, _, by rw [ht]; rfl, hstart.isOp_eq_false (by decide)⟩, fun u hu rest => ?_⟩
    obtain ⟨x, hx, rfl⟩ : ∃ x ∈ [",", "]"], u = signToken x := by simpa using hu
    have hcolon : t.isOp ":" = false := hstart.isOp_eq_false (by decide)
    have hvalue := he.run_test (n := n) (rank_le e) (by omega) (closes_sign (x := ":") (by simp)
      (tokensOption spell upper ++ (tokensStep spell step ++ signToken x :: rest)))
    rw [append_assoc, cons_append, append_assoc]
    rw [ht, cons_append] at hvalue ⊢
    rw [index, run_peek_bind, if_neg (by simp [hcolon]), map_eq_pure_bind, bind_assoc, run_bind_of_ok hvalue, pure_bind,
      run_acceptOp_take rfl (by simp), hstart.pos_eq]
    exact run_bounds hupper hstep hbound hx rest _

/-- The index of a subscript, up to its bracket. -/
def IndexReads (i : Expr) (ts : List Token) : Prop :=
  ∀ n rest, ts.length < n → rest ≠ [] →
    (tupleOf (·.isOp "]") (index (test n))).run (ts ++ signToken "]" :: rest) = .ok (i.unplaced, signToken "]" :: rest)

theorem reads_subscript (he : Reads e ts) (hi : IndexReads i us) :
    Reads (.subscript p e i) (e.enclose 0 ts ++ (signToken "[" :: us ++ [signToken "]"])) := by
  have he := he.enclose (Nat.zero_le 12)
  refine ((he.atom rfl).trailer (by simp [signToken]) (by simp) fun n m rest hn hrest => ?_).readsIn
    (he.starts.append _) (he.unkeyed.append he.starts.ne_nil rfl)
  simp only [length_append, length_cons, length_nil] at hn
  have hindex := hi n rest (by omega) hrest
  rw [append_assoc, singleton_append, cons_append, trailers, run_acceptOp_skip rfl,
    run_acceptOp_take rfl (by simp), run_bind_of_ok hindex,
    run_expectOp hrest, unplaced_pos, Expr.unplaced]

theorem indexReads_item (h : ∀ n, ts.length < n → ItemReads (·.isOp "]") (signToken "]") (index (test n)) ts i.unplaced) :
    IndexReads i ts :=
  fun n rest hn _ => run_tupleOf_one ((h n hn).run (signToken "]") (by simp) rest) rfl

theorem indexReads_tuple (hes : es ≠ []) (h : ∀ e ∈ es, ∀ n, (e.tokens spell false).length < n →
      ItemReads (·.isOp "]") (signToken "]") (index (test n)) (e.tokens spell false) e.unplaced) :
    IndexReads (.tuple p es) ((Expr.tuple p es).tokens spell true) := by
  intro n rest hn hrest
  have hbare : (Expr.tuple p es).tokens spell true = Expr.tupleBody (tokensEach spell 12 es) := by
    simp [Expr.tokens, hes]
  rw [hbare] at hn ⊢
  rw [Expr.unplaced, Expr.unplacedAll_eq_map]
  refine run_tupleOf rest rfl rfl (forall₂_tokensEach fun e he => h e he n ?_) (by simpa using hes)
    (head?_unplaced_pos es)
  exact (length_le_tupleBody (mem_tokensEach spell he)).trans_lt hn

end

/-! ### All accepted expressions -/

section

theorem accepted_of_mem (h : Expr.AcceptedEach spell place es) (he : e ∈ es) : e.Accepted spell place := by
  induction es with
  | nil => simp at he
  | cons e' es ih =>
    rw [Expr.AcceptedEach] at h
    rcases mem_cons.1 he with rfl | he
    · exact h.1
    · exact ih h.2 he

theorem accepted_value_of_mem {k : Keyword} (h : Expr.AcceptedKeywords spell ks) (hk : k ∈ ks) :
    k.value.Accepted spell .inner := by
  induction ks with
  | nil => simp at hk
  | cons k' ks ih =>
    obtain ⟨p, x, e⟩ := k'
    rw [Expr.AcceptedKeywords] at h
    rcases mem_cons.1 hk with rfl | hk
    · exact h.1
    · exact ih h.2 hk

/-- An expression that is no slice, and no tuple that may have slices, is accepted in all places alike. -/
theorem accepted_inner (h : e.Accepted spell place) (hslice : ∀ p l u s, e ≠ .slice p l u s)
    (htuple : place = .index → ∀ p es, e = .tuple p es → es = []) : e.Accepted spell .inner := by
  cases e with
  | slice p l u s => exact absurd rfl (hslice p l u s)
  | tuple p es =>
    cases place with
    | index =>
      obtain rfl := htuple rfl p es rfl
      trivial
    | element | inner => exact h
  | _ => exact h

theorem tokens_bare (h : ∀ p es, e = .tuple p es → es = []) : e.tokens spell true = e.tokens spell false := by
  cases e with
  | tuple p es =>
    obtain rfl := h p es rfl
    simp [Expr.tokens]
  | _ => simp [Expr.tokens]

variable (spell) in
/-- The accepted expressions smaller than a bound are read from their tokens. -/
def ReadsBelow (k : Nat) : Prop :=
  ∀ e : Expr, sizeOf e < k → e.Accepted spell .inner → Reads e (e.tokens spell false)

variable {k : Nat}

theorem ReadsBelow.each (h : ReadsBelow spell k) (hk : sizeOf es ≤ k) (hes : Expr.AcceptedEach spell .inner es) :
    ∀ e ∈ es, Reads e (e.tokens spell false) := fun e he =>
  h e ((sizeOf_lt_of_mem he).trans_le hk) (accepted_of_mem hes he)

theorem ReadsBelow.keywords (h : ReadsBelow spell k) (hk : sizeOf ks ≤ k) (hks : Expr.AcceptedKeywords spell ks) :
    ∀ x ∈ ks, Reads x.value (x.value.tokens spell false) := by
  intro x hx
  refine h x.value ?_ (accepted_value_of_mem hks hx)
  have := sizeOf_lt_of_mem hx
  obtain ⟨p, x, e⟩ := x
  simp at this ⊢
  omega

theorem ReadsBelow.option (h : ReadsBelow spell k) {o : Option Expr} (hk : sizeOf o ≤ k)
    (ho : Expr.AcceptedOption spell o) : ∀ e ∈ o, Reads e (e.tokens spell false) := by
  rintro e rfl
  exact h e (by simp at hk; omega) ho

theorem ReadsBelow.item (h : ReadsBelow spell k) (hk : sizeOf i < k) (hi : i.Accepted spell place)
    (htuple : place = .index → ∀ p es, i = .tuple p es → es = []) (hn : (i.tokens spell false).length < n) :
    ItemReads (·.isOp "]") (signToken "]") (index (test n)) (i.tokens spell false) i.unplaced := by
  by_cases hslice : ∃ p lower upper step, i = .slice p lower upper step
  · obtain ⟨p, lower, upper, step, rfl⟩ := hslice
    obtain ⟨-, hlower, hupper, hstep⟩ := hi
    simp only [Expr.slice.sizeOf_spec] at hk
    exact itemReads_slice (h.option (by omega) hlower) (h.option (by omega) hupper) (h.option (by omega) hstep)
      (Nat.le_of_lt hn)
  · push Not at hslice
    exact itemReads_index (h i hk (accepted_inner hi hslice htuple)) hn

theorem ReadsBelow.index (h : ReadsBelow spell k) (hk : sizeOf i < k) (hi : i.Accepted spell .index) :
    IndexReads i (i.tokens spell true) := by
  by_cases htuple : ∀ p es, i = .tuple p es → es = []
  · rw [tokens_bare htuple]
    exact indexReads_item fun n hn => h.item hk hi (fun _ => htuple) hn
  · push Not at htuple
    obtain ⟨p, es, rfl, hes⟩ := htuple
    simp only [Expr.tuple.sizeOf_spec] at hk
    refine indexReads_tuple hes fun e he n hn => h.item ?_ (accepted_of_mem hi he) nofun hn
    have := sizeOf_lt_of_mem he
    omega

/-- **Every accepted expression is read from its tokens.** -/
theorem reads_of_accepted (e : Expr) (h : e.Accepted spell .inner) : Reads e (e.tokens spell false) := by
  induction hsize : sizeOf e using Nat.strong_induction_on generalizing e with
  | _ k ih =>
    subst hsize
    have hbelow : ReadsBelow spell (sizeOf e) := fun e' hlt he' => ih _ hlt e' he' rfl
    cases e with
    | constant p v => exact reads_constant h
    | name p x => exact reads_name h
    | binary p l op r =>
      exact reads_binary (hbelow l (by decreasing_tactic) h.1) (hbelow r (by decreasing_tactic) h.2)
    | unary p op e => exact reads_unary (hbelow e (by decreasing_tactic) h)
    | boolean p op es => exact reads_boolean h.1 (hbelow.each (by simp) h.2)
    | compare p l ops es =>
      obtain ⟨hl, hops, hlength, hes⟩ := h
      exact reads_compare (hbelow l (by decreasing_tactic) hl) hops hlength (hbelow.each (by simp) hes)
    | call p f args ks =>
      obtain ⟨hf, hargs, hks⟩ := h
      exact reads_call (hbelow f (by decreasing_tactic) hf) (hbelow.each (by simp; omega) hargs)
        (hbelow.keywords (by simp) hks)
    | attr p e x => exact reads_attr (hbelow e (by decreasing_tactic) h.1) h.2
    | subscript p e i =>
      exact reads_subscript (hbelow e (by decreasing_tactic) h.1) (hbelow.index (by decreasing_tactic) h.2)
    | slice p lower upper step => exact absurd rfl h.1
    | tuple p es => exact reads_tuple (hbelow.each (by simp) h)
    | list p es => exact reads_list (hbelow.each (by simp) h)

end

end OpGraph.Syntax.Parser
