import OpGraph.Proofs.Syntax.Parsed
import OpGraph.Proofs.Syntax.Unplaced

/-!
What a parser does, and does again. A parser that is given some of the tokens of a text either takes tokens from their
front and gives a syntax tree, or gives an error that is placed at one of them; the exception is a number that has no
value. It looks at most one token beyond those that it takes, two after a name. `Replays` compares two parsers: whatever
the first one takes from an input, the second one takes the same tokens from any input that has them at its front,
wherever these tokens are placed and whatever follows them beyond the lookahead. So results do not depend on positions,
on what stands later in a script, nor on fuel beyond the number of tokens taken; and the fuel is never used up, since it
is the number of tokens that are left and each recursion takes a token first. The parsers of expressions and of simple
statements moreover take only tokens of one line, with matching brackets.
-/

namespace OpGraph.Syntax.Parser

open List
open Token (isOp_eq_of_unplaced kind_eq_of_unplaced text_eq_of_unplaced isWord_eq_of_unplaced)

variable {level : Level} {s s' ts us : List Token} {op wanted word : String} {fault : SyntaxFault}
variable {start start' t u : Token} {K' n' fuel m : ℕ}
variable {src : List Token} {c c' : Prop} {a b : String}

/-! ### Tokens of one line -/

/-- The number of open brackets after a token, from the number before it. -/
def depthStep (d : Nat) (t : Token) : Nat :=
  if t.isOp "(" || t.isOp "[" || t.isOp "\x7b" then d + 1
  else if t.isOp ")" || t.isOp "]" || t.isOp "\x7d" then d - 1
  else d

/-- The number of open brackets after some tokens. -/
def depthAfter (d : Nat) (ts : List Token) : Nat :=
  ts.foldl depthStep d

@[simp] theorem depthAfter_append (d : Nat) (ts us : List Token) :
    depthAfter d (ts ++ us) = depthAfter (depthAfter d ts) us :=
  foldl_append

/-- Whether a token belongs to the text of a line, and not to the layout. -/
def isText (t : Token) : Bool :=
  t.kind == .name || t.kind == .number || t.kind == .string || t.kind == .op

/-- Tokens within a line that leave as many brackets open as there were before them. -/
structure Tidy (ts : List Token) : Prop where
  text : ∀ t ∈ ts, isText t = true
  depth : ∀ d, depthAfter d ts = d

theorem Tidy.nil : Tidy [] :=
  ⟨by simp, fun _ => rfl⟩

theorem Tidy.append (ht : Tidy ts) (hu : Tidy us) : Tidy (ts ++ us) :=
  ⟨fun t h => (mem_append.1 h).elim (ht.text t) (hu.text t), fun d => by simp [ht.depth, hu.depth]⟩

theorem Tidy.cons (ht : Tidy [t]) (hu : Tidy us) : Tidy (t :: us) :=
  ht.append hu

theorem Tidy.ne_eof (h : Tidy [t]) : t.kind ≠ .eof := by
  intro hk
  have := h.text t (by simp)
  simp [isText, hk] at this

theorem tidy_of_kind (hk : t.kind = .name ∨ t.kind = .number ∨ t.kind = .string) : Tidy [t] := by
  rcases hk with hk | hk | hk <;> exact ⟨by simp [isText, hk], by simp [depthAfter, depthStep, Token.isOp, hk]⟩

/-- The spellings of brackets. -/
def brackets : List String :=
  ["(", "[", "\x7b", ")", "]", "\x7d"]

theorem tidy_of_notMem_brackets (hk : t.kind = .op) (ht : t.text ∉ brackets) : Tidy [t] := by
  simp only [brackets, mem_cons, not_mem_nil, or_false, not_or] at ht
  exact ⟨by simp [isText, hk], by simp [depthAfter, depthStep, Token.isOp, hk, ht]⟩

theorem tidy_of_isOp (ht : t.isOp op = true) (hop : op ∉ brackets) : Tidy [t] := by
  simp only [Token.isOp, Bool.and_eq_true, beq_iff_eq] at ht
  exact tidy_of_notMem_brackets ht.1 (ht.2 ▸ hop)

theorem tidy_of_isWord (ht : t.isWord word = true) : Tidy [t] :=
  tidy_of_kind (.inl (Token.kind_of_isWord ht))

theorem ne_eof_of_isOp (h : t.isOp op = true) : t.kind ≠ .eof := by
  intro hk
  simp [Token.isOp, hk] at h

/-- An opening bracket and the one that closes it. -/
inductive Pair : String → String → Prop
  | round : Pair "(" ")"
  | square : Pair "[" "]"

/-- What stands between matching brackets is tidy with them. -/
theorem Tidy.enclose (hab : Pair a b) (ht : t.isOp a = true) (hu : u.isOp b = true) (hts : Tidy ts) (hus : Tidy us) :
    Tidy (t :: (ts ++ u :: us)) := by
  simp only [Token.isOp, Bool.and_eq_true, beq_iff_eq] at ht hu
  refine ⟨fun v hv => ?_, fun d => ?_⟩
  · simp only [mem_cons, mem_append] at hv
    rcases hv with rfl | hv | rfl | hv
    · simp [isText, ht.1]
    · exact hts.text v hv
    · simp [isText, hu.1]
    · exact hus.text v hv
  · have hopen : depthStep d t = d + 1 := by cases hab <;> simp [depthStep, Token.isOp, ht]
    have hclose : depthStep (d + 1) u = d := by cases hab <;> simp [depthStep, Token.isOp, hu]
    have h1 : depthAfter (d + 1) ts = d + 1 := hts.depth _
    have h2 : depthAfter d us = d := hus.depth d
    simp only [depthAfter] at h1 h2
    simp [depthAfter, hopen, h1, hclose, h2]

/-! ### Inputs -/

/-- Tokens that end in the end of the input. -/
inductive Ended : List Token → Prop
  | last {t : Token} : t.kind = .eof → Ended [t]
  | cons {t : Token} {ts : List Token} : Ended ts → Ended (t :: ts)

theorem Ended.of_append (hus : Ended us) : Ended (ts ++ us) := by
  induction ts with
  | nil => exact hus
  | cons t ts ih => exact .cons ih

theorem Ended.exists_cons (h : Ended ts) : ∃ t us, ts = t :: us := by
  cases h <;> exact ⟨_, _, rfl⟩

theorem Ended.tail (h : Ended (t :: ts)) (ht : t.kind ≠ .eof) : Ended ts := by
  cases h with
  | last h => exact absurd h ht
  | cons h => exact h

/-- Tokens that are left of `src`. -/
structure Left (src ts : List Token) : Prop where
  suffix : ts <:+ src
  ended : Ended ts

theorem Left.exists_cons (h : Left src ts) : ∃ t us, ts = t :: us ∧ t ∈ src := by
  obtain ⟨t, us, rfl⟩ := h.ended.exists_cons
  exact ⟨t, us, rfl, h.suffix.mem mem_cons_self⟩

theorem Left.of_append (h : Left src (ts ++ us)) (hus : Ended us) : Left src us :=
  ⟨(suffix_append ts us).trans h.suffix, hus⟩

/-- Two inputs that look the same to a parser that does not take anything from them: their first tokens are the same up
to positions, and after a name their second tokens too. -/
inductive Fits : List Token → List Token → Prop
  | mk {t u : Token} {ts us : List Token} : t.unplaced = u.unplaced →
    (t.kind = .name → ts.head?.map Token.unplaced = us.head?.map Token.unplaced) → Fits (t :: ts) (u :: us)

theorem Fits.append {r : List Token} (h : SameTokens ts us) (hrs : Fits r s) :
    Fits (ts ++ r) (us ++ s) := by
  have hfront : r.head?.map Token.unplaced = s.head?.map Token.unplaced := by
    cases hrs with
    | mk ht => simp [ht]
  match ts, us, h with
  | [], [], _ => exact hrs
  | t :: ts, u :: us, h =>
    obtain ⟨ht, h⟩ := List.cons.inj h
    refine .mk ht fun _ => ?_
    match ts, us, h with
    | [], [], _ => exact hfront
    | v :: _, w :: _, h => simpa using (List.cons.inj h).1

theorem Fits.first (h : Fits s s') (ht : [t] <+: s) : ∃ u, [u] <+: s' ∧ t.unplaced = u.unplaced := by
  cases h with
  | @mk t' u ts us htu =>
    obtain ⟨rfl, -⟩ := cons_prefix_cons.1 ht
    exact ⟨u, ⟨us, rfl⟩, htu⟩

theorem Fits.second {v : Token} (h : Fits s s') (ht : [t, v] <+: s) (hk : t.kind = .name) :
    ∃ u w, [u, w] <+: s' ∧ v.unplaced = w.unplaced := by
  cases h with
  | @mk t' u ts us htu hname =>
    obtain ⟨rfl, l, rfl⟩ := cons_prefix_cons.1 ht
    cases us with
    | nil => simp [hk] at hname
    | cons w us => exact ⟨u, w, ⟨us, rfl⟩, by simpa using hname hk⟩

/-! ### Replaying -/

/-- An error that the tokens `src` justify: it is placed at one of them, or it is that of the value of a number. -/
inductive Justified (src : List Token) : Error → Prop
  | placed {f : SyntaxFault} {t : Token} : f ≠ .tooDeep → t ∈ src → Justified src ⟨.script f, some t.pos.location⟩
  | number {t : Token} {e : Error} : t ∈ src → t.kind = .number → numberValue t.text = .error e → Justified src e

variable {α β : Type} {front : List Token} {n K : ℕ} {p q : Parser α} {f g : α → Parser β}
  {Q : α → α → List Token → Prop}

/-- The first parser is given at most `n` tokens that are left of `src`, of which `front` is known. If it fails, the
tokens justify the error. Whatever it takes, the second parser takes too, if it is less than `K` tokens; the two results
and the tokens taken are related. -/
def Replays (src : List Token) (n K : ℕ) (front : List Token) (p q : Parser α) (Q : α → α → List Token → Prop) : Prop :=
  ∀ ⦃s : List Token⦄, Left src s → s.length ≤ n → front <+: s →
    (∀ e, p.run s = .error e → Justified src e) ∧
    ∀ a s', p.run s = .ok (a, s') → Ended s' ∧ ∃ used, s = used ++ s' ∧ (∃ b, Q a b used) ∧
      ∀ ⦃us rest : List Token⦄, used.length < K → used.map Token.unplaced = us.map Token.unplaced → Fits s' rest →
        ∃ b, q.run (us ++ rest) = .ok (b, rest) ∧ Q a b used

namespace Replays

theorem again {used rest : List Token} {a : α} (h : Replays src n K front p q Q) (hs : Left src (used ++ s'))
    (hn : (used ++ s').length ≤ n) (hfront : front <+: used ++ s') (hr : p.run (used ++ s') = .ok (a, s'))
    (hlt : used.length < K) (hus : SameTokens used us) (hfits : Fits s' rest) :
    ∃ b, q.run (us ++ rest) = .ok (b, rest) ∧ Q a b used := by
  obtain ⟨-, used', hused, -, h⟩ := (h hs hn hfront).2 a s' hr
  obtain rfl := append_cancel_right hused
  exact h hlt hus hfits

theorem mono {Q' : α → α → List Token → Prop} (h : Replays src n K front p q Q) (hle : n' ≤ n ∧ K' ≤ K)
    (hQ : ∀ a b u, Q a b u → Q' a b u) : Replays src n' K' front p q Q' := by
  intro s hs hn hfront
  obtain ⟨herror, hok⟩ := h hs (hn.trans hle.1) hfront
  refine ⟨herror, fun a s' hr => ?_⟩
  obtain ⟨hs', used, rfl, ⟨b, hb⟩, h⟩ := hok a s' hr
  refine ⟨hs', used, rfl, ⟨b, hQ _ _ _ hb⟩, fun us rest hlt hus hfits => ?_⟩
  obtain ⟨b, hrun, hb⟩ := h (by omega) hus hfits
  exact ⟨b, hrun, hQ _ _ _ hb⟩

theorem anywhere (h : Replays src n K [] p q Q) : Replays src n K front p q Q :=
  fun _ hs hn _ => h hs hn nil_prefix

theorem of_empty (hn : n ≤ 0) : Replays src n K front p q Q := by
  intro s hs hlength
  obtain ⟨t, ts, rfl, -⟩ := hs.exists_cons
  rw [length_cons] at hlength
  omega

theorem of_zero {q' : Parser α} (h : Replays src n 0 front p q Q) : Replays src n 0 front p q' Q := by
  intro s hs hn hfront
  obtain ⟨herror, hok⟩ := h hs hn hfront
  refine ⟨herror, fun a s' hr => ?_⟩
  obtain ⟨hs', used, rfl, hb, -⟩ := hok a s' hr
  exact ⟨hs', used, rfl, hb, fun us rest hlt => absurd hlt (Nat.not_lt_zero _)⟩

end Replays

theorem replays_pure {a b : α} (h : Q a b []) : Replays src n K front (pure a) (pure b) Q := by
  intro s hs _ _
  refine ⟨fun _ he => (nomatch he), fun c s' hr => ?_⟩
  cases hr
  refine ⟨hs.ended, [], rfl, ⟨b, h⟩, fun us rest _ hus _ => ?_⟩
  obtain rfl : us = [] := by simpa using hus.symm
  exact ⟨b, rfl, h⟩

theorem run_bind_of_ok {p : Parser α} {f : α → Parser β} {a : α} (h : p.run s = .ok (a, s')) :
    (p >>= f).run s = (f a).run s' := by
  rw [StateT.run_bind, h]
  rfl

theorem replays_bind {Q' : β → β → List Token → Prop} (hp : Replays src n K front p q Q)
    (hf : ∀ a b u, Q a b u → Replays src (n - u.length) (K - u.length) [] (f a) (g b) fun c d v => Q' c d (u ++ v)) :
    Replays src n K front (p >>= f) (q >>= g) Q' := by
  intro s hs hn hfront
  obtain ⟨herror, hok⟩ := hp hs hn hfront
  rcases hpr : p.run s with e | ⟨a, s₁⟩
  · rw [StateT.run_bind, hpr]
    refine ⟨fun e' he => ?_, fun _ _ he => nomatch he⟩
    cases he
    exact herror e hpr
  rw [run_bind_of_ok hpr]
  obtain ⟨hs1, u, rfl, ⟨b₀, hb₀⟩, hp⟩ := hok a s₁ hpr
  have hleft := hs.of_append hs1
  have hlength : s₁.length ≤ n - u.length := by
    rw [length_append] at hn
    omega
  obtain ⟨herror', hok'⟩ := hf a b₀ u hb₀ hleft hlength nil_prefix
  refine ⟨herror', fun c s' hr => ?_⟩
  obtain ⟨hs', v, rfl, ⟨d, hd⟩, -⟩ := hok' c s' hr
  refine ⟨hs', u ++ v, by simp, ⟨d, hd⟩, fun us rest hlt hus hfits => ?_⟩
  rw [length_append] at hlt
  obtain ⟨us₁, us₂, rfl, h1, h2⟩ := Token.exists_append_of_unplaced hus
  obtain ⟨b, hqr, hb⟩ := hp (by omega) h1 (hfits.append h2)
  obtain ⟨d, hgr, hd⟩ := (hf a b u hb).again hleft hlength nil_prefix hr (by omega) h2 hfits
  refine ⟨d, ?_, hd⟩
  rw [append_assoc, run_bind_of_ok hqr, hgr]

theorem replays_ite [Decidable c] [Decidable c'] {p' q' : Parser α} (hc : c ↔ c') (hp : c → Replays src n K front p q Q)
    (hq : ¬ c → Replays src n K front p' q' Q) :
    Replays src n K front (if c then p else p') (if c' then q else q') Q := by
  by_cases h : c
  · rw [if_pos h, if_pos (hc.1 h)]
    exact hp h
  · rw [if_neg h, if_neg (mt hc.2 h)]
    exact hq h

theorem replays_failAt (hfault : fault ≠ .tooDeep) (ht : t ∈ src) : Replays src n K front (failAt fault t) q Q := by
  intro s _ _ _
  refine ⟨fun e hr => ?_, fun _ _ hr => nomatch hr⟩
  cases hr
  exact .placed hfault ht

/-! ### Single tokens -/

section

variable {f g : Token → Parser α} {test : Token → Bool}

theorem run_peek_bind : (peek >>= f).run (t :: ts) = (f t).run (t :: ts) :=
  rfl

theorem run_remaining_bind {f : ℕ → Parser α} : (remaining >>= f).run s = (f s.length).run s :=
  rfl

theorem run_next (h : ts ≠ []) : next.run (t :: ts) = .ok (t, ts) := by
  obtain ⟨u, us, rfl⟩ := exists_cons_of_ne_nil h
  rfl

theorem run_peek_of_front (h : t :: front <+: s) : peek.run s = .ok (t, s) := by
  obtain ⟨l, rfl⟩ := h
  rfl

theorem replays_peek_front (h : ∀ u, t.unplaced = u.unplaced → Replays src n K (t :: front) (f t) (g u) Q) :
    Replays src n K (t :: front) (peek >>= f) (peek >>= g) Q := by
  intro s hs hn hfront
  rw [run_bind_of_ok (run_peek_of_front hfront)]
  obtain ⟨herror, hok⟩ := h t rfl hs hn hfront
  refine ⟨herror, fun a s' hr => ?_⟩
  obtain ⟨hs', used, rfl, hb, -⟩ := hok a s' hr
  refine ⟨hs', used, rfl, hb, fun us rest hlt hus hfits => ?_⟩
  obtain ⟨u, hu, htu⟩ := (hfits.append hus).first (List.IsPrefix.trans ⟨front, rfl⟩ hfront)
  obtain ⟨b, hgr, hb⟩ := (h u htu).again hs hn hfront hr hlt hus hfits
  exact ⟨b, (run_bind_of_ok (run_peek_of_front hu)).trans hgr, hb⟩

theorem replays_peek (h : ∀ t u, t ∈ src → t.unplaced = u.unplaced → Replays src n K [t] (f t) (g u) Q) :
    Replays src n K front (peek >>= f) (peek >>= g) Q := by
  intro s hs hn _
  obtain ⟨t, ts, rfl, ht⟩ := hs.exists_cons
  exact replays_peek_front (fun u => h t u ht) hs hn ⟨ts, rfl⟩

theorem replays_fail (hfault : fault ≠ .tooDeep) : Replays src n K front (fail fault) q Q := by
  intro s hs hn hfront
  obtain ⟨t, ts, rfl, ht⟩ := hs.exists_cons
  exact replays_failAt hfault ht hs hn hfront

theorem run_peekSecond (s : List Token) :
    ∃ v, peekSecond.run s = .ok (v, s) ∧ ∀ t u ts, s = t :: u :: ts → v = u := by
  match s with
  | [] => exact ⟨_, rfl, by simp⟩
  | [t] => exact ⟨_, rfl, by simp⟩
  | t :: u :: ts => exact ⟨_, rfl, by simp⟩

/-- The token after a name is part of the lookahead. -/
theorem replays_peekSecond
    (h : ∀ v w front, (t.kind = .name → v.unplaced = w.unplaced ∧ front = [t, v]) → Replays src n K front (f v) (g w) Q) :
    Replays src n K [t] (peekSecond >>= f) (peekSecond >>= g) Q := by
  intro s hs hn hfront
  obtain ⟨v, hv, hsecond⟩ := run_peekSecond s
  rw [run_bind_of_ok hv]
  obtain ⟨front, hfront, hname⟩ : ∃ front, front <+: s ∧ (t.kind = .name → front = [t, v]) := by
    by_cases hk : t.kind = .name
    · obtain ⟨l, rfl⟩ := hfront
      obtain ⟨u, us, rfl⟩ := (hs.ended.tail (by simp [hk])).exists_cons
      exact ⟨[t, v], ⟨us, by rw [hsecond t u us rfl]; rfl⟩, fun _ => rfl⟩
    · exact ⟨[], nil_prefix, fun h => absurd h hk⟩
  obtain ⟨herror, hok⟩ := h v v front (fun hk => ⟨rfl, hname hk⟩) hs hn hfront
  refine ⟨herror, fun a s' hr => ?_⟩
  obtain ⟨hs', used, rfl, hb, -⟩ := hok a s' hr
  refine ⟨hs', used, rfl, hb, fun us rest hlt hus hfits => ?_⟩
  obtain ⟨w, hw, hsecond'⟩ := run_peekSecond (us ++ rest)
  have hvw : t.kind = .name → v.unplaced = w.unplaced := by
    intro hk
    rw [hname hk] at hfront
    obtain ⟨u, w', ⟨l, hl⟩, hvw⟩ := (hfits.append hus).second hfront hk
    rwa [hsecond' u w' l hl.symm]
  obtain ⟨b, hgr, hb⟩ := (h v w front fun hk => ⟨hvw hk, hname hk⟩).again hs hn hfront hr hlt hus hfits
  exact ⟨b, (run_bind_of_ok hw).trans hgr, hb⟩

theorem replays_next (ht : t.kind ≠ .eof)
    (h : ∀ u, t.unplaced = u.unplaced → Replays src (n - 1) (K - 1) front (f t) (g u) fun a b v => Q a b (t :: v)) :
    Replays src n K (t :: front) (next >>= f) (next >>= g) Q := by
  intro s hs hn hts
  obtain ⟨t', l, rfl, -⟩ := hs.exists_cons
  obtain ⟨rfl, hfront⟩ := cons_prefix_cons.1 hts
  have hleft : Left src l := Left.of_append (show Left src ([t] ++ l) from hs) (hs.ended.tail ht)
  have hlength : l.length ≤ n - 1 := by
    rw [length_cons] at hn
    omega
  obtain ⟨v, l', rfl⟩ := hleft.ended.exists_cons
  rw [run_bind_of_ok (run_next (by simp))]
  obtain ⟨herror, hok⟩ := h t rfl hleft hlength hfront
  refine ⟨herror, fun a s' hr => ?_⟩
  obtain ⟨hs', used, hused, hb, -⟩ := hok a s' hr
  refine ⟨hs', t :: used, by rw [hused]; rfl, hb, fun us rest hlt hus hfits => ?_⟩
  obtain ⟨u, us, rfl, htu, hus⟩ := Token.exists_cons_of_unplaced hus
  rw [length_cons] at hlt
  rw [hused] at hleft hlength hfront hr
  obtain ⟨b, hgr, hb⟩ := (h u htu).again hleft hlength hfront hr (by omega) hus hfits
  refine ⟨b, (run_bind_of_ok (run_next ?_)).trans hgr, hb⟩
  cases hfits
  simp

theorem discard_bind {p : Parser α} {f : Unit → Parser β} : (discard p >>= f) = p >>= fun _ => f () := by
  simp [discard, Functor.discard, LawfulFunctor.map_const]

theorem replays_remaining {f g : ℕ → Parser α}
    (h : ∀ k m n' K', n' ≤ n ∧ K' ≤ K → n' ≤ k ∧ K' ≤ m → Replays src n' K' front (f k) (g m) Q) :
    Replays src n K front (remaining >>= f) (remaining >>= g) Q := by
  intro s hs hn hfront
  rw [run_remaining_bind]
  obtain ⟨herror, hok⟩ := h s.length 0 s.length 0 ⟨hn, Nat.zero_le _⟩ ⟨le_rfl, le_rfl⟩ hs le_rfl hfront
  refine ⟨herror, fun a s' hr => ?_⟩
  obtain ⟨hs', used, rfl, hb, -⟩ := hok a s' hr
  refine ⟨hs', used, rfl, hb, fun us rest hlt hus hfits => ?_⟩
  have hlength : used.length < (us ++ rest).length := by
    have h1 : used.length = us.length := by simpa using congrArg List.length hus
    cases hfits
    simp [h1]
  have hagain := h (used ++ s').length (us ++ rest).length (used ++ s').length (min K (us ++ rest).length)
    ⟨hn, Nat.min_le_left _ _⟩ ⟨le_rfl, Nat.min_le_right _ _⟩
  obtain ⟨b, hgr, hb⟩ := hagain.again hs le_rfl hfront hr (by omega) hus hfits
  exact ⟨b, run_remaining_bind.trans hgr, hb⟩

theorem numberValue_ne_list {text : String} {v : Literal} (h : numberValue text = .ok v) (vs : List Literal) :
    v ≠ .list vs := by
  rintro rfl
  unfold numberValue at h
  dsimp only at h
  split at h
  · split at h <;> cases h
  · split at h <;> cases h

theorem replays_numberValue {f g : Literal → Parser α} (ht : t ∈ src) (hk : t.kind = .number)
    (h : ∀ v, (∀ vs, v ≠ .list vs) → Replays src n K front (f v) (g v) Q) :
    Replays src n K front ((liftM (numberValue t.text) : Parser Literal) >>= f)
      ((liftM (numberValue t.text) : Parser Literal) >>= g) Q := by
  cases hv : numberValue t.text with
  | error e =>
    intro s _ _ _
    refine ⟨fun e' hr => ?_, fun _ _ hr => nomatch hr⟩
    cases hr
    exact .number ht hk hv
  | ok v => exact h v (numberValue_ne_list hv)

theorem acceptIf_bind {f : Bool → Parser α} :
    (acceptIf test >>= f) = peek >>= fun t => if test t then next >>= fun _ => f true else f false := by
  simp only [acceptIf, bind_assoc]
  congr 1
  funext t
  split <;> simp [discard_bind]

theorem expectIf_bind :
    (expectIf test wanted >>= f) =
      peek >>= fun t => if test t then next >>= f else failAt (.expected wanted t.description) t := by
  simp only [expectIf, bind_assoc]
  congr 1
  funext t
  split <;> rfl

theorem replays_accept (htest : ∀ t, test t.unplaced = test t)
    (hkind : ∀ t, test t = true → t.kind ≠ .eof) {f g : Bool → Parser α}
    (htrue : ∀ t, test t = true → Replays src (n - 1) (K - 1) [] (f true) (g true) fun a b u => Q a b (t :: u))
    (hfalse : Replays src n K [] (f false) (g false) Q) :
    Replays src n K front (acceptIf test >>= f) (acceptIf test >>= g) Q := by
  rw [acceptIf_bind, acceptIf_bind]
  refine replays_peek fun t u _ htu => replays_ite ?_ (fun h => ?_) fun _ => hfalse.anywhere
  · rw [← htest t, htu, htest]
  · exact replays_next (hkind t h) fun _ _ => htrue t h

theorem replays_expect (htest : ∀ t, test t.unplaced = test t)
    (hkind : ∀ t, test t = true → t.kind ≠ .eof)
    (h : ∀ t u, t ∈ src → test t = true → t.unplaced = u.unplaced →
      Replays src (n - 1) (K - 1) [] (f t) (g u) fun a b v => Q a b (t :: v)) :
    Replays src n K front (expectIf test wanted >>= f) (expectIf test wanted >>= g) Q := by
  rw [expectIf_bind, expectIf_bind]
  refine replays_peek fun t u ht htu => replays_ite ?_ (fun hpass => ?_) fun _ => replays_failAt (by simp) ht
  · rw [← htest t, htu, htest]
  · exact replays_next (hkind t hpass) fun u htu => h t u ht hpass htu

end

/-- A recursion on the fuel of the second parser may assume that there is some. -/
theorem replays_fuel {F : ℕ → Parser α} (h : ∀ m, K ≤ m + 1 → Replays src n K front p (F (m + 1)) Q) {m : ℕ}
    (hm : K ≤ m) : Replays src n K front p (F m) Q := by
  cases m with
  | succ m => exact h m hm
  | zero =>
    obtain rfl : K = 0 := by omega
    exact (h 0 (by omega)).of_zero

/-! ### Tracking -/

/-- Two parsers that take the same tidy tokens and return the same, as far as `v` tells, of which `P` holds. -/
def Tracks {γ : Type} (src : List Token) (n K : ℕ) (front : List Token) (P : α → Prop) (v : α → γ) (p q : Parser α) :
    Prop :=
  Replays src n K front p q fun a b used => P a ∧ v a = v b ∧ Tidy used

section

variable {γ δ : Type} {v : α → γ} {w : β → δ} {P : α → Prop} {R : β → Prop}

theorem Tracks.mono (h : Tracks src n K front P v p q) (hle : n' ≤ n ∧ K' ≤ K) : Tracks src n' K' front P v p q :=
  Replays.mono h hle fun _ _ _ h => h

theorem Tracks.anywhere (h : Tracks src n K [] P v p q) : Tracks src n K front P v p q :=
  Replays.anywhere h

theorem Tracks.after (h : Tracks src n K front P v p q) (hus : Tidy us) (hle : n' ≤ n ∧ K' ≤ K) :
    Replays src n' K' front p q fun a b used => P a ∧ v a = v b ∧ Tidy (us ++ used) :=
  Replays.mono h hle fun _ _ _ h' => ⟨h'.1, h'.2.1, hus.append h'.2.2⟩

theorem tracks_pure {a b : α} (ha : P a) (h : v a = v b) : Tracks src n K front P v (pure a) (pure b) :=
  replays_pure ⟨ha, h, .nil⟩

theorem tracks_bind (hp : Tracks src n K front P v p q)
    (hf : ∀ a b, P a → v a = v b → Tracks src n K [] R w (f a) (g b)) :
    Tracks src n K front R w (p >>= f) (q >>= g) :=
  replays_bind hp fun a b _ h => (hf a b h.1 h.2.1).after h.2.2 ⟨Nat.sub_le _ _, Nat.sub_le _ _⟩

/-- Recursions on fuel that take a token first: a step may assume what is said of one token less. -/
theorem tracks_fuel {F G : ℕ → Parser α} (step : ∀ {fuel m n' K' : ℕ} {front : List Token}, n' ≤ n ∧ K' ≤ K →
    Tracks src (n' - 1) (K' - 1) [] P v (F fuel) (G m) → Tracks src n' K' front P v (F (fuel + 1)) (G (m + 1)))
    (h : n ≤ fuel ∧ K ≤ m) :
    Tracks src n K front P v (F fuel) (G m) := by
  induction fuel generalizing m n K front with
  | zero => exact .of_empty h.1
  | succ fuel ih =>
    refine replays_fuel (fun m hm => ?_) h.2
    exact step ⟨le_rfl, le_rfl⟩ (ih (fun hle => step (by omega)) (by omega))

theorem tracks_last {a b : α → β} (hp : Tracks src n K front P v p q)
    (h : ∀ x y, P x → v x = v y → R (a x) ∧ w (a x) = w (b y)) :
    Tracks src n K front R w (p >>= fun x => pure (a x)) (q >>= fun y => pure (b y)) :=
  tracks_bind hp fun x y hx hxy => tracks_pure (h x y hx hxy).1 (h x y hx hxy).2

/-- One more item of a list. -/
theorem tracks_cons {ps qs : Parser (List α)} (hp : Tracks src n K front P v p q)
    (hps : Tracks src n K [] (fun as => ∀ a ∈ as, P a) (List.map v) ps qs) :
    Tracks src n K front (fun as => ∀ a ∈ as, P a) (List.map v) (p >>= fun a => ps >>= fun as => pure (a :: as))
      (q >>= fun a => qs >>= fun as => pure (a :: as)) :=
  tracks_bind hp fun a b ha hab => tracks_last hps fun as bs has hbs =>
    ⟨forall_mem_cons.2 ⟨ha, has⟩, by rw [map_cons, map_cons, hab, hbs]⟩

theorem tracks_map {a : α → β} (hp : Tracks src n K front P v p q)
    (h : ∀ x y, P x → v x = v y → R (a x) ∧ w (a x) = w (a y)) : Tracks src n K front R w (a <$> p) (a <$> q) := by
  rw [map_eq_pure_bind, map_eq_pure_bind]
  exact tracks_last hp h

theorem tracks_ite [Decidable c] [Decidable c'] {p' q' : Parser α} (hc : c ↔ c') (hp : c → Tracks src n K front P v p q)
    (hq : ¬ c → Tracks src n K front P v p' q') :
    Tracks src n K front P v (if c then p else p') (if c' then q else q') :=
  replays_ite hc hp hq

theorem replays_closing (hab : Pair a b) (ht : t.isOp a = true) (hp : Tracks src n K front P v p q)
    (hf : ∀ x y, P x → v x = v y → Tracks src n K [] R w (f x) (g y)) :
    Replays src n K front (p >>= fun x => discard (expectOp b) >>= fun _ => f x)
      (q >>= fun x => discard (expectOp b) >>= fun _ => g x) fun x y u => R x ∧ w x = w y ∧ Tidy (t :: u) := by
  refine replays_bind hp fun x y u hxy => ?_
  rw [discard_bind, discard_bind]
  refine replays_expect (fun _ => rfl) (fun _ => ne_eof_of_isOp) fun t' u' _ ht' _ => ?_
  refine Replays.mono (hf x y hxy.1 hxy.2.1) (by omega) fun c d r h => ⟨h.1, h.2.1, ?_⟩
  exact Tidy.enclose hab ht ht' hxy.2.2 h.2.2

theorem tracks_remaining {f g : ℕ → Parser α}
    (h : ∀ k m n' K', n' ≤ n ∧ K' ≤ K → n' ≤ k ∧ K' ≤ m → Tracks src n' K' front P v (f k) (g m)) :
    Tracks src n K front P v (remaining >>= f) (remaining >>= g) :=
  replays_remaining h

variable {f g : Token → Parser α} {test : Token → Bool}

theorem tracks_peek (h : ∀ t u, t ∈ src → t.unplaced = u.unplaced → Tracks src n K [t] P v (f t) (g u)) :
    Tracks src n K front P v (peek >>= f) (peek >>= g) :=
  replays_peek h

theorem tracks_next (ht : Tidy [t])
    (h : ∀ u, t.unplaced = u.unplaced → Tracks src (n - 1) (K - 1) front P v (f t) (g u)) :
    Tracks src n K (t :: front) P v (next >>= f) (next >>= g) :=
  replays_next ht.ne_eof fun u hu => (h u hu).after ht ⟨le_rfl, le_rfl⟩

theorem tracks_discard_next {f g : Unit → Parser α} (ht : Tidy [t])
    (h : Tracks src (n - 1) (K - 1) front P v (f ()) (g ())) :
    Tracks src n K (t :: front) P v (discard next >>= f) (discard next >>= g) := by
  rw [discard_bind, discard_bind]
  exact tracks_next ht fun _ _ => h

theorem tracks_expect (htest : ∀ t, test t.unplaced = test t)
    (htidy : ∀ t, test t = true → Tidy [t])
    (h : ∀ t u, t ∈ src → test t = true → t.unplaced = u.unplaced → Tracks src (n - 1) (K - 1) [] P v (f t) (g u)) :
    Tracks src n K front P v (expectIf test wanted >>= f) (expectIf test wanted >>= g) :=
  replays_expect htest (fun t ht => (htidy t ht).ne_eof) fun t u hmem ht htu =>
    (h t u hmem ht htu).after (htidy t ht) ⟨le_rfl, le_rfl⟩

theorem tracks_expectWord (h : ∀ t u, Tracks src (n - 1) (K - 1) [] P v (f t) (g u)) :
    Tracks src n K front P v (expectWord word >>= f) (expectWord word >>= g) :=
  tracks_expect (fun _ => rfl) (fun _ h => tidy_of_isWord h) fun t u _ _ _ => h t u

theorem tracks_rejectWord (hfault : fault ≠ .tooDeep) (h : Tracks src n K [] P v p q) :
    Tracks src n K front P v (do if ← checkWord word then fail fault else p)
      (do if ← checkWord word then fail fault else q) := by
  simp only [checkWord, bind_assoc, pure_bind]
  refine tracks_peek fun t u _ htu => ?_
  rw [isWord_eq_of_unplaced htu]
  exact tracks_ite Iff.rfl (fun _ => replays_fail hfault) fun _ => h.anywhere

variable {f g : Bool → Parser α}

theorem tracks_accept (htest : ∀ t, test t.unplaced = test t)
    (htidy : ∀ t, test t = true → Tidy [t])
    (htrue : Tracks src (n - 1) (K - 1) [] P v (f true) (g true))
    (hfalse : Tracks src n K [] P v (f false) (g false)) :
    Tracks src n K front P v (acceptIf test >>= f) (acceptIf test >>= g) :=
  replays_accept htest (fun t h => (htidy t h).ne_eof) (fun t h => htrue.after (htidy t h) ⟨le_rfl, le_rfl⟩) hfalse

theorem tracks_acceptOp (hop : op ∉ brackets)
    (htrue : Tracks src (n - 1) (K - 1) [] P v (f true) (g true)) (hfalse : Tracks src n K [] P v (f false) (g false)) :
    Tracks src n K front P v (acceptOp op >>= f) (acceptOp op >>= g) :=
  tracks_accept (fun _ => rfl) (fun _ h => tidy_of_isOp h hop) htrue hfalse

theorem tracks_acceptWord (htrue : Tracks src (n - 1) (K - 1) [] P v (f true) (g true))
    (hfalse : Tracks src n K [] P v (f false) (g false)) :
    Tracks src n K front P v (acceptWord word >>= f) (acceptWord word >>= g) :=
  tracks_accept (fun _ => rfl) (fun _ h => tidy_of_isWord h) htrue hfalse

theorem tracks_checkOp (h : ∀ b, Tracks src n K [] P v (f b) (g b)) :
    Tracks src n K front P v (checkOp op >>= f) (checkOp op >>= g) := by
  simp only [checkOp, bind_assoc, pure_bind]
  refine tracks_peek fun t u _ htu => ?_
  rw [isOp_eq_of_unplaced htu]
  exact (h _).anywhere

theorem tracks_checkKind {kind : TokenKind} (h : ∀ b, Tracks src n K [] P v (f b) (g b)) :
    Tracks src n K front P v (checkKind kind >>= f) (checkKind kind >>= g) := by
  simp only [checkKind, bind_assoc, pure_bind]
  refine tracks_peek fun t u _ htu => ?_
  rw [kind_eq_of_unplaced htu]
  exact (h _).anywhere

end

/-! ### Words -/

def anything (_ : α) : Prop :=
  True

theorem tracks_identifier : Tracks src n K front (Word src) id identifier identifier := by
  refine tracks_expect (fun _ => rfl) (fun t ht => tidy_of_kind (.inl (by simpa using ht))) fun t u ht hk htu => ?_
  rw [← text_eq_of_unplaced htu]
  refine tracks_ite Iff.rfl (fun _ => replays_failAt (by simp) ht) fun hfree => tracks_pure ?_ rfl
  exact ⟨hfree, t, ht, eq_of_beq hk, rfl⟩

theorem tracks_dottedRest (h : n ≤ fuel ∧ K ≤ m) :
    Tracks src n K front anything id (dottedRest fuel) (dottedRest m) := by
  refine tracks_fuel (fun _ ih => ?_) h
  refine tracks_acceptOp (by decide) ?_ (tracks_pure trivial rfl)
  refine tracks_bind tracks_identifier fun x y _ hxy => ?_
  refine tracks_last ih fun xs ys _ hxs => ⟨trivial, ?_⟩
  rw [show x = y from hxy, show xs = ys from hxs]

theorem tracks_dottedName :
    Tracks src n K front (fun name => ∃ x rest, name = x ++ rest ∧ Word src x) id dottedName dottedName := by
  refine tracks_bind tracks_identifier fun x y hx hxy => tracks_remaining fun k m n' K' _ hm => ?_
  refine tracks_last (tracks_dottedRest hm) fun xs ys _ hxs => ⟨⟨x, xs, rfl, hx⟩, ?_⟩
  rw [show x = y from hxy, show xs = ys from hxs]

/-! ### Sequences -/

section

variable {γ : Type} {v : α → γ} {P : α → Prop} {stop : Token → Bool} {item item' : Parser α}

theorem tracks_moreItems (hstop : ∀ t, stop t.unplaced = stop t) (hitem : Tracks src (n - 1) (K - 1) [] P v item item')
    (h : n ≤ fuel ∧ K ≤ m) :
    Tracks src n K front (fun as => ∀ a ∈ as, P a) (List.map v) (moreItems stop item fuel) (moreItems stop item' m) := by
  refine tracks_fuel (fun hle ih => ?_) h
  refine tracks_acceptOp (by decide) ?_ (tracks_pure (by simp) rfl)
  refine tracks_peek fun t u _ htu => tracks_ite ?_ (fun _ => tracks_pure (by simp) rfl) fun _ => ?_
  · rw [← hstop t, htu, hstop]
  exact tracks_cons (hitem.mono (by omega)).anywhere ih

theorem tracks_items (hstop : ∀ t, stop t.unplaced = stop t) (hitem : Tracks src n K [] P v item item') :
    Tracks src n K front (fun as => ∀ a ∈ as, P a) (List.map v) (items stop item) (items stop item') := by
  refine tracks_peek fun t u _ htu => tracks_ite ?_ (fun _ => tracks_pure (by simp) rfl) fun _ => ?_
  · rw [← hstop t, htu, hstop]
  refine tracks_bind hitem.anywhere fun x y hx hxy => tracks_remaining fun k m n' K' _ hm => ?_
  refine tracks_last (tracks_moreItems hstop (hitem.mono (by omega)) hm) fun xs ys hxs hxys => ?_
  exact ⟨forall_mem_cons.2 ⟨hx, hxs⟩, by rw [map_cons, map_cons, hxy, hxys]⟩

theorem tracks_tupleOf (hstop : ∀ t, stop t.unplaced = stop t) {item item' : Parser Expr} {P R : Expr → Prop}
    (hitem : Tracks src n K [] P Expr.unplaced item item') (hone : ∀ e, P e → R e)
    (hmany : ∀ pos es, (∀ e ∈ es, P e) → R (.tuple pos es)) :
    Tracks src n K front R Expr.unplaced (tupleOf stop item) (tupleOf stop item') := by
  refine tracks_bind hitem.anywhere fun x y hx hxy => tracks_checkOp fun b => ?_
  refine tracks_ite Iff.rfl (fun _ => tracks_remaining fun k m n' K' _ hm => ?_) fun _ => tracks_pure (hone x hx) hxy
  refine tracks_last (tracks_moreItems hstop (hitem.mono (by omega)) hm) fun xs ys hxs hxys => ?_
  exact ⟨hmany _ _ (forall_mem_cons.2 ⟨hx, hxs⟩), by simp [Expr.unplaced, hxy, hxys]⟩

end

/-! ### Atoms and trailers -/

theorem tidy_of_strings (h : ∀ t ∈ ts, t.kind = .string) : Tidy ts := by
  induction ts with
  | nil => exact .nil
  | cons t ts ih =>
    obtain ⟨ht, hts⟩ := forall_mem_cons.1 h
    exact (tidy_of_kind (.inr (.inr ht))).cons (ih hts)

theorem Ended.dropWhile {test : Token → Bool} (hs : Ended s) (htest : ∀ t, test t = true → t.kind ≠ .eof) :
    Ended (s.dropWhile test) := by
  induction hs with
  | @last t ht =>
    have h : ¬ test t = true := fun h => htest t h ht
    rw [dropWhile_cons_of_neg h]
    exact .last ht
  | @cons t ts hts ih =>
    by_cases h : test t = true
    · rw [dropWhile_cons_of_pos h]
      exact ih
    · rw [dropWhile_cons_of_neg h]
      exact hts.cons

/-- The strings at the front end at the first token of another kind, which the lookahead sees. -/
theorem tracks_strings : Tracks src n K front anything id strings strings := by
  intro s hs _ _
  refine ⟨fun _ he => (nomatch he), fun a s' hr => ?_⟩
  cases hr
  have hsplit : s.drop (s.takeWhile (·.kind == .string)).length = s.dropWhile (·.kind == .string) := by
    conv_lhs => arg 2; rw [← takeWhile_append_dropWhile (p := (·.kind == .string)) (l := s)]
    exact drop_left
  have hused : ∀ t ∈ s.takeWhile (·.kind == .string), t.kind = .string := fun t ht => by
    simpa using mem_takeWhile_imp ht
  have hend : Ended (s.dropWhile (·.kind == .string)) := hs.ended.dropWhile fun t ht hk => by simp [hk] at ht
  rw [hsplit]
  refine ⟨hend, _, takeWhile_append_dropWhile.symm, ⟨_, trivial, rfl, tidy_of_strings hused⟩, ?_⟩
  intro us rest _ hus hfits
  have hkinds : ∀ u ∈ us, (u.kind == .string) = true := by
    intro u hu
    have hu' : u.unplaced ∈ us.map Token.unplaced := mem_map_of_mem hu
    rw [← hus] at hu'
    obtain ⟨t, ht, htu⟩ := mem_map.1 hu'
    simp [← kind_eq_of_unplaced htu, hused t ht]
  have hstop : rest.takeWhile (·.kind == .string) = [] := by
    have hnot := head?_dropWhile_not (fun t : Token => t.kind == .string) s
    generalize s.dropWhile (·.kind == .string) = s' at hfits hnot
    cases hfits with
    | mk htu =>
      refine takeWhile_cons_of_neg ?_
      rw [← kind_eq_of_unplaced htu]
      simpa using hnot
  have hfront : (us ++ rest).takeWhile (·.kind == .string) = us := by
    rw [takeWhile_append_of_pos hkinds, hstop, append_nil]
  refine ⟨String.join (us.map (·.text)), ?_, trivial, ?_, tidy_of_strings hused⟩
  · change Except.ok (_, _) = _
    rw [hfront, drop_left]
  · have htexts := congrArg (List.map Token.text) hus
    rw [map_map, map_map] at htexts
    exact congrArg String.join htexts

/-- Parsers of expressions that do not stand in the brackets of a subscript. -/
abbrev TracksPlain (src : List Token) (n K : ℕ) (front : List Token) (p q : Parser Expr) : Prop :=
  Tracks src n K front (Plain src) Expr.unplaced p q

theorem tracks_nameAtom (ht : t ∈ src) (hk : t.kind = .name) (htu : t.unplaced = u.unplaced) :
    TracksPlain src n K [t] (nameAtom t) (nameAtom u) := by
  unfold nameAtom
  refine tracks_discard_next (tidy_of_kind (.inl hk)) ?_
  rw [← text_eq_of_unplaced htu]
  split
  · exact tracks_pure (.constant (by simp)) rfl
  · exact tracks_pure (.constant (by simp)) rfl
  · exact tracks_pure (.constant (by simp)) rfl
  · refine tracks_ite Iff.rfl (fun _ => replays_failAt (by simp) ht) fun hfree => tracks_pure ?_ rfl
    exact .name ⟨hfree, t, ht, hk, rfl⟩

section

variable {test test' : Parser Expr}

theorem tracks_listItem (htest : TracksPlain src n K [] test test') :
    TracksPlain src n K front (listItem test) (listItem test') :=
  tracks_bind htest.anywhere fun _ _ hx he => tracks_rejectWord (by simp) (tracks_pure hx he)

theorem tracks_testList (htest : TracksPlain src n K [] test test') :
    TracksPlain src n K front (testList test) (testList test') :=
  tracks_tupleOf (fun _ => rfl) htest (fun _ he => he) fun _ _ => .tuple

theorem tracks_bracketAtom (htest : TracksPlain src (n - 1) (K - 1) [] test test') (ht : t ∈ src) (hk : t.kind = .op)
    (htu : t.unplaced = u.unplaced) : TracksPlain src n K [t] (bracketAtom test t) (bracketAtom test' u) := by
  have hne : t.kind ≠ .eof := by simp [hk]
  unfold bracketAtom
  rw [← text_eq_of_unplaced htu]
  split
  · rename_i htext
    have hop : t.isOp "(" = true := by simp [Token.isOp, hk, htext]
    rw [discard_bind, discard_bind]
    refine replays_next hne fun _ _ => replays_accept (fun _ => rfl) (fun _ => ne_eof_of_isOp) (fun v hv => ?_) ?_
    · exact replays_pure ⟨.tuple (by simp), rfl, Tidy.enclose .round hop hv .nil .nil⟩
    · exact replays_closing .round hop (tracks_testList htest) fun _ _ => tracks_pure
  · rename_i htext
    have hop : t.isOp "[" = true := by simp [Token.isOp, hk, htext]
    rw [discard_bind, discard_bind]
    refine replays_next hne fun _ _ => replays_closing .square hop
      (tracks_items (fun _ => rfl) (tracks_listItem htest)) fun _ _ hes hes' => tracks_pure (.list hes) ?_
    simp [Expr.unplaced, hes']
  · exact replays_failAt (by simp) ht
  · exact replays_failAt (by simp) ht
  · exact replays_failAt (by simp) ht

theorem tracks_atom (htest : TracksPlain src (n - 1) (K - 1) [] test test') :
    TracksPlain src n K front (atom test) (atom test') := by
  refine tracks_peek fun t u ht htu => ?_
  rw [← kind_eq_of_unplaced htu]
  split
  · rename_i hk
    refine tracks_discard_next (tidy_of_kind (.inr (.inl hk))) ?_
    rw [← text_eq_of_unplaced htu]
    exact replays_numberValue ht hk fun v hv => tracks_pure (.constant hv) rfl
  · refine tracks_last tracks_strings fun x y _ hxy => ⟨.constant (by simp), ?_⟩
    simp [Expr.unplaced, show x = y from hxy]
  · exact tracks_nameAtom ht ‹_› htu
  · exact tracks_bracketAtom htest ht ‹_› htu
  · exact replays_failAt (by simp) ht

def argumentsView (r : List Expr × List Keyword) : List Expr × List Keyword :=
  (r.1.map Expr.unplaced, r.2.map Keyword.unplaced)

theorem tracks_arguments : ∀ {fuel m n K : ℕ} {front : List Token} {seen : Bool},
    TracksPlain src n K [] test test' → n ≤ fuel ∧ K ≤ m →
    Tracks src n K front (fun r => (∀ e ∈ r.1, Plain src e) ∧ ∀ k ∈ r.2, Plain src k.value) argumentsView
      (arguments test seen fuel) (arguments test' seen m)
  | 0, _, _, _, _, _, _, h => .of_empty h.1
  | fuel + 1, _, n, K, _, seen, htest, h => by
    refine replays_fuel (F := arguments test' seen) (fun m hm => ?_) h.2
    refine tracks_peek fun t u ht htu => ?_
    rw [← isOp_eq_of_unplaced htu, ← isOp_eq_of_unplaced htu, ← isOp_eq_of_unplaced htu]
    refine tracks_ite Iff.rfl (fun _ => tracks_pure (by simp) rfl) fun _ => ?_
    refine tracks_ite Iff.rfl (fun _ => replays_failAt (by simp) ht) fun _ => ?_
    refine replays_peekSecond fun v w front hvw => tracks_ite ?_ (fun h => ?_) fun _ => ?_
    · rw [← kind_eq_of_unplaced htu]
      by_cases hk : t.kind = .name
      · rw [isOp_eq_of_unplaced (hvw hk).1]
      · simp [hk]
    · obtain ⟨hk, hv⟩ : t.kind = .name ∧ v.isOp "=" = true := by simpa using h
      obtain ⟨-, rfl⟩ := hvw hk
      refine tracks_discard_next (tidy_of_kind (.inl hk)) (tracks_discard_next (tidy_of_isOp hv (by decide)) ?_)
      have hkeyword : ∀ {e e' : Expr}, e.unplaced = e'.unplaced →
          (⟨t.pos, t.text, e⟩ : Keyword).unplaced = (⟨u.pos, u.text, e'⟩ : Keyword).unplaced := fun he => by
        simp [Keyword.unplaced, he, text_eq_of_unplaced htu]
      refine tracks_bind (htest.mono (by omega)) fun e e' he hee => tracks_acceptOp (by decide) ?_ ?_
      · refine tracks_last (tracks_arguments (htest.mono (by omega)) (by omega)) fun r r' hr hrr => ?_
        simp only [argumentsView, Prod.mk.injEq] at hrr
        exact ⟨⟨hr.1, forall_mem_cons.2 ⟨he, hr.2⟩⟩, by simp [argumentsView, hkeyword hee, hrr]⟩
      · exact tracks_pure ⟨by simp, by simpa using he⟩ (by simp [argumentsView, hkeyword hee])
    refine tracks_ite Iff.rfl (fun _ => replays_failAt (by simp) ht) fun _ => ?_
    refine tracks_bind htest.anywhere fun e e' he hee => tracks_acceptOp (by decide) ?_ ?_
    · refine tracks_last (tracks_arguments (htest.mono (by omega)) (by omega)) fun r r' hr hrr => ?_
      simp only [argumentsView, Prod.mk.injEq] at hrr
      exact ⟨⟨forall_mem_cons.2 ⟨he, hr.1⟩, hr.2⟩, by simp [argumentsView, hee, hrr]⟩
    · exact tracks_pure ⟨by simpa using he, by simp⟩ (by simp [argumentsView, hee])

/-- Parsers of expressions that may be left out. -/
abbrev TracksOptional (src : List Token) (n K : ℕ) (front : List Token) (p q : Parser (Option Expr)) : Prop :=
  Tracks src n K front (Optional src) (Option.map Expr.unplaced) p q

theorem tracks_none : TracksOptional src n K front (pure none) (pure none) :=
  tracks_pure optional_none rfl

theorem tracks_some (htest : TracksPlain src n K front test test') :
    TracksOptional src n K front (some <$> test) (some <$> test') :=
  tracks_map htest fun _ _ he hee => ⟨optional_some he, by simp [hee]⟩

theorem tracks_bound (htest : TracksPlain src n K [] test test') :
    TracksOptional src n K front (bound test) (bound test') := by
  refine tracks_peek fun t u _ htu => tracks_ite ?_ (fun _ => tracks_none) fun _ => ?_
  · rw [endsBound, endsBound, isOp_eq_of_unplaced htu, isOp_eq_of_unplaced htu, isOp_eq_of_unplaced htu]
  · exact tracks_last htest.anywhere fun _ _ he hee => ⟨optional_some he, by simp [hee]⟩

theorem tracks_indexRest (htest : TracksPlain src n K [] test test') (hstart : start ∈ src) (lower lower' : Option Expr)
    (hlower : Optional src lower) (hview : lower.map Expr.unplaced = lower'.map Expr.unplaced) :
    Tracks src n K [] (Parsed src .index) Expr.unplaced
      (do
        if ← acceptOp ":" then
          let upper ← bound test
          let step ← if ← acceptOp ":" then bound test else pure none
          return Expr.slice start.pos lower upper step
        else match lower with
          | some e => return e
          | none => failAt .emptySubscript start)
      (do
        if ← acceptOp ":" then
          let upper ← bound test'
          let step ← if ← acceptOp ":" then bound test' else pure none
          return Expr.slice start'.pos lower' upper step
        else match lower' with
          | some e => return e
          | none => failAt .emptySubscript start') := by
  refine tracks_acceptOp (by decide) ?_ ?_
  · refine tracks_bind (tracks_bound (htest.mono (by omega))) fun upper upper' hupper hupper' => ?_
    have hend : ∀ step step' : Option Expr, Optional src step → step.map Expr.unplaced = step'.map Expr.unplaced →
        Parsed src .index (.slice start.pos lower upper step) ∧
        (Expr.slice start.pos lower upper step).unplaced = (Expr.slice start'.pos lower' upper' step').unplaced :=
      fun step step' hstep hstep' => ⟨.slice hlower hupper hstep, by simp [Expr.unplaced, hview, hupper', hstep']⟩
    exact tracks_acceptOp (by decide) (tracks_last (tracks_bound (htest.mono (by omega))) hend)
      (tracks_last tracks_none hend)
  · cases lower with
    | none => exact replays_failAt (by simp) hstart
    | some e =>
      cases lower' with
      | none => cases hview
      | some e' => exact tracks_pure (.single (hlower e rfl)) (Option.some.inj hview)

theorem tracks_index (htest : TracksPlain src n K [] test test') :
    Tracks src n K front (Parsed src .index) Expr.unplaced (index test) (index test') := by
  refine tracks_peek fun t u ht htu => ?_
  rw [← isOp_eq_of_unplaced htu]
  refine tracks_ite Iff.rfl (fun _ => ?_) fun _ => ?_
  · exact tracks_bind tracks_none (tracks_indexRest htest ht)
  · exact tracks_bind (tracks_some htest.anywhere) (tracks_indexRest htest ht)

theorem tracks_trailers : ∀ {fuel m n K : ℕ} {front : List Token} {e e' : Expr},
    TracksPlain src (n - 1) (K - 1) [] test test' → Plain src e → e.unplaced = e'.unplaced → n ≤ fuel ∧ K ≤ m →
    TracksPlain src n K front (trailers test fuel e) (trailers test' m e')
  | 0, _, _, _, _, _, _, _, _, _, h => .of_empty h.1
  | fuel + 1, _, n, _, _, e, e', htest, he, hee, h => by
    refine replays_fuel (F := (trailers test' · e')) (fun m hm => ?_) h.2
    refine replays_accept (fun _ => rfl) (fun _ => ne_eof_of_isOp) (fun t ht => ?_) ?_
    · refine replays_remaining fun k m' n' K' hK hm' => ?_
      refine replays_closing .round ht (tracks_arguments (htest.mono hK) hm') fun r r' hr hrr => ?_
      refine tracks_trailers (htest.mono (by omega)) (.call he hr.1 hr.2) ?_ (by omega)
      simp only [argumentsView, Prod.mk.injEq] at hrr
      simp [Expr.unplaced, hee, hrr]
    refine replays_accept (fun _ => rfl) (fun _ => ne_eof_of_isOp) (fun t ht => ?_) ?_
    · refine replays_closing (P := Parsed src .brackets) .square ht (tracks_tupleOf (fun _ => rfl) (tracks_index htest)
        (fun _ => .bracket) fun _ _ => .indices) fun i i' hi hii => ?_
      refine tracks_trailers (htest.mono (by omega)) (.subscript he hi) ?_ (by omega)
      simp [Expr.unplaced, hee, hii]
    refine tracks_acceptOp (by decide) ?_ (tracks_pure he hee)
    refine tracks_bind tracks_identifier fun x y hx hxy => ?_
    refine tracks_trailers (htest.mono (by omega)) (.attr he hx) ?_ (by omega)
    simp [Expr.unplaced, hee, show x = y from hxy]

theorem tracks_atomExpr (htest : TracksPlain src (n - 1) (K - 1) [] test test') :
    TracksPlain src n K front (atomExpr test) (atomExpr test') :=
  tracks_bind (tracks_atom htest) fun _ _ he hee => tracks_remaining fun _ _ _ _ hK hm =>
    tracks_trailers (htest.mono (by omega)) he hee hm

/-! ### Operators -/

theorem tidy_of_unaryOf {op : UnaryOp} (h : unaryOf t = some op) : Tidy [t] := by
  unfold unaryOf at h
  split at h
  · exact tidy_of_isOp ‹_› (by decide)
  split at h
  · exact tidy_of_isOp ‹_› (by decide)
  split at h
  · exact tidy_of_isOp ‹_› (by decide)
  · cases h

theorem unaryOf_eq_of_unplaced (h : t.unplaced = u.unplaced) : unaryOf t = unaryOf u := by
  simp only [unaryOf, isOp_eq_of_unplaced h]

theorem tracks_factor (htest : TracksPlain src (n - 1) (K - 1) [] test test') (h : n ≤ fuel ∧ K ≤ m) :
    TracksPlain src n K front (factor test fuel) (factor test' m) := by
  refine tracks_fuel (fun hle ih => tracks_peek fun t u _ htu => ?_) h
  rw [← unaryOf_eq_of_unplaced htu]
  split
  · refine tracks_discard_next (tidy_of_unaryOf ‹_›) ?_
    refine tracks_last ih fun e e' he hee => ⟨.unary he, ?_⟩
    simp [Expr.unplaced, hee]
  · refine tracks_bind (tracks_atomExpr (htest.mono (by omega))) fun b b' hb hbb => ?_
    refine tracks_acceptOp (by decide) ?_ (tracks_pure hb hbb)
    refine tracks_last ih fun e e' he hee => ⟨.binary hb he, ?_⟩
    simp [Expr.unplaced, hbb, hee]

end

theorem operatorOf_eq_of_unplaced (h : t.unplaced = u.unplaced) : operatorOf level t = operatorOf level u := by
  rw [operatorOf, operatorOf, kind_eq_of_unplaced h, text_eq_of_unplaced h]

theorem tidy_of_operatorOf (hlevel : ∀ o ∈ level, o.1 ∉ brackets) {op : BinaryOp} (h : operatorOf level t = some op) :
    Tidy [t] := by
  unfold operatorOf at h
  split at h
  · rename_i hk
    obtain ⟨o, ho, -⟩ := Option.map_eq_some_iff.1 h
    have htext : o.1 = t.text := by simpa using find?_some ho
    exact tidy_of_notMem_brackets (by simpa using hk) (htext ▸ hlevel o (mem_of_find?_eq_some ho))
  · cases h

section

variable {operand operand' : Parser Expr}

theorem tracks_binaryRest {level : Level} (hlevel : ∀ o ∈ level, o.1 ∉ brackets) :
    ∀ {fuel m n K : ℕ} {front : List Token} {e e' : Expr}, TracksPlain src (n - 1) (K - 1) [] operand operand' →
    Plain src e → e.unplaced = e'.unplaced → n ≤ fuel ∧ K ≤ m →
    TracksPlain src n K front (binaryRest level operand fuel e) (binaryRest level operand' m e')
  | 0, _, _, _, _, _, _, _, _, _, h => .of_empty h.1
  | fuel + 1, _, n, _, _, e, e', hoperand, he, hee, h => by
    refine replays_fuel (F := (binaryRest level operand' · e')) (fun m hm => ?_) h.2
    refine tracks_peek fun t u _ htu => ?_
    rw [← operatorOf_eq_of_unplaced htu]
    split
    · refine tracks_discard_next (tidy_of_operatorOf hlevel ‹_›) ?_
      refine tracks_bind hoperand fun r r' hr hrr => ?_
      refine tracks_binaryRest hlevel (hoperand.mono (by omega)) (.binary he hr) ?_ (by omega)
      simp [Expr.unplaced, hee, hrr]
    · exact tracks_pure he hee

theorem tracks_binary (hlevel : ∀ o ∈ level, o.1 ∉ brackets) (hoperand : TracksPlain src n K [] operand operand') :
    TracksPlain src n K front (binary level operand) (binary level operand') :=
  tracks_bind hoperand.anywhere fun _ _ he hee => tracks_remaining fun _ _ _ _ hK hm =>
    tracks_binaryRest hlevel (hoperand.mono (by omega)) he hee hm

theorem tracks_levels {levels : List Level} (hlevels : ∀ level ∈ levels, ∀ o ∈ level, o.1 ∉ brackets) :
    ∀ {operand operand' : Parser Expr}, TracksPlain src n K [] operand operand' →
    TracksPlain src n K [] (levels.foldl (fun operand level => binary level operand) operand)
      (levels.foldl (fun operand level => binary level operand) operand') := by
  induction levels with
  | nil => exact fun h => h
  | cons level levels ih =>
    obtain ⟨hlevel, hlevels⟩ := forall_mem_cons.1 hlevels
    exact fun h => ih hlevels (tracks_binary hlevel h)

theorem tracks_bitOr {test test' : Parser Expr} (htest : TracksPlain src (n - 1) (K - 1) [] test test') :
    TracksPlain src n K front (bitOr test) (bitOr test') := by
  refine tracks_remaining fun k m n' K' hK hm => Tracks.anywhere (tracks_levels (by decide) ?_)
  exact tracks_factor (htest.mono (by omega)) (by omega)

/-- The same operator, which takes at least one token. -/
def TakesOperator (a b : Option CompareOp) (used : List Token) : Prop :=
  a = b ∧ Tidy used ∧ (used = [] → a = none)

theorem replays_compareOp : Replays src n K front compareOp compareOp TakesOperator := by
  have hone : ∀ {t : Token} {op : CompareOp}, Tidy [t] → Replays src (n - 1) (K - 1) [] (pure (some op))
      (pure (some op)) fun a b used => TakesOperator a b (t :: used) :=
    fun ht => replays_pure ⟨rfl, ht, by simp⟩
  refine replays_peek fun t u _ htu => ?_
  rw [← kind_eq_of_unplaced htu, ← text_eq_of_unplaced htu, ← isWord_eq_of_unplaced htu, ← isWord_eq_of_unplaced htu,
    ← isWord_eq_of_unplaced htu]
  refine replays_ite Iff.rfl (fun hk => ?_) fun _ => replays_ite Iff.rfl (fun h => ?_) fun _ => ?_
  · split
    · rename_i o op hfind
      have ht : Tidy [t] := by
        have htext : o = t.text := by simpa using find?_some hfind
        have hmem : ∀ o ∈ compareSpellings, o.1 ∉ brackets := by decide
        exact tidy_of_notMem_brackets (by simpa using hk) (htext ▸ hmem _ (mem_of_find?_eq_some hfind))
      rw [discard_bind]
      exact replays_next ht.ne_eof fun _ _ => hone ht
    · exact replays_pure ⟨rfl, .nil, by simp⟩
  · rw [discard_bind]
    exact replays_next (tidy_of_isWord h).ne_eof fun _ _ => hone (tidy_of_isWord h)
  refine replays_peekSecond fun v w front' hvw => replays_ite ?_ (fun h => ?_) fun hnot => ?_
  · by_cases hk : t.kind = .name
    · rw [isWord_eq_of_unplaced (hvw hk).1]
    · simp [Token.isWord, hk]
  · obtain ⟨ht, hv⟩ := Bool.and_eq_true_iff.1 h
    obtain ⟨-, rfl⟩ := hvw (Token.kind_of_isWord ht)
    simp only [discard_bind]
    refine replays_next (tidy_of_isWord ht).ne_eof fun _ _ => replays_next (tidy_of_isWord hv).ne_eof fun _ _ => ?_
    exact replays_pure ⟨rfl, (tidy_of_isWord ht).cons (tidy_of_isWord hv), by simp⟩
  refine replays_ite Iff.rfl (fun h => ?_) fun _ => replays_pure ⟨rfl, .nil, by simp⟩
  have ht := tidy_of_isWord h
  obtain ⟨-, rfl⟩ := hvw (Token.kind_of_isWord h)
  rw [discard_bind]
  refine replays_next ht.ne_eof fun _ _ => Replays.anywhere ?_
  refine replays_accept (fun _ => rfl) (fun _ h => (tidy_of_isWord h).ne_eof) (fun _ h => ?_) ?_
  · exact replays_pure ⟨rfl, ht.cons (tidy_of_isWord h), by simp⟩
  · exact replays_pure ⟨rfl, ht, by simp⟩

theorem tracks_compareRest (hoperand : TracksPlain src (n - 1) (K - 1) [] operand operand')
    (h : n ≤ fuel ∧ K ≤ m) :
    Tracks src n K front (fun r => r.1.length = r.2.length ∧ ∀ e ∈ r.2, Plain src e)
      (Prod.map id (List.map Expr.unplaced)) (compareRest operand fuel) (compareRest operand' m) := by
  refine tracks_fuel (fun {_ _ n' K' _} hle ih => ?_) h
  refine replays_bind replays_compareOp fun a b used h => ?_
  obtain ⟨rfl, hused, hempty⟩ := h
  split
  · have hone : 1 ≤ used.length := by
      cases used with
      | nil => simpa using hempty rfl
      | cons t ts => simp
    refine Tracks.after (n := n' - 1) (K := K' - 1) ?_ hused (by omega)
    refine tracks_bind (hoperand.mono (by omega)) fun e e' he hee => ?_
    refine tracks_last ih fun r r' hr hrr => ?_
    simp only [Prod.map, Prod.mk.injEq, id] at hrr
    exact ⟨⟨congrArg (· + 1) hr.1, forall_mem_cons.2 ⟨he, hr.2⟩⟩, by simp [hee, hrr]⟩
  · exact replays_pure ⟨⟨rfl, by simp⟩, rfl, by simpa using hused⟩

end

section

variable {test test' operand operand' : Parser Expr}

theorem tracks_comparison (htest : TracksPlain src (n - 1) (K - 1) [] test test') :
    TracksPlain src n K front (comparison test) (comparison test') := by
  refine tracks_bind (tracks_bitOr htest) fun e e' he hee => tracks_remaining fun k m n' K' hK hm => ?_
  refine tracks_bind (tracks_compareRest (tracks_bitOr (htest.mono (by omega))) hm) fun r r' hr hrr => ?_
  simp only [Prod.map, Prod.mk.injEq, id] at hrr
  refine tracks_ite (by rw [hrr.1]) (fun _ => tracks_pure he hee) fun hops => tracks_pure ?_ ?_
  · refine .compare he (fun h => hops ?_) hr.1 hr.2
    rw [h]
    rfl
  · simp [Expr.unplaced, hee, hrr]

theorem tracks_negation (htest : TracksPlain src (n - 1) (K - 1) [] test test') (h : n ≤ fuel ∧ K ≤ m) :
    TracksPlain src n K front (negation test fuel) (negation test' m) := by
  refine tracks_fuel (fun hle ih => tracks_peek fun t u _ htu => ?_) h
  refine tracks_acceptWord ?_ (tracks_comparison (htest.mono (by omega)))
  refine tracks_last ih fun e e' he hee => ⟨.unary he, ?_⟩
  simp [Expr.unplaced, hee]

theorem tracks_booleanRest (hoperand : TracksPlain src (n - 1) (K - 1) [] operand operand')
    (h : n ≤ fuel ∧ K ≤ m) :
    Tracks src n K front (fun es => ∀ e ∈ es, Plain src e) (List.map Expr.unplaced) (booleanRest word operand fuel)
      (booleanRest word operand' m) := by
  refine tracks_fuel (fun hle ih => ?_) h
  exact tracks_acceptWord (tracks_cons (hoperand.mono (by omega)) ih) (tracks_pure (by simp) rfl)

theorem tracks_boolean {op : BoolOp} (hoperand : TracksPlain src n K [] operand operand') :
    TracksPlain src n K front (boolean word op operand) (boolean word op operand') := by
  refine tracks_bind hoperand.anywhere fun e e' he hee => tracks_remaining fun k m n' K' hK hm => ?_
  refine tracks_bind (tracks_booleanRest (hoperand.mono (by omega)) hm) fun es es' hes hess => ?_
  have hempty : es.isEmpty = es'.isEmpty := by
    rw [← isEmpty_map (f := Expr.unplaced), hess, isEmpty_map]
  refine tracks_ite (by rw [hempty]) (fun _ => tracks_pure he hee) fun hne => tracks_pure ?_ ?_
  · refine .boolean ?_ (forall_mem_cons.2 ⟨he, hes⟩)
    cases es with
    | nil => exact absurd rfl hne
    | cons => simp
  · simp [Expr.unplaced, hee, hess]

theorem tracks_disjunction (htest : TracksPlain src (n - 1) (K - 1) [] test test') :
    TracksPlain src n K front (disjunction test) (disjunction test') := by
  refine tracks_boolean (tracks_remaining fun k m n' K' hK hm => tracks_boolean ?_)
  exact tracks_negation (htest.mono (by omega)) (by omega)

end

theorem tracks_test (h : n ≤ fuel ∧ K ≤ m) : TracksPlain src n K front (test fuel) (test m) := by
  refine tracks_fuel (fun _ ih => tracks_rejectWord (by simp) ?_) h
  refine tracks_bind (tracks_disjunction ih) fun e e' he hee => ?_
  exact tracks_rejectWord (by simp) (tracks_pure he hee)

theorem tracks_expression : TracksPlain src n K front expression expression :=
  tracks_remaining fun _ _ _ _ _ hm => tracks_test (by omega)

theorem tracks_expressionList : TracksPlain src n K front expressionList expressionList :=
  tracks_testList tracks_expression

theorem tracks_condition : TracksPlain src n K front condition condition := by
  refine tracks_bind tracks_expression fun e e' he hee => tracks_peek fun t u ht htu => ?_
  rw [← isOp_eq_of_unplaced htu]
  exact tracks_ite Iff.rfl (fun _ => replays_failAt (by simp) ht) fun _ => tracks_pure he hee

theorem tracks_loopTarget : TracksPlain src n K front loopTarget loopTarget :=
  tracks_tupleOf (fun _ => rfl) (tracks_remaining fun _ _ _ _ _ hm => tracks_bitOr (tracks_test (by omega)))
    (fun _ he => he) fun _ _ => .tuple

/-! ### Simple statements -/

/-- Parsers of one statement. -/
abbrev TracksStmt (src : List Token) (n K : ℕ) (front : List Token) (p q : Parser (Stmt Unit)) : Prop :=
  Tracks src n K front (ParsedStmt src) Stmt.unplaced p q

theorem tracks_assignedRest (h : n ≤ fuel ∧ K ≤ m) : Tracks src n K front (fun es => ∀ e ∈ es, Plain src e)
    (List.map Expr.unplaced) (assignedRest fuel) (assignedRest m) := by
  refine tracks_fuel (fun _ ih => ?_) h
  exact tracks_acceptOp (by decide) (tracks_cons tracks_expressionList ih) (tracks_pure (by simp) rfl)

theorem tracks_expressionStatement : TracksStmt src n K front expressionStatement expressionStatement := by
  refine tracks_peek fun start start' _ _ => tracks_bind tracks_expressionList fun first first' hfirst hfirst' => ?_
  refine tracks_acceptOp (by decide) ?_ ?_
  · refine tracks_bind tracks_expression fun type type' htype htype' => ?_
    have hend : ∀ value value' : Option Expr, Optional src value →
        value.map Expr.unplaced = value'.map Expr.unplaced →
        ParsedStmt src (.annAssign (markOf start) first type value) ∧
        (Stmt.annAssign (markOf start) first type value).unplaced =
          (Stmt.annAssign (markOf start') first' type' value').unplaced := fun value value' hvalue hvalue' =>
      ⟨.annAssign hfirst htype hvalue, by simp [Stmt.unplaced, hfirst', htype', hvalue']⟩
    exact tracks_acceptOp (by decide) (tracks_last (tracks_some tracks_expressionList) hend)
      (tracks_last tracks_none hend)
  · refine tracks_peek fun t u ht htu => ?_
    rw [← operatorOf_eq_of_unplaced htu]
    split
    · have hops : ∀ o ∈ augmentedOps, o.1 ∉ brackets := by decide
      refine tracks_discard_next (tidy_of_operatorOf hops ‹_›) ?_
      split
      · obtain ⟨pos', rfl⟩ := Expr.eq_name_of_unplaced hfirst'.symm
        refine tracks_last tracks_expressionList fun r r' hr hrr => ?_
        exact ⟨.assign (by simp) (by simpa using hfirst) (.binary hfirst hr), by simp [Stmt.unplaced, Expr.unplaced, hrr]⟩
      · exact replays_failAt (by simp) ht
    · refine tracks_remaining fun k m n' K' hK hm => tracks_bind (tracks_assignedRest hm) fun es es' hes hess => ?_
      rcases eq_nil_or_concat es with rfl | ⟨l, e, rfl⟩
      · obtain rfl : es' = [] := by simpa using hess.symm
        exact tracks_pure (.expr hfirst) (by simp [Stmt.unplaced, hfirst'])
      · rw [concat_eq_append] at hes
        rw [concat_eq_append, map_append] at hess
        obtain ⟨l', r, rfl, hl, hr⟩ := map_eq_append_iff.1 hess.symm
        obtain ⟨e', rfl, he⟩ := map_eq_singleton_iff.1 hr
        obtain ⟨hleft, hright⟩ := forall_mem_append.1 hes
        simp only [concat_eq_append, getLast?_concat, dropLast_concat]
        refine tracks_pure (.assign (by simp) (forall_mem_cons.2 ⟨hfirst, hleft⟩) (hright e (by simp))) ?_
        simp [Stmt.unplaced, hfirst', hl, he]

theorem tracks_returnStatement (hk : start.kind = .name) :
    TracksStmt src n K [start] (returnStatement start) (returnStatement start') := by
  refine tracks_discard_next (tidy_of_kind (.inl hk)) (tracks_peek fun t u _ htu => ?_)
  rw [← kind_eq_of_unplaced htu, ← isOp_eq_of_unplaced htu]
  refine tracks_ite Iff.rfl (fun _ => tracks_pure (.ret optional_none) rfl) fun _ => ?_
  exact tracks_last tracks_expressionList fun e e' he hee => ⟨.ret (optional_some he), by simp [Stmt.unplaced, hee]⟩

theorem tracks_asName : Tracks src n K front (fun other => ∀ x ∈ other, Word src x) id asName asName :=
  tracks_acceptWord (tracks_map tracks_identifier fun x y hx hxy => ⟨by simpa using hx, by rw [show x = y from hxy]⟩)
    (tracks_pure (by simp) rfl)

theorem tracks_importedModule : Tracks src n K front (ParsedAlias src) id importedModule importedModule :=
  tracks_bind tracks_dottedName fun x y hx hxy => tracks_last tracks_asName fun z w hz hzw =>
    ⟨⟨.inr hx, hz⟩, by rw [show x = y from hxy, show z = w from hzw]⟩

theorem tracks_importStatement (hk : start.kind = .name) :
    TracksStmt src n K [start] (importStatement start) (importStatement start') := by
  refine tracks_discard_next (tidy_of_kind (.inl hk)) ?_
  refine tracks_bind tracks_importedModule fun x y hx hxy => tracks_remaining fun k m n' K' hK hm => ?_
  refine tracks_last (tracks_moreItems (fun _ => rfl) tracks_importedModule hm) fun xs ys hxs hxys => ?_
  simp only [map_id] at hxys
  exact ⟨.imports (forall_mem_cons.2 ⟨hx, hxs⟩), by simp [Stmt.unplaced, show x = y from hxy, hxys]⟩

theorem tracks_importedName : Tracks src n K front (ParsedAlias src) id importedName importedName :=
  tracks_bind tracks_identifier fun x y hx hxy => tracks_last tracks_asName fun z w hz hzw =>
    ⟨⟨.inr ⟨x, "", by simp, hx⟩, hz⟩, by rw [show x = y from hxy, show z = w from hzw]⟩

/-- The names that a module gives, up to those that stop the list. -/
def importedNames (stop : Token → Bool) : Parser (List Alias) := do
  if ← acceptOp "*" then pure [⟨"*", none⟩] else items stop importedName

theorem tracks_importedNames {stop : Token → Bool} (hstop : ∀ t, stop t.unplaced = stop t) :
    Tracks src n K front (fun as => ∀ a ∈ as, ParsedAlias src a) id (importedNames stop) (importedNames stop) := by
  refine tracks_acceptOp (by decide) (tracks_pure ?_ rfl) ?_
  · exact forall_mem_singleton.2 ⟨.inl rfl, by simp⟩
  · exact map_id_fun ▸ tracks_items hstop tracks_importedName

theorem importFromStatement_eq (start : Token) : importFromStatement start = (do
    discard next
    let module ← dottedName
    discard (expectWord "import")
    if ← acceptOp "(" then
      let names ← importedNames (·.isOp ")")
      discard (expectOp ")")
      return .importFrom (markOf start) module names
    else
      let names ← importedNames fun _ => false
      return .importFrom (markOf start) module names) := by
  unfold importFromStatement importedNames
  congr 1; funext _; congr 1; funext _; congr 1; funext _; congr 1; funext b
  cases b <;> simp only [bind_assoc] <;> simp <;> (congr 1; funext c; cases c <;> simp)

theorem tracks_importFromStatement (hk : start.kind = .name) :
    TracksStmt src n K [start] (importFromStatement start) (importFromStatement start') := by
  rw [importFromStatement_eq, importFromStatement_eq]
  refine tracks_discard_next (tidy_of_kind (.inl hk)) ?_
  refine tracks_bind tracks_dottedName fun x y _ hxy => ?_
  obtain rfl : x = y := hxy
  have hend : ∀ names names' : List Alias, (∀ a ∈ names, ParsedAlias src a) → id names = id names' →
      ParsedStmt src (.importFrom (markOf start) x names) ∧
      (Stmt.importFrom (markOf start) x names).unplaced = (Stmt.importFrom (markOf start') x names').unplaced := by
    rintro names _ hnames rfl
    exact ⟨.importFrom hnames, rfl⟩
  rw [discard_bind, discard_bind]
  refine tracks_expectWord fun _ _ => replays_accept (fun _ => rfl) (fun _ => ne_eof_of_isOp) (fun t ht => ?_) ?_
  · exact replays_closing .round ht (tracks_importedNames fun _ => rfl) fun _ _ h h' =>
      tracks_pure (hend _ _ h h').1 (hend _ _ h h').2
  · exact tracks_last (tracks_importedNames fun _ => rfl) hend

theorem tracks_smallStatement : TracksStmt src n K front smallStatement smallStatement := by
  refine tracks_peek fun t u ht htu => ?_
  rw [← kind_eq_of_unplaced htu, ← text_eq_of_unplaced htu]
  refine tracks_ite Iff.rfl (fun hk => ?_) fun _ => tracks_expressionStatement
  have hk : t.kind = .name := by simpa using hk
  refine tracks_ite Iff.rfl (fun _ => replays_failAt (by simp) ht) fun _ => ?_
  split
  · exact tracks_discard_next (tidy_of_kind (.inl hk)) (tracks_pure .pass rfl)
  · exact tracks_discard_next (tidy_of_kind (.inl hk)) (tracks_pure .brk rfl)
  · exact tracks_returnStatement hk
  · exact tracks_importStatement hk
  · exact tracks_importFromStatement hk
  · exact tracks_expressionStatement

theorem tracks_lineRest (h : n ≤ fuel ∧ K ≤ m) :
    Tracks src n K front (ParsedStmts src) (List.map Stmt.unplaced) (lineRest fuel) (lineRest m) := by
  refine tracks_fuel (fun _ ih => ?_) h
  refine tracks_acceptOp (by decide) ?_ (tracks_pure parsedStmts_nil rfl)
  refine tracks_checkKind fun _ => tracks_ite Iff.rfl (fun _ => tracks_pure parsedStmts_nil rfl) fun _ => ?_
  exact tracks_cons tracks_smallStatement ih

end OpGraph.Syntax.Parser
