import OpGraph.Proofs.Syntax.Replay

/-!
What the lexer reads at one place it reads at every other. A token depends on its own characters and on the one after
them, and a blank or a line end after it is as good as the end of the text. So the tokens of a line that is read alone are
the tokens of that line in any script, up to positions, and a text that is put together from the spellings of some tokens
with blanks between them is read as these tokens.
-/

@[simp] theorem OpGraph.Position.afterAll_append (p : OpGraph.Position) (a b : List Char) :
    p.afterAll (a ++ b) = (p.afterAll a).afterAll b :=
  List.foldl_append

namespace OpGraph.Lexer

open List
open Syntax.Parser (depthStep depthAfter)

variable {c : Char} {cs rest w x : List Char} {ts : List Token}
variable {p : Char → Bool} {us : List Token} {tok : Option Token} {t : Token}

/-! ### Where tokens end -/

/-- What gaps between tokens start with: a blank, a line end, a comment or a backslash that joins lines. -/
def gapStarts : List Char :=
  [' ', '\t', '\n', '#', '\\']

/-- The end of the text or the start of a gap. -/
def Gapped (x : List Char) : Prop :=
  ∀ c ∈ x.head?, c ∈ gapStarts

theorem gapped_nil : Gapped [] := by
  simp [Gapped]

theorem gapped_space (x : List Char) : Gapped (' ' :: x) := by
  simp [Gapped, gapStarts]

theorem Gapped.eq_false (hx : Gapped (c :: x)) (hp : gapStarts.any p = false) : p c = false := by
  simpa using any_eq_false.1 hp c (hx c rfl)

section

variable (hx : Gapped x) (hp : gapStarts.any p = false)

include hx hp

theorem takeWhile_gapped : x.takeWhile p = [] := by
  cases x with
  | nil => rfl
  | cons c x => simp [hx.eq_false hp]

theorem dropWhile_gapped : x.dropWhile p = x := by
  cases x with
  | nil => rfl
  | cons c x => simp [hx.eq_false hp]

theorem takeWhile_append_gapped (cs : List Char) : (cs ++ x).takeWhile p = cs.takeWhile p := by
  induction cs with
  | nil => exact takeWhile_gapped hx hp
  | cons c cs ih =>
    rw [cons_append, takeWhile_cons, takeWhile_cons, ih]

theorem dropWhile_append_gapped (cs : List Char) : (cs ++ x).dropWhile p = cs.dropWhile p ++ x := by
  induction cs with
  | nil => exact dropWhile_gapped hx hp
  | cons c cs ih =>
    rw [cons_append, dropWhile_cons, dropWhile_cons, ih]
    split <;> rfl

end

theorem isPrefixOf_append (hx : Gapped x) (hw : ∀ c ∈ w, c ∉ gapStarts) (cs : List Char) :
    w.isPrefixOf (cs ++ x) = w.isPrefixOf cs := by
  induction w generalizing cs with
  | nil => simp
  | cons c w ih =>
    obtain ⟨hc, hw⟩ := forall_mem_cons.1 hw
    cases cs with
    | cons d cs => simp [List.isPrefixOf, ih hw]
    | nil =>
      cases x with
      | nil => rfl
      | cons d x =>
        have hcd : (c == d) = false := by simpa using fun h : c = d => hc (h ▸ hx d rfl)
        simp [List.isPrefixOf, hcd]

/-! ### Numbers -/

theorem fractionPart_dot (h : cs.head? ≠ some '.') :
    fractionPart ('.' :: cs) = ('.' :: cs.takeWhile isDigitPart, cs.dropWhile isDigitPart) := by
  cases cs with
  | nil => rfl
  | cons c cs => simp [fractionPart, show c ≠ '.' from fun hc => h (by simp [hc])]

theorem fractionPart_of_ne (h : cs.head? ≠ some '.') : fractionPart cs = ([], cs) := by
  cases cs with
  | nil => rfl
  | cons c cs => simp [fractionPart, show c ≠ '.' from fun hc => h (by simp [hc])]

theorem exponentPart_cons (e : Char) (cs : List Char) : exponentPart (e :: cs) =
    if e = 'e' ∨ e = 'E' then
      if cs.head?.any Char.isDigit then (e :: cs.takeWhile Char.isDigit, cs.dropWhile Char.isDigit)
      else if cs.head? = some '+' ∨ cs.head? = some '-' then
        if cs.tail.head?.any Char.isDigit then
          (e :: cs.take 1 ++ cs.tail.takeWhile Char.isDigit, cs.tail.dropWhile Char.isDigit)
        else ([], e :: cs)
      else ([], e :: cs)
    else ([], e :: cs) := by
  cases cs with
  | nil => simp [exponentPart]
  | cons s cs =>
    by_cases hs : s = '+' ∨ s = '-'
    · have hd : s.isDigit = false := by rcases hs with rfl | rfl <;> rfl
      cases cs with
      | nil => simp [exponentPart, hs, hd]
      | cons d cs =>
        simp only [exponentPart, hs, hd, if_true, head?_cons, Option.any_some, Bool.false_eq_true, if_false,
          Option.some.injEq, tail_cons]
        rfl
    · simp [exponentPart, hs]

theorem splitNumber_base {b : Char} (hb : isBaseMark b = true) (cs : List Char) :
    splitNumber ('0' :: b :: cs) = ('0' :: b :: cs.takeWhile isHexPart, cs.dropWhile isHexPart) := by
  simp [splitNumber, hb]

theorem splitNumber_decimal (h : ¬ (c = '0' ∧ cs.head?.any isBaseMark = true)) :
    splitNumber (c :: cs) = splitNumber.decimal (c :: cs) := by
  unfold splitNumber
  split
  · rename_i b rest heq
    cases heq
    rw [if_neg fun hb => h ⟨rfl, by simpa using hb⟩]
  · rfl

section

variable (hx : Gapped x)

include hx

theorem head?_append_ne (hc : c ∉ gapStarts) : (cs ++ x).head? = some c ↔ cs.head? = some c := by
  cases cs with
  | nil => simpa using fun h => hc (hx c h)
  | cons d cs => simp

theorem head?_append_any (hp : gapStarts.any p = false) (cs : List Char) : (cs ++ x).head?.any p = cs.head?.any p := by
  cases cs with
  | cons d cs => simp
  | nil =>
    cases x with
    | nil => rfl
    | cons c x => simp [hx.eq_false hp]

theorem fractionPart_append (cs : List Char) :
    fractionPart (cs ++ x) = ((fractionPart cs).1, (fractionPart cs).2 ++ x) := by
  have hdot : ∀ {cs : List Char}, (cs ++ x).head? = some '.' ↔ cs.head? = some '.' :=
    head?_append_ne hx (by decide)
  match cs with
  | [] => rw [fractionPart_of_ne (mt hdot.1 (by simp)), fractionPart_of_ne (by simp)]
  | c :: cs =>
    by_cases hc : c = '.'
    · subst hc
      by_cases h : cs.head? = some '.'
      · obtain ⟨ds, rfl⟩ := head?_eq_some_iff.1 h
        rfl
      · rw [cons_append, fractionPart_dot (mt hdot.1 h), fractionPart_dot h, takeWhile_append_gapped hx rfl,
          dropWhile_append_gapped hx rfl]
    · rw [fractionPart_of_ne (by simpa using hc), fractionPart_of_ne (by simpa using hc)]

theorem exponentPart_append (cs : List Char) :
    exponentPart (cs ++ x) = ((exponentPart cs).1, (exponentPart cs).2 ++ x) := by
  have hany : ∀ cs : List Char, (cs ++ x).head?.any Char.isDigit = cs.head?.any Char.isDigit :=
    head?_append_any hx rfl
  have htake := takeWhile_append_gapped hx (p := Char.isDigit) rfl
  have hdrop := dropWhile_append_gapped hx (p := Char.isDigit) rfl
  cases cs with
  | nil =>
    cases x with
    | nil => rfl
    | cons c x =>
      rw [nil_append, exponentPart_cons, if_neg]
      · simp [exponentPart]
      · rintro (rfl | rfl) <;> exact absurd (hx _ rfl) (by decide)
  | cons e cs =>
    have hsign : ∀ c, c ∉ gapStarts → ((cs ++ x).head? = some c ↔ cs.head? = some c) := fun _ h => head?_append_ne hx h
    simp only [cons_append, exponentPart_cons, hany, htake, hdrop, hsign '+' (by decide),
      hsign '-' (by decide)]
    cases cs with
    | nil => simp
    | cons s cs =>
      simp only [cons_append, tail_cons, hany, htake, hdrop]
      split
      · split
        · rfl
        · split
          · by_cases h : cs.head?.any Char.isDigit = true
            · simp [h]
            · simp [h]
          · rfl
      · rfl

theorem decimal_append (cs : List Char) :
    splitNumber.decimal (cs ++ x) = ((splitNumber.decimal cs).1, (splitNumber.decimal cs).2 ++ x) := by
  simp only [splitNumber.decimal, takeWhile_append_gapped hx (p := isDigitPart) rfl,
    dropWhile_append_gapped hx (p := isDigitPart) rfl, fractionPart_append hx,
    exponentPart_append hx]

theorem splitNumber_append (cs : List Char) :
    splitNumber (cs ++ x) = ((splitNumber cs).1, (splitNumber cs).2 ++ x) := by
  cases cs with
  | nil =>
    cases x with
    | nil => rfl
    | cons c x =>
      rw [nil_append, splitNumber_decimal (by rintro ⟨rfl, -⟩; exact absurd (hx _ rfl) (by decide))]
      exact decimal_append hx []
  | cons c cs =>
    have hany := head?_append_any hx (p := isBaseMark) rfl cs
    by_cases h : c = '0' ∧ cs.head?.any isBaseMark
    · obtain ⟨rfl, h⟩ := h
      obtain ⟨b, hb, hmark⟩ := (Option.any_eq_true _ _).1 h
      obtain ⟨cs, rfl⟩ := head?_eq_some_iff.1 hb
      rw [splitNumber_base hmark, cons_append, cons_append, splitNumber_base hmark, takeWhile_append_gapped hx rfl,
        dropWhile_append_gapped hx rfl]
    · rw [splitNumber_decimal h, cons_append, splitNumber_decimal (by rwa [hany])]
      exact decimal_append hx (c :: cs)

end

theorem fractionPart_eq_append (cs : List Char) : (fractionPart cs).1 ++ (fractionPart cs).2 = cs := by
  by_cases h : cs.head? = some '.'
  · obtain ⟨cs, rfl⟩ := head?_eq_some_iff.1 h
    by_cases h : cs.head? = some '.'
    · obtain ⟨cs, rfl⟩ := head?_eq_some_iff.1 h
      rfl
    · simp [fractionPart_dot h]
  · simp [fractionPart_of_ne h]

theorem exponentPart_eq_append (cs : List Char) : (exponentPart cs).1 ++ (exponentPart cs).2 = cs := by
  cases cs with
  | nil => rfl
  | cons e cs =>
    rw [exponentPart_cons]
    split
    · split
      · simp
      · split
        · split
          · cases cs <;> simp
          · rfl
        · rfl
    · rfl

theorem splitNumber_eq_append (cs : List Char) : (splitNumber cs).1 ++ (splitNumber cs).2 = cs := by
  have hdecimal : (splitNumber.decimal cs).1 ++ (splitNumber.decimal cs).2 = cs := by
    simp only [splitNumber.decimal, append_assoc, exponentPart_eq_append, fractionPart_eq_append,
      takeWhile_append_dropWhile]
  cases cs with
  | nil => exact hdecimal
  | cons c cs =>
    by_cases h : c = '0' ∧ cs.head?.any isBaseMark
    · obtain ⟨rfl, h⟩ := h
      obtain ⟨b, hb, hmark⟩ := (Option.any_eq_true _ _).1 h
      obtain ⟨cs, rfl⟩ := head?_eq_some_iff.1 hb
      simp [splitNumber_base hmark]
    · rw [splitNumber_decimal h, hdecimal]

theorem splitNumber_ne_nil (h : c.isDigit = true ∨ c = '.' ∧ cs.head?.any Char.isDigit) :
    (splitNumber (c :: cs)).1 ≠ [] := by
  by_cases hbase : c = '0' ∧ cs.head?.any isBaseMark
  · obtain ⟨rfl, hbase⟩ := hbase
    obtain ⟨b, hb, hmark⟩ := (Option.any_eq_true _ _).1 hbase
    obtain ⟨cs, rfl⟩ := head?_eq_some_iff.1 hb
    simp [splitNumber_base hmark]
  rw [splitNumber_decimal hbase]
  rcases h with h | ⟨rfl, h⟩
  · simp [splitNumber.decimal, isDigitPart, h]
  · have hdot : cs.head? ≠ some '.' := by
      intro hd
      rw [hd] at h
      exact absurd h (by decide)
    have hwhole : ('.' :: cs).dropWhile isDigitPart = '.' :: cs := by simp [isDigitPart]
    simp [splitNumber.decimal, hwhole, fractionPart_dot hdot]

/-! ### Strings -/

/-- The quotes at both ends of a string. -/
def quotes (quote : Char) (triple : Bool) : List Char :=
  if triple then [quote, quote, quote] else [quote]

theorem closes_eq (quote : Char) (triple : Bool) (cs : List Char) :
    closes quote triple cs = (quotes quote triple).isPrefixOf cs := by
  cases triple <;> rfl

theorem isPrefixOf_append_of_le {v : List Char} (h : w.length ≤ v.length) (x : List Char) :
    w.isPrefixOf (v ++ x) = w.isPrefixOf v := by
  rw [Bool.eq_iff_iff, isPrefixOf_iff_prefix, isPrefixOf_iff_prefix]
  exact ⟨fun hw => prefix_of_prefix_length_le hw (prefix_append v x) h, fun hw => hw.trans (prefix_append v x)⟩

/-- **A string** is read up to its closing quotes, wherever it stands and whatever comes after them. -/
theorem splitString_eq_ok {quote : Char} {triple : Bool} {p q : Position} {value : List Char}
    (h : splitString quote triple p cs = .ok (value, q, rest)) : ∃ u, cs = u ++ rest ∧ quotes quote triple <:+ u ∧
      ∀ p' rest', splitString quote triple p' (u ++ rest') = .ok (value, p'.afterAll u, rest') := by
  -- the quotes are looked for inside of what is read
  have hopen : ∀ {c : Char} {u : List Char}, quotes quote triple <:+ u →
      ¬ closes quote triple (c :: (u ++ rest)) = true → ∀ x, ¬ closes quote triple (c :: (u ++ x)) = true := by
    intro c u hu h x
    have hlen : (quotes quote triple).length ≤ (c :: u).length := hu.length_le.trans (Nat.le_succ _)
    rw [closes_eq, ← cons_append, isPrefixOf_append_of_le hlen] at h ⊢
    exact h
  fun_induction splitString quote triple p cs generalizing value q with
  | case1 => cases h
  | case2 p c cs hc =>
    obtain ⟨rfl, hr⟩ := Prod.mk.inj (Except.ok.inj h)
    obtain ⟨-, rfl⟩ := Prod.mk.inj hr
    obtain ⟨r, hr⟩ : quotes quote triple <+: c :: cs := by simpa [closes_eq] using hc
    refine ⟨quotes quote triple, ?_, suffix_rfl, fun p' rest' => ?_⟩
    · rw [← hr]
      cases triple <;> rfl
    · cases triple <;> (rw [splitString.eq_def]; simp [quotes, closes])
  | case3 => cases h
  | case4 => cases h
  | case5 p e cs hnl hc ih =>
    obtain ⟨⟨v, q₁, r⟩, h1, h⟩ := bind_eq_ok.1 h
    obtain ⟨rfl, hr⟩ := Prod.mk.inj (Except.ok.inj h)
    cases hr
    obtain ⟨u, rfl, hu, hread⟩ := ih h1
    refine ⟨'\\' :: e :: u, rfl, hu.trans ⟨['\\', e], rfl⟩, fun p' rest' => ?_⟩
    rw [cons_append, splitString.eq_def]
    dsimp only
    rw [if_neg (hopen (u := e :: u) (hu.trans ⟨[e], rfl⟩) hc rest'), if_neg hnl, if_pos rfl, cons_append]
    dsimp only
    rw [hread]
    rfl
  | case6 p c cs hc hnl hslash ih =>
    obtain ⟨⟨v, q₁, r⟩, h1, h⟩ := bind_eq_ok.1 h
    obtain ⟨rfl, hr⟩ := Prod.mk.inj (Except.ok.inj h)
    cases hr
    obtain ⟨u, rfl, hu, hread⟩ := ih h1
    refine ⟨c :: u, rfl, hu.trans ⟨[c], rfl⟩, fun p' rest' => ?_⟩
    rw [cons_append, splitString.eq_def]
    dsimp only
    rw [if_neg (hopen hu hc rest'), if_neg hnl, if_neg hslash, hread]
    rfl

/-! ### Steps -/

/-- A character that starts a token, if it starts anything. -/
def startsToken (c : Char) : Bool :=
  !isBlank c && c ≠ '\n' && c ≠ '#'

/-- The end of the text or of the line. -/
def LineEnd (x : List Char) : Prop :=
  ∀ c ∈ x.head?, c = '\n'

theorem LineEnd.gapped (hx : LineEnd x) : Gapped x := fun c hc => by
  simp [hx c hc, gapStarts]

/-- What stands between tokens, up to the text after it: blanks, line ends, comments up to the ends of their lines, and
backslashes before line ends. -/
inductive IsGap : List Char → List Char → Prop
  | nil {x : List Char} : IsGap [] x
  | blank {c : Char} {u x : List Char} : isBlank c = true → IsGap u x → IsGap (c :: u) x
  | line {u x : List Char} : IsGap u x → IsGap ('\n' :: u) x
  | joined {u x : List Char} : IsGap u x → IsGap ('\\' :: '\n' :: u) x
  | comment {text u x : List Char} : '\n' ∉ text → LineEnd (u ++ x) → IsGap u x → IsGap ('#' :: (text ++ u)) x

/-- How a token is spelled: a string stands in quotes, and every other token is its text. -/
def Spells (u : List Char) (t : Token) : Prop :=
  if t.kind = .string then ∃ quote body, (quote = '\'' ∨ quote = '"') ∧ u = quote :: (body ++ [quote])
  else u = t.text.toList

/-- What is read at once before some text: a token, or a part of a gap. -/
def Lexeme (u : List Char) (x : List Char) : Option Token → Prop
  | none => IsGap u x
  | some t => Syntax.Parser.isText t = true ∧ Spells u t ∧ t.Spelled

/-- The state after what stands at the front: a token, or nothing but blanks and comments. -/
def State.after (st : State) (tok : Option Token) (pos : Position) : State :=
  match tok with
  | none => { st with pos }
  | some t => { st with pos, depth := depthStep st.depth t, tokens := { t with pos := st.pos } :: st.tokens }

/-- At the front stands the token, or what gives none, whatever the state. -/
def Step (c : Char) (rest : List Char) (tok : Option Token) (rest' : List Char) : Prop :=
  ∃ u, rest = u ++ rest' ∧ Lexeme (c :: u) rest' tok ∧
    ∀ st : State, advance st c rest = .ok (st.after tok (st.pos.afterAll (c :: u)), rest')

section

variable {st st' : State} {rest' : List Char}

theorem Step.isText (h : Step c rest (some t) rest') : Syntax.Parser.isText t = true := by
  obtain ⟨_, -, h, -⟩ := h
  exact h.1

theorem step_blank (hc : isBlank c = true) : Step c rest none rest :=
  ⟨[], rfl, .blank hc .nil, fun st => by rw [advance, if_pos hc]; rfl⟩

theorem step_joined : Step '\\' ('\n' :: x) none x :=
  ⟨['\n'], rfl, .joined .nil, fun _ => rfl⟩

theorem step_comment (hx : LineEnd x) (hrest : '\n' ∉ rest) : Step '#' (rest ++ x) none x := by
  refine ⟨rest, rfl, by simpa [Lexeme] using IsGap.comment (u := []) hrest hx .nil, fun st => ?_⟩
  have hall : ∀ a ∈ '#' :: rest, decide (a ≠ '\n') = true := by
    intro a ha
    rcases mem_cons.1 ha with rfl | ha
    · decide
    · simpa using fun h : a = '\n' => hrest (h ▸ ha)
  have hend : x.takeWhile (· ≠ '\n') = [] ∧ x.dropWhile (· ≠ '\n') = x := by
    cases x with
    | nil => exact ⟨rfl, rfl⟩
    | cons d x => simp [hx d rfl]
  rw [advance, if_neg (by decide), if_pos rfl, ← cons_append, takeWhile_append_of_pos hall,
    dropWhile_append_of_pos hall, hend.1, hend.2, append_nil]
  rfl

theorem not_special_of_isNameStart (hc : isNameStart c = true) :
    isBlank c = false ∧ c ≠ '#' ∧ c ≠ '\\' ∧ c ≠ '\n' := by
  refine ⟨?_, ?_, ?_, ?_⟩
  · by_contra h
    simp only [isBlank, Bool.not_eq_false, Bool.or_eq_true, decide_eq_true_eq] at h
    rcases h with rfl | rfl <;> exact absurd hc (by decide)
  all_goals
    rintro rfl
    exact absurd hc (by decide)

theorem step_name (hc : isNameStart c = true) (hx : Gapped x) :
    Step c (rest ++ x) (some ⟨.name, String.ofList (c :: rest.takeWhile isNamePart), default⟩)
      (rest.dropWhile isNamePart ++ x) := by
  obtain ⟨hblank, hhash, hslash, hline⟩ := not_special_of_isNameStart hc
  have hspelled : Token.Spelled ⟨.name, String.ofList (c :: rest.takeWhile isNamePart), default⟩ := fun _ =>
    ⟨c, _, String.toList_ofList, hc, fun _ hd => mem_takeWhile_imp hd⟩
  refine ⟨rest.takeWhile isNamePart, ?_, ⟨rfl, by simp [Spells], hspelled⟩, fun st => ?_⟩
  · rw [← append_assoc, takeWhile_append_dropWhile]
  · rw [advance, if_neg (by simp [hblank]), if_neg hhash, if_neg fun h => hslash h.1, if_neg hline, if_pos hc,
      takeWhile_append_gapped hx rfl, dropWhile_append_gapped hx rfl]
    rfl

/-- Numbers, strings and operators are what is left when all else is ruled out. -/
theorem advance_eq (hblank : ¬ isBlank c = true) (hhash : c ≠ '#') (hslash : c ≠ '\\') (hline : c ≠ '\n')
    (hname : ¬ isNameStart c = true) (st : State) (rest : List Char) :
    advance st c rest =
      if c.isDigit ∨ (c = '.' ∧ rest.head?.any Char.isDigit) then number st (c :: rest)
      else if c = '\'' ∨ c = '"' then string st c rest
      else operator st c rest := by
  rw [advance, if_neg hblank, if_neg hhash, if_neg fun h => hslash h.1, if_neg hline, if_neg hname]

theorem number_rest (h : number st cs = .ok (st', rest')) :
    rest' = (splitNumber cs).2 ∧ ∀ d ∈ rest'.head?, ¬ isNameStart d = true := by
  unfold number at h
  dsimp only at h
  split at h
  · split at h
    · cases h
    split at h
    · cases h
    cases h
    exact ⟨rfl, by simp_all⟩
  · cases h
    exact ⟨rfl, by simp_all⟩

theorem number_append (hx : Gapped x) (h : number st (cs ++ x) = .ok (st', rest')) :
    rest' = (splitNumber cs).2 ++ x ∧ ∀ y, Gapped y → ∀ st₁ : State, number st₁ (cs ++ y) =
      .ok (st₁.after (some ⟨.number, String.ofList (splitNumber cs).1, default⟩)
        (st₁.pos.afterAll (splitNumber cs).1), (splitNumber cs).2 ++ y) := by
  obtain ⟨hrest, hend⟩ := number_rest h
  rw [splitNumber_append hx] at hrest
  refine ⟨hrest, fun y hy st₁ => ?_⟩
  have hend : ∀ d ∈ ((splitNumber cs).2 ++ y).head?, ¬ isNameStart d = true := by
    intro d hd
    cases hr : (splitNumber cs).2 with
    | cons e r => exact hend d (by simpa [hrest, hr] using hd)
    | nil =>
      rw [hr] at hd
      obtain ⟨y, rfl⟩ := head?_eq_some_iff.1 hd
      simp [hy.eq_false (p := isNameStart) rfl]
  unfold number
  rw [splitNumber_append hy]
  dsimp only
  split
  · rename_i d r hr
    have hd := hend d (by rw [hr]; rfl)
    rw [if_neg (by rintro (rfl | rfl) <;> exact hd rfl), if_neg hd, hr]
    rfl
  · rename_i hr
    rw [hr]
    rfl

theorem string_eq (c : Char) (rest : List Char) : ∃ body, c :: rest = quotes c ([c, c].isPrefixOf rest) ++ body ∧
    ∀ st : State, string st c rest =
      splitString c ([c, c].isPrefixOf rest) (st.pos.afterAll (quotes c ([c, c].isPrefixOf rest))) body >>= fun r =>
        pure ({ (st.push .string (String.ofList r.1) st.pos) with pos := r.2.1 }, r.2.2) := by
  unfold string
  cases htriple : [c, c].isPrefixOf rest with
  | false => exact ⟨rest, rfl, fun _ => rfl⟩
  | true =>
    obtain ⟨body, rfl⟩ := isPrefixOf_iff_prefix.1 htriple
    exact ⟨body, rfl, fun _ => rfl⟩

theorem string_append (hx : Gapped x) (h : string st c (rest ++ x) = .ok (st', rest' ++ x))
    (hc : c = '\'' ∨ c = '"') : ∃ u t, rest = u ++ rest' ∧ Lexeme (c :: u) x (some t) ∧
      ∀ y, Gapped y → ∀ st₁ : State,
        string st₁ c (rest ++ y) = .ok (st₁.after (some t) (st₁.pos.afterAll (c :: u)), rest' ++ y) := by
  obtain ⟨body, hbody, -⟩ := string_eq c rest
  have hgap : c ∉ gapStarts := by rcases hc with rfl | rfl <;> decide
  have hstring : ∀ y, Gapped y → ∀ st : State, string st c (rest ++ y) =
      splitString c ([c, c].isPrefixOf rest) (st.pos.afterAll (quotes c ([c, c].isPrefixOf rest))) (body ++ y) >>=
        fun r => pure ({ (st.push .string (String.ofList r.1) st.pos) with pos := r.2.1 }, r.2.2) := by
    intro y hy
    obtain ⟨b, hb, hstring⟩ := string_eq c (rest ++ y)
    rw [isPrefixOf_append hy (by simp [hgap])] at hb hstring
    rw [← cons_append, hbody, append_assoc] at hb
    rwa [← append_cancel_left hb] at hstring
  rw [hstring x hx] at h
  generalize [c, c].isPrefixOf rest = triple at hbody hstring h
  obtain ⟨⟨value, q, r⟩, hsplit, h⟩ := bind_eq_ok.1 h
  obtain ⟨-, rfl⟩ := Prod.mk.inj (Except.ok.inj h)
  obtain ⟨u, hu, hquotes, hread⟩ := splitString_eq_ok hsplit
  rw [← append_assoc] at hu
  obtain rfl := append_cancel_right hu
  obtain ⟨front, hfront⟩ : ∃ front, quotes c triple = c :: front := by cases triple <;> exact ⟨_, rfl⟩
  have hlast : [c] <:+ quotes c triple := by
    cases triple with
    | false => exact ⟨[], rfl⟩
    | true => exact ⟨[c, c], rfl⟩
  obtain ⟨mid, rfl⟩ := hlast.trans hquotes
  refine ⟨front ++ (mid ++ [c]), ⟨.string, String.ofList value, default⟩, ?_, ⟨rfl, ?_, by simp [Token.Spelled]⟩,
    fun y hy st₁ => ?_⟩
  · rw [hfront] at hbody
    simpa using (List.cons.inj hbody).2
  · exact ⟨c, front ++ mid, hc, by simp⟩
  · rw [hstring y hy, append_assoc _ rest', hread, ← Position.afterAll_append, hfront]
    rfl

theorem depthStep_singleton (d : Nat) (c : Char) : depthStep d ⟨.op, String.ofList [c], default⟩ =
    if isOpening c then d + 1 else if isClosing c then d - 1 else d := by
  have h : ∀ e : Char, (String.ofList [c] == String.ofList [e]) = decide (c = e) := by
    intro e
    rw [Bool.eq_iff_iff]
    simp
  simp [depthStep, Token.isOp, isOpening, isClosing, ← h]

theorem operator_append (hx : Gapped x) (h : operator st c (rest ++ x) = .ok (st', rest')) :
    ∃ u r op, c ≠ '\\' ∧ rest = u ++ r ∧ rest' = r ++ x ∧ op.toList = c :: u ∧ ∀ y, Gapped y → ∀ st₁ : State,
      operator st₁ c (rest ++ y) =
        .ok (st₁.after (some ⟨.op, op, default⟩) (st₁.pos.afterAll (c :: u)), r ++ y) := by
  have hfind : ∀ y, Gapped y → (longOperators.find? fun op => op.toList.isPrefixOf (c :: (rest ++ y))) =
      longOperators.find? fun op => op.toList.isPrefixOf (c :: rest) := by
    intro y hy
    have hgaps : ∀ op ∈ longOperators, ∀ c ∈ op.toList, c ∉ gapStarts := by
      simp [longOperators, gapStarts]
    exact find?_congr fun op hop => isPrefixOf_append hy (hgaps op hop) (c :: rest)
  unfold operator at h
  rw [hfind x hx] at h
  split at h
  · rename_i op hop
    cases h
    have hmem := mem_of_find?_eq_some hop
    have hhead : ∀ op ∈ longOperators, ∃ d ds, op.toList = d :: ds ∧ d ≠ '\\' := by simp [longOperators]
    obtain ⟨d, u, hd, hslash⟩ := hhead op hmem
    obtain ⟨r, hr⟩ : op.toList <+: c :: rest := by simpa using find?_some hop
    rw [hd, cons_append] at hr
    obtain ⟨rfl, rfl⟩ := List.cons.inj hr
    have hdrop : ∀ y, (d :: (u ++ r ++ y)).drop op.length = r ++ y := by
      intro y
      rw [← String.length_toList, hd, append_assoc, ← cons_append, drop_left]
    refine ⟨u, r, op, hslash, rfl, hdrop x, hd, fun y hy st₁ => ?_⟩
    have hdepth : depthStep st₁.depth ⟨.op, op, default⟩ = st₁.depth :=
      (Syntax.Parser.tidy_of_notMem_brackets rfl ((by decide : ∀ op ∈ longOperators, op ∉ Syntax.Parser.brackets) op
        hmem)).depth _
    rw [operator, hfind y hy, hop, State.after, hdepth, ← hd]
    dsimp only
    rw [hdrop]
    rfl
  · rename_i hnone
    split at h
    · rename_i hc
      cases h
      refine ⟨[], rest, String.ofList [c], ?_, rfl, rfl, by simp, fun y hy st₁ => ?_⟩
      · rintro rfl
        exact absurd hc (by decide)
      · rw [operator, hfind y hy, hnone]
        dsimp only
        rw [if_pos hc, State.after, depthStep_singleton]
        rfl
    · cases h

/-- **A token is read wherever it stands**: what the lexer reads in one place before a gap it reads in every other. -/
theorem step_of_advance (hx : Gapped x) (h : advance st c (rest ++ x) = .ok (st', rest' ++ x))
    (hblank : ¬ isBlank c = true) (hhash : c ≠ '#') (hline : c ≠ '\n')
    (hslash : ¬ (c = '\\' ∧ (rest ++ x).head? = some '\n')) :
    ∃ t, ∀ y, Gapped y → Step c (rest ++ y) (some t) (rest' ++ y) := by
  by_cases hname : isNameStart c = true
  · rw [advance, if_neg hblank, if_neg hhash, if_neg hslash, if_neg hline, if_pos hname,
      dropWhile_append_gapped hx rfl] at h
    rw [← append_cancel_right (Prod.mk.inj (Except.ok.inj h)).2]
    exact ⟨_, fun y hy => step_name hname hy⟩
  rw [advance, if_neg hblank, if_neg hhash, if_neg hslash, if_neg hline, if_neg hname, head?_append_any hx rfl] at h
  split at h
  · rename_i hdigit
    have hne : c ≠ '\\' := by
      rintro rfl
      simp at hdigit
    rw [← cons_append] at h
    obtain ⟨hrest, hnumber⟩ := number_append hx h
    have hsplit := splitNumber_eq_append (c :: rest)
    obtain ⟨d, u, hd⟩ := exists_cons_of_ne_nil (splitNumber_ne_nil hdigit)
    rw [hd, ← append_cancel_right hrest] at hsplit hnumber
    rw [cons_append] at hsplit
    obtain ⟨rfl, rfl⟩ := List.cons.inj hsplit
    refine ⟨⟨.number, String.ofList (d :: u), default⟩, fun y hy => ⟨u, append_assoc _ _ _,
      ⟨rfl, by simp [Spells], by simp [Token.Spelled]⟩, fun st₁ => ?_⟩⟩
    rw [advance_eq hblank hhash hne hline hname, if_pos (by rwa [head?_append_any hy rfl])]
    exact hnumber y hy st₁
  rename_i hdigit
  have hdigit' : ∀ y, Gapped y → ¬ (c.isDigit = true ∨ c = '.' ∧ (rest ++ y).head?.any Char.isDigit = true) := by
    intro y hy
    rwa [head?_append_any hy rfl]
  split at h
  · rename_i hquote
    have hne : c ≠ '\\' := by rcases hquote with rfl | rfl <;> decide
    obtain ⟨u, t, rfl, hlexeme, hstring⟩ := string_append hx h hquote
    refine ⟨t, fun y hy => ⟨u, append_assoc _ _ _, hlexeme, fun st₁ => ?_⟩⟩
    rw [advance_eq hblank hhash hne hline hname, if_neg (hdigit' y hy), if_pos hquote]
    exact hstring y hy st₁
  · rename_i hquote
    obtain ⟨u, r, op, hne, rfl, hrest, hop, hoperator⟩ := operator_append hx h
    obtain rfl := append_cancel_right hrest
    refine ⟨⟨.op, op, default⟩, fun y hy => ⟨u, append_assoc _ _ _,
      ⟨rfl, by simp [Spells, hop], by simp [Token.Spelled]⟩, fun st₁ => ?_⟩⟩
    rw [advance_eq hblank hhash hne hline hname, if_neg (hdigit' y hy), if_neg hquote]
    exact hoperator y hy st₁

theorem step_of_tokens (hx : Gapped x) (h : advance {} c (rest ++ x) = .ok (st', rest' ++ x)) (hst : st'.tokens ≠ []) :
    startsToken c = true ∧ ∃ t, ∀ y, Gapped y → Step c (rest ++ y) (some t) (rest' ++ y) := by
  have hnone : ∀ {s : State × List Char}, s.1.tokens = [] → advance {} c (rest ++ x) ≠ .ok s := by
    intro s hs h'
    obtain rfl := Except.ok.inj (h.symm.trans h')
    exact hst hs
  have hblank : ¬ isBlank c = true := fun hc => hnone rfl (if_pos hc)
  have hhash : c ≠ '#' := fun hc => hnone rfl ((if_neg hblank).trans (if_pos hc))
  have hslash : ¬ (c = '\\' ∧ (rest ++ x).head? = some '\n') := fun hc =>
    hnone rfl ((if_neg hblank).trans ((if_neg hhash).trans (if_pos hc)))
  have hline : c ≠ '\n' := fun hc =>
    hnone rfl ((if_neg hblank).trans ((if_neg hhash).trans ((if_neg hslash).trans (if_pos hc))))
  exact ⟨by simp [startsToken, hblank, hhash, hline], step_of_advance hx h hblank hhash hline hslash⟩

/-! ### Scanning -/

/-- Reading some characters up to a given place inside a line gives some tokens, whatever the state. -/
inductive Scans : List Char → List Token → List Char → Prop
  | refl {cs : List Char} : Scans cs [] cs
  | step {c : Char} {rest rest' stop : List Char} {tok : Option Token} {ts : List Token} :
    Step c rest tok rest' → Scans rest' ts stop → Scans (c :: rest) (tok.toList ++ ts) stop

theorem Scans.trans {ds es : List Char} (h : Scans cs ts ds) (h' : Scans ds us es) : Scans cs (ts ++ us) es := by
  induction h with
  | refl => exact h'
  | step hstep _ ih =>
    rw [append_assoc]
    exact .step hstep (ih h')

theorem Step.unique {r r' : List Char} {tok' : Option Token} (h : Step c rest tok r) (h' : Step c rest tok' r') :
    tok.map Token.unplaced = tok'.map Token.unplaced ∧ r = r' := by
  obtain ⟨u, -, -, h⟩ := h
  obtain ⟨u', -, -, h'⟩ := h'
  obtain ⟨hst, rfl⟩ := Prod.mk.inj (Except.ok.inj ((h {}).symm.trans (h' {})))
  have htokens := congrArg (fun st => st.tokens.map Token.unplaced) hst
  refine ⟨?_, rfl⟩
  cases tok <;> cases tok' <;> simp_all [State.after, Token.unplaced]

/-- What is read at once is local: it does not depend on the gap that follows it, right after a token or further on. -/
theorem Step.before_gap {u : List Char} (h : Step c (u ++ (w ++ x)) tok (w ++ x)) (hx : Gapped x) :
    ∃ tok', tok'.map Token.unplaced = tok.map Token.unplaced ∧ ∀ y, Gapped y → (w = [] → tok = none → LineEnd y) →
      Step c (u ++ (w ++ y)) tok' (w ++ y) := by
  have hnil : ∀ {v : List Char}, v ++ (w ++ x) = w ++ x → v = [] := fun hv => by simpa using hv
  obtain ⟨v, hv, hlexeme, hadvance⟩ := id h
  obtain rfl := append_cancel_right hv
  cases tok with
  | none =>
    cases hlexeme with
    | blank hc =>
      obtain rfl := hnil ((step_blank hc).unique h).2
      exact ⟨none, rfl, fun _ _ _ => step_blank hc⟩
    | line => cases congrArg (fun r => r.map fun s => s.1.lineStart) (hadvance { lineStart := false })
    | joined =>
      obtain rfl := hnil (step_joined.unique h).2
      exact ⟨none, rfl, fun _ _ _ => step_joined⟩
    | @comment text v _ htext hend =>
      rw [append_assoc] at h
      obtain rfl := hnil ((step_comment hend htext).unique h).2
      rw [append_nil]
      refine ⟨none, rfl, fun y _ hw => step_comment ?_ htext⟩
      cases w with
      | nil => exact hw rfl rfl
      | cons d w => exact hend
  | some t =>
    have hagain := hadvance {}
    rw [← append_assoc] at h hagain
    obtain ⟨-, t', hstep⟩ := step_of_tokens hx hagain (by simp [State.after])
    refine ⟨some t', ((hstep x hx).unique h).1, fun y hy _ => ?_⟩
    rw [← append_assoc]
    exact hstep y hy

theorem Scans.of_name {stop : List Char} (hc : isNameStart c = true) (hx : Gapped x)
    (h : Scans (c :: rest ++ x) (t :: ts) stop) :
    t.unplaced = ⟨.name, String.ofList (c :: rest.takeWhile isNamePart), default⟩ ∧
      Scans (rest.dropWhile isNamePart ++ x) ts stop := by
  generalize hus : t :: ts = us at h
  cases h with
  | refl => cases hus
  | step hstep hrest =>
    obtain ⟨htok, rfl⟩ := hstep.unique (step_name hc hx)
    obtain ⟨u, rfl, hu⟩ := Option.map_eq_some_iff.1 htok
    cases hus
    exact ⟨hu, hrest⟩

/-- The state after some tokens inside a line. -/
structure Reached (st : State) (ts : List Token) (st' : State) : Prop where
  depth : st'.depth = depthAfter st.depth ts
  indents : st'.indents = st.indents
  lineStart : st'.lineStart = st.lineStart
  tokens : st'.tokens.map Token.unplaced = (ts.map Token.unplaced).reverse ++ st.tokens.map Token.unplaced

theorem reached_after (st : State) (tok : Option Token) (pos : Position) : Reached st tok.toList (st.after tok pos) := by
  cases tok with
  | none => exact ⟨rfl, rfl, rfl, rfl⟩
  | some t => exact ⟨rfl, rfl, rfl, rfl⟩

theorem Reached.trans {st st₁ st₂ : State} (h : Reached st ts st₁) (h' : Reached st₁ us st₂) :
    Reached st (ts ++ us) st₂ where
  depth := by rw [h'.depth, h.depth, Syntax.Parser.depthAfter_append]
  indents := h'.indents.trans h.indents
  lineStart := h'.lineStart.trans h.lineStart
  tokens := by simp [h'.tokens, h.tokens]

end

end OpGraph.Lexer
