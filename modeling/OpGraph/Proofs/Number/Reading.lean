import OpGraph.Json.Reader
import OpGraph.Proofs.Number.Layout
import OpGraph.Proofs.Number.Rounding

/-!
Numbers of JSON texts, read back. The text of a finite float is read as the float, but for the sign of a zero: its
digits stand for a number in the rounding interval of the float, and reading rounds to the nearest float.
-/

namespace OpGraph

open List

variable {x : Float} {cs rest : List Char} {n : ℕ} {e : ℤ}

namespace Json

/-- What may come after a value: nothing, a blank, a separator or a closing bracket. -/
def Follows (rest : List Char) : Prop :=
  ∀ c ∈ rest.head?, isBlank c = true ∨ c = ',' ∨ c = ']' ∨ c = '\x7d'

theorem Follows.nil : Follows [] := by
  rintro _ ⟨⟩

theorem Follows.notNumeral (h : Follows rest) : ∀ c ∈ rest.head?,
    c.isDigit = false ∧ c ≠ '.' ∧ c ≠ 'e' ∧ c ≠ 'E' := by
  intro c hc
  rcases h c hc with hblank | rfl | rfl | rfl
  · simp only [isBlank, Bool.or_eq_true, decide_eq_true_eq] at hblank
    rcases hblank with ((rfl | rfl) | rfl) | rfl <;> decide
  all_goals decide

/-! ### Digits -/

section Digits

variable {w : List Char} (hw : ∀ c ∈ w, c.isDigit = true) (hrest : ∀ c ∈ rest.head?, c.isDigit = false)

include hw hrest

theorem takeWhile_digits : (w ++ rest).takeWhile Char.isDigit = w := by
  rw [takeWhile_append_of_pos hw]
  cases rest with
  | nil => simp
  | cons c rest => rw [takeWhile_cons_of_neg (by simpa using hrest c rfl), append_nil]

theorem dropWhile_digits : (w ++ rest).dropWhile Char.isDigit = rest := by
  rw [dropWhile_append_of_pos hw]
  cases rest with
  | nil => rfl
  | cons c rest => rw [dropWhile_cons_of_neg (by simpa using hrest c rfl)]

end Digits

/-! ### The grammar of numbers -/

/-- The end of a number: nothing, or an exponent. -/
inductive Scale : List Char → ℤ → Prop
  | none : Scale [] 0
  | some (e : ℤ) : Scale ('e' :: (if e < 0 then '-' else '+') :: Shortest.decimal e.natAbs) e

theorem exponent_scale {scale : List Char} (h : Scale scale e) (hrest : Follows rest) :
    exponent (scale ++ rest) = some (e, rest) := by
  cases h with
  | none =>
    cases rest with
    | nil => rfl
    | cons c rest =>
      have hc := hrest.notNumeral c rfl
      unfold exponent
      exact if_neg (not_or.2 hc.2.2)
  | some e =>
    have hdigits : ∀ c ∈ Shortest.decimal e.natAbs, c.isDigit = true := fun c hc => Shortest.isDigit_of_mem_decimal hc
    have hend : ∀ c ∈ rest.head?, c.isDigit = false := fun c hc => (hrest.notNumeral c hc).1
    have hne : (Shortest.decimal e.natAbs).isEmpty = false := by simpa using Shortest.decimal_ne_nil _
    have hvalue : natOfDigits (Shortest.decimal e.natAbs) = e.natAbs := Shortest.ofDigitChars_decimal _
    rcases lt_or_ge e 0 with he | he
    · rw [if_pos he, cons_append, cons_append]
      simp only [exponent, true_or, if_true, takeWhile_digits hdigits hend, dropWhile_digits hdigits hend, hne, hvalue]
      rw [if_neg Bool.false_ne_true, show -(e.natAbs : ℤ) = e by omega]
    · rw [if_neg (not_lt.2 he), cons_append, cons_append]
      simp only [exponent, true_or, if_true, takeWhile_digits hdigits hend, dropWhile_digits hdigits hend, hne, hvalue]
      rw [if_neg Bool.false_ne_true, if_neg Bool.false_ne_true, show (e.natAbs : ℤ) = e by omega]

/-- A fraction after its point; nothing if there are no digits. -/
def pointed (f : List Char) : List Char :=
  if f.isEmpty then [] else '.' :: f

theorem pointed_of_ne_nil {f : List Char} (h : f ≠ []) : pointed f = '.' :: f := by
  rw [pointed, if_neg (by simpa using h)]

/-- A text without a sign that spells the number `n · 10^e`. -/
inductive Spells : List Char → ℕ → ℤ → Prop
  | mk (w f : List Char) {scale : List Char} {e : ℤ} (hw : ∀ c ∈ w, c.isDigit = true) (hf : ∀ c ∈ f, c.isDigit = true)
    (hne : w ≠ []) (hzero : w.head? ≠ some '0' ∨ w.length = 1) (hscale : Scale scale e) :
    Spells (w ++ (pointed f ++ scale)) (natOfDigits (w ++ f)) (e - f.length)

theorem Spells.numeral (h : Spells cs n e) : cs ≠ [] ∧ ∀ c ∈ cs, Shortest.isNumeral c = true := by
  obtain ⟨w, f, hw, hf, hne, -, hscale⟩ := h
  have hdigits : ∀ {w : List Char}, (∀ c ∈ w, c.isDigit = true) → ∀ c ∈ w, Shortest.isNumeral c = true :=
    fun hw c hc => by simp [Shortest.isNumeral, hw c hc]
  rw [forall_mem_append, forall_mem_append]
  refine ⟨by simp [hne], hdigits hw, ?_, ?_⟩
  · unfold pointed
    split
    · simp
    · exact forall_mem_cons.2 ⟨rfl, hdigits hf⟩
  · cases hscale with
    | none => simp
    | some e =>
      rw [forall_mem_cons, forall_mem_cons]
      exact ⟨rfl, by split <;> rfl, hdigits fun c hc => Shortest.isDigit_of_mem_decimal hc⟩

def signed (negative : Bool) (cs : List Char) : List Char :=
  if negative then '-' :: cs else cs

theorem Spells.numeral_signed (h : Spells cs n e) (negative : Bool) :
    signed negative cs ≠ [] ∧ ∀ c ∈ signed negative cs, Shortest.isNumeral c = true := by
  cases negative with
  | false => exact h.numeral
  | true => exact ⟨cons_ne_nil _ _, forall_mem_cons.2 ⟨rfl, h.numeral.2⟩⟩

theorem numberText_signed (negative : Bool) (h : ∀ rest, cs ≠ '-' :: rest) :
    numberText (signed negative cs) = magnitude negative cs := by
  cases negative with
  | true => rfl
  | false =>
    rw [signed, if_neg Bool.false_ne_true, numberText]
    exact h

/-- **A spelled number is read digit by digit**, up to what may come after it. -/
theorem numberText_of_spells (negative : Bool) (h : Spells cs n e) (hrest : Follows rest) :
    numberText (signed negative cs ++ rest) = some (Binary64.ofDecimal negative n e, rest) := by
  obtain ⟨w, f, hw, hf, hne, hzero, hscale⟩ := h
  rename_i scale e
  -- no exponent and no end of a number goes on with a digit or a point
  have hscaled : ∀ c ∈ (scale ++ rest).head?, c.isDigit = false ∧ c ≠ '.' := by
    cases hscale with
    | none => exact fun c hc => ⟨(hrest.notNumeral c hc).1, (hrest.notNumeral c hc).2.1⟩
    | some e =>
      rintro c ⟨⟩
      decide
  have hpoint : ∀ c ∈ (pointed f ++ (scale ++ rest)).head?, c.isDigit = false := by
    unfold pointed
    split
    · exact fun c hc => (hscaled c hc).1
    · rintro c ⟨⟩
      rfl
  have hguard : (!w.isEmpty && (decide (w.head? ≠ some '0') || decide (w.length = 1))) = true := by
    simpa [hne] using hzero
  have hsigned : signed negative (w ++ (pointed f ++ scale)) ++ rest =
      signed negative (w ++ (pointed f ++ (scale ++ rest))) := by
    cases negative <;> simp [signed]
  rw [hsigned, numberText_signed]
  · simp only [magnitude, takeWhile_digits hw hpoint, dropWhile_digits hw hpoint, hguard]
    rcases f with _ | ⟨d, f⟩
    · simp only [pointed, isEmpty_nil, if_true, nil_append]
      split
      · rename_i heq
        exact absurd rfl (hscaled '.' (by rw [heq]; rfl)).2
      · simp [exponent_scale hscale hrest]
    · have hend : ∀ c ∈ (scale ++ rest).head?, c.isDigit = false := fun c hc => (hscaled c hc).1
      simp only [pointed, isEmpty_cons, Bool.false_eq_true, if_false, cons_append]
      rw [← cons_append, takeWhile_digits hf hend, dropWhile_digits hf hend]
      simp [exponent_scale hscale hrest]
  · obtain ⟨c, w, rfl⟩ := exists_cons_of_ne_nil hne
    rintro _ ⟨⟩
    exact absurd (hw '-' mem_cons_self) (by decide)

end Json

namespace Shortest

/-! ### Texts of floats -/

theorem head?_decimal (h : 0 < n) : (decimal n).head? ≠ some '0' := by
  induction n using Nat.strong_induction_on with
  | h n ih =>
    rcases lt_or_ge n 10 with hlt | hge
    · have hdigit : ∀ k : Fin 10, 0 < k.val → [k.val.digitChar].head? ≠ some '0' := by decide
      rw [decimal, Nat.toDigits_of_lt_base hlt]
      exact hdigit ⟨n, hlt⟩ h
    · have hne : decimal (n / 10) ≠ [] := decimal_ne_nil _
      rw [decimal, Nat.toDigits_of_base_le (by norm_num) hge, ← decimal, head?_append_of_ne_nil _ hne]
      exact ih (n / 10) (by omega) (by omega)

theorem spells_decimal (n : ℕ) : Json.Spells (decimal n) n 0 := by
  have hspells := Json.Spells.mk (decimal n) [] (fun c hc => isDigit_of_mem_decimal hc) (by simp) (decimal_ne_nil n)
    (n.eq_zero_or_pos.elim (fun h => .inr (by rw [h]; rfl)) fun h => .inl (head?_decimal h)) .none
  rw [append_nil (decimal n), show Json.natOfDigits (decimal n) = n from ofDigitChars_decimal n] at hspells
  simpa [Json.pointed] using hspells

theorem toList_toString (i : ℤ) : (toString i).toList = Json.signed (decide (i < 0)) (decimal i.natAbs) := by
  cases i with
  | ofNat n => exact Nat.toList_repr
  | negSucc n =>
    rw [decide_eq_true (Int.negSucc_lt_zero n)]
    simp [Json.signed, decimal, toString, Int.repr]

theorem Laid.spells {d : Digits} (h : Laid d cs) (hpos : 0 < d.digits) :
    ∃ n e, Json.Spells cs n e ∧ n ≠ 0 ∧ (n * 10 ^ e : ℚ) = d.value ∧ min d.exponent 0 ≤ e := by
  have hdigit : ∀ c ∈ decimal d.digits, c.isDigit = true := fun c hc => isDigit_of_mem_decimal hc
  have hread : Json.natOfDigits (decimal d.digits) = d.digits := ofDigitChars_decimal d.digits
  have hhead := head?_decimal hpos
  -- but for zeros at the end, the digits and the exponent are spelled as they are
  have hsame : ∀ {cs n e}, Json.Spells cs n e → n = d.digits → e = d.exponent →
      ∃ n e, Json.Spells cs n e ∧ n ≠ 0 ∧ (n * 10 ^ e : ℚ) = d.value ∧ min d.exponent 0 ≤ e := by
    rintro cs n e hspells rfl rfl
    exact ⟨_, _, hspells, hpos.ne', rfl, min_le_left _ _⟩
  cases h with
  | whole z h =>
    have hw : ∀ c ∈ decimal d.digits ++ List.replicate z '0', c.isDigit = true := by
      rw [forall_mem_append]
      exact ⟨hdigit, fun c hc => isDigit_of_mem_replicate hc⟩
    have hvalue : Json.natOfDigits (decimal d.digits ++ List.replicate z '0' ++ []) = d.digits * 10 ^ z := by
      rw [append_nil]
      change Nat.ofDigitChars 10 _ 0 = _
      rw [Nat.ofDigitChars_append, ofDigitChars_decimal, Nat.ofDigitChars_replicate_zero, Nat.mul_comm]
    have hspells := Json.Spells.mk (decimal d.digits ++ List.replicate z '0') [] hw (by simp)
      (by simp [decimal_ne_nil]) (.inl (by rwa [head?_append_of_ne_nil _ (decimal_ne_nil _)])) .none
    rw [hvalue] at hspells
    refine ⟨_, _, by simpa [Json.pointed] using hspells, by positivity, ?_, by simp⟩
    rw [Digits.value, h]
    simp
  | split w f h hw he hf =>
    rw [h, forall_mem_append] at hdigit
    rw [h, head?_append_of_ne_nil _ hw] at hhead
    have hspells := Json.Spells.mk w f hdigit.1 hdigit.2 hw (.inl hhead) .none
    rw [Json.pointed_of_ne_nil hf, append_nil] at hspells
    exact hsame hspells (h ▸ hread) (by omega)
  | small z h =>
    have hf : ∀ c ∈ List.replicate z '0' ++ decimal d.digits, c.isDigit = true := by
      rw [forall_mem_append]
      exact ⟨fun c hc => isDigit_of_mem_replicate hc, hdigit⟩
    have hspells := Json.Spells.mk ['0'] (List.replicate z '0' ++ decimal d.digits) (by simp) hf (by simp) (.inr rfl)
      .none
    rw [Json.pointed_of_ne_nil (by simp [decimal_ne_nil]), append_nil] at hspells
    refine hsame hspells (ofDigitChars_zeros z d.digits) ?_
    rw [h, length_append, length_replicate]
    push_cast
    ring
  | single c e h he =>
    rw [h] at hdigit hhead hread
    have hspells := Json.Spells.mk [c] [] hdigit (by simp) (by simp) (.inl hhead) (.some e)
    exact hsame hspells hread (by simpa using he.symm)
  | scaled c f e h he hf =>
    rw [h] at hread
    rw [h, forall_mem_cons] at hdigit
    rw [h] at hhead
    have hspells := Json.Spells.mk [c] f (by simpa using hdigit.1) hdigit.2 (by simp) (.inl hhead) (.some e)
    rw [Json.pointed_of_ne_nil hf, ← append_assoc] at hspells
    exact hsame hspells hread he.symm

theorem digits_digits_pos {m : ℕ} {q : ℤ} (hn : Binary64.Normal m q) (hm : 0 < m) : 0 < (digits m q).digits := by
  by_contra h
  have hzero : (digits m q).digits = 0 := by omega
  have hpos := value_digits_pos hn hm
  rw [Digits.value, hzero] at hpos
  simp at hpos

theorem exists_spells (h : x.isFinite = true) : ∃ negative cs n e,
    (text x).toList = Json.signed negative cs ∧ Json.Spells cs n e ∧
      Binary64.ofDecimal negative n e = Binary64.unsigned x := by
  obtain ⟨negative, m, q, hs, hn⟩ := Binary64.exists_shape h
  unfold text
  rw [hs]
  simp only
  rcases Nat.eq_zero_or_pos m with rfl | hm
  · have hspells := Json.Spells.mk ['0'] [] (by simp) (by simp) (by simp) (.inr rfl) .none
    rw [Binary64.unsigned_of_zero hs, if_pos rfl]
    exact ⟨false, _, _, _, rfl, hspells, rfl⟩
  · obtain ⟨n, e, hspells, hne, hvalue, he⟩ := (laid_layout (digits m q)).spells (digits_digits_pos hn hm)
    have hholds := holds_digits hn hm
    have hexp := exponent_digits hn
    have hshape := Binary64.shape_ofDecimal negative hn hm hne (by omega) (hvalue ▸ hholds)
    refine ⟨negative, _, n, e, ?_, hspells, ?_⟩
    · rw [if_neg hm.ne', String.toList_ofList, Json.signed]
    · rw [Binary64.unsigned_of_pos hs hm, Binary64.shape_inj hshape hs]

/-- **The text of a finite float is read as the float**, but for the sign of a zero. -/
theorem numberText_text (h : x.isFinite = true) (hrest : Json.Follows rest) :
    Json.numberText ((text x).toList ++ rest) = some (Binary64.unsigned x, rest) := by
  obtain ⟨negative, cs, n, e, htext, hspells, hx⟩ := exists_spells h
  rw [htext, Json.numberText_of_spells negative hspells hrest, hx]

theorem numeral_text (h : x.isFinite = true) : (text x).toList ≠ [] ∧ ∀ c ∈ (text x).toList, isNumeral c = true := by
  obtain ⟨negative, cs, n, e, htext, hspells, -⟩ := exists_spells h
  rw [htext]
  exact hspells.numeral_signed negative

end Shortest

end OpGraph
