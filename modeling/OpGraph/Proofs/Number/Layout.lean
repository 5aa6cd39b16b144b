import OpGraph.Proofs.Number.Shortest

/-!
Texts of floats: where the point and the exponent stand among the digits.
-/

namespace OpGraph.Shortest

open List

variable {c : Char}

/-! ### Digits -/

theorem isDigit_of_mem_decimal {n : ℕ} (h : c ∈ decimal n) : c.isDigit = true :=
  Nat.isDigit_of_mem_toDigits (by norm_num) (by norm_num) h

theorem ofDigitChars_decimal (n : ℕ) : Nat.ofDigitChars 10 (decimal n) 0 = n :=
  Nat.ofDigitChars_toDigits (by norm_num) (by norm_num)

theorem ofDigitChars_zeros (z n : ℕ) : Nat.ofDigitChars 10 (['0'] ++ (List.replicate z '0' ++ decimal n)) 0 = n := by
  rw [Nat.ofDigitChars_append, Nat.ofDigitChars_append, Nat.ofDigitChars_replicate_zero,
    show Nat.ofDigitChars 10 ['0'] 0 = 0 from rfl, Nat.mul_zero, ofDigitChars_decimal]

theorem decimal_ne_nil (n : ℕ) : decimal n ≠ [] :=
  Nat.toDigits_ne_nil

/-- The text of digits, by the place of the point: after all digits, between two of them, before all of them, or moved
by an exponent. -/
inductive Laid (d : Digits) : List Char → Prop
  | whole (z : ℕ) (h : d.exponent = z) : Laid d (decimal d.digits ++ List.replicate z '0')
  | split (w f : List Char) (h : decimal d.digits = w ++ f) (hw : w ≠ []) (he : d.exponent = -f.length) (hf : f ≠ []) :
    Laid d (w ++ '.' :: f)
  | small (z : ℕ) (h : d.exponent = -(z + (decimal d.digits).length : ℕ)) :
    Laid d (['0'] ++ '.' :: (List.replicate z '0' ++ decimal d.digits))
  | single (c : Char) (e : ℤ) (h : decimal d.digits = [c]) (he : d.exponent = e) :
    Laid d ([c] ++ 'e' :: (if e < 0 then '-' else '+') :: decimal e.natAbs)
  | scaled (c : Char) (f : List Char) (e : ℤ) (h : decimal d.digits = c :: f) (he : d.exponent = e - f.length)
    (hf : f ≠ []) :
    Laid d (([c] ++ '.' :: f) ++ 'e' :: (if e < 0 then '-' else '+') :: decimal e.natAbs)

theorem laid_layout (d : Digits) : Laid d (layout d) := by
  have hpos := length_pos_of_ne_nil (decimal_ne_nil d.digits)
  unfold layout
  simp only
  split
  · exact .whole _ (by omega)
  split
  · refine .split _ _ (take_append_drop _ _).symm ?_ ?_ ?_
    · rw [← length_pos_iff, length_take]
      omega
    · rw [length_drop]
      omega
    · rw [← length_pos_iff, length_drop]
      omega
  split
  · exact .small _ (by omega)
  · cases hd : decimal d.digits with
    | nil => exact absurd hd (decimal_ne_nil _)
    | cons c f =>
      cases f with
      | nil => exact .single c _ hd (by simp)
      | cons c' f =>
        refine .scaled c (c' :: f) _ hd ?_ (cons_ne_nil _ _)
        simp only [length_cons]
        push_cast
        ring

theorem isDigit_of_mem_replicate {z : ℕ} (h : c ∈ List.replicate z '0') : c.isDigit = true := by
  rw [eq_of_mem_replicate h]
  rfl

/-! ### Texts of floats -/

def isNumeral (c : Char) : Bool :=
  c.isDigit || c = '.' || c = 'e' || c = '+' || c = '-'

theorem value_digits_pos {m : ℕ} {q : ℤ} (hn : Binary64.Normal m q) (hm : 0 < m) : 0 < (digits m q).value := by
  have hlow := (target_low hm q).2.1
  have hpos : (0 : ℚ) < (target m q).low * 2 ^ (target m q).q := by positivity
  exact hpos.trans_le (holds_digits hn hm).ends.1

theorem text_unsigned (x : Float) : text (Binary64.unsigned x) = text x := by
  unfold Binary64.unsigned
  split
  · rename_i h
    rw [text, text, Binary64.shape_of_isNegativeZero h, Binary64.shape_zero]
    simp only [if_true]
  · rfl

end OpGraph.Shortest
