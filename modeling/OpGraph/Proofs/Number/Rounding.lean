import OpGraph.Proofs.Number.Shortest

/-!
Rounding to floats. The float that is computed for a quotient of naturals is the one in whose rounding interval the
quotient lies, so that a float is computed from every number of its interval; and the digits of a float, with the
exponent that is written, are such a number.
-/

namespace OpGraph

open Shortest (target)

variable {m : ℕ} {q : ℤ}

namespace Binary64

/-! ### Quotients -/

theorem roundDiv_bounds (num : ℕ) {den : ℕ} (hden : 0 < den) :
    2 * (roundDiv num den * den) ≤ 2 * num + den ∧ 2 * num ≤ 2 * (roundDiv num den * den) + den ∧
    (roundDiv num den % 2 = 1 →
      2 * (roundDiv num den * den) < 2 * num + den ∧ 2 * num < 2 * (roundDiv num den * den) + den) := by
  have hdiv := Nat.div_add_mod num den
  have hmod := Nat.mod_lt num hden
  rw [mul_comm] at hdiv
  unfold roundDiv
  simp only
  split
  · exact ⟨by omega, by omega, fun _ => ⟨by omega, by omega⟩⟩
  split
  · rw [Nat.add_mul, Nat.one_mul]
    exact ⟨by omega, by omega, fun _ => ⟨by omega, by omega⟩⟩
  split
  · exact ⟨by omega, by omega, fun _ => by omega⟩
  · rw [Nat.add_mul, Nat.one_mul]
    exact ⟨by omega, by omega, fun _ => by omega⟩

section

variable {num den : ℕ}

theorem lt_scaled_iff (hden : 0 < den) (b : ℕ) (q : ℤ) :
    num * 2 ^ (-q).toNat < b * (den * 2 ^ q.toNat) ↔ (num / den : ℚ) < b * 2 ^ q := by
  have hd : (0 : ℚ) < den := by exact_mod_cast hden
  rw [Shortest.zpow_eq_div two_ne_zero, ← mul_div_assoc, div_lt_div_iff₀ hd (by positivity), mul_right_comm, mul_assoc]
  exact_mod_cast Iff.rfl

theorem scaled_eq (num : ℕ) (hden : 0 < den) (q : ℤ) :
    ((num * 2 ^ (-q).toNat : ℕ) : ℚ) = num / den * 2 ^ (-q) * (den * 2 ^ q.toNat : ℕ) := by
  have hd : (den : ℚ) ≠ 0 := by exact_mod_cast hden.ne'
  rw [zpow_neg, Shortest.zpow_eq_div two_ne_zero]
  push_cast
  field_simp

theorem guess_bounds (hnum : 0 < num) (hden : 0 < den) :
    (2 ^ 52 * 2 ^ ((num.log2 : ℤ) - den.log2 - 53) : ℚ) ≤ num / den ∧
      (num / den : ℚ) < 2 ^ 53 * 2 ^ ((num.log2 : ℤ) - den.log2 - 53 + 1) := by
  have hd : (0 : ℚ) < den := by exact_mod_cast hden
  have hn1 : (2 ^ num.log2 : ℚ) ≤ num := by exact_mod_cast Nat.log2_self_le hnum.ne'
  have hn2 : (num : ℚ) < 2 ^ (num.log2 + 1) := by exact_mod_cast Nat.lt_log2_self (n := num)
  have hd1 : (2 ^ den.log2 : ℚ) ≤ den := by exact_mod_cast Nat.log2_self_le hden.ne'
  have hd2 : (den : ℚ) ≤ 2 ^ (den.log2 + 1) := by exact_mod_cast (Nat.lt_log2_self (n := den)).le
  constructor
  · rw [le_div_iff₀ hd]
    calc (2 ^ 52 * 2 ^ ((num.log2 : ℤ) - den.log2 - 53) * den : ℚ)
        ≤ 2 ^ 52 * 2 ^ ((num.log2 : ℤ) - den.log2 - 53) * 2 ^ (den.log2 + 1) := by gcongr
      _ = 2 ^ num.log2 := by
        simp only [← zpow_natCast, ← zpow_add₀ (two_ne_zero (α := ℚ))]
        congr 1
        push_cast
        ring
      _ ≤ num := hn1
  · rw [div_lt_iff₀ hd]
    calc (num : ℚ) < 2 ^ (num.log2 + 1) := hn2
      _ = 2 ^ 53 * 2 ^ ((num.log2 : ℤ) - den.log2 - 53 + 1) * 2 ^ den.log2 := by
        simp only [← zpow_natCast, ← zpow_add₀ (two_ne_zero (α := ℚ))]
        congr 1
        push_cast
        ring
      _ ≤ _ := by gcongr

theorem roundDiv_scaled (num : ℕ) (hden : 0 < den) (q : ℤ)
    (hm : m = roundDiv (num * 2 ^ (-q).toNat) (den * 2 ^ q.toNat)) :
    ((4 * m - 2 : ℚ) * 2 ^ (q - 2) ≤ num / den ∧ (num / den : ℚ) ≤ (4 * m + 2) * 2 ^ (q - 2)) ∧
    (m % 2 = 1 → (4 * m - 2 : ℚ) * 2 ^ (q - 2) < num / den ∧ (num / den : ℚ) < (4 * m + 2) * 2 ^ (q - 2)) := by
  have hpos : 0 < den * 2 ^ q.toNat := by positivity
  obtain ⟨hlow, hhigh, hodd⟩ := roundDiv_bounds (num * 2 ^ (-q).toNat) hpos
  have hscaled := scaled_eq num hden q
  rw [← hm] at hlow hhigh hodd
  generalize num * 2 ^ (-q).toNat = n at hlow hhigh hodd hscaled
  generalize den * 2 ^ q.toNat = d at hpos hlow hhigh hodd hscaled
  have hd : (0 : ℚ) < d := by exact_mod_cast hpos
  have hu : (0 : ℚ) < 2 ^ q := by positivity
  -- `y` is the quotient in units of `2 ^ q`
  obtain ⟨y, hy⟩ : ∃ y : ℚ, y = num / den * 2 ^ (-q) := ⟨_, rfl⟩
  have hx : (num / den : ℚ) = y * 2 ^ q := by
    rw [hy, mul_assoc, ← zpow_add₀ two_ne_zero, neg_add_cancel, zpow_zero, mul_one]
  have hquarter : (2 ^ q : ℚ) = 4 * 2 ^ (q - 2) := by
    rw [zpow_sub₀ two_ne_zero]
    ring
  have hends : (4 * m - 2 : ℚ) * 2 ^ (q - 2) = (m - 1 / 2) * 2 ^ q ∧ (4 * m + 2 : ℚ) * 2 ^ (q - 2) = (m + 1 / 2) * 2 ^ q := by
    rw [hquarter]
    constructor <;> ring
  rw [← hy] at hscaled
  rw [hx, hends.1, hends.2]
  simp only [mul_le_mul_iff_left₀ hu, mul_lt_mul_iff_left₀ hu]
  have hle : ∀ {a b : ℚ}, a * d ≤ b * d → a ≤ b := fun h => le_of_mul_le_mul_right h hd
  have hlt : ∀ {a b : ℚ}, a * d < b * d → a < b := fun h => lt_of_mul_lt_mul_right h hd.le
  have hlow' : (2 * (m * d) : ℚ) ≤ 2 * n + d := by exact_mod_cast hlow
  have hhigh' : (2 * n : ℚ) ≤ 2 * (m * d) + d := by exact_mod_cast hhigh
  refine ⟨⟨hle (by linarith), hle (by linarith)⟩, fun h => ?_⟩
  obtain ⟨hlow, hhigh⟩ := hodd h
  have hlow' : (2 * (m * d) : ℚ) < 2 * n + d := by exact_mod_cast hlow
  have hhigh' : (2 * n : ℚ) < 2 * (m * d) + d := by exact_mod_cast hhigh
  exact ⟨hlt (by linarith), hlt (by linarith)⟩

/-- The exponent that the quotient is rounded at: the significand has at most 53 bits, and all of them unless the
exponent is the least one. -/
theorem exists_exponent (hnum : 0 < num) (hden : 0 < den) : ∃ q : ℤ, -1074 ≤ q ∧ (num / den : ℚ) < 2 ^ 53 * 2 ^ q ∧
    (q = -1074 ∨ (2 ^ 52 * 2 ^ q : ℚ) ≤ num / den) ∧
    nearest num den =
      let m := roundDiv (num * 2 ^ (-q).toNat) (den * 2 ^ q.toNat)
      if m = 2 ^ 53 then (2 ^ 52, q + 1) else (m, q) := by
  obtain ⟨hlow, hhigh⟩ := guess_bounds hnum hden
  unfold nearest
  generalize (num.log2 : ℤ) - den.log2 - 53 = guess at hlow hhigh
  simp only [Nat.pow_eq, decide_eq_true_iff]
  have hfits : num * 2 ^ (-guess).toNat < 2 ^ 53 * (den * 2 ^ guess.toNat) ↔ (num / den : ℚ) < 2 ^ 53 * 2 ^ guess := by
    exact_mod_cast lt_scaled_iff hden (2 ^ 53) guess
  obtain ⟨q, hq, hlow, hhigh⟩ : ∃ q : ℤ,
      (if num * 2 ^ (-guess).toNat < 2 ^ 53 * (den * 2 ^ guess.toNat) then guess else guess + 1) = q ∧
      (2 ^ 52 * 2 ^ q : ℚ) ≤ num / den ∧ (num / den : ℚ) < 2 ^ 53 * 2 ^ q := by
    split
    · rename_i h
      exact ⟨guess, rfl, hlow, hfits.1 h⟩
    · rename_i h
      refine ⟨guess + 1, rfl, ?_, hhigh⟩
      rw [hfits, not_lt] at h
      rw [zpow_add_one₀ two_ne_zero]
      linarith
  rw [hq]
  by_cases hleast : q < -1074
  · refine ⟨-1074, le_rfl, hhigh.trans ?_, .inl rfl, by rw [if_pos hleast]⟩
    gcongr
    exact one_lt_two
  · exact ⟨q, not_lt.1 hleast, hhigh, .inr hlow, by rw [if_neg hleast]⟩

/-- The rounding interval of a float, in quarters of its unit. -/
theorem holds_mul_iff {y : ℚ} : (target m q).Holds (y * 2 ^ (q - 2)) ↔
    if m % 2 = 0 then (target m q).low ≤ y ∧ y ≤ 4 * m + 2 else (target m q).low < y ∧ y < 4 * m + 2 := by
  have hu : (0 : ℚ) < 2 ^ (q - 2) := by positivity
  have hhigh : ((target m q).high : ℚ) = 4 * m + 2 := by simp [target]
  have hclosed : (target m q).closed = decide (m % 2 = 0) := rfl
  have hq : (target m q).q = q - 2 := rfl
  simp only [Shortest.Target.Holds, hclosed, hhigh, hq, decide_eq_true_iff, mul_le_mul_iff_left₀ hu,
    mul_lt_mul_iff_left₀ hu]

/-- **The computed float is the nearest one**: the quotient lies in its rounding interval. -/
theorem holds_nearest (hnum : 0 < num) (hden : 0 < den) (h : nearest num den = (m, q)) :
    (target m q).Holds (num / den) ∧ m < 2 ^ 53 ∧ -1074 ≤ q ∧ (m < 2 ^ 52 → q = -1074) := by
  obtain ⟨q', hleast, hlt, hfull, heq⟩ := exists_exponent hnum hden
  rw [heq] at h
  obtain ⟨m', hm'⟩ : ∃ m', m' = roundDiv (num * 2 ^ (-q').toNat) (den * 2 ^ q'.toNat) := ⟨_, rfl⟩
  obtain ⟨⟨hlow, hhigh⟩, hodd⟩ := roundDiv_scaled num hden q' hm'
  simp only [← hm'] at h
  -- `y` is the quotient in quarters of the unit
  have hu : (0 : ℚ) < 2 ^ (q' - 2) := by positivity
  have hunit : (2 ^ q' : ℚ) = 4 * 2 ^ (q' - 2) := by
    rw [zpow_sub₀ two_ne_zero]
    ring
  obtain ⟨y, hy⟩ : ∃ y : ℚ, (num / den : ℚ) = y * 2 ^ (q' - 2) := ⟨num / den / 2 ^ (q' - 2), by field_simp⟩
  rw [hunit, ← mul_assoc] at hlt hfull
  simp only [hy, mul_le_mul_iff_left₀ hu, mul_lt_mul_iff_left₀ hu] at hlow hhigh hodd hlt hfull
  split at h
  · rename_i hcarry
    cases h
    refine ⟨?_, by norm_num, by omega, by omega⟩
    have hhalf : y * 2 ^ (q' - 2) = y / 2 * 2 ^ (q' + 1 - 2) := by
      rw [show q' + 1 - 2 = q' - 2 + 1 by ring, zpow_add_one₀ two_ne_zero]
      ring
    have hends : (target (2 ^ 52) (q' + 1)).low = 2 ^ 54 - 1 := by
      simp only [target, Nat.pow_eq]
      rw [if_pos ⟨trivial, by omega⟩]
      norm_num
    rw [hcarry] at hlow
    rw [hy, hhalf, holds_mul_iff, if_pos (by norm_num), hends]
    push_cast at *
    constructor <;> linarith
  · rename_i hcarry
    obtain ⟨rfl, rfl⟩ := Prod.mk.inj h
    have hm53 : m' < 2 ^ 53 := by
      have : (4 * m' - 2 : ℚ) < 2 ^ 53 * 4 := hlow.trans_lt hlt
      have : (m' : ℚ) < (2 ^ 53 + 1 : ℕ) := by push_cast; linarith
      have : m' < 2 ^ 53 + 1 := by exact_mod_cast this
      omega
    have hm52 : 2 ^ 52 * 4 ≤ y → 2 ^ 52 ≤ m' := by
      intro h
      have : ((2 ^ 52 : ℕ) : ℚ) < (m' + 1 : ℕ) := by push_cast; linarith
      have : 2 ^ 52 < m' + 1 := by exact_mod_cast this
      omega
    have hpos : 0 ≤ y := by
      have : 0 ≤ y * 2 ^ (q' - 2) := hy ▸ by positivity
      exact nonneg_of_mul_nonneg_left this hu
    refine ⟨?_, hm53, hleast, fun h => hfull.resolve_right fun h' => ?_⟩
    · rw [hy, holds_mul_iff]
      have hend : (target m' q').low ≤ y ∧ (m' % 2 = 1 → (target m' q').low < y) := by
        by_cases hpower : m' = 2 ^ 52 ∧ -1074 < q'
        · -- below a power of two the neighbour is half as far, but the quotient is not below it
          have hquotient := hfull.resolve_left (by omega)
          have hlow' : (target m' q').low = 2 ^ 54 - 1 := by
            simp only [target, Nat.pow_eq, if_pos hpower]
            rw [hpower.1]
            norm_num
          rw [hlow']
          push_cast
          exact ⟨by linarith, fun _ => by linarith⟩
        · have hlow' : (target m' q').low = 4 * m' - 2 := by
            simp only [target, Nat.pow_eq, if_neg hpower]
          rw [hlow']
          rcases Nat.eq_zero_or_pos m' with rfl | hm
          · exact ⟨by simpa using hpos, fun h => by omega⟩
          · rw [Nat.cast_sub (by omega)]
            push_cast
            exact ⟨hlow, fun h => (hodd h).1⟩
      split
      · exact ⟨hend.1, hhigh⟩
      · rename_i hparity
        have hparity : m' % 2 = 1 := by omega
        exact ⟨hend.2 hparity, (hodd hparity).2⟩
    · have := hm52 h'
      omega

theorem nearest_eq (hnum : 0 < num) (hden : 0 < den) (hn : Normal m q) (hm : 0 < m) (h : (target m q).Holds (num / den)) :
    nearest num den = (m, q) := by
  obtain ⟨⟨m', q'⟩, hnearest⟩ : ∃ r, nearest num den = r := ⟨_, rfl⟩
  obtain ⟨h', hlt, hleast, hfull⟩ := holds_nearest hnum hden hnearest
  have hn' : Normal m' q' := by
    refine ⟨hlt, hleast, ?_, hfull⟩
    by_cases hsmall : m' < 2 ^ 52
    · have := hfull hsmall
      omega
    · by_contra hlarge
      have hmost := hn.most
      exact Shortest.holds_lower_exponent hn (not_lt.1 hsmall) (by omega) h h'
  rcases Nat.eq_zero_or_pos m' with rfl | hm'
  · -- only numbers up to half of the least float are rounded to zero
    obtain rfl : q' = -1074 := hfull (by norm_num)
    rcases hn.least.lt_or_eq with hq | hq
    · exact (Shortest.holds_lower_exponent hn' (hn.full_of_lt hn' hq) hq h' h).elim
    · subst hq
      exact (Shortest.holds_same_exponent hm hm h' h).elim
  · obtain ⟨rfl, rfl⟩ := Shortest.holds_unique hn hn' hm hm' h h'
    exact hnearest

end

/-! ### Decimals -/

section

variable {digits : ℕ} {exponent : ℤ}

theorem le_of_holds (hn : Normal m q) {x : ℚ} (h : (target m q).Holds x) : x ≤ 2 ^ 1025 := by
  have hm : ((target m q).high : ℚ) ≤ 2 ^ 56 := by
    have hlt := hn.lt
    have : (target m q).high ≤ 2 ^ 56 := by
      rw [Shortest.target_high]
      omega
    exact_mod_cast this
  have hq : (2 ^ (target m q).q : ℚ) ≤ 2 ^ (969 : ℤ) := by
    have hmost := hn.most
    refine zpow_le_zpow_right₀ one_le_two ?_
    change q - 2 ≤ 969
    omega
  calc x ≤ (target m q).high * 2 ^ (target m q).q := h.ends.2
    _ ≤ 2 ^ 56 * 2 ^ (969 : ℤ) := by gcongr
    _ = 2 ^ 1025 := by
      rw [show (969 : ℤ) = (969 : ℕ) from rfl, zpow_natCast, ← pow_add]

theorem size_le (hdigits : digits ≠ 0) (hexponent : -400 ≤ exponent)
    (h : (digits * 10 ^ exponent : ℚ) ≤ 2 ^ 1025) : (digits.log2 : ℤ) * 30103 / 100000 + exponent ≤ 400 := by
  have hlog : (2 ^ digits.log2 : ℚ) ≤ digits := by exact_mod_cast Nat.log2_self_le hdigits
  rcases le_total 0 exponent with he | he
  · obtain ⟨n, rfl⟩ := Int.eq_ofNat_of_zero_le he
    rw [zpow_natCast] at h
    -- ten is at least the third power of two
    have hpow : (2 ^ (digits.log2 + 3 * n) : ℚ) ≤ 2 ^ 1025 := by
      calc (2 ^ (digits.log2 + 3 * n) : ℚ) = 2 ^ digits.log2 * 8 ^ n := by rw [pow_add, pow_mul]; norm_num
        _ ≤ digits * 10 ^ n := by gcongr; norm_num
        _ ≤ _ := h
    have := (pow_le_pow_iff_right₀ (one_lt_two (α := ℚ))).1 hpow
    omega
  · obtain ⟨n, rfl⟩ : ∃ n : ℕ, exponent = -n := ⟨exponent.natAbs, by omega⟩
    rw [zpow_neg, zpow_natCast, ← div_eq_mul_inv, div_le_iff₀ (by positivity)] at h
    -- the third power of ten is at most the tenth of two
    have hpow : (2 ^ (3 * digits.log2) : ℚ) ≤ 2 ^ (3075 + 10 * n) := by
      calc (2 ^ (3 * digits.log2) : ℚ) = (2 ^ digits.log2) ^ 3 := by rw [← pow_mul, mul_comm]
        _ ≤ (2 ^ 1025 * 10 ^ n) ^ 3 := by gcongr; exact hlog.trans h
        _ = 2 ^ 3075 * (10 ^ 3) ^ n := by rw [mul_pow, ← pow_mul, ← pow_mul, ← pow_mul, mul_comm n]
        _ ≤ 2 ^ 3075 * 1024 ^ n := by gcongr; norm_num
        _ = 2 ^ (3075 + 10 * n) := by rw [pow_add, pow_mul]; norm_num
    have := (pow_le_pow_iff_right₀ (one_lt_two (α := ℚ))).1 hpow
    omega

/-- **A decimal in the rounding interval of a float is read as the float.** -/
theorem shape_ofDecimal (negative : Bool) (hn : Normal m q) (hm : 0 < m) (hdigits : digits ≠ 0)
    (hexponent : -400 ≤ exponent) (h : (target m q).Holds (digits * 10 ^ exponent)) :
    shape (ofDecimal negative digits exponent) = .finite negative m q := by
  have hsize := size_le hdigits hexponent (le_of_holds hn h)
  have hsize' : ¬(digits.log2 : ℤ) * 30103 / 100000 + exponent < -400 := by omega
  rw [ofDecimal, if_neg hdigits, if_neg (not_lt.2 hsize), if_neg hsize', Nat.pow_eq, Nat.pow_eq]
  have hnum : digits * 10 ^ exponent.toNat ≠ 0 := by positivity
  refine shape_ofRatio negative hnum hn (nearest_eq (Nat.pos_of_ne_zero hnum) (by positivity) hn hm ?_)
  rw [Shortest.zpow_eq_div (by norm_num), ← mul_div_assoc] at h
  exact_mod_cast h

theorem bitsOfRatio_of_le (negative : Bool) {k num : ℕ} (hk : 1024 ≤ k) (h : Nat.pow 2 k ≤ num) :
    bitsOfRatio negative num 1 = (if negative then 2 ^ 63 else 0) + 2047 * 2 ^ 52 := by
  rw [Nat.pow_eq] at h
  have hpos : 0 < num := lt_of_lt_of_le (by positivity) h
  obtain ⟨q, -, hlt, -, hnearest⟩ := exists_exponent hpos one_pos
  have hq : 971 < q := by
    by_contra hle
    rw [Nat.cast_one, div_one] at hlt
    refine lt_irrefl (num : ℚ) ?_
    calc (num : ℚ) < 2 ^ 53 * 2 ^ q := hlt
      _ ≤ 2 ^ 53 * 2 ^ (971 : ℤ) := by gcongr; exacts [one_le_two, not_lt.1 hle]
      _ = 2 ^ 1024 := by rw [show (971 : ℤ) = (971 : ℕ) from rfl, zpow_natCast, ← pow_add]
      _ ≤ 2 ^ k := by gcongr; exact one_le_two
      _ ≤ num := by exact_mod_cast h
  obtain ⟨m, q', heq, hq'⟩ : ∃ m q', nearest num 1 = (m, q') ∧ 971 < q' := by
    rw [hnearest]
    simp only
    split
    · exact ⟨_, _, rfl, by omega⟩
    · exact ⟨_, _, rfl, hq⟩
  rw [bitsOfRatio, if_neg hpos.ne', heq]
  simp only [Nat.pow_eq, if_pos hq']

/-- Digits alone are rounded as the quotient by one, those of too many places too. -/
theorem ofDecimal_zero (negative : Bool) (digits : ℕ) : ofDecimal negative digits 0 = ofRatio negative digits 1 := by
  rw [ofDecimal]
  split
  · rename_i h
    rw [h]
  · rename_i hdigits
    split
    · rename_i hsize
      obtain ⟨k, hk⟩ : ∃ k, 1024 = k := ⟨_, rfl⟩
      rw [hk, ofRatio, ofRatio, bitsOfRatio_of_le negative hk.le le_rfl,
        bitsOfRatio_of_le negative (k := digits.log2) (by omega) (Nat.log2_self_le hdigits)]
    · rw [if_neg (by omega)]
      simp

end

end Binary64

namespace Shortest

theorem exponent_search (t : Target) (first : ℤ) (fuel n : ℕ) (h : n + fuel ≤ 18) :
    first - 16 ≤ (t.search first fuel n).exponent := by
  induction fuel generalizing n with
  | zero => exact le_rfl
  | succ fuel ih =>
    rw [Target.search]
    split
    · change first - 16 ≤ first - n + 1
      omega
    · exact ih (n + 1) (by omega)

theorem exponent_strip (fuel : ℕ) (d : Digits) : d.exponent ≤ (strip fuel d).exponent := by
  induction fuel generalizing d with
  | zero => exact le_rfl
  | succ fuel ih =>
    rw [strip]
    split
    · exact le_trans (by simp) (ih _)
    · exact le_rfl

theorem exponent_digits (hn : Binary64.Normal m q) : -400 ≤ (digits m q).exponent := by
  have hfirst : -340 ≤ (target m q).firstExponent := by
    have hleast := hn.least
    have hq : (target m q).q = q - 2 := rfl
    unfold Target.firstExponent
    simp only
    split_ifs <;> omega
  rw [digits]
  have := exponent_search (target m q) (target m q).firstExponent 17 1 le_rfl
  have := exponent_strip 20 ((target m q).search (target m q).firstExponent 17 1)
  omega

end Shortest

end OpGraph
