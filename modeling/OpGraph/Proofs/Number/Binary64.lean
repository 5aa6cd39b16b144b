import Mathlib
import OpGraph.Number.Binary64

/-!
Finite floats by their signs, significands and exponents: which pairs occur, and that they determine the float.
-/

namespace OpGraph.Binary64

variable {negative : Bool} {x : Float} {m : ℕ} {n q : ℤ}

/-- The significands and exponents of finite floats: a significand has 53 bits unless the exponent is the least one. -/
structure Normal (m : ℕ) (q : ℤ) : Prop where
  lt : m < 2 ^ 53
  least : -1074 ≤ q
  most : q ≤ 971
  full : m < 2 ^ 52 → q = -1074

theorem Normal.full_of_lt {m' : ℕ} {q' : ℤ} (hn' : Normal m' q') (hn : Normal m q) (hlt : q < q') : 2 ^ 52 ≤ m' := by
  have := hn.least
  have := hn'.full
  omega

theorem toBits_lt (x : Float) : x.toBits.toNat < 2 ^ 64 :=
  x.toBits.toNat_lt

theorem unpackExponent_eq_ones_iff {b : UInt64} :
    @Float.Model.UnpackedFloat.unpackExponent Float.Model.Format.binary64 b.toBitVec = -1#11 ↔
      b.toNat / 2 ^ 52 % 2 ^ 11 = 2047 := by
  rw [Float.Model.UnpackedFloat.unpackExponent_def, ← BitVec.toNat_inj, BitVec.extractLsb'_toNat,
    Nat.shiftRight_eq_div_pow]
  rfl

theorem isFinite_iff : x.isFinite = true ↔ x.toBits.toNat / 2 ^ 52 % 2 ^ 11 ≠ 2047 := by
  have hunpack : x.isFinite = Float.Model.UnpackedFloat.isFinite (Float.Model.UnpackedFloat.unpack
      Float.Model.Format.binary64 x.toBits.toBitVec) := rfl
  rw [hunpack, ne_eq, ← unpackExponent_eq_ones_iff]
  unfold Float.Model.UnpackedFloat.unpack
  simp only
  by_cases hones : @Float.Model.UnpackedFloat.unpackExponent Float.Model.Format.binary64 x.toBits.toBitVec = -1#11
  · rw [if_pos hones]
    split <;> simp [Float.Model.UnpackedFloat.isFinite, hones]
  · rw [if_neg hones]
    refine ⟨fun _ => hones, fun _ => ?_⟩
    split
    · split <;> rfl
    · rfl

theorem toBits_ofBits {b : UInt64} (h : b.toNat / 2 ^ 52 % 2 ^ 11 ≠ 2047) : (Float.ofBits b).toBits = b := by
  have hnan : @Float.Model.UnpackedFloat.isNaNBits Float.Model.Format.binary64 b.toBitVec = false :=
    decide_eq_false fun hones => h (unpackExponent_eq_ones_iff.1 hones.1)
  have hpack := @Float.Model.UnpackedFloat.pack_unpack Float.Model.Format.binary64 b.toBitVec (by decide)
  rw [hnan, if_neg Bool.false_ne_true] at hpack
  exact congrArg UInt64.ofBitVec hpack

theorem exists_shape (h : x.isFinite = true) : ∃ negative m q, shape x = .finite negative m q ∧ Normal m q := by
  have he := isFinite_iff.1 h
  unfold shape shapeOfBits
  simp only [Nat.pow_eq, if_neg he]
  split
  · exact ⟨_, _, _, rfl, by omega, by omega, by omega, by omega⟩
  · refine ⟨_, _, _, rfl, by omega, by omega, ?_, by omega⟩
    have : x.toBits.toNat / 2 ^ 52 % 2 ^ 11 < 2 ^ 11 := Nat.mod_lt _ (by norm_num)
    omega

theorem shape_inj {y : Float} (hx : shape x = .finite negative m q) (hy : shape y = .finite negative m q) : x = y := by
  have hbits : x.toBits.toNat = y.toBits.toNat := by
    have hxl := toBits_lt x
    have hyl := toBits_lt y
    unfold shape shapeOfBits at hx hy
    generalize x.toBits.toNat = a at hx hxl
    generalize y.toBits.toNat = b at hy hyl
    simp only [Nat.pow_eq] at hx hy
    split at hx
    · split at hx <;> cases hx
    split at hy
    · split at hy <;> cases hy
    split at hx <;> split at hy <;>
      · simp only [FloatShape.finite.injEq] at hx hy
        obtain ⟨hxs, hxm, hxq⟩ := hx
        obtain ⟨hys, hym, hyq⟩ := hy
        have hs : a / 2 ^ 63 % 2 = 1 ↔ b / 2 ^ 63 % 2 = 1 := by rw [← decide_eq_decide, hxs, hys]
        omega
  exact Float.toBits_inj.1 (UInt64.toNat_inj.1 hbits)

/-! ### Zeros -/

/-- A float without the sign that a zero may have. -/
def unsigned (x : Float) : Float :=
  if isNegativeZero x then Float.ofBits 0 else x

theorem toBits_zero : (Float.ofBits 0).toBits.toNat = 0 := by
  rw [toBits_ofBits (by decide)]
  rfl

theorem unsigned_of_zero (h : shape x = .finite negative 0 q) : unsigned x = Float.ofBits 0 := by
  unfold unsigned isNegativeZero
  split
  · rfl
  · rename_i hne
    have hlt := toBits_lt x
    simp only [Nat.pow_eq, decide_eq_true_eq] at hne
    have hbits : x.toBits.toNat = 0 := by
      unfold shape shapeOfBits at h
      generalize x.toBits.toNat = a at h hne hlt
      simp only [Nat.pow_eq] at h
      split at h
      · split at h <;> cases h
      split at h <;> simp only [FloatShape.finite.injEq] at h <;> omega
    exact Float.toBits_inj.1 (UInt64.toNat_inj.1 (hbits.trans toBits_zero.symm))

theorem shape_of_isNegativeZero (h : isNegativeZero x = true) : shape x = .finite true 0 (-1074) := by
  unfold isNegativeZero at h
  rw [shape, of_decide_eq_true h]
  rfl

theorem unsigned_of_pos (h : shape x = .finite negative m q) (hm : 0 < m) : unsigned x = x := by
  refine if_neg fun hzero => ?_
  rw [shape_of_isNegativeZero hzero, FloatShape.finite.injEq] at h
  omega

theorem shape_zero : shape (Float.ofBits 0) = .finite false 0 (-1074) := by
  rw [shape, toBits_zero]
  rfl

theorem unsigned_unsigned (x : Float) : unsigned (unsigned x) = unsigned x := by
  unfold unsigned
  split
  · have : isNegativeZero (Float.ofBits 0) = false := by
      rw [isNegativeZero, toBits_zero]
      rfl
    rw [this, if_neg Bool.false_ne_true]
  · rfl

theorem isFinite_unsigned (h : x.isFinite = true) : (unsigned x).isFinite = true := by
  unfold unsigned
  split
  · rw [isFinite_iff, toBits_zero]
    decide
  · exact h

/-! ### Integers -/

/-- The integer that the float nearest to an integer is. -/
def rounded (n : ℤ) : ℤ :=
  (toInt? (ofInt n)).getD 0

theorem toInt?_unsigned (x : Float) : toInt? (unsigned x) = toInt? x := by
  unfold unsigned
  split
  · rename_i h
    rw [toInt?, toInt?, shape_of_isNegativeZero h, shape_zero]
    simp only [Nat.zero_mod, Nat.cast_zero, Int.zero_mul, Int.zero_ediv, Int.neg_zero, ite_self]
  · rfl

theorem rounded_eq_of_unsigned {n' : ℤ} (h : unsigned (ofInt n) = unsigned (ofInt n')) : rounded n = rounded n' := by
  rw [rounded, rounded, ← toInt?_unsigned, h, toInt?_unsigned]

theorem nearest_of_lt {num : ℕ} (hpos : 0 < num) (hlt : num < 2 ^ 53) : ∃ (m : ℕ) (q : ℤ), nearest num 1 = (m, q) ∧
    2 ^ 52 ≤ m ∧ m < 2 ^ 53 ∧ -52 ≤ q ∧ q ≤ 0 ∧ num * 2 ^ (-q).toNat = m := by
  have hself := Nat.log2_self_le hpos.ne'
  have hsucc := Nat.lt_log2_self (n := num)
  have hlog : num.log2 ≤ 52 := by
    have := (Nat.log2_lt hpos.ne').2 hlt
    omega
  -- the significand fills 53 bits
  have hlow : 2 ^ 52 ≤ num * 2 ^ (52 - num.log2) := by
    calc 2 ^ 52 = 2 ^ num.log2 * 2 ^ (52 - num.log2) := by rw [← pow_add]; congr 1; omega
      _ ≤ _ := Nat.mul_le_mul_right _ hself
  have hhigh : num * 2 ^ (52 - num.log2) < 2 ^ 53 := by
    calc num * 2 ^ (52 - num.log2) < 2 ^ (num.log2 + 1) * 2 ^ (52 - num.log2) :=
          Nat.mul_lt_mul_of_pos_right hsucc (by positivity)
      _ = 2 ^ 53 := by rw [← pow_add]; congr 1; omega
  refine ⟨num * 2 ^ (52 - num.log2), (num.log2 : ℤ) - 52, ?_, hlow, hhigh, by omega, by omega, ?_⟩
  · have hfits : ¬num * 2 ^ (-((num.log2 : ℤ) - 53)).toNat < 2 ^ 53 * 2 ^ ((num.log2 : ℤ) - 53).toNat := by
      rw [show (-((num.log2 : ℤ) - 53)).toNat = 52 - num.log2 + 1 by omega,
        show ((num.log2 : ℤ) - 53).toNat = 0 by omega, pow_succ, ← mul_assoc]
      omega
    have hround : ∀ n, roundDiv n 1 = n := fun n => by simp [roundDiv, Nat.mod_one]
    have hq : (num.log2 : ℤ) - 53 + 1 = num.log2 - 52 := by omega
    unfold nearest
    simp only [show Nat.log2 1 = 0 from rfl, Nat.pow_eq, Nat.cast_zero, sub_zero, one_mul, decide_eq_true_iff,
      if_neg hfits, hq, if_neg (show ¬(num.log2 : ℤ) - 52 < -1074 by omega)]
    rw [show (-((num.log2 : ℤ) - 52)).toNat = 52 - num.log2 by omega, show ((num.log2 : ℤ) - 52).toNat = 0 by omega,
      pow_zero, hround, if_neg hhigh.ne]
  · rw [show (-((num.log2 : ℤ) - 52)).toNat = 52 - num.log2 by omega]

theorem shape_ofRatio {num den : ℕ} (negative : Bool) (hnum : num ≠ 0) (hn : Normal m q)
    (hnearest : nearest num den = (m, q)) : shape (ofRatio negative num den) = .finite negative m q := by
  obtain ⟨hlt, hleast, hmost, hfull⟩ := hn
  obtain ⟨b, hb⟩ : ∃ b, b = bitsOfRatio negative num den := ⟨_, rfl⟩
  obtain ⟨s, hs⟩ : ∃ s, s = if negative then 2 ^ 63 else 0 := ⟨_, rfl⟩
  -- the fields of the exponent and of the fraction
  obtain ⟨e, f, hbits, he, hf, hshape⟩ : ∃ e f : ℕ, b = s + e * 2 ^ 52 + f ∧ e ≤ 2046 ∧ f < 2 ^ 52 ∧
      (e = 0 ∧ m = f ∧ q = -1074 ∨ e ≠ 0 ∧ m = f + 2 ^ 52 ∧ q = (e : ℤ) - 1075) := by
    rw [hb, bitsOfRatio, if_neg hnum, hnearest]
    simp only [Nat.pow_eq, if_neg (show ¬971 < q by omega), ← hs]
    split
    · exact ⟨0, m, by omega, by omega, ‹_›, .inl ⟨rfl, rfl, hfull ‹_›⟩⟩
    · exact ⟨(q + 1075).toNat, m - 2 ^ 52, rfl, by omega, by omega, .inr (by omega)⟩
  have hsign : s = 2 ^ 63 ∧ negative = true ∨ s = 0 ∧ negative = false := by
    cases negative
    · exact .inr ⟨hs, rfl⟩
    · exact .inl ⟨hs, rfl⟩
  have hexponent : b / 2 ^ 52 % 2 ^ 11 = e := by omega
  have hfraction : b % 2 ^ 52 = f := by omega
  have hnegative : decide (b / 2 ^ 63 % 2 = 1) = negative := by
    rcases hsign with ⟨hs, rfl⟩ | ⟨hs, rfl⟩
    · exact decide_eq_true (by omega)
    · exact decide_eq_false (by omega)
  have hnat : (UInt64.ofNat b).toNat = b := UInt64.toNat_ofNat_of_lt (show b < 2 ^ 64 by omega)
  rw [shape, ofRatio, ← hb, toBits_ofBits (by rw [hnat]; omega), hnat, shapeOfBits]
  simp only [Nat.pow_eq, hexponent, hfraction, hnegative, if_neg (show ¬e = 2047 by omega)]
  rcases hshape with ⟨he, rfl, rfl⟩ | ⟨he, rfl, rfl⟩
  · rw [if_pos he]
  · rw [if_neg he]

theorem shape_ofInt (hn : n ≠ 0) (h : n.natAbs < 2 ^ 53) : ∃ (m : ℕ) (q : ℤ),
    shape (ofInt n) = .finite (decide (n < 0)) m q ∧ q ≤ 0 ∧ n.natAbs * 2 ^ (-q).toNat = m := by
  obtain ⟨m, q, hnearest, hlow, hhigh, hleast, hmost, hvalue⟩ := nearest_of_lt (Int.natAbs_pos.2 hn) h
  refine ⟨m, q, shape_ofRatio _ (Int.natAbs_ne_zero.2 hn) ?_ hnearest, hmost, hvalue⟩
  exact ⟨hhigh, by omega, by omega, by omega⟩

theorem ofInt_zero : ofInt 0 = Float.ofBits 0 :=
  rfl

/-- Integers of 53 bits are floats. -/
theorem toInt?_ofInt (h : n.natAbs < 2 ^ 53) : toInt? (ofInt n) = some n := by
  rcases eq_or_ne n 0 with rfl | hn
  · rw [ofInt_zero, toInt?, shape_zero]
    simp only [Nat.zero_mod, if_true, Nat.cast_zero, Int.zero_mul, Int.zero_ediv, Bool.false_eq_true, if_false]
  obtain ⟨m, q, hshape, hq, rfl⟩ := shape_ofInt hn h
  have hquotient : ((n.natAbs * 2 ^ (-q).toNat : ℕ) : ℤ) * 2 ^ q.toNat / 2 ^ (-q).toNat = n.natAbs := by
    rw [show q.toNat = 0 by omega, pow_zero, mul_one]
    push_cast
    rw [Int.mul_ediv_cancel _ (by positivity)]
  rw [toInt?, hshape]
  simp only [Nat.pow_eq, Nat.cast_pow, Nat.cast_ofNat, Nat.mul_mod_left, if_true, hquotient, decide_eq_true_iff,
    Option.some.injEq]
  split <;> omega

theorem rounded_of_natAbs_lt (h : n.natAbs < 2 ^ 53) : rounded n = n := by
  rw [rounded, toInt?_ofInt h, Option.getD_some]

end OpGraph.Binary64
