import OpGraph.Number.Shortest
import OpGraph.Proofs.Number.Binary64

/-!
The text of a float determines the float, but for the sign of a zero. The digits that are written lie in the interval of
the numbers that round to the float, and the intervals of different floats do not meet; the text determines the number
that the digits stand for.
-/

namespace OpGraph.Shortest

variable {t : Target} {m m' : ℕ} {x : ℚ} {p q : ℤ}

/-! ### Grids -/

theorem zpow_eq_div {b : ℚ} (hb : b ≠ 0) (q : ℤ) : b ^ q = b ^ q.toNat / b ^ (-q).toNat := by
  rw [← zpow_natCast, ← zpow_natCast, ← zpow_sub₀ hb]
  congr 1
  omega

theorem leGrid_iff (a : ℕ) (q : ℤ) (s : ℕ) (p : ℤ) : leGrid a q s p = true ↔ (a * 2 ^ q : ℚ) ≤ s * 10 ^ p := by
  rw [zpow_eq_div two_ne_zero, zpow_eq_div (by norm_num : (10 : ℚ) ≠ 0), ← mul_div_assoc, ← mul_div_assoc,
    div_le_div_iff₀ (by positivity) (by positivity), leGrid, decide_eq_true_iff]
  exact_mod_cast Iff.rfl

theorem gridLe_iff (s : ℕ) (p : ℤ) (a : ℕ) (q : ℤ) : gridLe s p a q = true ↔ (s * 10 ^ p : ℚ) ≤ a * 2 ^ q := by
  rw [zpow_eq_div two_ne_zero, zpow_eq_div (by norm_num : (10 : ℚ) ≠ 0), ← mul_div_assoc, ← mul_div_assoc,
    div_le_div_iff₀ (by positivity) (by positivity), gridLe, decide_eq_true_iff]
  exact_mod_cast Iff.rfl

/-! ### Rounding intervals -/

/-- A number rounds to the float of a target: it lies between the ends, and may be one of them if they are closed. -/
def Target.Holds (t : Target) (x : ℚ) : Prop :=
  if t.closed then t.low * 2 ^ t.q ≤ x ∧ x ≤ t.high * 2 ^ t.q else t.low * 2 ^ t.q < x ∧ x < t.high * 2 ^ t.q

theorem Target.accepts_iff (t : Target) (p : ℤ) (s : ℕ) : t.accepts p s = true ↔ t.Holds (s * 10 ^ p) := by
  unfold accepts Holds
  split
  · rw [Bool.and_eq_true, leGrid_iff, gridLe_iff]
  · rw [Bool.and_eq_true, Bool.not_eq_true', Bool.not_eq_true', ← Bool.not_eq_true, ← Bool.not_eq_true, leGrid_iff,
      gridLe_iff, not_le, not_le]

theorem Target.Holds.ends (h : t.Holds x) : t.low * 2 ^ t.q ≤ x ∧ x ≤ t.high * 2 ^ t.q := by
  unfold Holds at h
  split at h
  · exact h
  · exact ⟨h.1.le, h.2.le⟩

theorem Target.holds_of_lt (h : t.low * 2 ^ t.q < x) (h' : x < t.high * 2 ^ t.q) : t.Holds x := by
  unfold Holds
  split
  · exact ⟨h.le, h'.le⟩
  · exact ⟨h, h'⟩

theorem target_high (m : ℕ) (q : ℤ) : (target m q).high = 4 * m + 2 :=
  rfl

theorem target_low (hm : 0 < m) (q : ℤ) : 4 * m - 2 ≤ (target m q).low ∧ 2 ≤ (target m q).low ∧
    (target m q).low < 4 * m ∧ ((target m q).low = 4 * m - 2 ∨ m = 2 ^ 52) := by
  unfold target
  simp only [Nat.pow_eq]
  split <;> omega

/-- Where one interval ends before another begins, and one of the two that meet there is open, no number is in both. -/
theorem Target.Holds.false_of_le {t' : Target} (h : t.Holds x) (h' : t'.Holds x)
    (hle : (t.high * 2 ^ t.q : ℚ) ≤ t'.low * 2 ^ t'.q)
    (hopen : t.closed = true → t'.closed = true → (t.high * 2 ^ t.q : ℚ) < t'.low * 2 ^ t'.q) : False := by
  have hends := h.ends
  have hends' := h'.ends
  by_cases hc : t.closed = true
  · by_cases hc' : t'.closed = true
    · linarith [hopen hc hc']
    · rw [Holds, if_neg hc'] at h'
      linarith
  · rw [Holds, if_neg hc] at h
    linarith

theorem holds_same_exponent (hm' : 0 < m') (hlt : m < m') (h : (target m q).Holds x) (h' : (target m' q).Holds x) :
    False := by
  have hu : (0 : ℚ) < 2 ^ (q - 2) := by positivity
  obtain ⟨hlow, -, -, -⟩ := target_low hm' q
  refine h.false_of_le h' ?_ fun hc hc' => ?_
  · have : (target m q).high ≤ (target m' q).low := by
      rw [target_high]
      omega
    exact mul_le_mul_of_nonneg_right (by exact_mod_cast this) hu.le
  · have heven : m % 2 = 0 := by simpa [target] using hc
    have heven' : m' % 2 = 0 := by simpa [target] using hc'
    have : (target m q).high < (target m' q).low := by
      rw [target_high]
      omega
    exact mul_lt_mul_of_pos_right (by exact_mod_cast this) hu

theorem holds_lower_exponent {q' : ℤ} (hn : Binary64.Normal m q) (hfull : 2 ^ 52 ≤ m') (hlt : q < q')
    (h : (target m q).Holds x) (h' : (target m' q').Holds x) : False := by
  have hu : (0 : ℚ) < 2 ^ (q - 2) := by positivity
  have hleast := hn.least
  -- a step to the next exponent at least doubles the unit
  have hdouble : (2 : ℚ) * 2 ^ (q - 2) ≤ 2 ^ (q' - 2) := by
    rw [mul_comm, ← zpow_add_one₀ two_ne_zero]
    exact zpow_le_zpow_right₀ one_le_two (by omega)
  have hscaled : ((2 * (target m' q').low : ℕ) : ℚ) * 2 ^ (q - 2) ≤ (target m' q').low * 2 ^ (q' - 2) := by
    push_cast
    calc (2 * (target m' q').low : ℚ) * 2 ^ (q - 2) = (target m' q').low * (2 * 2 ^ (q - 2)) := by ring
      _ ≤ _ := mul_le_mul_of_nonneg_left hdouble (by positivity)
  have hlow' : 2 ^ 54 - 1 ≤ (target m' q').low := by
    unfold target
    simp only [Nat.pow_eq]
    split <;> omega
  have hlt53 := hn.lt
  refine h.false_of_le h' (le_trans ?_ hscaled) fun hc hc' => lt_of_lt_of_le ?_ hscaled
  · have : (target m q).high ≤ 2 * (target m' q').low := by
      rw [target_high]
      omega
    exact mul_le_mul_of_nonneg_right (by exact_mod_cast this) hu.le
  · have heven : m % 2 = 0 := by simpa [target] using hc
    have : (target m q).high < 2 * (target m' q').low := by
      rw [target_high]
      omega
    exact mul_lt_mul_of_pos_right (by exact_mod_cast this) hu

theorem holds_unique {q' : ℤ} (hn : Binary64.Normal m q) (hn' : Binary64.Normal m' q') (hm : 0 < m) (hm' : 0 < m')
    (h : (target m q).Holds x) (h' : (target m' q').Holds x) : m = m' ∧ q = q' := by
  rcases lt_trichotomy q q' with hq | rfl | hq
  · exact (holds_lower_exponent hn (hn'.full_of_lt hn hq) hq h h').elim
  · rcases lt_trichotomy m m' with hlt | rfl | hlt
    · exact (holds_same_exponent hm' hlt h h').elim
    · exact ⟨rfl, rfl⟩
    · exact (holds_same_exponent hm hlt h' h).elim
  · exact (holds_lower_exponent hn' (hn.full_of_lt hn' hq) hq h' h).elim

/-! ### The search for digits -/

def Digits.value (d : Digits) : ℚ :=
  d.digits * 10 ^ d.exponent

theorem Target.gridLe_value_iff (t : Target) (p : ℤ) (s : ℕ) : gridLe s p t.value t.q = true ↔ s ≤ t.floorOn p := by
  simp only [floorOn, gridLe, Nat.pow_eq]
  rw [Nat.le_div_iff_mul_le (by positivity), decide_eq_true_iff, mul_assoc]

theorem Target.floorOn_le (t : Target) (p : ℤ) : (t.floorOn p * 10 ^ p : ℚ) ≤ t.value * 2 ^ t.q :=
  (gridLe_iff _ _ _ _).1 ((t.gridLe_value_iff p _).2 le_rfl)

theorem Target.lt_floorOn_succ (t : Target) (p : ℤ) : (t.value * 2 ^ t.q : ℚ) < (t.floorOn p + 1 : ℕ) * 10 ^ p := by
  rw [← not_le, ← gridLe_iff, gridLe_value_iff]
  omega

theorem Target.holds_of_onGrid {s : ℕ} (h : t.onGrid p = some s) : t.Holds (s * 10 ^ p) := by
  rw [← accepts_iff]
  unfold onGrid at h
  simp only at h
  split at h
  · cases h
  · rename_i hs _
    cases h
    exact (Bool.and_eq_true_iff.1 hs).1
  · rename_i _ hs
    cases h
    exact hs
  · rename_i hs hs'
    cases h
    have hlow := (Bool.and_eq_true_iff.1 hs).1
    split_ifs <;> assumption

theorem Target.exists_onGrid
    (h : t.accepts p (t.floorOn p) = true ∧ 0 < t.floorOn p ∨ t.accepts p (t.floorOn p + 1) = true) :
    ∃ s, t.onGrid p = some s := by
  unfold onGrid
  simp only
  split
  · rename_i hs hs'
    simp only [Bool.and_eq_false_iff, decide_eq_false_iff_not] at hs
    grind
  all_goals exact ⟨_, rfl⟩

theorem estimate_le (k : ℤ) (h : -1076 ≤ k) (h' : k ≤ 1024) : (10 ^ (k * 30103 / 100000 - 1) : ℚ) ≤ 2 ^ k := by
  have htable : ∀ i ∈ List.range 2101,
      gridLe 1 (((i : ℤ) - 1076) * 30103 / 100000 - 1) 1 ((i : ℤ) - 1076) = true := by decide +kernel
  have := htable (k + 1076).toNat (List.mem_range.2 (by omega))
  rw [show (((k + 1076).toNat : ℕ) : ℤ) - 1076 = k by omega, gridLe_iff] at this
  simpa using this

theorem firstExponent_le (hn : Binary64.Normal m q) (hm : 0 < m) :
    (10 ^ (target m q).firstExponent : ℚ) ≤ (target m q).value * 2 ^ (target m q).q := by
  have hten : ∀ e, Target.firstExponent.leTen (target m q) e = true →
      (10 ^ e : ℚ) ≤ (target m q).value * 2 ^ (target m q).q := by
    intro e he
    simpa using (gridLe_iff _ _ _ _).1 he
  unfold Target.firstExponent
  simp only
  split_ifs with h1 h2
  · exact hten _ h1
  · exact hten _ h2
  · have hlog : (target m q).value.log2 < 55 := by
      rw [Nat.log2_lt (by simp only [target]; omega)]
      have := hn.lt
      simp only [target]
      omega
    have hself : 2 ^ (target m q).value.log2 ≤ (target m q).value := Nat.log2_self_le (by simp only [target]; omega)
    have hleast := hn.least
    have hmost := hn.most
    have hq : (target m q).q = q - 2 := rfl
    refine (estimate_le _ (by omega) (by omega)).trans ?_
    rw [zpow_add₀ two_ne_zero, zpow_natCast]
    exact mul_le_mul_of_nonneg_right (by exact_mod_cast hself) (by positivity)

/-- With seventeen digits one of the neighbours on the grid rounds to the float: they are closer to each other than the
ends of the interval. -/
theorem exists_onGrid_seventeen (hn : Binary64.Normal m q) (hm : 0 < m)
    (hp : (10 ^ (p + 16) : ℚ) ≤ (target m q).value * 2 ^ (target m q).q) : ∃ s, (target m q).onGrid p = some s := by
  have hu : (0 : ℚ) < 2 ^ (target m q).q := by positivity
  have hg : (0 : ℚ) < 10 ^ p := by positivity
  have hfloor := (target m q).floorOn_le p
  have hsucc := (target m q).lt_floorOn_succ p
  rw [zpow_add₀ (by norm_num)] at hp
  obtain ⟨-, -, hlow, hgap⟩ := target_low hm q
  have hvalue : ((target m q).value : ℚ) = 4 * m := by simp [target]
  have hhigh : ((target m q).high : ℚ) = 4 * m + 2 := by simp [target]
  have hlow' : ((target m q).low : ℚ) + 1 ≤ 4 * m := by exact_mod_cast hlow
  have hpos : 0 < (target m q).floorOn p := by
    by_contra hzero
    rw [Nat.eq_zero_of_not_pos hzero] at hsucc
    push_cast at hsucc
    linarith
  rw [hvalue] at hp hfloor hsucc
  apply Target.exists_onGrid
  simp only [Target.accepts_iff]
  by_contra hnone
  obtain ⟨hs, hs'⟩ := not_or.1 hnone
  -- the ends of the interval lie between the neighbours
  have hbelow : ((target m q).floorOn p * 10 ^ p : ℚ) ≤ (target m q).low * 2 ^ (target m q).q := by
    by_contra hlt
    refine hs ⟨Target.holds_of_lt (not_le.1 hlt) ?_, hpos⟩
    rw [hhigh]
    linarith
  have habove : ((target m q).high * 2 ^ (target m q).q : ℚ) ≤ ((target m q).floorOn p + 1 : ℕ) * 10 ^ p := by
    by_contra hlt
    refine hs' (Target.holds_of_lt ?_ (not_le.1 hlt))
    have := mul_le_mul_of_nonneg_right hlow' hu.le
    linarith
  rw [hhigh] at habove
  push_cast at habove
  rcases hgap with hgap | rfl
  · have hgap' : ((target m q).low : ℚ) + 2 = 4 * m := by
      have : (target m q).low + 2 = 4 * m := by omega
      exact_mod_cast this
    have hm53 : (m : ℚ) * 2 ^ (target m q).q ≤ 2 ^ 53 * 2 ^ (target m q).q :=
      mul_le_mul_of_nonneg_right (by exact_mod_cast hn.lt.le) hu.le
    have hfour : 4 * (2 ^ (target m q).q : ℚ) ≤ 10 ^ p := by
      have : ((target m q).low : ℚ) * 2 ^ (target m q).q = (4 * m - 2) * 2 ^ (target m q).q := by
        rw [← hgap']
        ring
      linarith
    linarith
  · have := mul_le_mul_of_nonneg_right hlow' hu.le
    push_cast at *
    linarith

theorem holds_search (hn : Binary64.Normal m q) (hm : 0 < m) :
    ∀ fuel n, n + fuel = 17 →
      (target m q).Holds ((target m q).search (target m q).firstExponent (fuel + 1) n).value := by
  intro fuel
  induction fuel with
  | zero =>
    intro n hlast
    have hp : (target m q).firstExponent - n + 1 + 16 = (target m q).firstExponent := by omega
    obtain ⟨s, hs⟩ := exists_onGrid_seventeen hn hm (by rw [hp]; exact firstExponent_le hn hm)
    rw [Target.search]
    simp only [hs]
    exact Target.holds_of_onGrid hs
  | succ fuel ih =>
    intro n hn'
    rw [Target.search]
    split
    · rename_i s hs
      exact Target.holds_of_onGrid hs
    · exact ih (n + 1) (by omega)

theorem value_strip (fuel : ℕ) (d : Digits) : (strip fuel d).value = d.value := by
  induction fuel generalizing d with
  | zero => rfl
  | succ fuel ih =>
    rw [strip]
    split
    · rename_i h
      rw [ih]
      have hten : ((10 * (d.digits / 10) : ℕ) : ℚ) = d.digits := by
        rw [Nat.mul_div_cancel' (Nat.dvd_of_mod_eq_zero h.2)]
      push_cast at hten
      simp only [Digits.value]
      rw [zpow_add_one₀ (by norm_num), ← hten]
      ring
    · rfl

theorem holds_digits (hn : Binary64.Normal m q) (hm : 0 < m) : (target m q).Holds (digits m q).value := by
  rw [digits, value_strip]
  exact holds_search hn hm 16 1 rfl

end OpGraph.Shortest
