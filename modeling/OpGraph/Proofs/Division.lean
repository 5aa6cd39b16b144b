import OpGraph.Proofs.ConstantExpressions

/-!
Division of integers. The quotient rounds down and the remainder has the sign of the divisor. Both are corrected from the
division that rounds toward zero, by tests of signs that come to the same.
-/

namespace OpGraph

namespace Arithmetic

variable {a b : ℤ}

/-- A remainder has the sign of the dividend, so it makes no difference which of the two is compared with the divisor. -/
theorem tmod_neg_iff (h : a.tmod b ≠ 0) : a.tmod b < 0 ↔ a < 0 := by
  rcases le_or_gt 0 a with ha | ha
  · have := Int.tmod_nonneg b ha
    omega
  · have := Int.tmod_nonneg b (Int.neg_nonneg_of_nonpos ha.le)
    rw [Int.neg_tmod] at this
    omega

theorem floorDiv_mul_add_floorMod (a b : ℤ) : floorDiv a b * b + floorMod a b = a := by
  have hparts := Int.mul_tdiv_add_tmod a b
  unfold floorDiv floorMod
  by_cases hr : a.tmod b = 0
  · simp only [hr, ne_eq, not_true_eq_false, false_and, if_false]
    linarith
  · simp only [tmod_neg_iff hr]
    split <;> linarith

theorem floorMod_bounds (a : ℤ) (hb : b ≠ 0) :
    (floorMod a b = 0 ∨ (floorMod a b).sign = b.sign) ∧ |floorMod a b| < |b| := by
  have hlt : |a.tmod b| < |b| := by
    rw [Int.abs_eq_natAbs, Int.natAbs_tmod, Int.abs_eq_natAbs]
    exact_mod_cast Nat.mod_lt _ (Int.natAbs_pos.2 hb)
  unfold floorMod
  dsimp only
  rcases lt_or_gt_of_ne hb with hb | hb
  · rw [abs_of_neg hb, abs_lt] at *
    simp only [ne_eq, decide_eq_decide, Int.sign_eq_neg_one_of_neg hb, Int.sign_eq_neg_one_iff_neg]
    split <;> omega
  · rw [abs_of_pos hb, abs_lt] at *
    simp only [ne_eq, decide_eq_decide, Int.sign_eq_one_of_pos hb, Int.sign_eq_one_iff_pos]
    split <;> omega

end Arithmetic

/-- What counts as an integer: an integer, or a truth value. -/
inductive Value.IsInteger : Value → ℤ → Prop
  | int (a : ℤ) : IsInteger (.int a) a
  | bool (b : Bool) : IsInteger (.bool b) (if b then 1 else 0)

namespace Evaluation

open Arithmetic Value

variable {g : Globals} {l r : Expr} {v w : Value} {a b : ℤ} {op : BinaryOp}

theorem eval_binary (hl : eval g l = .ok v) (hr : eval g r = .ok w) (pos : Position) (op : BinaryOp) :
    eval g (.binary pos l op r) = located pos.location (binary op v w) := by
  rw [eval, hl, hr]
  rfl

theorem binary_division (hv : v.IsInteger a) (hw : w.IsInteger b) (h : op ∈ divisions) :
    binary op v w = onInts op a b := by
  rcases mem_divisions.1 h with rfl | rfl | rfl <;> cases hv <;> cases hw <;> rfl

/-- The error of a division by zero is that of no other operator and of no other divisor. -/
theorem message_binary {e : Error} (hv : v.IsInteger a) (hw : w.IsInteger b) (h : ¬(b = 0 ∧ op ∈ divisions))
    (he : binary op v w = .error e) : e.fault.message ≠ "Division by zero." := by
  have hints : Yields (·.fault.message ≠ "Division by zero.") IsLiteral (onInts op a b) :=
    yields_onInts (by decide +kernel) (by decide +kernel) a fun hb hop => absurd ⟨hb, hop⟩ h
  cases op with
  | bitAnd | bitOr | bitXor => cases hv <;> cases hw <;> cases he
  | _ => cases hv <;> cases hw <;> exact hints.of_error he

theorem onInts_zero (a : ℤ) (h : op ∈ divisions) : onInts op a 0 = evalError .divisionByZero := by
  rcases mem_divisions.1 h with rfl | rfl | rfl <;> rfl

theorem binary_float_zero (x : Float) (hw : w.IsInteger 0) (h : op ∈ divisions) :
    binary op (.float x) w = evalError .divisionByZero := by
  have hzero : w = .int 0 ∨ w = .bool false := by
    generalize hb : (0 : ℤ) = b at hw
    cases hw with
    | int => exact .inl rfl
    | bool c => cases c <;> simp_all
  rcases hzero with rfl | rfl <;> rcases mem_divisions.1 h with rfl | rfl | rfl <;> rfl

/-- **Division of integers**, truth values among them. The quotient and the remainder add up to the dividend, and the
remainder is less than the divisor and has its sign. An operator fails for a division by zero, at its own place, exactly
if it divides and the divisor is zero; it does so for a dividend that is a float, too. -/
theorem integers_divided (hl : eval g l = .ok v) (hr : eval g r = .ok w) (hw : w.IsInteger b) (pos : Position) :
    let result (op : BinaryOp) := eval g (.binary pos l op r)
    let failure : Error := ⟨.eval .divisionByZero, some pos.location⟩
    (v.IsInteger a →
      (b ≠ 0 → ∃ q m, result .floorDiv = .ok (.int q) ∧ result .mod = .ok (.int m) ∧ a = q * b + m ∧
        (m = 0 ∨ m.sign = b.sign) ∧ |m| < |b|) ∧
      ∀ op e, result op = .error e ∧ e.fault.message = "Division by zero." ↔ b = 0 ∧ op ∈ divisions ∧ e = failure) ∧
    ∀ x, v = .float x → b = 0 → ∀ op ∈ divisions, result op = .error failure := by
  simp only [eval_binary hl hr]
  refine ⟨fun hv => ⟨fun hb => ⟨floorDiv a b, floorMod a b, ?_, ?_, (floorDiv_mul_add_floorMod a b).symm,
    floorMod_bounds a hb⟩, fun op e => ⟨fun h => ?_, ?_⟩⟩, ?_⟩
  · rw [binary_division hv hw (by simp [divisions]), onInts, if_neg hb]
    rfl
  · rw [binary_division hv hw (by simp [divisions]), onInts, if_neg hb]
    rfl
  · obtain ⟨he, hm⟩ := h
    by_cases hzero : b = 0 ∧ op ∈ divisions
    · obtain ⟨rfl, hop⟩ := hzero
      rw [binary_division hv hw hop, onInts_zero a hop] at he
      exact ⟨rfl, hop, (Except.error.inj he).symm⟩
    · cases hbinary : binary op v w with
      | error e' =>
        rw [hbinary] at he
        obtain rfl := Except.error.inj he
        rw [Error.fault_located] at hm
        exact absurd hm (message_binary hv hw hzero hbinary)
      | ok u =>
        rw [hbinary] at he
        cases he
  · rintro ⟨rfl, hop, rfl⟩
    rw [binary_division hv hw hop, onInts_zero a hop]
    exact ⟨rfl, rfl⟩
  · rintro x rfl rfl op hop
    rw [binary_float_zero x hw hop]
    rfl

/-- `7 // -2` and `7 % -2`, and a division of `7` by `False`. -/
theorem integers_divided_sample :
    let divided (op : BinaryOp) (divisor : Literal) :=
      eval [] (.binary ⟨1, 0⟩ (.constant ⟨1, 0⟩ (.int 7)) op (.constant ⟨1, 5⟩ divisor))
    (∃ q m : ℤ, divided .floorDiv (.int (-2)) = .ok (.int q) ∧ divided .mod (.int (-2)) = .ok (.int m) ∧
      7 = q * -2 + m ∧ (m = 0 ∨ m.sign = -1) ∧ |m| < 2) ∧
    divided .div (.bool false) = .error ⟨.eval .divisionByZero, some (Position.location ⟨1, 0⟩)⟩ := by
  have hl : eval [] (.constant ⟨1, 0⟩ (.int 7)) = .ok (.int 7) := rfl
  refine ⟨((integers_divided hl rfl (.int (-2)) ⟨1, 0⟩).1 (.int 7)).1 (by decide), ?_⟩
  exact ((((integers_divided hl rfl (.bool false) ⟨1, 0⟩).1 (.int 7)).2 .div _).2 ⟨rfl, by simp [divisions], rfl⟩).1

end Evaluation

end OpGraph
