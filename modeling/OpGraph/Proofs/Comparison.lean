import OpGraph.Proofs.Number.Rounding
import OpGraph.Evaluation

/-!
Comparison of integers. Their order is exact, but equality, and with it membership in a list, goes by the nearest floats.
So of two neighbours beyond 53 bits the one can be both less than the other and equal to it.
-/

namespace OpGraph

namespace Binary64

variable {x y : Float} {n : ℤ}

section

open Float.Model

theorem unpack_inj (h : x.toModel.unpack = y.toModel.unpack) : x = y := by
  have hbits : ∀ z : Float, UnpackedFloat.pack Format.binary64 z.toModel.unpack = z.toBits.toBitVec := by
    intro z
    have hpack := @UnpackedFloat.pack_unpack Format.binary64 z.toBits.toBitVec (by decide)
    refine hpack.trans ?_
    split
    · rename_i hnan
      obtain ⟨hones, hfraction⟩ := of_decide_eq_true hnan
      exact (z.toModel.valid.eq_packedNaN hones hfraction).symm
    · rfl
  exact Float.toBits_inj.1 (UInt64.toBitVec_inj.1 ((hbits x).symm.trans ((congrArg _ h).trans (hbits y))))

theorem compare_eq_some_eq {a b : UnpackedFloat} (h : a.compare b = some .eq) :
    a = b ∨ ∃ s t, a = .zero s ∧ b = .zero t := by
  revert h
  fun_cases UnpackedFloat.compare a b with
  | case3 s t =>
    intro h
    cases s <;> cases t <;> first | exact .inl rfl | cases h
  | case12 => exact fun _ => .inr ⟨_, _, rfl, rfl⟩
  | case13 | case16 =>
    intro h
    simp [Ordering.then_eq_eq] at h
    obtain ⟨rfl, rfl⟩ := h
    exact .inl rfl
  | _ =>
    intro h
    cases h

theorem unsigned_of_unpack {s : UnpackedFloat.Sign} (h : x.toModel.unpack = .zero s) : unsigned x = Float.ofBits 0 := by
  cases s with
  | negative =>
    obtain rfl : x = Float.ofBits 0x8000000000000000 := unpack_inj (h.trans (by rfl))
    rfl
  | positive =>
    obtain rfl : x = Float.ofBits 0 := unpack_inj (h.trans (by rfl))
    rfl

theorem unsigned_eq_of_beq (h : (x == y) = true) : unsigned x = unsigned y := by
  have hcompare : x.toModel.unpack.compare y.toModel.unpack = some .eq := beq_iff_eq.1 h
  rcases compare_eq_some_eq hcompare with heq | ⟨s, t, hx, hy⟩
  · rw [unpack_inj heq]
  · rw [unsigned_of_unpack hx, unsigned_of_unpack hy]

theorem beq_symm (h : (x == y) = true) : (y == x) = true := by
  have hcompare : x.toModel.unpack.compare y.toModel.unpack = some .eq := beq_iff_eq.1 h
  change (y.toModel.unpack.compare x.toModel.unpack == some .eq) = true
  rcases compare_eq_some_eq hcompare with heq | ⟨s, t, hx, hy⟩
  · rw [heq] at hcompare ⊢
    rw [hcompare]
    rfl
  · rw [hx, hy]
    rfl

theorem beq_self (h : shape x ≠ .nan) : (x == x) = true := by
  have hself : x.toModel.unpack.compare x.toModel.unpack = some .eq := by
    cases hunpack : x.toModel.unpack with
    | notANumber =>
      obtain rfl : x = Float.ofBits 0x7ff8000000000000 := unpack_inj (hunpack.trans (by rfl))
      exact absurd rfl h
    | infinity s | zero s => cases s <;> rfl
    | finite s => cases s <;> simp [UnpackedFloat.compare]
  change (x.toModel.unpack.compare x.toModel.unpack == some .eq) = true
  rw [hself]
  rfl

end

theorem shape_ofInt_ne_nan (n : ℤ) : shape (ofInt n) ≠ .nan := by
  rcases eq_or_ne n 0 with rfl | hn
  · rw [ofInt_zero, shape_zero]
    simp
  obtain ⟨⟨m, q⟩, hnearest⟩ : ∃ r, nearest n.natAbs 1 = r := ⟨_, rfl⟩
  obtain ⟨-, hlt, hleast, hfull⟩ := holds_nearest (Int.natAbs_pos.2 hn) one_pos hnearest
  rcases le_or_gt q 971 with hq | hq
  · rw [ofInt, shape_ofRatio _ (Int.natAbs_ne_zero.2 hn) ⟨hlt, hleast, hq, hfull⟩ hnearest]
    simp
  · rw [ofInt, ofRatio, bitsOfRatio, if_neg (Int.natAbs_ne_zero.2 hn), hnearest]
    simp only [if_pos hq]
    cases decide (n < 0) <;> decide +kernel

end Binary64

/-! ### Comparisons -/

namespace Evaluation

variable {g : Globals} {l r : Expr} {a b : ℤ}

theorem eval_compare {v w : Value} (hl : eval g l = .ok v) (hr : eval g r = .ok w) (pos : Position) (op : CompareOp) :
    eval g (.compare pos l [op] [r]) = Value.bool <$> Comparison.apply op v w := by
  rw [eval, hl]
  change evalCompare g v [op] [r] = _
  rw [evalCompare, hr]
  change Comparison.apply op v w >>= _ = _
  cases Comparison.apply op v w with
  | error e => rfl
  | ok c => cases c <;> rfl

theorem eval_singleton (hr : eval g r = .ok (.int b)) (pos : Position) :
    eval g (.list pos [r]) = .ok (.list none [.int b]) := by
  rw [eval, evalItems, hr]
  rfl

/-- **Comparison of integers**. Their order is exact. They are equal if their nearest floats are, so an integer
equals itself, and those of at most 53 bits equal no other. -/
theorem compare_integers (hl : eval g l = .ok (.int a)) (hr : eval g r = .ok (.int b)) (pos : Position) :
    let test (op : CompareOp) := eval g (.compare pos l [op] [r])
    let same := Binary64.ofInt a == Binary64.ofInt b
    test .lt = .ok (.bool (a < b)) ∧ test .gt = .ok (.bool (b < a)) ∧
      test .ltE = .ok (.bool (a ≤ b)) ∧ test .gtE = .ok (.bool (b ≤ a)) ∧
      test .eq = .ok (.bool same) ∧ test .notEq = .ok (.bool !same) ∧
      eval g (.compare pos l [.isIn] [.list pos [r]]) = .ok (.bool same) ∧
      (a = b → same = true) ∧ (a.natAbs < 2 ^ 53 → b.natAbs < 2 ^ 53 → (same = true ↔ a = b)) := by
  have hself : a = b → (Binary64.ofInt a == Binary64.ofInt b) = true := by
    rintro rfl
    exact Binary64.beq_self (Binary64.shape_ofInt_ne_nan a)
  simp only [eval_compare hl hr, eval_compare hl (eval_singleton hr pos)]
  refine ⟨?_, ?_, ?_, ?_, rfl, rfl, ?_, hself, fun ha hb => ⟨fun h => ?_, hself⟩⟩
  · change Except.ok (Value.bool (compare a b == .lt)) = _
    rw [show (compare a b == .lt) = decide (a < b) by rw [Bool.eq_iff_iff]; simp [compare_lt_iff_lt]]
  · change Except.ok (Value.bool (compare a b == .gt)) = _
    rw [show (compare a b == .gt) = decide (b < a) by rw [Bool.eq_iff_iff]; simp [compare_gt_iff_gt]]
  · change Except.ok (Value.bool (compare a b != .gt)) = _
    rw [show (compare a b != .gt) = decide (a ≤ b) by rw [Bool.eq_iff_iff]; simp [compare_gt_iff_gt]]
  · change Except.ok (Value.bool (compare a b != .lt)) = _
    rw [show (compare a b != .lt) = decide (b ≤ a) by rw [Bool.eq_iff_iff]; simp [compare_lt_iff_lt]]
  · change Except.ok (Value.bool ((Binary64.ofInt b == Binary64.ofInt a) || false)) = _
    rw [Bool.or_false, Bool.eq_iff_iff.2 ⟨Binary64.beq_symm, Binary64.beq_symm⟩]
  · have := Binary64.rounded_eq_of_unsigned (Binary64.unsigned_eq_of_beq h)
    rwa [Binary64.rounded_of_natAbs_lt ha, Binary64.rounded_of_natAbs_lt hb] at this

theorem compare_integers_small :
    eval [] (.compare ⟨1, 0⟩ (.constant ⟨1, 0⟩ (.int 2)) [.lt] [.constant ⟨1, 4⟩ (.int 3)]) = .ok (.bool true) := by
  have hl : eval [] (.constant ⟨1, 0⟩ (.int 2)) = .ok (.int 2) := rfl
  have hr : eval [] (.constant ⟨1, 4⟩ (.int 3)) = .ok (.int 3) := rfl
  exact (compare_integers hl hr ⟨1, 0⟩).1

/-- Two integers of which the one is less than the other and equal to it. -/
theorem compare_integers_huge :
    let test (op : CompareOp) := eval [] (.compare ⟨1, 0⟩ (.constant ⟨1, 0⟩ (.int 9007199254740992)) [op]
      [.constant ⟨1, 0⟩ (.int 9007199254740993)])
    test .lt = .ok (.bool true) ∧ test .eq = .ok (.bool true) :=
  ⟨rfl, rfl⟩

end Evaluation

end OpGraph
