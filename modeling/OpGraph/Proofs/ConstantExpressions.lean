import OpGraph.Evaluation
import OpGraph.Proofs.Results

/-!
Constant expressions. An operator makes a literal of literals or fails for a reason of its own, so by induction on the
expression its value is a literal, and neither the value nor the error depends on what names are bound to.
-/

namespace OpGraph

open List

namespace Value

/-- Whether a value is that of a literal. -/
def IsLiteral (v : Value) : Prop :=
  ∃ l, v.literal? = some l

theorem isLiteral_list {ref : Ref} {vs : List Value} : (list ref vs).IsLiteral ↔ ∀ v ∈ vs, v.IsLiteral := by
  have hall : (∃ ls, literals? vs = some ls) ↔ ∀ v ∈ vs, v.IsLiteral := by
    induction vs with
    | nil => simp [literals?]
    | cons v vs ih =>
      rw [forall_mem_cons, ← ih, literals?, IsLiteral]
      cases v.literal? <;> cases literals? vs <;> simp
  rw [← hall, IsLiteral, literal?]
  cases literals? vs <;> simp

theorem isLiteral_ofLiteral (l : Literal) : (ofLiteral l).IsLiteral := by
  apply ofLiteral.induct (fun l => (ofLiteral l).IsLiteral) (fun ls => ∀ v ∈ ofLiterals ls, v.IsLiteral)
  case case6 => exact fun ls ih => isLiteral_list.2 ih
  case case7 => exact fun v hv => absurd hv not_mem_nil
  case case8 => exact fun l ls h ih => forall_mem_cons.2 ⟨h, ih⟩
  all_goals intros; exact ⟨_, rfl⟩

end Value

/-! ### Results and errors -/

theorem Error.fault_located (e : Error) (l : Location) : (e.located l).fault = e.fault := by
  unfold located
  split <;> rfl

/-- A result as said, or an error other than that of a name without a value. -/
abbrev Gives {α : Type} (P : α → Prop) : Except Error α → Prop :=
  Yields (·.code ≠ some .unboundName) P

section

variable {α : Type} {P : α → Prop} {r : Except Error α}

theorem Gives.located (hr : Gives P r) (l : Location) : Gives P (Evaluation.located l r) := by
  cases r with
  | error e =>
    have hcode : (e.located l).code = e.code := by rw [Error.code, Error.fault_located, Error.code]
    exact fun h => hr (hcode ▸ h)
  | ok a => exact hr

theorem gives_evalError {f : EvalFault} (h : f.code = .typeMismatch) : Gives P (evalError f) := by
  change some f.code ≠ _
  rw [h]
  decide

end

open Value

/-! ### Operators -/

theorem gives_toNumeric (v : Value) (operator : String) : Gives (fun _ => True) (v.toNumeric operator) := by
  cases v with
  | bool | int | float => trivial
  | _ => exact gives_evalError rfl

namespace Arithmetic

def divisions : List BinaryOp :=
  [.div, .floorDiv, .mod]

theorem mem_divisions {op : BinaryOp} : op ∈ divisions ↔ op = .div ∨ op = .floorDiv ∨ op = .mod := by
  simp [divisions]

section

variable {E : Error → Prop} (hlarge : E ⟨.tooLarge, none⟩)
include hlarge

theorem yields_shift (a n : ℤ) : Yields E (fun _ => True) (shift a n) :=
  .ite (.ite trivial (.ite hlarge trivial)) trivial

theorem yields_power (a : ℤ) (n : ℕ) : Yields E (fun _ => True) (power a n) :=
  .ite trivial (.ite hlarge (.ite hlarge trivial))

theorem yields_onInts {op : BinaryOp} (hmatrix : E ⟨.eval .matrixOperands, none⟩) (a : ℤ) {b : ℤ}
    (hzero : b = 0 → op ∈ divisions → E ⟨.eval .divisionByZero, none⟩) : Yields E IsLiteral (onInts op a b) := by
  cases op with
  | div | floorDiv | mod =>
    rw [onInts]
    split
    · exact hzero ‹_› (by simp [divisions])
    · exact ⟨_, rfl⟩
  | pow => exact .ite (.bind (yields_power hlarge a b.toNat) fun _ _ => ⟨_, rfl⟩) ⟨_, rfl⟩
  | lShift => exact .bind (yields_shift hlarge a b) fun _ _ => ⟨_, rfl⟩
  | rShift => exact .bind (yields_shift hlarge a (-b)) fun _ _ => ⟨_, rfl⟩
  | matMult => exact hmatrix
  | _ => exact ⟨_, rfl⟩

end

theorem gives_onFloats (op : BinaryOp) (x y : Float) : Gives IsLiteral (onFloats op x y) := by
  cases op with
  | add | sub | mult | pow => exact ⟨_, rfl⟩
  | div | floorDiv | mod => exact .ite (gives_evalError rfl) ⟨_, rfl⟩
  | _ => exact gives_evalError rfl

theorem gives_onNumerics (op : BinaryOp) (v w : Value) :
    Gives IsLiteral (do onNumerics op (← v.toNumeric op.label) (← w.toNumeric op.label)) := by
  refine (gives_toNumeric v _).bind fun a _ => (gives_toNumeric w _).bind fun b _ => ?_
  unfold onNumerics
  split
  · exact yields_onInts (by decide) (by decide) _ fun _ _ => by decide
  · exact gives_onFloats ..

theorem gives_binary (op : BinaryOp) {v w : Value} (hv : v.IsLiteral) (hw : w.IsLiteral) :
    Gives IsLiteral (binary op v w) := by
  unfold binary
  split
  · exact ⟨_, rfl⟩
  · exact isLiteral_list.2 (forall_mem_append.2 ⟨isLiteral_list.1 hv, isLiteral_list.1 hw⟩)
  · exact ⟨_, rfl⟩
  · exact ⟨_, rfl⟩
  · exact ⟨_, rfl⟩
  · exact gives_onNumerics op v w

theorem gives_unary (op : UnaryOp) (pos : Position) (v : Value) : Gives IsLiteral (unary op pos v) := by
  cases op with
  | not => exact ⟨_, rfl⟩
  | minus | plus =>
    refine (gives_toNumeric v _).bind fun a _ => ?_
    cases a <;> exact ⟨_, rfl⟩
  | invert =>
    refine (gives_toNumeric v _).bind fun a _ => ?_
    cases a with
    | int i => exact ⟨_, rfl⟩
    | float x =>
      change some ErrorCode.typeMismatch ≠ _
      decide

end Arithmetic

theorem Comparison.gives_order (operator : String) (v w : Value) : Gives (fun _ => True) (order operator v w) := by
  unfold order
  split
  · trivial
  · exact (gives_toNumeric v _).bind fun _ _ => (gives_toNumeric w _).bind fun _ _ => trivial

theorem Comparison.gives_contains (v w : Value) : Gives (fun _ => True) (contains v w) := by
  unfold contains
  split
  · trivial
  · trivial
  · exact gives_evalError rfl

theorem Comparison.gives_apply (op : CompareOp) (v w : Value) : Gives (fun _ => True) (apply op v w) := by
  cases op with
  | lt | ltE | gt | gtE => exact (gives_order _ v w).bind fun _ _ => trivial
  | isIn => exact gives_contains w v
  | notIn => exact (gives_contains w v).bind fun _ _ => trivial
  | _ => trivial

/-! ### Expressions -/

namespace Evaluation

/-- Evaluation over either table gives the same, which is a result as said, or an error other than that of a name without
a value. -/
structure Alike {α : Type} (P : α → Prop) (r r' : Except Error α) : Prop where
  eq : r = r'
  gives : Gives P r

theorem Alike.bind {α β : Type} {P : α → Prop} {Q : β → Prop} {r r' : Except Error α} {f f' : α → Except Error β}
    (hr : Alike P r r') (hf : ∀ a, P a → Alike Q (f a) (f' a)) : Alike Q (r >>= f) (r' >>= f') := by
  obtain ⟨rfl, hr⟩ := hr
  cases r with
  | error e => exact ⟨rfl, hr⟩
  | ok a => exact hf a hr

variable (g g' : Globals) {es : List Expr}

theorem alike_evalItems (h : ∀ e ∈ es, Alike IsLiteral (eval g e) (eval g' e)) :
    Alike (∀ v ∈ ·, v.IsLiteral) (evalItems g es) (evalItems g' es) := by
  induction es with
  | nil => exact ⟨rfl, fun v hv => absurd hv not_mem_nil⟩
  | cons e es ih =>
    obtain ⟨he, hes⟩ := forall_mem_cons.1 h
    rw [evalItems, evalItems]
    refine he.bind fun v hv => ?_
    have ⟨l, hl⟩ := hv
    rw [requireLiteral, hl]
    exact (ih hes).bind fun vs hvs => ⟨rfl, forall_mem_cons.2 ⟨hv, hvs⟩⟩

theorem alike_evalCompare (h : ∀ e ∈ es, Alike IsLiteral (eval g e) (eval g' e)) (left : Value) (ops : List CompareOp) :
    Alike IsLiteral (evalCompare g left ops es) (evalCompare g' left ops es) := by
  induction es generalizing left ops with
  | nil => cases ops <;> exact ⟨rfl, _, rfl⟩
  | cons e es ih =>
    obtain ⟨he, hes⟩ := forall_mem_cons.1 h
    cases ops with
    | nil => exact ⟨rfl, _, rfl⟩
    | cons op ops =>
      rw [evalCompare, evalCompare]
      refine he.bind fun v hv => Alike.bind ⟨rfl, Comparison.gives_apply op left v⟩ fun b _ => ?_
      cases b
      · exact ⟨rfl, _, rfl⟩
      · exact ih hes v ops

theorem alike_eval (e : Expr) : e.isConstant = true → Alike IsLiteral (eval g e) (eval g' e) := by
  apply Expr.isConstant.induct (fun e => e.isConstant = true → Alike IsLiteral (eval g e) (eval g' e))
    (fun es => Expr.allConstant es = true → ∀ e ∈ es, Alike IsLiteral (eval g e) (eval g' e))
  case case1 => exact fun pos l _ => ⟨rfl, isLiteral_ofLiteral l⟩
  case case2 => exact fun pos op e ih h => (ih h).bind fun v _ => ⟨rfl, Arithmetic.gives_unary op pos v⟩
  case case3 =>
    intro pos l op r ihl ihr h
    obtain ⟨hl, hr⟩ := Bool.and_eq_true_iff.1 h
    refine (ihl hl).bind fun v hv => (ihr hr).bind fun w hw => ⟨rfl, (Arithmetic.gives_binary op hv hw).located _⟩
  case case4 =>
    intro pos l ops es ihl ihes h
    obtain ⟨hl, hes⟩ := Bool.and_eq_true_iff.1 h
    exact (ihl hl).bind fun v _ => alike_evalCompare g g' (ihes hes) v ops
  case case5 =>
    intro pos es ih h
    exact (alike_evalItems g g' (ih h)).bind fun vs hvs => ⟨rfl, isLiteral_list.2 hvs⟩
  case case6 =>
    intro e hconstant hunary hbinary hcompare hlist h
    cases (Expr.isConstant.eq_6 e hconstant hunary hbinary hcompare hlist).symm.trans h
  case case7 => exact fun _ e he => absurd he not_mem_nil
  case case8 =>
    intro e es ih ihes h
    obtain ⟨he, hes⟩ := Bool.and_eq_true_iff.1 h
    exact forall_mem_cons.2 ⟨ih he, ihes hes⟩

/-- **Constant expressions do not depend on names**: the value or the error is the same over any two tables, the error is
never that of a name without a value, and the value is a literal, so that asking for one changes nothing. -/
theorem constant_settled {e : Expr} (h : e.isConstant = true) :
    eval g e = eval g' e ∧ (∀ err, eval g e = .error err → err.code ≠ some .unboundName) ∧
      (∀ v, eval g e = .ok v → ∃ l, v.literal? = some l ∧ evalLiteral g e = .ok l) ∧
      ∀ err, evalLiteral g e = .error err → eval g e = .error err := by
  obtain ⟨heq, hgives⟩ := alike_eval g g' e h
  have hliteral : ∀ v, eval g e = .ok v → ∃ l, v.literal? = some l ∧ evalLiteral g e = .ok l := by
    intro v hv
    obtain ⟨l, hl⟩ := hgives.of_ok hv
    refine ⟨l, hl, ?_⟩
    rw [evalLiteral, hv]
    simp only [bind, Except.bind, requireLiteral, hl]
  refine ⟨heq, fun err herr => ?_, hliteral, fun err herr => ?_⟩
  · rwa [herr] at hgives
  · cases hr : eval g e with
    | error err' =>
      rw [evalLiteral, hr] at herr
      cases herr
      rfl
    | ok v =>
      obtain ⟨l, -, hl⟩ := hliteral v hr
      cases hl.symm.trans herr

/-- `[1, 2 << 3] + ["a"]`, over a table that binds a name and over an empty one. -/
theorem constant_settled_sample :
    let e := Expr.binary ⟨1, 0⟩ (.list ⟨1, 0⟩ [.constant ⟨1, 1⟩ (.int 1),
      .binary ⟨1, 4⟩ (.constant ⟨1, 4⟩ (.int 2)) .lShift (.constant ⟨1, 9⟩ (.int 3))]) .add
      (.list ⟨1, 14⟩ [.constant ⟨1, 15⟩ (.str "a")])
    e.isConstant = true ∧ eval [("x", .none)] e = eval [] e :=
  ⟨rfl, (constant_settled _ _ rfl).1⟩

end Evaluation

end OpGraph
