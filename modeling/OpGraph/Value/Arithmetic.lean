import OpGraph.Syntax.Tree
import OpGraph.Value.Basic

/-!
Arithmetic of values. Truth values count as integers; a float on either side makes the operation one of floats. Integers
have any size up to a billion bits.
-/

namespace OpGraph

inductive Numeric where
  | int (i : Int)
  | float (x : Float)

def Numeric.toFloat : Numeric → Float
  | int i => Binary64.ofInt i
  | float x => x

def evalError {α : Type} (f : EvalFault) : Except Error α :=
  .error ⟨.eval f, none⟩

def Value.toNumeric (operator : String) : Value → Except Error Numeric
  | .bool b => .ok (.int (if b then 1 else 0))
  | .int i => .ok (.int i)
  | .float x => .ok (.float x)
  | v => evalError (.operand operator v.typeName)

namespace Arithmetic

/-! ### Integers -/

def maxBits : Nat := 0x40000000

def bits (a : Int) : Nat :=
  if a = 0 then 0 else a.natAbs.log2 + 1

def tooLarge {α : Type} : Except Error α :=
  .error ⟨.tooLarge, none⟩

/-- `a · 2^n`. -/
def shiftUp (a : Int) (n : Nat) : Except Error Int :=
  if a = 0 then .ok 0 else if maxBits < bits a + n then tooLarge else .ok (a * Nat.pow 2 n)

/-- `a / 2^n`, rounded down. -/
def shiftDown (a : Int) (n : Nat) : Int :=
  if bits a ≤ n then (if a < 0 then -1 else 0) else a.fdiv (Nat.pow 2 n)

/-- A shift to the left by `n`, which is one to the right if `n` is negative. -/
def shift (a n : Int) : Except Error Int :=
  if 0 ≤ n then shiftUp a n.toNat else .ok (shiftDown a n.natAbs)

/-- A bound from below on the number of bits of `a ^ n`, taken from the sixteenth power of `a`. -/
def powerBits (a : Int) (n : Nat) : Nat :=
  (a.natAbs.pow 16).log2 * n / 16

def power (a : Int) (n : Nat) : Except Error Int :=
  if a = 0 ∨ a = 1 ∨ a = -1 then
    .ok (if n = 0 then 1 else if a = -1 ∧ n % 2 = 0 then 1 else a)
  else if maxBits ≤ n ∨ maxBits ≤ powerBits a n then tooLarge
  else
    let r : Int := (if a < 0 ∧ n % 2 = 1 then -1 else 1) * a.natAbs.pow n
    if maxBits < bits r then tooLarge else .ok r

/-- Bits of the first number that the second one lacks. -/
def without (m n : Nat) : Nat :=
  m ^^^ (m &&& n)

/-- Bitwise operations on the two's complement forms. -/
def bitAnd : Int → Int → Int
  | .ofNat m, .ofNat n => .ofNat (m &&& n)
  | .ofNat m, .negSucc n => .ofNat (without m n)
  | .negSucc m, .ofNat n => .ofNat (without n m)
  | .negSucc m, .negSucc n => .negSucc (m ||| n)

def bitOr : Int → Int → Int
  | .ofNat m, .ofNat n => .ofNat (m ||| n)
  | .ofNat m, .negSucc n => .negSucc (without n m)
  | .negSucc m, .ofNat n => .negSucc (without m n)
  | .negSucc m, .negSucc n => .negSucc (m &&& n)

def bitXor : Int → Int → Int
  | .ofNat m, .ofNat n => .ofNat (m ^^^ n)
  | .ofNat m, .negSucc n => .negSucc (m ^^^ n)
  | .negSucc m, .ofNat n => .negSucc (m ^^^ n)
  | .negSucc m, .negSucc n => .ofNat (m ^^^ n)

/-- The quotient rounded down: the one rounded toward zero is one too large if a remainder is left and the signs differ. -/
def floorDiv (a b : Int) : Int :=
  if a.tmod b ≠ 0 ∧ decide (a < 0) ≠ decide (b < 0) then a.tdiv b - 1 else a.tdiv b

/-- Remainder with the sign of the divisor. -/
def floorMod (a b : Int) : Int :=
  let r := a.tmod b
  if r ≠ 0 ∧ decide (r < 0) ≠ decide (b < 0) then r + b else r

/-- A binary operator on integers. Division and remainder round down; a power with a negative exponent is a float. -/
def onInts (op : BinaryOp) (a b : Int) : Except Error Value :=
  match op with
  | .add => .ok (.int (a + b))
  | .sub => .ok (.int (a - b))
  | .mult => .ok (.int (a * b))
  | .div => if b = 0 then evalError .divisionByZero else .ok (.float (Binary64.ofInt a / Binary64.ofInt b))
  | .floorDiv => if b = 0 then evalError .divisionByZero else .ok (.int (floorDiv a b))
  | .mod => if b = 0 then evalError .divisionByZero else .ok (.int (floorMod a b))
  | .pow =>
    if 0 ≤ b then .int <$> power a b.toNat
    else .ok (.float (Binary64.power (Binary64.ofInt a) (Binary64.ofInt b)))
  | .lShift => .int <$> shift a b
  | .rShift => .int <$> shift a (-b)
  | .bitAnd => .ok (.int (bitAnd a b))
  | .bitOr => .ok (.int (bitOr a b))
  | .bitXor => .ok (.int (bitXor a b))
  | .matMult => evalError .matrixOperands

/-! ### Floats -/

/-- Remainder with the sign of the divisor. -/
def floatMod (x y : Float) : Float :=
  let r := Binary64.remainder x y
  if !(r == 0.0) && (decide (r < 0.0) != decide (y < 0.0)) then r + y else r

def onFloats (op : BinaryOp) (x y : Float) : Except Error Value :=
  let checked (z : Float) : Except Error Value := if y == 0.0 then evalError .divisionByZero else .ok (.float z)
  match op with
  | .add => .ok (.float (x + y))
  | .sub => .ok (.float (x - y))
  | .mult => .ok (.float (x * y))
  | .div => checked (x / y)
  | .floorDiv => checked (x / y).floor
  | .mod => checked (floatMod x y)
  | .pow => .ok (.float (Binary64.power x y))
  | op => evalError (.operand op.label "float")

/-! ### Operators on values -/

def onNumerics (op : BinaryOp) : Numeric → Numeric → Except Error Value
  | .int a, .int b => onInts op a b
  | a, b => onFloats op a.toFloat b.toFloat

/-- A binary operator on values. Texts and lists can be added, and truth values keep their type under bitwise
operators. -/
def binary (op : BinaryOp) (left right : Value) : Except Error Value :=
  let numbers : Except Error Value := do
    let a ← left.toNumeric op.label
    let b ← right.toNumeric op.label
    onNumerics op a b
  match op, left, right with
  | .add, .str a, .str b => .ok (.str (a ++ b))
  | .add, .list _ a, .list _ b => .ok (.list none (a ++ b))
  | .bitAnd, .bool a, .bool b => .ok (.bool (a && b))
  | .bitOr, .bool a, .bool b => .ok (.bool (a || b))
  | .bitXor, .bool a, .bool b => .ok (.bool (a != b))
  | _, _, _ => numbers

def unary (op : UnaryOp) (pos : Position) (v : Value) : Except Error Value :=
  match op with
  | .not => .ok (.bool (!v.isTruthy))
  | .minus => do
    match ← v.toNumeric op.label with
    | .int i => return .int (-i)
    | .float x => return .float (-x)
  | .plus => do
    match ← v.toNumeric op.label with
    | .int i => return .int i
    | .float x => return .float x
  | .invert => do
    match ← v.toNumeric op.label with
    | .int i => return .int (-i - 1)
    | .float _ => throw ⟨.eval .invertFloat, some pos.location⟩

end Arithmetic

end OpGraph
