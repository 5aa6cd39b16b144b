import OpGraph.Value.Arithmetic

/-!
Comparison of values. Numbers are equal if they are the same float; lists are equal item by item; texts are ordered by
their UTF-16 units, and integers and floats by their exact values.
-/

namespace OpGraph

namespace Value

def asFloat? : Value → Option Float
  | bool b => some (if b then 1.0 else 0.0)
  | int i => some (Binary64.ofInt i)
  | float x => some x
  | _ => Option.none

def equalsScalar (v w : Value) : Bool :=
  match v.asFloat?, w.asFloat? with
  | some x, some y => x == y
  | _, _ => v.same w

mutual
def equals : Value → Value → Bool
  | list _ vs, w => match w with
    | list _ ws => equalsAll vs ws
    | _ => false
  | v, w => match w with
    | list .. => false
    | w => v.equalsScalar w
def equalsAll : List Value → List Value → Bool
  | [], [] => true
  | v :: vs, w :: ws => v.equals w && equalsAll vs ws
  | _, _ => false
end

end Value

/-- Order of numbers. Two numbers of which one is not a number are neither before nor after each other. -/
def Numeric.order : Numeric → Numeric → Ordering
  | .int a, .int b => compare a b
  | .int a, .float y => (Binary64.compareInt a y).getD .eq
  | .float x, .int b => ((Binary64.compareInt b x).map Ordering.swap).getD .eq
  | .float x, .float y => if x < y then .lt else if y < x then .gt else .eq

namespace Comparison

def order (operator : String) (left right : Value) : Except Error Ordering :=
  match left, right with
  | .str a, .str b => .ok (if Text.before a b then .lt else if Text.before b a then .gt else .eq)
  | left, right => do
    let a ← left.toNumeric operator
    let b ← right.toNumeric operator
    return a.order b

def isInfix (part : List Char) : List Char → Bool
  | [] => part.isEmpty
  | c :: cs => part.isPrefixOf (c :: cs) || isInfix part cs

/-- Whether a list has an equal item, or a text a part. -/
def contains (container item : Value) : Except Error Bool :=
  match container, item with
  | .list _ vs, item => .ok (vs.any (·.equals item))
  | .str s, .str part => .ok (isInfix part.toList s.toList)
  | v, _ => evalError (.notIterable v.typeName)

def apply (op : CompareOp) (left right : Value) : Except Error Bool :=
  match op with
  | .eq => .ok (left.equals right)
  | .notEq => .ok (!left.equals right)
  | .lt => do return (← order "<" left right) == .lt
  | .ltE => do return (← order "<=" left right) != .gt
  | .gt => do return (← order ">" left right) == .gt
  | .gtE => do return (← order ">=" left right) != .lt
  | .isIn => contains right left
  | .notIn => do return !(← contains right left)
  | .is => .ok (left.same right)
  | .isNot => .ok (!left.same right)

end Comparison

end OpGraph
