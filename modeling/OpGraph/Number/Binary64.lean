/-!
Exact arithmetic on 64-bit floats. A finite float is `m · 2^q` with natural `m`; from that form come the nearest float
of a quotient of naturals, the integer a float is, the remainder of two floats and the comparison of a float with an
integer, all without rounding on the way.
-/

namespace OpGraph

inductive FloatShape where
  | nan
  | infinite (negative : Bool)
  /-- The number `m · 2^q`, negated if `negative`. -/
  | finite (negative : Bool) (m : Nat) (q : Int)
  deriving DecidableEq, Repr

namespace Binary64

def shapeOfBits (bits : Nat) : FloatShape :=
  let negative := decide (bits / Nat.pow 2 63 % 2 = 1)
  let e : Nat := bits / Nat.pow 2 52 % Nat.pow 2 11
  let f : Nat := bits % Nat.pow 2 52
  if e = 2047 then
    if f = 0 then .infinite negative else .nan
  else if e = 0 then .finite negative f (-1074)
  else .finite negative (f + Nat.pow 2 52) ((e : Int) - 1075)

def shape (x : Float) : FloatShape :=
  shapeOfBits x.toBits.toNat

/-- The quotient `num / den` rounded to the nearest natural, a half going to the even neighbour. -/
def roundDiv (num den : Nat) : Nat :=
  let q := num / den
  let r := num % den
  if 2 * r < den then q
  else if den < 2 * r then q + 1
  else if q % 2 = 0 then q else q + 1

/-- Significand and exponent of the float nearest to `num / den`, for positive `num` and `den`. The significand has 53
bits unless the exponent is the least one. -/
def nearest (num den : Nat) : Nat × Int :=
  let guess : Int := (num.log2 : Int) - (den.log2 : Int) - 53
  let fits (q : Int) : Bool := num * Nat.pow 2 (-q).toNat < Nat.pow 2 53 * (den * Nat.pow 2 q.toNat)
  let q := if fits guess then guess else guess + 1
  let q := if q < -1074 then -1074 else q
  let m := roundDiv (num * Nat.pow 2 (-q).toNat) (den * Nat.pow 2 q.toNat)
  if m = Nat.pow 2 53 then (Nat.pow 2 52, q + 1) else (m, q)

/-- Bits of the float nearest to `num / den`; numbers too large for a float become infinite. -/
def bitsOfRatio (negative : Bool) (num den : Nat) : Nat :=
  let sign := if negative then Nat.pow 2 63 else 0
  if num = 0 then sign
  else
    let (m, q) := nearest num den
    if 971 < q then sign + 2047 * Nat.pow 2 52
    else if m < Nat.pow 2 52 then sign + m
    else sign + (q + 1075).toNat * Nat.pow 2 52 + (m - Nat.pow 2 52)

def ofRatio (negative : Bool) (num den : Nat) : Float :=
  Float.ofBits (UInt64.ofNat (bitsOfRatio negative num den))

def ofInt (i : Int) : Float :=
  ofRatio (decide (i < 0)) i.natAbs 1

def ofDecimal (negative : Bool) (digits : Nat) (exponent : Int) : Float :=
  let size : Int := (digits.log2 : Int) * 30103 / 100000 + exponent
  if digits = 0 then ofRatio negative 0 1
  else if 400 < size then ofRatio negative (Nat.pow 2 1024) 1
  else if size < -400 then ofRatio negative 0 1
  else ofRatio negative (digits * Nat.pow 10 exponent.toNat) (Nat.pow 10 (-exponent).toNat)

/-- A float cut to its integer part, if it is finite. -/
def truncate? (x : Float) : Option Int :=
  match shape x with
  | .finite negative m q =>
    let n : Int := m * Nat.pow 2 q.toNat / Nat.pow 2 (-q).toNat
    some (if negative then -n else n)
  | _ => none

def toInt? (x : Float) : Option Int :=
  match shape x with
  | .finite negative m q =>
    if m % Nat.pow 2 (-q).toNat = 0 then
      let n : Int := m * Nat.pow 2 q.toNat / Nat.pow 2 (-q).toNat
      some (if negative then -n else n)
    else none
  | _ => none

def isNegativeZero (x : Float) : Bool :=
  x.toBits.toNat = Nat.pow 2 63

def nan : Float := 0.0 / 0.0

/-- Remainder of the division cut toward zero; it takes the sign of the dividend. -/
def remainder (x y : Float) : Float :=
  match shape x, shape y with
  | .nan, _ | _, .nan | .infinite _, _ => nan
  | .finite .., .infinite _ => x
  | .finite negative m q, .finite _ n r =>
    if n = 0 then nan
    else
      let e := if q ≤ r then q else r
      let rest := m * Nat.pow 2 (q - e).toNat % (n * Nat.pow 2 (r - e).toNat)
      ofRatio negative (rest * Nat.pow 2 e.toNat) (Nat.pow 2 (-e).toNat)

/-- Power of floats. A power of a unit by an infinity has no value. -/
def power (x y : Float) : Float :=
  if y.isNaN then nan
  else if y == 0.0 then 1.0
  else if (x == 1.0 || x == -1.0) && y.isInf then nan
  else x.pow y

/-- Order of an integer and a float by their exact values; none if the float is not a number. -/
def compareInt (i : Int) (x : Float) : Option Ordering :=
  match shape x with
  | .nan => none
  | .infinite negative => some (if negative then .gt else .lt)
  | .finite negative m q =>
    let n : Int := if negative then -(m : Int) else m
    some (compare (i * Nat.pow 2 (-q).toNat) (n * Nat.pow 2 q.toNat))

end Binary64

end OpGraph
