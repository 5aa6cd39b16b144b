import OpGraph.Number.Binary64

/-!
Shortest decimal text of floats: the fewest digits that read back as the float, the nearest such digits if there are
several. Exponents from -6 to 20 are written positionally.
-/

namespace OpGraph.Shortest

/-- Decimal digits `digits · 10^exponent`. -/
structure Digits where
  digits : Nat
  exponent : Int
  deriving DecidableEq, Repr

/-- A positive number `m · 2^q` with the distances to the ends of its rounding interval, all in units of `2^(q-2)`. -/
structure Target where
  value : Nat
  low : Nat
  high : Nat
  q : Int
  /-- Whether the ends read back as the float. -/
  closed : Bool

/-- The interval of numbers that round to `m · 2^q`. Below a power of two the neighbour is half as far. -/
def target (m : Nat) (q : Int) : Target where
  value := 4 * m
  low := if m = Nat.pow 2 52 ∧ -1074 < q then 4 * m - 1 else 4 * m - 2
  high := 4 * m + 2
  q := q - 2
  closed := m % 2 = 0

/-- `a · 2^q ≤ s · 10^p`. -/
def leGrid (a : Nat) (q : Int) (s : Nat) (p : Int) : Bool :=
  a * Nat.pow 2 q.toNat * Nat.pow 10 (-p).toNat ≤ s * Nat.pow 10 p.toNat * Nat.pow 2 (-q).toNat

/-- `s · 10^p ≤ a · 2^q`. -/
def gridLe (s : Nat) (p : Int) (a : Nat) (q : Int) : Bool :=
  s * Nat.pow 10 p.toNat * Nat.pow 2 (-q).toNat ≤ a * Nat.pow 2 q.toNat * Nat.pow 10 (-p).toNat

namespace Target

/-- Whether the grid point `s · 10^p` reads back as the float. -/
def accepts (t : Target) (p : Int) (s : Nat) : Bool :=
  if t.closed then leGrid t.low t.q s p && gridLe s p t.high t.q
  else !gridLe s p t.low t.q && !leGrid t.high t.q s p

def floorOn (t : Target) (p : Int) : Nat :=
  t.value * Nat.pow 2 t.q.toNat * Nat.pow 10 (-p).toNat / (Nat.pow 10 p.toNat * Nat.pow 2 (-t.q).toNat)

/-- Of the value's two neighbours on the grid of `10^p`, the one that reads back, the nearer one if both do; the even
one of two equally near. -/
def onGrid (t : Target) (p : Int) : Option Nat :=
  let s := t.floorOn p
  match t.accepts p s && 0 < s, t.accepts p (s + 1) with
  | false, false => none
  | true, false => some s
  | false, true => some (s + 1)
  | true, true =>
    -- the middle of the two neighbours against the value
    let below := gridLe (2 * s + 1) p (2 * t.value) t.q
    let above := leGrid (2 * t.value) t.q (2 * s + 1) p
    some (if below && above then (if s % 2 = 0 then s else s + 1) else if below then s + 1 else s)

def firstExponent (t : Target) : Int :=
  let estimate := ((t.value.log2 : Int) + t.q) * 30103 / 100000
  if leTen (estimate + 1) then estimate + 1 else if leTen estimate then estimate else estimate - 1
where
  leTen (e : Int) : Bool := gridLe 1 e t.value t.q

def search (t : Target) (first : Int) : Nat → Nat → Digits
  | 0, _ => ⟨t.floorOn (first - 16), first - 16⟩
  | fuel + 1, n =>
    let p := first - n + 1
    match t.onGrid p with
    | some s => ⟨s, p⟩
    | none => search t first fuel (n + 1)

end Target

def strip : Nat → Digits → Digits
  | 0, d => d
  | fuel + 1, d => if d.digits ≠ 0 ∧ d.digits % 10 = 0 then strip fuel ⟨d.digits / 10, d.exponent + 1⟩ else d

def digits (m : Nat) (q : Int) : Digits :=
  let t := target m q
  strip 20 (t.search t.firstExponent 17 1)

def decimal (n : Nat) : List Char :=
  Nat.toDigits 10 n

/-- Text of positive digits: positional while the first digit's exponent lies between -7 and 21, with an exponent
otherwise. -/
def layout (d : Digits) : List Char :=
  let ds := decimal d.digits
  let k : Int := ds.length
  let n := k + d.exponent
  if k ≤ n ∧ n ≤ 21 then ds ++ List.replicate (n - k).toNat '0'
  else if 0 < n ∧ n ≤ 21 then ds.take n.toNat ++ '.' :: ds.drop n.toNat
  else if -6 < n ∧ n ≤ 0 then '0' :: '.' :: (List.replicate (-n).toNat '0' ++ ds)
  else
    let e := n - 1
    let mantissa := match ds with
      | [c] => [c]
      | c :: rest => c :: '.' :: rest
      | [] => []
    mantissa ++ 'e' :: (if e < 0 then '-' else '+') :: decimal e.natAbs

/-- Text of a float; a negative zero is written like zero. -/
def text (x : Float) : String :=
  match Binary64.shape x with
  | .nan => "NaN"
  | .infinite negative => if negative then "-Infinity" else "Infinity"
  | .finite negative m q =>
    if m = 0 then "0"
    else String.ofList (if negative then '-' :: layout (digits m q) else layout (digits m q))

end OpGraph.Shortest
