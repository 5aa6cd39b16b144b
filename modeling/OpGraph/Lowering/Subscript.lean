import OpGraph.Lowering.Basic

/-!
Lowering of subscripts. Ranges and constant indices become one `Slice` node, after which the axes of the constant
indices are squeezed; each computed index becomes a `Gather` node.
-/

namespace OpGraph.Lowering

structure Part where
  expr : Expr
  lower : Lower Operand

inductive Index where
  | range (lower upper step : Option Part)
  | point (part : Part)

namespace Subscript

/-- The largest and the smallest 64-bit integer stand for the ends of an axis. -/
def maxInt : Int := 0x7fffffffffffffff

def minInt : Int := -0x8000000000000000

/-- A bound of a range: an expression, or a number that is known. -/
inductive Bound where
  | part (p : Part)
  | known (i : Int)

structure Range where
  axis : Nat
  lower : Option Bound
  upper : Option Bound
  step : Option Bound

structure Point where
  axis : Nat
  part : Part
  value : Option Int

/-! ### Kinds of indices -/

def constantIndex? (e : Expr) : Lower (Option Int) := do
  if e.isConstant then
    match ← evalLiteral e with
    | .int i => return some i
    | _ => return none
  else return none

/-- The ranges of a subscript that restrict their axis, and the other indices. -/
def classify : (axis : Nat) → List Index → Lower (List Range × List Point)
  | _, [] => return ([], [])
  | axis, .range none none none :: is => classify (axis + 1) is
  | axis, .range l u s :: is => do
    let (ranges, points) ← classify (axis + 1) is
    return (⟨axis, l.map .part, u.map .part, s.map .part⟩ :: ranges, points)
  | axis, .point p :: is => do
    let value ← constantIndex? p.expr
    let (ranges, points) ← classify (axis + 1) is
    return (ranges, ⟨axis, p, value⟩ :: points)

/-! ### Bounds -/

/-- Constants of one integer that the subscript has emitted, by their values. -/
abbrev Cache := List (Int × String)

variable (pos : Position)

def constant1d (i : Int) (cache : Cache) : Lower (String × Cache) := do
  match cache.find? (·.1 == i) with
  | some (_, name) => return (name, cache)
  | none =>
    let c ← constant (.list [.int i]) none pos
    return (c.name, cache ++ [(i, c.name)])

def constantPart (e : Expr) : Lower Int := do
  match ← evalLiteral e with
  | .int i => return i
  | _ => fail .sliceComponent e.pos

def boundValue (b : Option Bound) (default : Int) (cache : Cache) : Lower (String × Cache) := do
  match b with
  | none => constant1d pos default cache
  | some (.known i) => constant1d pos i cache
  | some (.part p) =>
    if p.expr.isConstant then
      constant1d pos (← constantPart p.expr) cache
    else
      let x ← p.lower
      let name ← fresh (x.name ++ "_reshaped")
      let op ← defaultOp "Reshape"
      let (one, cache) ← constant1d pos 1 cache
      emit { outputs := [name], op := opName op, inputs := [x.name, one] }
      return (name, cache)

def stepOf : Option Bound → Lower Int
  | none => return 1
  | some (.known i) => return i
  | some (.part p) => do
    if !p.expr.isConstant then fail .stepNotLiteral p.expr.pos
    else
      let i ← constantPart p.expr
      if i = 0 then fail .stepZero p.expr.pos else return i

structure Bounds where
  start : String
  stop : String
  axis : String
  step : String

/-- The bounds of a range. A missing one means the end of the axis in the direction of the step. -/
def rangeBounds (r : Range) (cache : Cache) : Lower (Bounds × Cache) := do
  let (axis, cache) ← constant1d pos r.axis cache
  let i ← stepOf r.step
  let (step, cache) ← boundValue pos (some (.known i)) 1 cache
  let (start, cache) ← boundValue pos r.lower (if 0 < i then 0 else maxInt) cache
  let (stop, cache) ← boundValue pos r.upper (if 0 < i then maxInt else minInt) cache
  return (⟨start, stop, axis, step⟩, cache)

def allBounds : List Range → Cache → Lower (List Bounds)
  | [], _ => return []
  | r :: rs, cache => do
    let (b, cache) ← rangeBounds pos r cache
    return b :: (← allBounds rs cache)

/-! ### Nodes -/

def axisAttribute (axis : Int) : NodeAttribute :=
  ⟨⟨"axis", .int, .int axis⟩, []⟩

def concat (base suffix : String) (values : List String) : Lower String := do
  let name ← fresh (base ++ "_" ++ suffix)
  emitDefault [name] "Concat" values [axisAttribute 0]
  return name

def sliceInputs (base : String) : List Bounds → Lower (List String)
  | [b] => return [base, b.start, b.stop, b.axis, b.step]
  | bs => do
    let start ← concat base "start" (bs.map (·.start))
    let stop ← concat base "end" (bs.map (·.stop))
    let axis ← concat base "axis" (bs.map (·.axis))
    let step ← concat base "step" (bs.map (·.step))
    return [base, start, stop, axis, step]

def pointRange (axis : Nat) (i : Int) : Range :=
  ⟨axis, some (.known i), some (.known (if i = -1 then maxInt else i + 1)), some (.known 1)⟩

/-- Slices the ranges and the constant indices, whose axes are squeezed. The result has the given name unless computed
indices remain. -/
def slice (base result : String) (ranges : List Range) (constants : List (Nat × Int)) (remain : Bool) :
    Lower String := do
  let ranges := ranges ++ constants.map fun (axis, i) => pointRange axis i
  let inputs ← sliceInputs base (← allBounds pos ranges [])
  if constants.isEmpty then
    let name ← if remain then fresh (base ++ "_sliced") else pure result
    emitDefault [name] "Slice" inputs
    return name
  else
    let sliced ← fresh (base ++ "_sliced")
    emitDefault [sliced] "Slice" inputs
    let axes ← constant (.list (constants.map fun (axis, _) => .int axis)) (some "squeezed_axes") pos
    let name ← if remain then fresh (base ++ "_squeezed") else pure result
    emitDefault [name] "Squeeze" [sliced, axes.name]
    return name

def gather (base result : String) : String → List Point → Lower String
  | value, [] => return value
  | value, p :: ps => do
    let index ← p.part.lower
    let name ← if ps.isEmpty then pure result else fresh (base ++ "_axis_" ++ toString p.axis)
    emitDefault [name] "Gather" [value, index.name] [axisAttribute p.axis]
    gather base result name ps

end Subscript

open Subscript in
def subscript (pos : Position) (value : Lower Operand) (indices : List Index) (candidate : Option String) :
    Lower Operand := do
  let base := (← value).name
  let result ← fresh (candidate.getD (base ++ "_subscripted"))
  let (ranges, points) ← classify 0 indices
  let constants := points.filterMap fun p => p.value.map fun i => (p.axis, i)
  if ranges.isEmpty && points.isEmpty then
    emitDefault [result] "Identity" [base]
    return { name := result }
  else if !ranges.isEmpty || 1 < constants.length then
    let computed := points.filter (·.value.isNone)
    let sliced ← slice pos base result ranges constants (!computed.isEmpty)
    return { name := ← gather base result sliced computed }
  else
    return { name := ← gather base result base points }

end OpGraph.Lowering
