import OpGraph.Error
import OpGraph.Literal
import OpGraph.Json.Reader

/-!
Values of number tokens. A number with a base mark, or without dot and exponent, is an integer; the others are floats.
Underscores between digits have no meaning.
-/

namespace OpGraph.Syntax

/-- Value of digits in a base; none if there are no digits or one does not belong to the base. -/
def natOfBase (base : Nat) (ds : List Char) : Option Nat :=
  if ds.isEmpty then none
  else ds.foldlM (fun n d => (Json.hexValue d).bind fun v => if v < base then some (base * n + v) else none) 0

def baseOfMark (c : Char) : Option Nat :=
  match c with
  | 'x' | 'X' => some 16
  | 'o' | 'O' => some 8
  | 'b' | 'B' => some 2
  | _ => none

def floatOfText (cs : List Char) : Float :=
  let isMark (c : Char) : Bool := c = 'e' || c = 'E'
  let mantissa := cs.takeWhile (!isMark ·)
  let whole := mantissa.takeWhile (· ≠ '.')
  let fraction := (mantissa.dropWhile (· ≠ '.')).drop 1
  let exponent : Int := match (cs.dropWhile (!isMark ·)).drop 1 with
    | '-' :: ds => -(Json.natOfDigits ds : Int)
    | '+' :: ds => Json.natOfDigits ds
    | ds => Json.natOfDigits ds
  Binary64.ofDecimal false (Json.natOfDigits (whole ++ fraction)) (exponent - fraction.length)

def numberValue (text : String) : Except Error Literal :=
  let cs := text.toList.filter (· ≠ '_')
  let based := match cs with
    | '0' :: m :: ds => (baseOfMark m).map fun base => (base, ds)
    | _ => none
  match based with
  | some (base, ds) =>
    match natOfBase base ds with
    | some n => .ok (.int n)
    | none => .error ⟨.digits (String.ofList cs), none⟩
  | none =>
    if cs.any (fun c => c = '.' || c = 'e' || c = 'E') then .ok (.float (floatOfText cs))
    else .ok (.int (Json.natOfDigits cs))

end OpGraph.Syntax
