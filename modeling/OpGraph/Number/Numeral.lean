import OpGraph.Json.Reader
import OpGraph.Text.Blank

/-!
Numbers as they are given in arguments: decimals with an optional point and exponent, or digits in base 2, 8 or 16 after
`0b`, `0o` or `0x`.
-/

namespace OpGraph.Numeral

def inBase? (base : Nat) (ds : List Char) : Option Nat :=
  if ds.isEmpty then none
  else ds.foldlM (fun n d => do
    let v ← Json.hexValue d
    if v < base then some (base * n + v) else none) 0

def decimal? (negative : Bool) (cs : List Char) : Option Float := do
  let whole := cs.takeWhile Char.isDigit
  let rest := cs.dropWhile Char.isDigit
  let (fraction, rest) := match rest with
    | '.' :: rest => (rest.takeWhile Char.isDigit, rest.dropWhile Char.isDigit)
    | rest => ([], rest)
  guard !(whole ++ fraction).isEmpty
  let (e, rest) ← Json.exponent rest
  guard rest.isEmpty
  return Binary64.ofDecimal negative (Json.natOfDigits (whole ++ fraction)) (e - fraction.length)

/-- A number without blanks around it; nothing reads as zero. -/
def ofChars? : List Char → Option Float
  | [] => some 0.0
  | '0' :: 'x' :: ds | '0' :: 'X' :: ds => (inBase? 16 ds).map fun n => Binary64.ofInt n
  | '0' :: 'o' :: ds | '0' :: 'O' :: ds => (inBase? 8 ds).map fun n => Binary64.ofInt n
  | '0' :: 'b' :: ds | '0' :: 'B' :: ds => (inBase? 2 ds).map fun n => Binary64.ofInt n
  | '-' :: cs => decimal? true cs
  | '+' :: cs => decimal? false cs
  | cs => decimal? false cs

def read? (s : String) : Option Float :=
  ofChars? (Text.trimChars s.toList)

end OpGraph.Numeral
