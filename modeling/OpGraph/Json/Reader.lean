import OpGraph.Json.Basic
import OpGraph.Number.Binary64
import OpGraph.Text.Units

/-!
Strict reader of JSON text. Blanks are space, tab, line feed and carriage return; numbers follow the grammar of the
format, without leading zeros or plus signs; strings hold no control characters; nothing follows the value.
-/

namespace OpGraph.Json

/-- A reader consumes characters from the front of a text and fails without a reason. -/
abbrev Reader (α : Type) := List Char → Option (α × List Char)

def isBlank (c : Char) : Bool :=
  c = ' ' || c = '\t' || c = '\n' || c = '\r'

def skipBlank (cs : List Char) : List Char :=
  cs.dropWhile isBlank

def hexValue (c : Char) : Option Nat :=
  if '0' ≤ c ∧ c ≤ '9' then some (c.toNat - 48)
  else if 'a' ≤ c ∧ c ≤ 'f' then some (c.toNat - 87)
  else if 'A' ≤ c ∧ c ≤ 'F' then some (c.toNat - 55)
  else none

def natOfDigits (ds : List Char) : Nat :=
  ds.foldl (fun n d => 10 * n + (d.toNat - 48)) 0

def hexUnit : Reader Nat
  | a :: b :: c :: d :: rest => do
    let a ← hexValue a
    let b ← hexValue b
    let c ← hexValue c
    let d ← hexValue d
    return (4096 * a + 256 * b + 16 * c + d, rest)
  | _ => none

def stringUnits : Nat → Reader (List Nat)
  | 0, _ => none
  | fuel + 1, cs =>
    match cs with
    | '"' :: rest => some ([], rest)
    | '\\' :: 'u' :: rest => do
      let (u, rest) ← hexUnit rest
      let (us, rest) ← stringUnits fuel rest
      return (u :: us, rest)
    | '\\' :: c :: rest => do
      let u ← simpleEscape c
      let (us, rest) ← stringUnits fuel rest
      return (u :: us, rest)
    | c :: rest =>
      if c = '\\' ∨ c.toNat < 0x20 then none
      else do
        let (us, rest) ← stringUnits fuel rest
        return (Text.unitsOf c ++ us, rest)
    | [] => none
where
  simpleEscape (c : Char) : Option Nat :=
    match c with
    | '"' => some 34
    | '\\' => some 92
    | '/' => some 47
    | 'b' => some 8
    | 'f' => some 12
    | 'n' => some 10
    | 'r' => some 13
    | 't' => some 9
    | _ => none

def stringText : Reader String := fun cs => do
  let (us, rest) ← stringUnits (cs.length + 1) cs
  return (String.ofList (Text.ofUnits us), rest)

def exponent : Reader Int
  | c :: rest =>
    if c = 'e' ∨ c = 'E' then
      let (negative, rest) := match rest with
        | '-' :: rest => (true, rest)
        | '+' :: rest => (false, rest)
        | rest => (false, rest)
      let ds := rest.takeWhile Char.isDigit
      if ds.isEmpty then none
      else
        let n : Int := natOfDigits ds
        some (if negative then -n else n, rest.dropWhile Char.isDigit)
    else some (0, c :: rest)
  | [] => some (0, [])

def magnitude (negative : Bool) : Reader Float := fun cs => do
  let whole := cs.takeWhile Char.isDigit
  let cs := cs.dropWhile Char.isDigit
  guard (!whole.isEmpty && (whole.head? ≠ some '0' || whole.length = 1))
  let (fraction, cs) ← match cs with
    | '.' :: rest =>
      let ds := rest.takeWhile Char.isDigit
      if ds.isEmpty then none else some (ds, rest.dropWhile Char.isDigit)
    | cs => some ([], cs)
  let (e, cs) ← exponent cs
  return (Binary64.ofDecimal negative (natOfDigits (whole ++ fraction)) (e - fraction.length), cs)

def numberText : Reader Float
  | '-' :: rest => magnitude true rest
  | cs => magnitude false cs

def word (w : List Char) (v : Json) : Reader Json := fun cs =>
  if w.isPrefixOf cs then some (v, cs.drop w.length) else none

mutual
def value : Nat → Reader Json
  | 0, _ => none
  | fuel + 1, cs =>
    match cs with
    | '"' :: rest => do
      let (s, rest) ← stringText rest
      return (.string s, rest)
    | '[' :: rest =>
      match skipBlank rest with
      | ']' :: rest => some (.array [], rest)
      | rest => do
        let (items, rest) ← items fuel rest
        return (.array items, rest)
    | '\x7b' :: rest =>
      match skipBlank rest with
      | '\x7d' :: rest => some (.object [], rest)
      | rest => do
        let (entries, rest) ← entries fuel rest
        return (.object (Members.ofList entries), rest)
    | 't' :: _ => word ['t', 'r', 'u', 'e'] (.bool true) cs
    | 'f' :: _ => word ['f', 'a', 'l', 's', 'e'] (.bool false) cs
    | 'n' :: _ => word ['n', 'u', 'l', 'l'] .null cs
    | cs => do
      let (x, rest) ← numberText cs
      return (.number x, rest)
def items : Nat → Reader (List Json)
  | 0, _ => none
  | fuel + 1, cs => do
    let (v, rest) ← value fuel (skipBlank cs)
    match skipBlank rest with
    | ',' :: rest =>
      let (vs, rest) ← items fuel rest
      return (v :: vs, rest)
    | ']' :: rest => return ([v], rest)
    | _ => none
def entries : Nat → Reader (List (String × Json))
  | 0, _ => none
  | fuel + 1, cs =>
    match skipBlank cs with
    | '"' :: rest => do
      let (key, rest) ← stringText rest
      match skipBlank rest with
      | ':' :: rest =>
        let (v, rest) ← value fuel (skipBlank rest)
        match skipBlank rest with
        | ',' :: rest =>
          let (ms, rest) ← entries fuel rest
          return ((key, v) :: ms, rest)
        | '\x7d' :: rest => return ([(key, v)], rest)
        | _ => none
      | _ => none
    | _ => none
end

def read? (text : String) : Option Json := do
  let cs := skipBlank text.toList
  let (v, rest) ← value (2 * cs.length + 2) cs
  guard (skipBlank rest).isEmpty
  return v

end OpGraph.Json
