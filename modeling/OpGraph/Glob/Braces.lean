/-!
Braces in patterns. Braces around a list stand for each of its items in turn, and braces around two bounds for the
numbers or letters from one to the other; all other braces stand for themselves. A backslash takes the meaning from a
brace, a comma, a dot and a backslash.
-/

namespace OpGraph.Glob

/-- A character of a pattern; one after a backslash stands for itself. -/
structure BraceChar where
  char : Char
  escaped : Bool := false
  deriving DecidableEq, Repr

namespace Braces

def opening : BraceChar := ⟨'\x7b', false⟩
def closing : BraceChar := ⟨'\x7d', false⟩
def comma : BraceChar := ⟨',', false⟩

def ofChars : List Char → List BraceChar
  | '\\' :: c :: cs =>
    if c ∈ ['\\', '\x7b', '\x7d', ',', '.'] then ⟨c, true⟩ :: ofChars cs else ⟨'\\', false⟩ :: ofChars (c :: cs)
  | c :: cs => ⟨c, false⟩ :: ofChars cs
  | [] => []

def toChars (bs : List BraceChar) : List Char :=
  bs.map (·.char)

def isLineEnd (c : Char) : Bool :=
  c = '\n' || c = '\r' || c = '\u2028' || c = '\u2029'

/-- Whether a closing brace follows an opening one on its line, without another opening brace between them. -/
def arePresent : List Char → Bool
  | [] => false
  | c :: cs =>
    (c = '\x7b' && (cs.takeWhile fun d => d ≠ '\x7b' && !isLineEnd d).contains '\x7d') || arePresent cs

/-! ### Pairs -/

/-- The place of the brace that closes the group in which a text stands, `depth` groups further in. -/
def closingAt (depth : Nat) : List BraceChar → Option Nat
  | [] => none
  | b :: bs =>
    if b = closing then if depth = 0 then some 0 else (closingAt (depth - 1) bs).map (· + 1)
    else if b = opening then (closingAt (depth + 1) bs).map (· + 1)
    else (closingAt depth bs).map (· + 1)

/-- The first opening brace that is closed, with what stands before it, in it and after it. -/
def split? : List BraceChar → Option (List BraceChar × List BraceChar × List BraceChar)
  | [] => none
  | b :: bs =>
    match if b = opening then closingAt 0 bs else none with
    | some n => some ([], bs.take n, bs.drop (n + 1))
    | none => (split? bs).map fun (before, body, after) => (b :: before, body, after)

/-- Items between the commas outside inner braces; `depth` counts the braces that are open. -/
def items (depth : Nat) : List BraceChar → List (List BraceChar)
  | [] => [[]]
  | b :: bs =>
    if b = comma ∧ depth = 0 then [] :: items 0 bs
    else
      let depth := if b = opening ∧ (closingAt 0 bs).isSome then depth + 1 else if b = closing then depth - 1 else depth
      match items depth bs with
      | i :: is => (b :: i) :: is
      | [] => [[b]]

/-! ### Sequences -/

def dotParts : List BraceChar → List (List BraceChar)
  | ⟨'.', false⟩ :: ⟨'.', false⟩ :: bs => [] :: dotParts bs
  | b :: bs =>
    match dotParts bs with
    | p :: ps => (b :: p) :: ps
    | [] => [[b]]
  | [] => [[]]

def digits? (bs : List BraceChar) : Option (Bool × List Char) :=
  if bs.any (·.escaped) then none
  else
    let (negative, ds) := match toChars bs with
      | '-' :: ds => (true, ds)
      | ds => (false, ds)
    if !ds.isEmpty && ds.all Char.isDigit then some (negative, ds) else none

def number? (bs : List BraceChar) : Option Int := do
  let (negative, ds) ← digits? bs
  let n : Nat := ds.foldl (fun n d => 10 * n + (d.toNat - 48)) 0
  return if negative then -(n : Int) else n

def isPadded (bs : List BraceChar) : Bool :=
  match digits? bs with
  | some (_, '0' :: _ :: _) => true
  | _ => false

def letter? : List BraceChar → Option Char
  | [b] => if !b.escaped && b.char.isAlpha then some b.char else none
  | _ => none

def range (first last : Int) (step : Nat) : List Int :=
  let step := max step 1
  (List.range ((last - first).natAbs / step + 1)).map fun (k : Nat) =>
    if last < first then first - k * step else first + k * step

def padded (width : Nat) (i : Int) : List Char :=
  let text := (toString i).toList
  let zeros := List.replicate (width - text.length) '0'
  match text with
  | '-' :: ds => '-' :: zeros ++ ds
  | ds => zeros ++ ds

def numbers (parts : List (List BraceChar)) (first last : Int) (step : Nat) : List (List Char) :=
  let width := if parts.any isPadded then ((parts.take 2).map List.length).foldl max 0 else 0
  (range first last step).map (padded width)

/-- The letters from one to the other by their codes; a backslash between them stands for nothing. -/
def letters (first last : Char) (step : Nat) : List (List Char) :=
  (range first.toNat last.toNat step).map fun i =>
    let c := Char.ofNat i.toNat
    if c = '\\' then [] else [c]

/-- The members of a sequence, if braces hold one: two bounds and perhaps a step. -/
def sequence? (body : List BraceChar) : Option (List (List Char)) :=
  let parts := dotParts body
  let between (a b : List BraceChar) (step : Nat) : Option (List (List Char)) :=
    match number? a, number? b, letter? a, letter? b with
    | some m, some n, _, _ => some (numbers parts m n step)
    | _, _, some c, some d => some (letters c d step)
    | _, _, _, _ => none
  match parts with
  | [a, b] => between a b 1
  | [a, b, c] => (number? c).bind fun step => between a b step.natAbs
  | _ => none

/-! ### Expansion -/

/-- Whether a closing brace stands after a comma on its line, so that an earlier one can be a part of a list. -/
def hasLaterItem : List BraceChar → Bool
  | [] => false
  | b :: bs =>
    (b = comma && (bs.takeWhile fun b => b.escaped || !isLineEnd b.char).contains closing) || hasLaterItem bs

/-- The texts that a text with braces stands for, of which the fuel bounds the length and the closing braces. -/
def expandWith : (fuel : Nat) → List BraceChar → List (List BraceChar)
  | 0, bs => [bs]
  | fuel + 1, bs =>
    match split? bs with
    | none => [bs]
    | some (before, body, after) =>
      let ends := if after.isEmpty then [[]] else expandWith fuel after
      let join (middles : List (List BraceChar)) : List (List BraceChar) :=
        middles.flatMap fun m => ends.map fun e => before ++ m ++ e
      if before.getLast? = some ⟨'$', false⟩ then join [opening :: body ++ [closing]]
      else match sequence? body with
        | some ms => join (ms.map fun m => m.map fun c => ⟨c, false⟩)
        | none =>
          if !body.contains comma then
            if hasLaterItem after then expandWith fuel (before ++ opening :: body ++ ⟨'\x7d', true⟩ :: after)
            else [bs]
          else match items 0 body with
            | [item] =>
              match (expandWith fuel item).map fun i => opening :: i ++ [closing] with
              | [one] => join [one]
              | several => join (several.flatMap (expandWith fuel))
            | several => join (several.flatMap (expandWith fuel))

end Braces

/-- The patterns without lists and sequences in braces that a pattern stands for. Empty braces at the front stand for
themselves. -/
def expandBraces (pattern : List Char) : List (List Char) :=
  if Braces.arePresent pattern then
    let bs := match pattern with
      | '\x7b' :: '\x7d' :: cs => ⟨'\x7b', true⟩ :: ⟨'\x7d', true⟩ :: Braces.ofChars cs
      | cs => Braces.ofChars cs
    ((Braces.expandWith (2 * bs.length + 1) bs).map Braces.toChars).eraseDups
  else [pattern]

end OpGraph.Glob
