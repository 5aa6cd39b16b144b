import OpGraph.Text.Units

/-!
Alternatives in the patterns of names. A mark before a list of alternatives in parentheses says how often one of them is
read: `@` once, `?` at most once, `*` any number of times, `+` at least once, and `!` stands for whatever none of them
reads. A list that is never closed is a text.
-/

namespace OpGraph.Glob

inductive Mark where
  | once | optional | many | atLeastOnce | except
  deriving DecidableEq, Repr

namespace Mark

def char : Mark → Char
  | once => '@'
  | optional => '?'
  | many => '*'
  | atLeastOnce => '+'
  | except => '!'

def ofChar? (c : Char) : Option Mark :=
  [once, optional, many, atLeastOnce, except].find? (·.char == c)

end Mark

inductive NamePart where
  | text (cs : List Char)
  /-- The rest of a pattern from an opening parenthesis that is never closed, with the mark before it. -/
  | unclosed (cs : List Char)
  /-- Alternatives. They are `isOpen` if nothing stands before their closing parenthesis, and `copied` if they were put
  behind the alternatives of an earlier list. -/
  | alternatives (mark : Mark) (isOpen copied : Bool) (choices : List (List NamePart))

namespace NamePart

/-- Characters with whether they can be signs: those after a backslash and those in brackets cannot. `place` counts the
characters after an opening bracket, the first of which may negate the set. -/
def signs (place : Option (Nat × Bool)) : List Char → List (Char × Bool)
  | [] => []
  | '\\' :: c :: cs => ('\\', false) :: (c, false) :: signs (place.map fun (n, negated) => (n + 2, negated)) cs
  | c :: cs =>
    match place with
    | some (n, negated) =>
      let next :=
        if n = 0 then some (1, c = '^' || c = '!')
        else if c = ']' && !(n = 1 && negated) then none
        else some (n + 1, negated)
      (c, false) :: signs next cs
    | none =>
      if c = '[' then (c, false) :: signs (some (0, false)) cs
      else (c, c ≠ '\\') :: signs none cs

def addChar (c : Char) : List (List NamePart) → List (List NamePart)
  | (.text cs :: ps) :: rest => (.text (c :: cs) :: ps) :: rest
  | ps :: rest => (.text [c] :: ps) :: rest
  | [] => [[.text [c]]]

def addPart (p : NamePart) : List (List NamePart) → List (List NamePart)
  | ps :: rest => (p :: ps) :: rest
  | [] => [[p]]

def endsOpen (choices : List (List NamePart)) : Bool :=
  match (choices.getLast?).bind (·.getLast?) with
  | some (text _) => false
  | _ => true

/-- Reads choices up to a closing parenthesis, or a whole pattern if there is none to wait for; the fuel bounds the
length of the text. -/
def read : (fuel : Nat) → (inside : Bool) → List (Char × Bool) → Option (List (List NamePart) × List (Char × Bool))
  | 0, _, _ => none
  | _ + 1, inside, [] => if inside then none else some ([[]], [])
  | fuel + 1, inside, (c, sign) :: cs =>
    let mark := if sign && (cs.head?.map (·.1)) == some '(' then Mark.ofChar? c else none
    match mark with
    | some m =>
      match read fuel true cs.tail with
      | some (choices, rest) => do
        let (following, rest) ← read fuel inside rest
        return (addPart (.alternatives m (endsOpen choices) false choices) following, rest)
      | none => if inside then none else some ([[.unclosed (c :: cs.map (·.1))]], [])
    | none =>
      if inside && sign && c = '|' then do
        let (following, rest) ← read fuel inside cs
        return ([] :: following, rest)
      else if inside && sign && c = ')' then some ([[]], cs)
      else do
        let (following, rest) ← read fuel inside cs
        return (addChar c following, rest)

def ofChars (cs : List Char) : List NamePart :=
  match read (cs.length + 1) false (signs none cs) with
  | some (ps :: _, _) => ps
  | _ => []

def isExcept : NamePart → Bool
  | alternatives .except _ _ _ => true
  | _ => false

mutual
def copy : NamePart → NamePart
  | text cs => text cs
  | unclosed cs => unclosed cs
  | alternatives m _ _ choices => alternatives m false true (copyChoices choices)
def copies : List NamePart → List NamePart
  | [] => []
  | p :: ps => copy p :: copies ps
def copyChoices : List (List NamePart) → List (List NamePart)
  | [] => []
  | c :: cs => copies c :: copyChoices cs
end

mutual
/-- Gives every list that must not be read what follows it, up to the end of the pattern: it is ruled out as a whole. -/
def complete (tail : List NamePart) : NamePart → NamePart
  | alternatives m isOpen copied choices =>
    alternatives m isOpen copied (completeChoices (m = .except) tail choices)
  | p => p
def completeAll (tail : List NamePart) : List NamePart → List NamePart
  | [] => []
  | p :: ps =>
    let ps' := completeAll tail ps
    complete (ps' ++ tail) p :: ps'
def completeChoices (append : Bool) (tail : List NamePart) : List (List NamePart) → List (List NamePart)
  | [] => []
  | c :: cs =>
    let c' := completeAll tail c
    (if append then c' ++ copies tail else c') :: completeChoices append tail cs
end

mutual
def written : NamePart → List Char
  | text cs => cs
  | unclosed cs => cs
  | alternatives m _ _ choices => m.char :: '(' :: writtenChoices choices ++ [')']
def writtenAll : List NamePart → List Char
  | [] => []
  | p :: ps => written p ++ writtenAll ps
def writtenChoices : List (List NamePart) → List Char
  | [] => []
  | [c] => writtenAll c
  | c :: cs => writtenAll c ++ '|' :: writtenChoices cs
end

end NamePart

end OpGraph.Glob
