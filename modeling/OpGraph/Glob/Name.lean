import OpGraph.Glob.Expression

/-!
Patterns of names. A pattern without signs is the name itself, and two stars stand for any number of directories.
-/

namespace OpGraph.Glob

inductive NamePattern where
  | anyDepth
  | exactly (name : String)
  /-- A regular expression: its sequences, the first of which is read from the start of a name and the last up to its
  end. -/
  | expression (choices : List (List Regex)) (wide : Bool)

namespace NamePattern

def isPlain (cs : List Char) : Bool :=
  !cs.any fun c => c ∈ ['+', '@', '!', '?', '*', '[', '(']

/-- A row of one sign and a text after it, in which a backslash stands for itself. -/
def ofRow (row : Regex) (tail : List Char) : NamePattern :=
  .expression [.group .absent [[.symbol 46]] :: row :: tail.map fun c => .symbol (Text.leadUnit c)] false

def unescape : List Char → List Char
  | '\\' :: c :: cs => c :: unescape cs
  | c :: cs => c :: unescape cs
  | [] => []

/-- The pattern that a text spells, or the reason why its expression cannot be used. -/
def ofText (pattern : List Char) : Except String NamePattern :=
  let cs := (pattern.flatMap Text.unitsOf).map Text.ofUnit
  let stars := cs.takeWhile (· = '*')
  let marks := cs.takeWhile (· = '?')
  if cs = ['*', '*'] then .ok .anyDepth
  else if !stars.isEmpty && isPlain (cs.drop stars.length) then .ok (ofRow (.run false) (cs.drop stars.length))
  else if !marks.isEmpty && isPlain (cs.drop marks.length) then
    .ok (ofRow (.group .once [marks.map fun _ => .anySymbol]) (cs.drop marks.length))
  else
    let e := Expression.ofPattern false cs
    let joined (cs : List Char) : String := String.ofList (Text.ofUnits (cs.map Text.leadUnit))
    if !e.magic then .ok (.exactly (joined (unescape e.text)))
    else if !e.wide then .ok (.expression e.choices false)
    else if e.strayEscape then .error ("Invalid regular expression: /^" ++ joined e.text ++ "$/u: Invalid escape")
    else .ok (.expression (Expression.ofPattern true cs).choices true)

/-- Whether a sequence can be read at the front of a name, up to its end if it is the last one. -/
def readsFrom (name : List Nat) (sequence : List Regex) (last : Bool) : Bool :=
  !(Regex.sequenceRests (if last then sequence ++ [.stop] else sequence) name).isEmpty

def fitsLater (name : List Nat) : List (List Regex) → Bool
  | [] => false
  | c :: cs => (Regex.tails name).any (readsFrom · c cs.isEmpty) || fitsLater name cs

def fits (name : String) : NamePattern → Bool
  | anyDepth => false
  | exactly s => s = name
  | expression choices wide =>
    let us := if wide then Text.joinPairs (Text.units name) else Text.units name
    match choices with
    | [] => false
    | c :: cs => readsFrom us c cs.isEmpty || fitsLater us cs

end NamePattern

end OpGraph.Glob
