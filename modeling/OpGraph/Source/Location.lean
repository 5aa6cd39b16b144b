/-!
Places in a script. Lines are counted from one and columns, in UTF-16 units, from zero.
-/

namespace OpGraph

structure Position where
  line : Nat
  column : Nat
  deriving DecidableEq, Repr, Inhabited

/-- A position together with the top-level function it lies in, where that is known. -/
structure Location where
  line : Nat
  column : Nat
  function : Option String := none
  deriving DecidableEq, Repr

def Position.location (p : Position) : Location where
  line := p.line
  column := p.column

namespace Source

def lines : List Char → List (List Char)
  | [] => [[]]
  | c :: cs =>
    if c = '\n' then [] :: lines cs
    else match lines cs with
      | [] => [[c]]
      | l :: ls => (c :: l) :: ls

def line? (source : String) (n : Nat) : Option (List Char) :=
  if n = 0 then none else (lines source.toList)[n - 1]?

/-- Every end of line becomes a line feed: `\r\n` and a lone `\r` too. -/
def normalize : List Char → List Char
  | '\r' :: '\n' :: cs => '\n' :: normalize cs
  | '\r' :: cs => '\n' :: normalize cs
  | c :: cs => c :: normalize cs
  | [] => []

theorem lines_ne_nil (cs : List Char) : lines cs ≠ [] := by
  cases cs with
  | nil => simp [lines]
  | cons c cs =>
    unfold lines
    split
    · simp
    · split <;> simp

end Source

/-- How messages show a location: where it is, then the line of the source and a caret under the column. The last two
are left out when there is no source or it has no such line. -/
def Location.format (l : Location) (source : Option String) : String :=
  let place := match l.function with
    | some f => s!"at: Function '{f}', line {l.line}"
    | none => s!"at: Line {l.line}"
  match source.bind (Source.line? · l.line) with
  | some text => place ++ "\n" ++ String.ofList text ++ "\n" ++ String.ofList (List.replicate l.column ' ') ++ "^"
  | none => place

end OpGraph
