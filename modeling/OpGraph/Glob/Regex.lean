import OpGraph.Text.Category

/-!
Regular expressions over the symbols of a name. A symbol is a UTF-16 unit or a code point, and a name is the list of its
symbols, none of which is a slash. Matching follows every way of reading an expression at once: the meaning of an
expression at the front of a name is the list of what it can leave unread.
-/

namespace OpGraph.Glob

inductive SetItem where
  | range (first last : Nat)
  | category (c : Text.Category)
  deriving DecidableEq, Repr

def SetItem.contains (u : Nat) : SetItem → Bool
  | range first last => first ≤ u && u ≤ last
  | category c => c.contains u

inductive Quantity where
  | once | optional | many | atLeastOnce
  /-- The group must not be readable here, and nothing is read. -/
  | absent
  deriving DecidableEq, Repr

inductive Regex where
  | symbol (u : Nat)
  | anySymbol
  /-- Any number of symbols; at least one if `nonempty`. -/
  | run (nonempty : Bool)
  | set (negated : Bool) (items : List SetItem)
  | stop
  /-- What no name has. -/
  | never
  | group (q : Quantity) (choices : List (List Regex))

namespace Regex

def tails {α : Type} : List α → List (List α)
  | [] => [[]]
  | x :: xs => (x :: xs) :: tails xs

/-- One of each length: rests of one name are told apart by their lengths. -/
def distinct : List (List Nat) → List (List Nat)
  | [] => []
  | s :: ss => s :: (distinct ss).filter (·.length ≠ s.length)

/-- The rests that a step leaves when it is taken again and again, with fuel for the length of the name. -/
def closure (step : List Nat → List (List Nat)) : (fuel : Nat) → List Nat → List (List Nat)
  | 0, s => [s]
  | fuel + 1, s =>
    distinct (s :: ((step s).filter (·.length < s.length)).flatMap (closure step fuel))

def readSymbol (accepts : Nat → Bool) : List Nat → List (List Nat)
  | u :: s => if accepts u then [s] else []
  | [] => []

mutual
def rests : Regex → List Nat → List (List Nat)
  | symbol u, s => readSymbol (· == u) s
  | anySymbol, s => readSymbol (fun _ => true) s
  | run nonempty, s => if nonempty then (tails s).drop 1 else tails s
  | set negated items, s => readSymbol (fun u => items.any (·.contains u) != negated) s
  | stop, s => if s.isEmpty then [s] else []
  | never, _ => []
  | group q choices, s =>
    match q with
    | .once => choiceRests choices s
    | .optional => s :: choiceRests choices s
    | .many => closure (fun s => choiceRests choices s) s.length s
    | .atLeastOnce => (choiceRests choices s).flatMap fun s => closure (fun s => choiceRests choices s) s.length s
    | .absent => if (choiceRests choices s).isEmpty then [s] else []
def sequenceRests : List Regex → List Nat → List (List Nat)
  | [], s => [s]
  | r :: rs, s => distinct ((rests r s).flatMap fun s => sequenceRests rs s)
def choiceRests : List (List Regex) → List Nat → List (List Nat)
  | [], _ => []
  | c :: cs, s => sequenceRests c s ++ choiceRests cs s
end

end Regex

end OpGraph.Glob
