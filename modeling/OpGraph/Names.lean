/-!
Supplies of unique value names. A candidate that is taken gets the next free number of a counter that all candidates
share.
-/

namespace OpGraph

/-- Names that are taken, and the counter for the next ones. -/
structure Names where
  used : List String := []
  counter : Nat := 0
  deriving DecidableEq, Repr

namespace Names

def numbered (candidate : String) (k : Nat) : String :=
  candidate ++ "_" ++ toString k

def contains (ns : Names) (name : String) : Bool :=
  ns.used.contains name

def reserve (ns : Names) (name : String) : Names :=
  { ns with used := if ns.used.contains name then ns.used else name :: ns.used }

def reset (_ : Names) : Names :=
  {}

/-- The least number from `k` on whose name is free; `tries` bounds the numbers that are passed over. -/
def freeNumber (used : List String) (candidate : String) : (tries k : Nat) → Nat
  | 0, k => k
  | tries + 1, k =>
    if used.contains (numbered candidate k) then freeNumber used candidate tries (k + 1) else k

/-- The candidate if it is free, or else the candidate with the next free number. As many numbers as there are taken
names can be passed over at most. -/
def generate (ns : Names) (candidate : String) : String × Names :=
  if ns.used.contains candidate then
    let k := freeNumber ns.used candidate ns.used.length ns.counter
    let name := numbered candidate k
    (name, { used := name :: ns.used, counter := k + 1 })
  else (candidate, { ns with used := candidate :: ns.used })

end Names

end OpGraph
