/-!
Alphabetical order of texts. Punctuation comes before digits and digits before letters; letters are compared without
case first, and only between texts that are otherwise equal a small letter comes before the capital one.
-/

namespace OpGraph.Text

/-- Characters that are not letters, in alphabetical order. -/
def collationTable : List Char :=
  "\t\n\x0b\x0c\r _-,;:!?.'\"()[]\x7b\x7d@*/\\&#%`^+<=>|~$0123456789".toList

/-- Rank of a character without its case; control characters have none. Characters outside the table come last. -/
def rank? (c : Char) : Option Nat :=
  match collationTable.idxOf? c with
  | some i => some i
  | none =>
    if c.isAlpha then some (100 + c.toLower.toNat)
    else if c.toNat < 0x20 ∨ c.toNat = 0x7f then none
    else some (1000 + c.toNat)

def collationKey (s : String) : List Nat × List Nat :=
  let cs := s.toList.filter fun c => (rank? c).isSome
  (cs.map fun c => (rank? c).getD 0, cs.map fun c => if c.isUpper then 1 else 0)

def collationLe (a b : String) : Bool :=
  let (ra, ca) := collationKey a
  let (rb, cb) := collationKey b
  decide (ra < rb) || (ra == rb && !decide (cb < ca))

end OpGraph.Text
