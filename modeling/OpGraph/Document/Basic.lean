import OpGraph.Json.Members
import OpGraph.Number.Shortest
import OpGraph.Text.Quoted

/-!
Documents: the trees that models are written from. Large integers are told apart from counts, which are written as
numbers, and a member may be undefined, which leaves it out.
-/

namespace OpGraph

inductive Document where
  | null
  | undefined
  | bool (b : Bool)
  /-- An integer of any size, written as the text of its digits. -/
  | int (i : Int)
  /-- An integer written as a number. -/
  | count (n : Int)
  | number (x : Float)
  | str (s : String)
  | array (items : List Document)
  | object (members : List (String × Document))

namespace Document

instance : Inhabited Document := ⟨null⟩

def isUndefined : Document → Bool
  | undefined => true
  | _ => false

def strings (xs : List String) : Document :=
  array (xs.map str)

def optional (key : String) (d : Option Document) : List (String × Document) :=
  (d.map fun d => (key, d)).toList

end Document

end OpGraph
