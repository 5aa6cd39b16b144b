/-!
Literal values of scripts. Integers have any size and are never equal to floats as literals.
-/

namespace OpGraph

inductive Literal where
  | none
  | bool (b : Bool)
  | int (i : Int)
  | float (x : Float)
  | str (s : String)
  | list (items : List Literal)
  deriving Inhabited

end OpGraph
