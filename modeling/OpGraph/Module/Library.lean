import OpGraph.Evaluation
import OpGraph.Schema.Default

/-!
The library that scripts import: names of types, operator sets of the default domain, and the maker of other operator
sets.
-/

namespace OpGraph.Library

def name : String := "graphscript"

def typesName : String := name ++ ".types"

/-- Latest version of the default domain that has a name in the library. -/
def latestVersion : Nat := 18

def tensorTypes : List (String × Value) :=
  (ElementType.all.filter (· ≠ .undefined)).map fun t => (t.name, .type none (.tensor t none))

def scalarTypes : List (String × Value) :=
  [ScalarType.int, .float, .str, .bool].map fun t => (t.name, .type none (.scalar t))

def genericTypes : List (String × Value) :=
  [Generic.sequence .upperList, .sequence .lowerList, .sequence .sequence, .upperTuple, .lowerTuple, .optional].map
    fun g => (g.name, .generic none g)

def typeNames : Globals :=
  tensorTypes ++ scalarTypes ++ genericTypes

def types : Value :=
  .module none typesName typeNames

def opsets (registry : Registry) : List (String × Value) :=
  (List.range latestVersion).map fun (i : Nat) =>
    ("opset" ++ toString (i + 1), .opset none { domain := "", version := (i : Int) + 1, registry })

def module (registry : Registry) : Value :=
  .module none name
    (typeNames ++ opsets registry ++ [("Opset", .builtin none ⟨"Opset", registry⟩), ("types", types)])

end OpGraph.Library
