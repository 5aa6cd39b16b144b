import OpGraph.Literal
import OpGraph.Types.Element

/-!
Schemas of operators: their inputs, outputs and attributes, and the flat list of parameters against which the
arguments of a call are matched.
-/

namespace OpGraph

inductive FormalOption where
  | single | optional | variadic
  deriving DecidableEq, Repr

def FormalOption.name : FormalOption → String
  | single => "Single"
  | optional => "Optional"
  | variadic => "Variadic"

def FormalOption.ofName? (s : String) : Option FormalOption :=
  [single, optional, variadic].find? (·.name == s)

/-- A formal input or output. Its type is a variable such as `T` or a concrete type such as `tensor(int64)`. -/
structure Formal where
  name : String
  type : String
  option : FormalOption := .single
  homogeneous : Bool := true
  deriving DecidableEq, Repr

/-- Whether the text of a type is a variable. Concrete types carry an element type between parentheses. -/
def isTypeVariable (type : String) : Bool :=
  !type.toList.contains '('

structure AttributeSchema where
  name : String
  type : AttributeType
  required : Bool
  default : Option Literal := none

structure OpSchema where
  name : String
  domain : String
  since : Int
  inputs : List Formal
  outputs : List Formal
  attributes : List AttributeSchema

structure CallParam where
  name : String
  isInput : Bool
  isVariadic : Bool := false
  required : Bool
  default : Option Literal := none
  type : Option AttributeType := none

/-- Inputs come first, then attributes. A variadic input needs at least one argument if it is homogeneous. -/
def OpSchema.params (s : OpSchema) : List CallParam :=
  (s.inputs.map fun f =>
    { name := f.name, isInput := true, isVariadic := f.option == .variadic,
      required := f.option == .single || (f.option == .variadic && f.homogeneous) }) ++
  s.attributes.map fun a =>
    { name := a.name, isInput := false, required := a.required, default := a.default, type := some a.type }

end OpGraph
