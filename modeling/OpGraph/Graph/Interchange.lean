import OpGraph.Tensor
import OpGraph.Types.Declared

/-!
The interchange form of graphs, functions and models: plain data, with graphs nested in the attributes of nodes.
-/

namespace OpGraph.Interchange

/-- The elements of a constant tensor, by the way they are stored. Truth values are stored as 32-bit integers. -/
inductive TensorData where
  | int32 (xs : List Int)
  | int64 (xs : List Int)
  | float (xs : List Float)
  | double (xs : List Float)
  | string (xs : List String)
  | absent

structure Tensor where
  name : String
  elementType : ElementType
  dims : List Int
  data : TensorData

inductive ValueType where
  | tensor (element : ElementType) (shape : Option (List Dim))
  | sequence (of : ValueType)
  | optional (of : ValueType)

instance : Inhabited ValueType := ⟨.tensor .undefined none⟩

structure ValueInfo where
  name : String
  type : Option ValueType := none

mutual
inductive AttributeValue where
  | float (x : Float)
  | int (i : Int)
  | string (s : String)
  | tensor (t : Tensor)
  | graph (g : Graph)
  | floats (xs : List Float)
  | ints (xs : List Int)
  | strings (xs : List String)
  | reference (name : String)
  | absent

structure Attribute where
  name : String
  type : AttributeType
  value : AttributeValue

structure Node where
  opType : String
  domain : String
  inputs : List String
  outputs : List String
  attributes : List Attribute

structure Graph where
  name : String
  nodes : List Node
  inputs : List ValueInfo
  outputs : List ValueInfo
  initializers : List Tensor
  doc : Option String
end

instance : Inhabited Attribute := ⟨⟨"", .undefined, .absent⟩⟩

instance : Inhabited Graph := ⟨⟨"", [], [], [], [], none⟩⟩

structure OpsetImport where
  domain : String
  version : Int
  deriving DecidableEq, Repr

structure Function where
  name : String
  domain : String
  inputs : List String
  outputs : List String
  attributes : List String
  defaults : List Attribute
  nodes : List Node
  imports : List OpsetImport
  doc : Option String

structure Model where
  irVersion : Int
  producer : String
  imports : List OpsetImport
  graph : Graph
  functions : List Function

/-- The type of the value of an annotation; attribute types have none. -/
def ValueType.ofDeclared? : DeclaredType → Option ValueType
  | .tensor element shape => some (.tensor element shape)
  | .sequence of _ => (ofDeclared? of).map .sequence
  | .optional of => (ofDeclared? of).map .optional
  | _ => none

/-- The tensor that a `Constant` node holds for a literal. Floats are kept unrounded. -/
def Tensor.ofLiteral (name : String) (v : Literal) : Except Error Tensor := do
  let type ← v.elementType
  let tensor ← v.toTensor (some type)
  let data := match type with
    | .bool => TensorData.int32 (tensor.data.map fun e => match e with
      | .bool true => 1
      | _ => 0)
    | .int64 => .int64 (tensor.data.filterMap fun e => match e with
      | .int i => some i
      | _ => none)
    | .float => .float (v.elements.filterMap fun e => match e with
      | .float x => some x
      | _ => none)
    | _ => .string (tensor.data.map TensorElement.text)
  return ⟨name, type, v.dims, data⟩

end OpGraph.Interchange
