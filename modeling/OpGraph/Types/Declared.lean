import OpGraph.Types.Element

/-!
Type annotations of scripts. Scalar types and lists of them make a parameter an attribute, tensor types and sequences
and options of them make it a graph value; a tuple lists the types of several results.
-/

namespace OpGraph

inductive Dim where
  | size (n : Int)
  | symbol (s : String)
  | unknown
  deriving DecidableEq, Repr

inductive ScalarType where
  | int | float | str | bool
  deriving DecidableEq, Repr

inductive SequenceSpelling where
  | upperList | lowerList | sequence
  deriving DecidableEq, Repr

inductive DeclaredType where
  | tensor (element : ElementType) (shape : Option (List Dim))
  | scalar (t : ScalarType)
  | sequence (of : DeclaredType) (spelling : SequenceSpelling)
  | tuple (elts : List DeclaredType)
  | optional (of : DeclaredType)
  deriving Repr

/-- A generic type before it is given its arguments. -/
inductive Generic where
  | sequence (spelling : SequenceSpelling)
  | upperTuple
  | lowerTuple
  | optional
  deriving DecidableEq, Repr

def ScalarType.name : ScalarType → String
  | int => "int"
  | float => "float"
  | str => "str"
  | bool => "bool"

def SequenceSpelling.name : SequenceSpelling → String
  | upperList => "List"
  | lowerList => "list"
  | sequence => "Sequence"

def Generic.name : Generic → String
  | sequence s => s.name
  | upperTuple => "Tuple"
  | lowerTuple => "tuple"
  | optional => "Optional"

def Dim.text : Dim → String
  | size n => toString n
  | symbol s => s
  | unknown => "None"

namespace DeclaredType

mutual
def text : DeclaredType → String
  | tensor element none => element.name
  | tensor element (some dims) => element.name ++ "[" ++ ",".intercalate (dims.map Dim.text) ++ "]"
  | scalar t => t.name
  | sequence of spelling => spelling.name ++ "[" ++ of.text ++ "]"
  | tuple elts => "tuple[" ++ ", ".intercalate (texts elts) ++ "]"
  | optional of => "Optional[" ++ of.text ++ "]"
def texts : List DeclaredType → List String
  | [] => []
  | t :: ts => t.text :: texts ts
end

def isAttr : DeclaredType → Bool
  | scalar _ => true
  | sequence (scalar t) _ => t != .bool
  | _ => false

def isValue : DeclaredType → Bool
  | tensor .. => true
  | optional of => of.isValue
  | sequence of _ => of.isValue
  | _ => false

mutual
def isValid : DeclaredType → Bool
  | tuple elts => allValid elts
  | t => t.isAttr || t.isValue
def allValid : List DeclaredType → Bool
  | [] => true
  | t :: ts => t.isValid && allValid ts
end

/-- The type of the attribute that a parameter of this type becomes. -/
def attributeType : DeclaredType → AttributeType
  | scalar .int | scalar .bool => .int
  | scalar .float => .float
  | scalar .str => .string
  | sequence (scalar .int) _ => .ints
  | sequence (scalar .float) _ => .floats
  | sequence (scalar .str) _ => .strings
  | _ => .undefined

def results : DeclaredType → List DeclaredType
  | tuple elts => elts
  | t => [t]

def kind : DeclaredType → String
  | tensor .. => "tensor"
  | scalar _ => "scalar"
  | sequence .. => "sequence"
  | tuple _ => "tuple"
  | optional _ => "optional"

end DeclaredType

end OpGraph
