import OpGraph.Fault.Code

/-!
Faults of values: of constant expressions, of type annotations, of tensors and of attributes.
-/

namespace OpGraph

inductive EvalFault where
  | unboundName (name : String)
  | operand (operator type : String)
  | matrixOperands
  | divisionByZero
  | invertFloat
  | notIterable (type : String)
  | notLiteral (type : String)
  | noAttribute (type attr : String)
  | indexRange
  | notSubscriptable (type : String)
  | slice
  | notCallable (type : String)
  | opsetArguments
  | shaped (type : String)
  | dimension (text : String)
  | typeArgument (generic : String)
  | typeArity (generic : String)
  deriving DecidableEq, Repr

namespace EvalFault

def code : EvalFault → ErrorCode
  | unboundName _ => .unboundName
  | slice | notCallable _ => .unsupportedConstruct
  | typeArity _ => .arityError
  | _ => .typeMismatch

def message : EvalFault → String
  | unboundName name => s!"Unbound name: {name}."
  | operand operator type => s!"Unsupported operand type for {operator}: '{type}'."
  | matrixOperands => "Unsupported operand types for @."
  | divisionByZero => "Division by zero."
  | invertFloat => "Bad operand type for unary ~: 'float'."
  | notIterable type => s!"Argument of type '{type}' is not iterable."
  | notLiteral type => s!"Expected a literal value, got '{type}'."
  | noAttribute type attr => s!"'{type}' object has no attribute '{attr}'."
  | indexRange => "List index out of range."
  | notSubscriptable type => s!"'{type}' object is not subscriptable."
  | slice => "Slices cannot be evaluated as constants."
  | notCallable type => s!"'{type}' cannot be called in a constant expression."
  | opsetArguments => "Opset(domain, version) takes a string and an integer."
  | shaped type => s!"Type {type} already has a shape."
  | dimension text => s!"Invalid dimension {text}."
  | typeArgument generic => s!"Invalid type argument for {generic}."
  | typeArity generic => s!"{generic}[...] takes exactly one type argument."

end EvalFault

inductive TensorFault where
  | size (shape needed given : String)
  | element (type : String)
  | emptyLiteral
  | mixedLiteral
  | conversion (value target : String)
  | elementType (name : String)
  | attributeNone (name : String)
  | attributeEmpty (name : String)
  | attributeElement (name : String)
  | attributeMixed (name : String)
  deriving DecidableEq, Repr

namespace TensorFault

def code : TensorFault → ErrorCode
  | emptyLiteral | attributeEmpty _ => .emptyList
  | _ => .typeMismatch

def message : TensorFault → String
  | size shape needed given => s!"Tensor of shape [{shape}] needs {needed} elements, got {given}."
  | element type => s!"Tensor element of type {type} not supported."
  | emptyLiteral => "Cannot determine target type for empty list."
  | mixedLiteral => "Cannot convert a list with elements of different types to tensor."
  | conversion value target => s!"Cannot convert {value} to {target}."
  | elementType name => s!"Unsupported element type {name}."
  | attributeNone name => s!"Attribute {name} cannot be None."
  | attributeEmpty name => s!"Cannot infer the type of attribute {name} from an empty list."
  | attributeElement name => s!"Unsupported element in list attribute {name}."
  | attributeMixed name => s!"Mixed element types in list attribute {name}."

end TensorFault

end OpGraph
