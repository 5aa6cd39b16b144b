/-!
Element types of tensors and types of attributes.
-/

namespace OpGraph

inductive ElementType where
  | undefined | float | uint8 | int8 | uint16 | int16 | int32 | int64 | string | bool | float16 | double | uint32
  | uint64 | bfloat16
  deriving DecidableEq, Repr, Inhabited

namespace ElementType

def all : List ElementType :=
  [undefined, float, uint8, int8, uint16, int16, int32, int64, string, bool, float16, double, uint32, uint64, bfloat16]

def code : ElementType → Nat
  | undefined => 0
  | float => 1
  | uint8 => 2
  | int8 => 3
  | uint16 => 4
  | int16 => 5
  | int32 => 6
  | int64 => 7
  | string => 8
  | bool => 9
  | float16 => 10
  | double => 11
  | uint32 => 12
  | uint64 => 13
  | bfloat16 => 16

def name : ElementType → String
  | undefined => "UNDEFINED"
  | float => "FLOAT"
  | uint8 => "UINT8"
  | int8 => "INT8"
  | uint16 => "UINT16"
  | int16 => "INT16"
  | int32 => "INT32"
  | int64 => "INT64"
  | string => "STRING"
  | bool => "BOOL"
  | float16 => "FLOAT16"
  | double => "DOUBLE"
  | uint32 => "UINT32"
  | uint64 => "UINT64"
  | bfloat16 => "BFLOAT16"

/-- The element type of a code; codes without one are undefined. -/
def ofCode (n : Nat) : ElementType :=
  (all.find? (·.code == n)).getD undefined

def ofName? (s : String) : Option ElementType :=
  all.find? (·.name == s)

def isInteger : ElementType → Bool
  | int8 | int16 | int32 | int64 | uint8 | uint16 | uint32 | uint64 => true
  | _ => false

def isFloat : ElementType → Bool
  | float | double | float16 | bfloat16 => true
  | _ => false

end ElementType

inductive AttributeType where
  | undefined | float | int | string | tensor | graph | floats | ints | strings
  deriving DecidableEq, Repr, Inhabited

namespace AttributeType

def all : List AttributeType :=
  [undefined, float, int, string, tensor, graph, floats, ints, strings]

def name : AttributeType → String
  | undefined => "UNDEFINED"
  | float => "FLOAT"
  | int => "INT"
  | string => "STRING"
  | tensor => "TENSOR"
  | graph => "GRAPH"
  | floats => "FLOATS"
  | ints => "INTS"
  | strings => "STRINGS"

def ofName? (s : String) : Option AttributeType :=
  all.find? (·.name == s)

def constantName? : AttributeType → Option String
  | float => some "value_float"
  | int => some "value_int"
  | string => some "value_string"
  | floats => some "value_floats"
  | ints => some "value_ints"
  | strings => some "value_strings"
  | _ => none

end AttributeType

end OpGraph
