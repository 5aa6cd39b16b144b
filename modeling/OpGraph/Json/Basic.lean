import OpGraph.Json.Members

/-!
JSON values as read from a document. Numbers are 64-bit floats, and the members of an object are listed in the order of
`Members.ofList`.
-/

namespace OpGraph

inductive Json where
  | null
  | bool (b : Bool)
  | number (x : Float)
  | string (s : String)
  | array (items : List Json)
  | object (members : List (String × Json))

namespace Json

def get? (key : String) : Json → Option Json
  | .object ms => Members.get? ms key
  | _ => none

def kind : Json → String
  | .null => "null"
  | .bool _ => "boolean"
  | .number _ => "number"
  | .string _ => "string"
  | .array _ => "array"
  | .object _ => "object"

end Json

end OpGraph
