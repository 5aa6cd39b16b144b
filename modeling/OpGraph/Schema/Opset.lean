import OpGraph.Number.Shortest
import OpGraph.Schema.Registry

/-!
Operator sets: a domain at a version. The schemas of its operators come from a registry and from the functions that were
added to the set.
-/

namespace OpGraph

/-- Version numbers are integers of 53 significant bits; larger ones are rounded to the nearest such integer, and those
beyond the range of floats all count as `2^1024`. -/
def Version.ofInt (n : Int) : Int :=
  match Binary64.shape (Binary64.ofInt n) with
  | .finite negative m q => (if negative then -1 else 1) * ((m : Int) * Nat.pow 2 q.toNat / Nat.pow 2 (-q).toNat)
  | _ => if n < 0 then -(Nat.pow 2 1024) else Nat.pow 2 1024

def Version.text (v : Int) : String :=
  Shortest.text (Binary64.ofInt v)

structure Opset where
  domain : String
  version : Int
  registry : Registry
  functions : List (String × OpSchema) := []

/-- An operator of a set, with the schema it had when it was looked up. -/
structure Op where
  domain : String
  version : Int
  name : String
  schema : Option OpSchema

namespace Opset

def isDefaultDomain (o : Opset) : Bool :=
  o.domain == ""

/-- Functions of the set hide operators of the registry. -/
def schema? (o : Opset) (name : String) : Option OpSchema :=
  (Members.get? o.functions name).or (o.registry.get? o.domain name (some o.version))

def contains (o : Opset) (name : String) : Bool :=
  (o.schema? name).isSome

def addFunction (o : Opset) (s : OpSchema) : Opset :=
  { o with functions := Members.set o.functions s.name s }

def op (o : Opset) (name : String) : Op :=
  ⟨o.domain, o.version, name, o.schema? name⟩

def text (o : Opset) : String :=
  "Opset('" ++ o.domain ++ "', " ++ Version.text o.version ++ ")"

end Opset

def Op.text (o : Op) : String :=
  if o.domain == "" then o.name else o.domain ++ "." ++ o.name

def Op.params? (o : Op) : Option (List CallParam) :=
  o.schema.map (·.params)

end OpGraph
