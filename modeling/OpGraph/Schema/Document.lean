import OpGraph.Error
import OpGraph.Json.Reader
import OpGraph.Schema.Registry
import OpGraph.Validation

/-!
Documents that describe the operators of a domain, their validation, and registries that are loaded from them.
-/

namespace OpGraph

inductive DefaultValue where
  | number (x : Float)
  | string (s : String)
  | numbers (xs : List Float)
  | strings (ss : List String)

structure AttributeEntry where
  name : String
  type : AttributeType
  required : Bool
  default : Option DefaultValue

structure OperatorEntry where
  name : String
  since : Int
  inputs : List Formal
  outputs : List Formal
  attributes : List AttributeEntry

/-- The text that tells an operator in one version from others. -/
def OperatorEntry.label (o : OperatorEntry) : String :=
  o.name ++ "@" ++ toString o.since

structure OpsetDocument where
  domain : String
  version : Int
  operators : List OperatorEntry

namespace DefaultValue

def json : DefaultValue → Json
  | number x => .number x
  | string s => .string s
  | numbers xs => .array (xs.map .number)
  | strings ss => .array (ss.map .string)

def finite? : Json → Option Float
  | .number x => if x.isFinite then some x else none
  | _ => none

def text? : Json → Option String
  | .string s => some s
  | _ => none

def ofJson? : Json → Option DefaultValue
  | .number x => (finite? (.number x)).map number
  | .string s => some (string s)
  | .array js => ((js.mapM finite?).map numbers).or ((js.mapM text?).map strings)
  | _ => none

def hasType : AttributeType → DefaultValue → Bool
  | .int, number x => (Binary64.toInt? x).isSome
  | .float, number _ => true
  | .string, string _ => true
  | .ints, numbers xs => xs.all fun x => (Binary64.toInt? x).isSome
  | .ints, strings ss => ss.isEmpty
  | .floats, numbers _ => true
  | .floats, strings ss => ss.isEmpty
  | .strings, strings _ => true
  | .strings, numbers xs => xs.isEmpty
  | _, _ => false

def numberLiteral (integral : Bool) (x : Float) : Literal :=
  match integral, Binary64.toInt? x with
  | true, some i => .int i
  | _, _ => .float x

def literal (type : AttributeType) : DefaultValue → Literal
  | number x => numberLiteral (type = .int) x
  | string s => .str s
  | numbers xs => .list (xs.map (numberLiteral (type = .ints)))
  | strings ss => .list (ss.map .str)

end DefaultValue

/-! ### Structure -/

namespace OpsetDocument

open Check

def options : List (String × FormalOption) :=
  [FormalOption.single, .optional, .variadic].map fun o => (o.name, o)

def attributeTypes : List (String × AttributeType) :=
  [AttributeType.float, .int, .string, .tensor, .graph, .floats, .ints, .strings].map fun t => (t.name, t)

def formal : Check Formal := object fun path j =>
  Formal.mk <$> member j "name" nonEmptyString path <*> member j "type" nonEmptyString path
    <*> member j "option" (withDefault (oneOf options) .single) path
    <*> member j "homogeneous" (withDefault bool true) path

def attributeEntry : Check AttributeEntry := object fun path j =>
  AttributeEntry.mk <$> member j "name" nonEmptyString path <*> member j "type" (oneOf attributeTypes) path
    <*> member j "required" bool path <*> member j "default" (orMissing (form DefaultValue.ofJson?)) path

def operator : Check OperatorEntry := object fun path j =>
  OperatorEntry.mk <$> member j "name" nonEmptyString path <*> member j "since" nonNegative path
    <*> member j "inputs" (array formal) path <*> member j "outputs" (array formal) path
    <*> member j "attributes" (withDefault (array attributeEntry) []) path

def document : Check OpsetDocument := object fun path j =>
  OpsetDocument.mk <$> member j "domain" string path <*> member j "version" positive path
    <*> member j "operators" (array operator) path

/-! ### Meaning -/

def inputIssues (path : List String) (inputs : List Formal) : List Issue :=
  inputs.zipIdx.filterMap fun (f, i) =>
    if f.option = .variadic ∧ i + 1 ≠ inputs.length then
      some ⟨path ++ ["inputs", toString i], "Only the last input may be variadic", some (.string f.name)⟩
    else none

def attributeIssues (path : List String) : (seen : List String) → (index : Nat) → List AttributeEntry → List Issue
  | _, _, [] => []
  | seen, i, a :: as =>
    let place := path ++ ["attributes", toString i]
    let issue (holds : Bool) (message : String) (value : Json) : List Issue :=
      if holds then [⟨place, message, some value⟩] else []
    issue (seen.contains a.name) "Duplicate attribute" (.string a.name) ++
    (match a.default with
      | some d =>
        issue (!d.hasType a.type) ("Default does not match attribute type " ++ a.type.name) d.json ++
        issue a.required "Required attribute cannot have a default" (.string a.name)
      | none => []) ++
    attributeIssues path (a.name :: seen) (i + 1) as

/-- Issues of operators, after those with the given labels. -/
def operatorIssues : (seen : List String) → (index : Nat) → List OperatorEntry → List Issue
  | _, _, [] => []
  | seen, i, o :: os =>
    let path := ["operators", toString i]
    (if seen.contains o.label then [⟨path, "Duplicate operator version", some (.string o.name)⟩] else []) ++
    inputIssues path o.inputs ++ attributeIssues path [] 0 o.attributes ++
    operatorIssues (o.label :: seen) (i + 1) os

def validate (j : Json) : Validated OpsetDocument :=
  match document [] (some j) with
  | .failed is => .failed is
  | .ok d =>
    let issues := operatorIssues [] 0 d.operators
    if issues.isEmpty then .ok d else .failed issues

end OpsetDocument

/-! ### Loading -/

def AttributeEntry.schema (a : AttributeEntry) : AttributeSchema :=
  ⟨a.name, a.type, a.required, a.default.map (·.literal a.type)⟩

def OperatorEntry.schema (domain : String) (o : OperatorEntry) : OpSchema :=
  ⟨o.name, domain, o.since, o.inputs, o.outputs, o.attributes.map (·.schema)⟩

namespace Registry

def load (r : Registry) (d : OpsetDocument) : Registry :=
  d.operators.foldl (fun r o => r.register (o.schema d.domain)) r

/-- Loads a document that must be valid; the source names it in the error. -/
def loadJson (r : Registry) (j : Json) (source : String := "<document>") : Except Error Registry :=
  match OpsetDocument.validate j with
  | .ok d => .ok (r.load d)
  | .failed is =>
    .error { fault := .configuration ("Invalid operator schema file " ++ source ++ ": " ++ Issue.format is) }

def loadText (r : Registry) (text : Except String String) (source : String) : Except Error Registry :=
  let unreadable (reason : String) : Except Error Registry :=
    .error { fault := .configuration ("Cannot read operator schema file " ++ source ++ ": " ++ reason) }
  match text with
  | .error reason => unreadable reason
  | .ok text =>
    match Json.read? text with
    | some j => r.loadJson j source
    | none => unreadable "<reason>"

end Registry

end OpGraph
