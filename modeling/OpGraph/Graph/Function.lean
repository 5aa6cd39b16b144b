import OpGraph.Graph.Interchange
import OpGraph.Json.Members
import OpGraph.Text.Collation

/-!
Functions under construction. A function collects parameters, nodes and outputs; it can be read as a graph, as a
function that other graphs call, or as a model of its own with the functions it needs.
-/

namespace OpGraph

/-- Versions of domains, the first one given for a domain being kept. -/
abbrev Imports := List (String × Int)

namespace Imports

def add (is : Imports) (domain : String) (version : Int) : Imports :=
  if is.any (·.1 == domain) then is else is ++ [(domain, version)]

def addAll (is js : Imports) : Imports :=
  js.foldl (fun is (d, v) => is.add d v) is

def sorted (is : Imports) : List Interchange.OpsetImport :=
  (is.mergeSort fun a b => Text.collationLe a.1 b.1).map fun (d, v) => ⟨d, v⟩

end Imports

structure GraphVar where
  name : String
  type : Option DeclaredType := none

structure AttributeParam where
  name : String
  type : AttributeType
  default : Option Literal := none

inductive GraphParam where
  | input (v : GraphVar)
  | attr (p : AttributeParam)

structure OpName where
  domain : String
  version : Int
  name : String
  deriving DecidableEq, Repr

/-- An attribute of a node. A graph attribute brings the imports of its graph. -/
structure NodeAttribute where
  value : Interchange.Attribute
  imports : Imports := []

mutual
/-- A node, with the functions that must be shipped with it and the functions of its control-flow blocks. -/
structure GraphNode where
  outputs : List String
  op : OpName
  inputs : List String
  attributes : List NodeAttribute := []
  functions : List (String × Interchange.Function) := []
  blocks : List GraphFunction := []

/-- A function under construction, with the functions that are defined inside it. A called function is kept in the form
in which it is shipped, or with the reason why it cannot be. -/
structure GraphFunction where
  name : String
  domain : String := ""
  params : List GraphParam := []
  outputs : List GraphVar := []
  nodes : List GraphNode := []
  called : List (String × Except Error Interchange.Function) := []
  nested : List GraphFunction := []
  doc : String := ""
end

/-! ### Attributes -/

namespace Interchange.Attribute

def error {α : Type} (f : TensorFault) : Except Error α :=
  .error ⟨.tensor f, none⟩

def ints? (vs : List Literal) : Option (List Int) :=
  vs.mapM fun v => match v with
    | .int i => some i
    | .bool b => some (if b then 1 else 0)
    | _ => none

def floats? (vs : List Literal) : Option (List Float) :=
  vs.mapM fun v => match v with
    | .int i => some (Binary64.ofInt i)
    | .bool b => some (if b then 1.0 else 0.0)
    | .float x => some x
    | _ => none

def strings? (vs : List Literal) : Option (List String) :=
  vs.mapM fun v => match v with
    | .str s => some s
    | _ => none

def isElement : Literal → Bool
  | .none | .list _ => false
  | _ => true

/-- An attribute that holds a list of literals. Integers mixed with floats are floats. -/
def ofList (name : String) (vs : List Literal) : Except Error Attribute :=
  if vs.isEmpty then error (.attributeEmpty name)
  else if !vs.all isElement then error (.attributeElement name)
  else match ints? vs, floats? vs, strings? vs with
    | some is, _, _ => .ok ⟨name, .ints, .ints is⟩
    | none, some xs, _ => .ok ⟨name, .floats, .floats xs⟩
    | none, none, some ss => .ok ⟨name, .strings, .strings ss⟩
    | none, none, none => error (.attributeMixed name)

def ofLiteral (name : String) : Literal → Except Error Attribute
  | .none => error (.attributeNone name)
  | .bool b => .ok ⟨name, .int, .int (if b then 1 else 0)⟩
  | .int i => .ok ⟨name, .int, .int i⟩
  | .float x => .ok ⟨name, .float, .float x⟩
  | .str s => .ok ⟨name, .string, .string s⟩
  | .list vs => ofList name vs

/-- An attribute that stands for an attribute parameter of the function around it. -/
def reference (name param : String) (type : AttributeType) : Attribute :=
  ⟨name, type, .reference param⟩

end Interchange.Attribute

/-! ### Forms of a function -/

def GraphVar.valueType (v : GraphVar) : Option Interchange.ValueType :=
  v.type.bind Interchange.ValueType.ofDeclared?

def GraphVar.info (v : GraphVar) : Interchange.ValueInfo :=
  ⟨v.name, v.valueType⟩

def GraphNode.node (n : GraphNode) : Interchange.Node :=
  ⟨n.op.name, n.op.domain, n.inputs, n.outputs, n.attributes.map (·.value)⟩

namespace GraphFunction

def inputs (f : GraphFunction) : List GraphVar :=
  f.params.filterMap fun p => match p with
    | .input v => some v
    | .attr _ => none

def attrParams (f : GraphFunction) : List AttributeParam :=
  f.params.filterMap fun p => match p with
    | .input _ => none
    | .attr a => some a

def assigned (f : GraphFunction) : List String :=
  f.nodes.flatMap (·.outputs)

/-- Domains that the nodes need, those of graph attributes included. -/
def imports (f : GraphFunction) : Imports :=
  f.nodes.foldl (fun is n => n.attributes.foldl (fun is a => is.addAll a.imports) (is.add n.op.domain n.op.version)) []

def docString (f : GraphFunction) : Option String :=
  if f.doc = "" then none else some f.doc

def toFunction (f : GraphFunction) : Except Error Interchange.Function := do
  let defaults ← f.attrParams.filterMapM fun p => match p.default with
    | some v => some <$> Interchange.Attribute.ofLiteral p.name v
    | none => pure none
  return {
    name := f.name
    domain := f.domain
    inputs := f.inputs.map (·.name)
    outputs := f.outputs.map (·.name)
    attributes := (f.attrParams.filter (·.default.isNone)).map (·.name)
    defaults
    nodes := f.nodes.map GraphNode.node
    imports := f.imports.sorted
    doc := f.docString }

/-- The functions that the nodes need: those that were shipped with nodes, then the called ones. -/
def functions (f : GraphFunction) : Except Error (List (String × Interchange.Function)) := do
  let shipped := f.nodes.foldl (fun fs n => n.functions.foldl (fun fs (name, g) => Members.set fs name g) fs) []
  f.called.foldlM (fun fs (name, g) => do return Members.set fs name (← g)) shipped

def graph (f : GraphFunction) : Interchange.Graph where
  name := f.name
  nodes := f.nodes.map GraphNode.node
  inputs := f.inputs.map GraphVar.info
  outputs := f.outputs.map GraphVar.info
  initializers := []
  doc := f.docString

def toGraph (f : GraphFunction) : Except Error Interchange.Graph := do
  discard f.functions
  return f.graph

/-- The function as a model. Functions whose domain nothing imports count as version one of it. -/
def toModel (f : GraphFunction) (irVersion : Int := 8) (producer : String := "graphscript") :
    Except Error Interchange.Model := do
  let functions ← f.functions
  let imports := functions.foldl
    (fun is (_, g) => (is.add g.domain 1).addAll (g.imports.map fun i => (i.domain, i.version))) f.imports
  return { irVersion, producer, imports := imports.sorted, graph := f.graph, functions := functions.map (·.2) }

def toAttribute (f : GraphFunction) (name : String) : Except Error NodeAttribute := do
  return ⟨⟨name, .graph, .graph (← f.toGraph)⟩, f.imports⟩

/-! ### Construction -/

def addInput (f : GraphFunction) (name : String) (type : Option DeclaredType := none) : GraphFunction :=
  { f with params := f.params ++ [.input ⟨name, type⟩] }

def addAttrParam (f : GraphFunction) (p : AttributeParam) : GraphFunction :=
  { f with params := f.params ++ [.attr p] }

def addOutput (f : GraphFunction) (name : String) (type : Option DeclaredType := none) : GraphFunction :=
  { f with outputs := f.outputs ++ [⟨name, type⟩] }

def addNode (f : GraphFunction) (n : GraphNode) : GraphFunction :=
  { f with nodes := f.nodes ++ [n] }

/-- Records a function that nodes call, in place of one of the same name. -/
def addCalled (f : GraphFunction) (name : String) (g : Except Error Interchange.Function) : GraphFunction :=
  { f with called := Members.set f.called name g }

def addNested (f g : GraphFunction) : GraphFunction :=
  { f with nested := f.nested ++ [g] }

def withDoc (f : GraphFunction) (doc : String) : GraphFunction :=
  { f with doc }

end GraphFunction

end OpGraph
