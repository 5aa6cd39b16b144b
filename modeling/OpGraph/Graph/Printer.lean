import OpGraph.Graph.Function
import OpGraph.Text.Quoted

/-!
Listings of functions and graphs: a header with parameters and outputs, then one line per node between braces. Graphs in
attributes are listed below their node, indented further.
-/

namespace OpGraph

def Listing.step : String := "   "

namespace Interchange

def ValueType.text : ValueType → String
  | .tensor element none => element.name
  | .tensor element (some dims) =>
    let dim (d : Dim) : String := match d with
      | .unknown => "?"
      | d => d.text
    element.name ++ "[" ++ ",".intercalate (dims.map dim) ++ "]"
  | .sequence of => "seq(" ++ of.text ++ ")"
  | .optional of => "optional(" ++ of.text ++ ")"

def ValueInfo.text (v : ValueInfo) : String :=
  match v.type with
  | some t => v.name ++ ": " ++ t.text
  | none => v.name

def TensorData.texts : TensorData → List String
  | .int32 xs | .int64 xs => xs.map toString
  | .float xs | .double xs => xs.map Shortest.text
  | .string xs => xs.map Text.quote
  | .absent => []

/-- Element type and elements of a tensor; those of rank zero without brackets. -/
def Tensor.text (t : Tensor) : String :=
  let shown := t.data.texts
  let body := if t.dims.isEmpty then shown.headD "" else "[" ++ ", ".intercalate shown ++ "]"
  t.elementType.name ++ "\x7b" ++ body ++ "\x7d"

mutual
def AttributeValue.text (indent : String) : AttributeValue → String
  | .float x => Shortest.text x
  | .int i => toString i
  | .string s => Text.quote s
  | .tensor t => t.text
  | .graph g => "\n" ++ g.text (indent ++ Listing.step)
  | .floats xs => "[" ++ ", ".intercalate (xs.map Shortest.text) ++ "]"
  | .ints xs => "[" ++ ", ".intercalate (xs.map toString) ++ "]"
  | .strings xs => "[" ++ ", ".intercalate (xs.map Text.quote) ++ "]"
  | .reference name => "@" ++ name
  | .absent => "?"
def attributeTexts (indent : String) : List Attribute → List String
  | [] => []
  | ⟨name, _, value⟩ :: as => (name ++ "=" ++ value.text indent) :: attributeTexts indent as
def Node.text (indent : String) : Node → String
  | ⟨opType, domain, inputs, outputs, attributes⟩ =>
    let callee := if domain = "" then opType else domain ++ "." ++ opType
    let attrs := match attributeTexts indent attributes with
      | [] => ""
      | texts => " <" ++ ", ".intercalate texts ++ ">"
    indent ++ ", ".intercalate outputs ++ " = " ++ callee ++ attrs ++ " (" ++ ", ".intercalate inputs ++ ")"
def nodeTexts (indent : String) : List Node → List String
  | [] => []
  | n :: ns => n.text indent :: nodeTexts indent ns
def Graph.text (indent : String) : Graph → String
  | ⟨name, nodes, inputs, outputs, _, _⟩ =>
    "\n".intercalate ([
      indent ++ name ++ " (" ++ ", ".intercalate (inputs.map ValueInfo.text) ++ ") => (" ++
        ", ".intercalate (outputs.map ValueInfo.text) ++ ")",
      indent ++ "\x7b"] ++ nodeTexts (indent ++ Listing.step) nodes ++ [indent ++ "\x7d"])
end

end Interchange

mutual
def Literal.text : Literal → String
  | .none => "None"
  | .bool b => if b then "True" else "False"
  | .int i => toString i
  | .float x => Shortest.text x
  | .str s => Text.quote s
  | .list vs => "[" ++ ", ".intercalate (Literal.texts vs) ++ "]"
def Literal.texts : List Literal → List String
  | [] => []
  | v :: vs => v.text :: Literal.texts vs
end

def AttributeParam.text (p : AttributeParam) : String :=
  match p.default with
  | some v => p.name ++ ": " ++ p.type.name ++ " = " ++ v.text
  | none => p.name ++ ": " ++ p.type.name

/-- Listing of a function; attribute parameters stand between angle brackets. -/
def GraphFunction.text (f : GraphFunction) : String :=
  let attrs := match f.attrParams with
    | [] => ""
    | ps => "<" ++ ", ".intercalate (ps.map AttributeParam.text) ++ "> "
  "\n".intercalate ([
    f.name ++ " " ++ attrs ++ "(" ++ ", ".intercalate (f.inputs.map (·.info.text)) ++ ") => (" ++
      ", ".intercalate (f.outputs.map (·.info.text)) ++ ")",
    "\x7b"] ++ f.nodes.map (·.node.text Listing.step) ++ ["\x7d"])

end OpGraph
