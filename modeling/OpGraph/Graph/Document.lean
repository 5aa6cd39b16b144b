import OpGraph.Document.Basic
import OpGraph.Graph.Interchange

/-!
Documents of graphs, functions and models.
-/

namespace OpGraph.Interchange

open Document (object array str int count number strings null)

def dimDocument : Dim → Document
  | .size n => int n
  | .symbol s => str s
  | .unknown => null

def ValueType.document : ValueType → Document
  | .tensor element shape =>
    object ([("kind", str "tensor"), ("elemType", count element.code)] ++
      Document.optional "shape" (shape.map fun dims => array (dims.map dimDocument)))
  | .sequence of => object [("kind", str "sequence"), ("elem", of.document)]
  | .optional of => object [("kind", str "optional"), ("elem", of.document)]

def ValueInfo.document (v : ValueInfo) : Document :=
  object ([("name", str v.name)] ++ Document.optional "type" (v.type.map ValueType.document))

def TensorData.members : TensorData → List (String × Document)
  | .int32 xs => [("int32Data", array (xs.map count))]
  | .int64 xs => [("int64Data", array (xs.map int))]
  | .float xs => [("floatData", array (xs.map number))]
  | .double xs => [("doubleData", array (xs.map number))]
  | .string xs => [("stringData", strings xs)]
  | .absent => []

def Tensor.document (t : Tensor) : Document :=
  object ([("name", str t.name), ("dataType", count t.elementType.code), ("dims", array (t.dims.map count))] ++
    t.data.members)

mutual
def AttributeValue.members : AttributeValue → List (String × Document)
  | .float x => [("f", number x)]
  | .int i => [("i", int i)]
  | .string s => [("s", str s)]
  | .tensor t => [("t", t.document)]
  | .graph g => [("g", g.document)]
  | .floats xs => [("floats", array (xs.map number))]
  | .ints xs => [("ints", array (xs.map int))]
  | .strings xs => [("strings", Document.strings xs)]
  | .reference name => [("refAttrName", str name)]
  | .absent => []
def Attribute.document : Attribute → Document
  | ⟨name, type, value⟩ => object ([("name", str name), ("type", str type.name)] ++ value.members)
def attributeDocuments : List Attribute → List Document
  | [] => []
  | a :: as => a.document :: attributeDocuments as
def Node.document : Node → Document
  | ⟨opType, domain, inputs, outputs, attributes⟩ =>
    object [("opType", str opType), ("domain", str domain), ("input", strings inputs), ("output", strings outputs),
      ("attribute", array (attributeDocuments attributes))]
def nodeDocuments : List Node → List Document
  | [] => []
  | n :: ns => n.document :: nodeDocuments ns
def Graph.document : Graph → Document
  | ⟨name, nodes, inputs, outputs, initializers, doc⟩ =>
    object ([("name", str name), ("node", array (nodeDocuments nodes)),
      ("input", array (inputs.map ValueInfo.document)), ("output", array (outputs.map ValueInfo.document)),
      ("initializer", array (initializers.map Tensor.document))] ++ Document.optional "docString" (doc.map str))
end

def OpsetImport.document (i : OpsetImport) : Document :=
  object [("domain", str i.domain), ("version", count i.version)]

def Function.document (f : Function) : Document :=
  object ([("name", str f.name), ("domain", str f.domain), ("input", strings f.inputs), ("output", strings f.outputs),
    ("attribute", strings f.attributes), ("attributeProto", array (attributeDocuments f.defaults)),
    ("node", array (nodeDocuments f.nodes)), ("opsetImport", array (f.imports.map OpsetImport.document))] ++
    Document.optional "docString" (f.doc.map str))

def Model.document (m : Model) : Document :=
  object [("irVersion", count m.irVersion), ("producerName", str m.producer),
    ("opsetImport", array (m.imports.map OpsetImport.document)), ("graph", m.graph.document),
    ("functions", array (m.functions.map Function.document))]

end OpGraph.Interchange
