import OpGraph.Graph.Function

/-!
Functions that are built side by side and refer to each other. A node takes the graphs and functions it is given as they
are when it is added; called functions, and the domains that graphs need, are looked up when a function is read.
-/

namespace OpGraph

/-- A function on the workbench: its graph attributes and called functions are known by their keys. -/
structure Draft where
  fn : GraphFunction
  graphs : List (List (Option String)) := []
  called : List (String × String) := []
  nested : List String := []

/-- An attribute with the key of the function it was taken from, if it is a graph. -/
structure DraftAttribute where
  value : Interchange.Attribute
  graph : Option String := none

abbrev Workbench := List (String × Draft)

namespace Workbench

def update (w : Workbench) (key : String) (f : Draft → Draft) : Workbench :=
  match Members.get? w key with
  | some d => Members.set w key (f d)
  | none => w

/-- The function of a key as it is now, to a depth of references. -/
def resolve (w : Workbench) : (depth : Nat) → (key : String) → GraphFunction
  | 0, _ => { name := "" }
  | depth + 1, key =>
    match Members.get? w key with
    | none => { name := "" }
    | some d =>
      let attributeOf (a : NodeAttribute) : Option String → NodeAttribute
        | some k => { a with imports := (w.resolve depth k).imports }
        | none => a
      let nodeOf (n : GraphNode) (keys : List (Option String)) : GraphNode :=
        { n with attributes := n.attributes.zipWith attributeOf keys }
      { d.fn with
        nodes := d.fn.nodes.zipWith nodeOf d.graphs
        called := d.called.map fun (name, k) => (name, (w.resolve depth k).toFunction) }

/-- The function of a key. References do not go in circles, so their depth is at most the number of functions. -/
def function (w : Workbench) (key : String) : GraphFunction :=
  w.resolve (w.length + 1) key

def graphAttribute (w : Workbench) (name key : String) : Except Error DraftAttribute := do
  return ⟨(← (w.function key).toAttribute name).value, some key⟩

def addNode (w : Workbench) (key : String) (outputs : List String) (op : OpName) (inputs : List String)
    (attributes : List DraftAttribute) (shipped : List String) : Except Error Workbench := do
  let functions ← shipped.mapM fun k => do
    let f := w.function k
    return (f.name, ← f.toFunction)
  let node : GraphNode := { outputs, op, inputs, attributes := attributes.map fun a => ⟨a.value, []⟩, functions }
  return w.update key fun d => { d with fn := d.fn.addNode node, graphs := d.graphs ++ [attributes.map (·.graph)] }

def addCalled (w : Workbench) (key other : String) : Workbench :=
  w.update key fun d => { d with called := Members.set d.called (w.function other).name other }

def addNested (w : Workbench) (key other : String) : Workbench :=
  w.update key fun d =>
    let name := (w.function other).name
    { d with nested := if d.nested.contains name then d.nested else d.nested ++ [name] }

end Workbench

end OpGraph
