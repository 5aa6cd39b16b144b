import OpGraph.Lowering.Function
import OpGraph.Module.Library
import OpGraph.Syntax.Parser

/-!
Compilation of a whole script. Imports and assignments at module level give names to values; each function is lowered in
turn and can be called by those after it. The first error ends the compilation.
-/

namespace OpGraph

structure CompileOptions where
  /-- Default operator set; without it the first one that a function uses. -/
  opset : Option Opset := none
  module : Opset := { domain := "this", version := 1, registry := .standard }
  constants : Globals := []
  registry : Registry := .standard
  verbose : Bool := false

structure CompiledScript where
  functions : List ScriptFunction
  diagnostics : List Diagnostic
  globals : Globals
  defaultOpset : Option Opset
  next : Nat

namespace Module

structure State where
  compiler : Compiler
  library : Value
  compiled : List ScriptFunction := []
  next : Nat

/-- Steps of a compilation; the state outlives an error. -/
abbrev Compile := ExceptT Error (StateM State)

def failAt {α : Type} (f : Fault) (pos : Position) : Compile α :=
  throw ⟨f, some pos.location⟩

def stamped (v : Value) : Compile Value :=
  modifyGet fun s =>
    let (v, next) := v.stamp s.next
    (v, { s with next })

def globals : Compile Globals := do
  return (← get).compiler.globals

def setGlobal (name : String) (v : Value) : Compile Unit := do
  let v ← stamped v
  modify fun s => { s with compiler.globals := Members.set s.compiler.globals name v }

/-! ### Imports -/

/-- The module of a name. The module of types is a new one for each import. -/
def resolve (name : String) (pos : Position) : Compile Value := do
  if name = Library.name then return (← get).library
  else if name = Library.typesName then stamped Library.types
  else failAt (.lowering (.module name)) pos

/-- `import a.b` binds the library, `import a.b as c` the module. -/
def importModule (pos : Position) (a : Alias) : Compile Unit := do
  let module ← resolve a.name pos
  let library := (← get).library
  setGlobal (a.asName.getD Library.name) (if a.asName.isNone ∧ a.name ≠ Library.name then library else module)

def membersOf : Value → List (String × Value)
  | .module _ _ members => members
  | _ => []

/-- Binds a member of a module, or all of them for a star. -/
def importMember (module : String) (members : List (String × Value)) (pos : Position) (a : Alias) : Compile Unit := do
  if a.name = "*" then members.forM fun (name, v) => setGlobal name v
  else match Members.get? members a.name with
    | some v => setGlobal (a.asName.getD a.name) v
    | none => failAt (.eval (.unboundName (module ++ "." ++ a.name))) pos

/-! ### Statements -/

def assignGlobal (pos : Position) (targets : List Expr) (value : Option Expr) : Compile Unit := do
  match targets, value with
  | [.name _ id], some e =>
    match Evaluation.eval (← globals) e with
    | .ok v => setGlobal id v
    | .error e => throw e
  | _, _ => failAt (.lowering .moduleAssignment) pos

def defineFunction (s : Stmt Unit) : Compile Unit := do
  let (result, compiler) := (← get).compiler.compile s
  modify fun st => { st with compiler }
  match result with
  | .error e => throw e
  | .ok f =>
    setGlobal f.name (.function none f)
    modify fun st => { st with compiled := st.compiled ++ [f] }

def statement (first : Bool) (s : Stmt Unit) : Compile Unit := do
  match s with
  | .imports m names => names.forM (importModule m.pos)
  | .importFrom m module names =>
    let members := membersOf (← resolve module m.pos)
    names.forM (importMember module members m.pos)
  | .assign m targets value => assignGlobal m.pos targets (some value)
  | .annAssign m target _ value => assignGlobal m.pos [target] value
  | .function .. => defineFunction s
  | .pass _ => return ()
  | s =>
    if first && s.docstring?.isSome then return ()
    else failAt (.lowering (.moduleLevel s.label)) s.pos

def statements : (first : Bool) → List (Stmt Unit) → Compile Unit
  | _, [] => return ()
  | first, s :: ss => do
    statement first s
    statements false ss

end Module

/-! ### Scripts -/

def Globals.stamp (next : Nat) (g : Globals) : Globals × Nat :=
  Value.stampMembers next g

def CompileOptions.start (o : CompileOptions) (source : String) : Module.State :=
  let (library, next) := (Library.module o.registry).stamp 0
  let (types, next) := Globals.stamp next Library.typeNames
  let (constants, next) := Globals.stamp next o.constants
  let globals := constants.foldl (fun g (name, v) => Members.set g name v) types
  { compiler :=
      { globals, module := o.module, defaultOpset := o.opset, source := some source, verbose := o.verbose }
    library
    next }

/-- Compiles a script. The log is kept also if an error ends the compilation. -/
def compileScript (source : String) (o : CompileOptions := {}) : Except Error CompiledScript × List LogEntry :=
  match Syntax.parseScript source with
  | .error e => (.error e, [])
  | .ok script =>
    let (result, s) := (Module.statements true script).run.run (o.start source)
    let t := s.compiler
    (result.map fun _ => ⟨s.compiled, t.diagnostics, t.globals, t.defaultOpset, s.next⟩, t.log)

def compileFunction (source name : String) (o : CompileOptions := {}) : Except Error ScriptFunction := do
  let script ← (compileScript source o).1
  match script.functions.find? (·.name == name) with
  | some f => return f
  | none => evalError (.unboundName name)

end OpGraph
