import OpGraph.Error
import OpGraph.Json.Reader
import OpGraph.Schema.Default
import OpGraph.Schema.Opset
import OpGraph.Validation

/-!
Configurations: what a document sets, and what holds where it is silent.
-/

namespace OpGraph

inductive OutputFormat where
  | text | json
  deriving DecidableEq, Repr

def OutputFormat.name : OutputFormat → String
  | text => "text"
  | json => "json"

def OutputFormat.ofName? (s : String) : Option OutputFormat :=
  [text, json].find? (·.name == s)

structure ConfigDocument where
  opsetVersion : Option Int := none
  domain : Option String := none
  format : Option OutputFormat := none
  verbose : Option Bool := none
  constants : Option (List (String × Literal)) := none

/-- A configuration in which nothing is missing but perhaps the version of the default domain. -/
structure Config where
  opsetVersion : Option Int := none
  domain : String := "this"
  format : OutputFormat := .text
  verbose : Bool := false
  constants : List (String × Literal) := []

namespace Literal

/-- A number, as an integer if it is integral. -/
def ofNumber (x : Float) : Literal :=
  match Binary64.toInt? x with
  | some i => int i
  | Option.none => float x

def scalarOfJson? : Json → Option Literal
  | .bool b => some (bool b)
  | .number x => if x.isFinite then some (ofNumber x) else Option.none
  | .string s => some (str s)
  | _ => Option.none

def constantOfJson? : Json → Option Literal
  | .array js => (js.mapM scalarOfJson?).map list
  | j => scalarOfJson? j

end Literal

namespace ConfigDocument

open Check

def formats : List (String × OutputFormat) :=
  [OutputFormat.text, .json].map fun f => (f.name, f)

def constantMembers : Check (List (String × Literal))
  | path, some (.object ms) =>
    Validated.each (fun (name, j) => (name, ·) <$> form Literal.constantOfJson? (path ++ [name]) (some j))
      (ms.filter (·.1 ≠ "__proto__"))
  | path, j => wrongType "record" path j

def keys : List String :=
  ["opsetVersion", "domain", "format", "verbose", "constants"]

def knownKeys (path : List String) (j : Json) : Validated Unit :=
  let unknown : List String := match j with
    | .object ms => (ms.map fun m => m.1).filter (!keys.contains ·)
    | _ => []
  let names := ", ".intercalate (unknown.map fun k => "\"" ++ k ++ "\"")
  match unknown with
  | [] => .ok ()
  | [_] => fail path ("Unrecognized key: " ++ names)
  | _ => fail path ("Unrecognized keys: " ++ names)

def document : Check ConfigDocument := object fun path j =>
  (fun v d f b c _ => ⟨v, d, f, b, c⟩) <$> member j "opsetVersion" (orMissing positive) path
    <*> member j "domain" (orMissing string) path <*> member j "format" (orMissing (oneOf formats)) path
    <*> member j "verbose" (orMissing bool) path <*> member j "constants" (orMissing constantMembers) path
    <*> knownKeys path j

def validate (j : Json) : Validated ConfigDocument :=
  document [] (some j)

def resolve (d : ConfigDocument) : Config where
  opsetVersion := d.opsetVersion
  domain := d.domain.getD "this"
  format := d.format.getD .text
  verbose := d.verbose.getD false
  constants := d.constants.getD []

end ConfigDocument

namespace Config

def error {α : Type} (message : String) : Except Error α :=
  .error { fault := .configuration message }

/-- The configuration of a document that must be valid; the source names it in the error. -/
def ofJson (j : Json) (source : String := "<config>") : Except Error Config :=
  match ConfigDocument.validate j with
  | .ok d => .ok d.resolve
  | .failed is => error ("Invalid configuration " ++ source ++ ": " ++ Issue.format is)

def ofText (text : Except String String) (path : String) : Except Error Config :=
  match text with
  | .error reason => error ("Cannot read configuration " ++ path ++ ": " ++ reason)
  | .ok text =>
    match Json.read? text with
    | some j => ofJson j path
    | none => error ("Cannot read configuration " ++ path ++ ": <reason>")

def defaultOpset (c : Config) : Option Opset :=
  c.opsetVersion.map fun version => { domain := "", version, registry := .standard }

end Config

end OpGraph
