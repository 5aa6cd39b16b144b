import OpGraph.CommandLine.Define
import OpGraph.Number.Numeral

/-!
Options of the command line. Options that are unknown or lack a value are passed over, a value that does not fit its
option is dropped, and a reserved word that stands alone is refused.
-/

namespace OpGraph.CommandLine

structure Options where
  verbose : Bool := false
  help : Bool := false
  digest : Bool := false
  format : Option OutputFormat := none
  config : Option String := none
  output : Option String := none
  opsetVersion : Option Int := none
  domain : Option String := none
  function : Option String := none
  defines : List (String × Literal) := []

structure Invocation where
  paths : List String := []
  options : Options := {}

def isOption (arg : String) : Bool :=
  arg.toList.head? == some '-'

inductive Word where
  | plain (text : String)
  /-- A word that is neither a path nor the value of an option. -/
  | reserved
  deriving DecidableEq, Repr

/-- Words that are taken: no path and no value can be spelled like them, unless it is joined to its option by a sign. -/
def reservedWords : List String :=
  ["constructor", "hasOwnProperty", "isPrototypeOf", "propertyIsEnumerable", "toLocaleString", "toString", "valueOf",
    "__defineGetter__", "__defineSetter__", "__lookupGetter__", "__lookupSetter__", "__proto__"]

/-- Splits `--name=value` in two and spells commands as options. -/
def normalize (arg : String) : List Word :=
  let cs := arg.toList
  let name := cs.takeWhile (· ≠ '=')
  match cs, cs.dropWhile (· ≠ '=') with
  | '-' :: '-' :: _, _ :: value => [.plain (String.ofList name), .plain (String.ofList value)]
  | _, _ => [match arg with
    | "help" => .plain "--help"
    | "digest" => .plain "--digest"
    | arg => if reservedWords.contains arg then .reserved else .plain arg]

def flag? (o : Options) : String → Option Options
  | "--verbose" | "-v" => some { o with verbose := true }
  | "--help" | "-h" => some { o with help := true }
  | "--digest" => some { o with digest := true }
  | _ => none

def valueOptions : List String :=
  ["--format", "--config", "--output", "-o", "--opset", "--domain", "--function", "--define", "-D"]

/-- A version: a positive integer in any spelling of numbers. -/
def version? (s : String) : Option Int := do
  let i ← Binary64.toInt? (← Numeral.read? s)
  if 0 < i then some i else none

def setValue (o : Options) (name value : String) : Options :=
  match name with
  | "--format" => { o with format := (OutputFormat.ofName? value).or o.format }
  | "--config" => { o with config := some value }
  | "--output" | "-o" => { o with output := some value }
  | "--opset" => { o with opsetVersion := (version? value).or o.opsetVersion }
  | "--domain" => { o with domain := some value }
  | "--function" => { o with function := some value }
  | "--define" | "-D" => { o with defines := o.defines ++ (parseDefine value).toList }
  | _ => o

def isValue (arg : String) : Bool :=
  arg ≠ "" && !isOption arg

/-- Reads an argument that takes no value after it: a flag, an option to pass over, or a path. -/
def Invocation.add (inv : Invocation) (arg : String) : Invocation :=
  match flag? inv.options arg with
  | some options => { inv with options }
  | none => if isOption arg then inv else { inv with paths := inv.paths ++ [arg] }

def refuse (asValue : Bool) : Except Error Invocation :=
  .error { fault := .reservedWord asValue }

def parseFrom (inv : Invocation) : List Word → Except Error Invocation
  | [] => .ok inv
  | .reserved :: _ => refuse false
  | [.plain arg] => .ok (inv.add arg)
  | .plain arg :: .reserved :: _ => refuse (valueOptions.contains arg)
  | .plain arg :: .plain value :: rest =>
    if valueOptions.contains arg && isValue value then
      parseFrom { inv with options := setValue inv.options arg value } rest
    else parseFrom (inv.add arg) (.plain value :: rest)

def parse (args : List String) : Except Error Invocation :=
  parseFrom {} (args.flatMap normalize)

/-- A configuration under the options of the command line, which win. -/
def Options.apply (o : Options) (c : Config) : Config where
  opsetVersion := o.opsetVersion.or c.opsetVersion
  domain := o.domain.getD c.domain
  format := o.format.getD c.format
  verbose := o.verbose || c.verbose
  constants := o.defines.foldl (fun cs (name, v) => Members.set cs name v) c.constants

end OpGraph.CommandLine
