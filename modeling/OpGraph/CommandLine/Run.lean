import OpGraph.CommandLine.Options
import OpGraph.CommandLine.Search
import OpGraph.Document.Canonical
import OpGraph.Document.Readable
import OpGraph.Graph.Document
import OpGraph.Module.Compile

/-!
The command line program on a tree of files: it compiles scripts and prints their functions as text, as JSON models or
as digests.
-/

namespace OpGraph.CommandLine

def defaultConfigFile : String := "graphscript.config.json"

def usage : String :=
  "Usage: graphscript [options] <script...>\n" ++
  "\n" ++
  "Options:\n" ++
  "  --format <text|json>     Output format (default: text)\n" ++
  "  --digest                 Print the content digest of each model\n" ++
  "  --function <name>        Only emit the named function\n" ++
  "  --opset <n>              Default-domain version for scripts that pick none\n" ++
  "  --domain <name>          Domain of compiled functions (default: this)\n" ++
  "  -D, --define NAME=VALUE  Module-level constant visible to scripts\n" ++
  "  --config <path>          Configuration file (default: " ++ defaultConfigFile ++ " if present)\n" ++
  "  -o, --output <path>      Write to a file instead of stdout\n" ++
  "  -v, --verbose            Trace the translation on stderr\n" ++
  "  -h, --help               Show this help"

structure Outcome where
  code : Nat := 0
  output : String := ""
  errors : String := ""
  files : FileSet

/-- Steps of a run, which a message ends. -/
abbrev Run := ExceptT String (StateM Outcome)

def print (text : String) : Run Unit :=
  modify fun o => { o with output := o.output ++ text }

def printError (message : String) : Run Unit :=
  modify fun o => { o with errors := o.errors ++ message ++ "\n" }

def liftMessage {α : Type} : Except Error α → Run α
  | .ok a => pure a
  | .error e => throw e.fault.message

def liftFile {α : Type} (path : String) : Except FileFault α → Run α
  | .ok a => pure a
  | .error f => throw (f.message path)

/-! ### Steps -/

/-- The text of a configuration file. Only a file that is not there is told from others that cannot be read. -/
def configText (files : FileSet) (path : String) : Except String String :=
  match files.read path with
  | .ok text => .ok text
  | .error f => .error (if f = .notFound then f.message path else "<reason>")

/-- The configuration: of the named file, of the default file if it is there, or of no file. -/
def readConfig (o : Options) : Run Config := do
  let files := (← get).files
  match o.config with
  | some path => liftMessage (Config.ofText (configText files path) path)
  | none =>
    if files.contains defaultConfigFile then
      liftMessage (Config.ofText (configText files defaultConfigFile) defaultConfigFile)
    else return {}

/-- Paths with patterns replaced by the files that fit them, each path once. -/
def expandPaths (files : FileSet) (paths : List String) : Except String (List String) := do
  let all ← paths.mapM fun p => if Glob.isPattern p then files.glob p else .ok [p]
  return all.flatten.eraseDups

def render (o : Options) (c : Config) (f : ScriptFunction) : Except Error String := do
  if o.digest then
    let model ← f.fn.toModel
    return f.name ++ " " ++ (← model.document.digest)
  else match c.format with
    | .json =>
      let model ← f.fn.toModel
      return model.document.readable.getD ""
    | .text => return f.fn.text

def printLog : LogEntry → Run Unit
  | .warning text => printError text
  | .trace text => print (text ++ "\n")

def compileFile (path : String) (o : Options) (c : Config) : Run (List String) := do
  let source ← liftFile path ((← get).files.read path)
  let (result, log) := compileScript source {
    opset := c.defaultOpset
    module := { domain := c.domain, version := 1, registry := .standard }
    constants := c.constants.map fun (name, v) => (name, Value.ofLiteral v)
    verbose := c.verbose }
  log.forM printLog
  let texts : Except Error (List String) := do
    let script ← result
    (script.functions.filter fun f => o.function.all (· == f.name)).mapM (render o c)
  match texts with
  | .ok texts => return texts
  | .error e => throw (if e.code.isSome then path ++ "\n" ++ e.format (some source) else e.fault.message)

def deliver (o : Options) (text : String) : Run Unit := do
  match o.output with
  | none => print text
  | some path =>
    let files ← liftFile path ((← get).files.write path (Text.replaceLone text))
    modify fun s => { s with files }

def program (args : List String) : Run Nat := do
  let inv ← liftMessage (parse args)
  if inv.options.help || inv.paths.isEmpty then
    print (usage ++ "\n")
    return if inv.options.help then 0 else 1
  let config := inv.options.apply (← readConfig inv.options)
  let paths ← MonadExcept.ofExcept (expandPaths (← get).files inv.paths)
  let texts ← paths.mapM fun path => compileFile path inv.options config
  deliver inv.options ("\n\n".intercalate texts.flatten ++ "\n")
  return 0

def run (files : FileSet) (args : List String) : Outcome :=
  match (program args).run.run { files } with
  | (.ok code, o) => { o with code }
  | (.error message, o) => { o with code := 1, errors := o.errors ++ message ++ "\n" }

end OpGraph.CommandLine
