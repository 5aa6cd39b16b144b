import OpGraph.CommandLine.Run

/-!
The executable: it loads the files that a command line names, runs the program on them, prints its messages and writes
the files that it changed.
-/

namespace OpGraph.Main

def loadPath (path : String) : IO FileSet := do
  let place := (← IO.currentDir) / path
  let listed := (Place.ofPath path).path
  if ← place.isDir then return if listed.isEmpty then [] else [(listed ++ "/", "")]
  else if ← place.pathExists then return [(listed, ← IO.FS.readFile place)]
  else return []

def loadWay (path : String) : IO FileSet := do
  let names := Place.names path
  let ways := (List.range names.length).map fun n => Place.path (names.take (n + 1))
  return (← (ways.filter (!·.isEmpty)).mapM loadPath).flatten

def loadPattern (pattern : String) : IO FileSet := do
  let root ← IO.currentDir
  let places ← root.walkDir
  let files ← places.toList.filterM fun place => do return !(← place.isDir)
  let listed := files.map fun place => ((place.toString.drop (root.toString.length + 1)).toString, "")
  let paths := ((FileSet.glob listed pattern).toOption).getD []
  return (← paths.mapM loadPath).flatten

def load (inv : CommandLine.Invocation) : IO FileSet := do
  let scripts ← inv.paths.mapM fun path => if Glob.isPattern path then loadPattern path else loadWay path
  let others := inv.options.config.toList ++ CommandLine.defaultConfigFile :: inv.options.output.toList
  return (scripts ++ (← others.mapM loadWay)).flatten

end OpGraph.Main

open OpGraph in
def main (args : List String) : IO UInt32 := do
  let files ← match CommandLine.parse args with
    | .ok inv => Main.load inv
    | .error _ => pure []
  let outcome := CommandLine.run files args
  IO.print outcome.output
  IO.eprint (Text.replaceLone outcome.errors)
  for (path, text) in FileSet.changes files outcome.files do
    IO.FS.writeFile path text
  return outcome.code.toUInt32
