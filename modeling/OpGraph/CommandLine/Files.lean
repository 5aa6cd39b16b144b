import OpGraph.Glob.Path
import OpGraph.Json.Members

/-!
A directory tree as a list of files with their paths and texts. A directory is there if a file is in it, or if it is
listed itself, under a path that ends in a slash. The current directory, those above it and the root are always there.
-/

namespace OpGraph

abbrev FileSet := List (String × String)

inductive FileFault where
  | notFound
  /-- A file stands where the path has a directory. -/
  | notDirectory
  | nameTooLong
  /-- A directory was opened to be written. -/
  | directoryOpened
  /-- A directory was opened to be read. -/
  | directoryRead
  deriving DecidableEq, Repr

def FileFault.message (path : String) : FileFault → String
  | notFound => "ENOENT: no such file or directory, open '" ++ path ++ "'"
  | notDirectory => "ENOTDIR: not a directory, open '" ++ path ++ "'"
  | nameTooLong => "ENAMETOOLONG: name too long, open '" ++ path ++ "'"
  | directoryOpened => "EISDIR: illegal operation on a directory, open '" ++ path ++ "'"
  | directoryRead => "EISDIR: illegal operation on a directory, read"

/-- A place in the tree: the names that lead to it from the current directory. Double dots at the front go up, and an
empty name at the front stands for the root. -/
abbrev Place := List String

namespace Place

def root : Place := [""]

def parent (p : Place) : Place :=
  match p.getLast? with
  | none => [".."]
  | some last => if last = ".." then p ++ [".."] else if last = "" then p else p.dropLast

def child (p : Place) (name : String) : Place :=
  if name = "" ∨ name = "." then p else if name = ".." then p.parent else p ++ [name]

def path (p : Place) : String :=
  "/".intercalate p

def names (path : String) : List String :=
  (Glob.segments path.toList).map String.ofList

def start (path : String) : Place :=
  if path.toList.head? = some '/' then root else []

/-- The place of a path, if every name on it is a directory. -/
def ofPath (path : String) : Place :=
  (names path).foldl child (start path)

end Place

namespace FileSet

def isFile (fs : FileSet) (p : Place) : Bool :=
  fs.any (·.1 == p.path)

def isDirectory (fs : FileSet) (p : Place) : Bool :=
  p.all (fun n => n = "" ∨ n = "..") ||
    fs.any fun (path, _) => p.isPrefixOf (Place.names path) && p.length < (Place.names path).length

def entries (fs : FileSet) (p : Place) : List String :=
  let all := fs.filterMap fun (path, _) =>
    let ns := Place.names path
    if p.isPrefixOf ns then (ns.drop p.length).head? else none
  (all.filter fun n => n ≠ "" && n ≠ "..").eraseDups

/-! ### Opening -/

def isTooLong (name : String) : Bool :=
  255 < (Text.replaceLone name).utf8ByteSize

def enter (fs : FileSet) (p : Place) : List String → Except FileFault Place
  | [] => .ok p
  | n :: ns =>
    let q := p.child n
    if isTooLong n then .error .nameTooLong
    else if isFile fs q then .error .notDirectory
    else if isDirectory fs q then enter fs q ns
    else .error .notFound

def locate (fs : FileSet) (path : String) : Except FileFault (Place × String) :=
  let names := (Place.names path).filter (· ≠ "")
  if path = "" then .error .notFound
  else if 4096 ≤ (Text.replaceLone path).utf8ByteSize then .error .nameTooLong
  else match names.getLast? with
    | none => .ok (Place.start path, ".")
    | some last => do
      let p ← enter fs (Place.start path) names.dropLast
      if isTooLong last then .error .nameTooLong else .ok (p, last)

def endsInSlash (path : String) : Bool :=
  path.toList.getLast? == some '/'

def read (fs : FileSet) (path : String) : Except FileFault String := do
  let (p, name) ← locate fs path
  let p := p.child name
  if isDirectory fs p then .error .directoryRead
  else match Members.get? fs p.path with
    | some text => if endsInSlash path then .error .notDirectory else .ok text
    | none => .error .notFound

def contains (fs : FileSet) (path : String) : Bool :=
  match locate fs path with
  | .ok (p, name) => isFile fs (p.child name) || isDirectory fs (p.child name)
  | .error _ => false

def write (fs : FileSet) (path text : String) : Except FileFault FileSet := do
  let (p, name) ← locate fs path
  let p := p.child name
  if endsInSlash path || isDirectory fs p then .error .directoryOpened
  else .ok (Members.set fs p.path text)

/-! ### Changes -/

def changes (old new : FileSet) : FileSet :=
  new.filter fun (path, text) => Members.get? old path ≠ some text

def inside (fs : FileSet) : FileSet :=
  fs.filter fun (path, _) => (Place.names path).head? ≠ some ".." && (Place.names path).head? ≠ some ""

end FileSet

end OpGraph
