import OpGraph.CommandLine.Files

/-!
Search for the files that fit a pattern. The search goes down from the current directory, part by part. A part for any
number of directories passes over hidden ones, and a pattern that ends in a slash fits directories only, so no file.
-/

namespace OpGraph.FileSet

open Glob

def isHidden (name : String) : Bool :=
  name.toList.head? == some '.'

def depth (fs : FileSet) : Nat :=
  (fs.map fun (path, _) => (Place.names path).length).foldl max 0

/-- Directories at and below a place that are reached over names that are not hidden, with fuel for the ways down. -/
def descend (fs : FileSet) : (fuel : Nat) → Place → List Place
  | 0, p => [p]
  | fuel + 1, p =>
    p :: ((fs.entries p).filter fun n => !isHidden n && fs.isDirectory (p ++ [n])).flatMap fun n =>
      descend fs fuel (p ++ [n])

def fitting (fs : FileSet) (pattern : NamePattern) (p : Place) : List Place :=
  ((fs.entries p).filter pattern.fits).map fun n => p ++ [n]

mutual
def search (fs : FileSet) : List NamePattern → Place → List Place
  | [], p => [p]
  | .exactly name :: ps, p =>
    if ps.isEmpty && (name = "" ∨ name = "." ∨ name = "..") then [] else search fs ps (p.child name)
  | .expression choices wide :: ps, p =>
    (fs.fitting (.expression choices wide) p).flatMap fun q => search fs ps q
  | .anyDepth :: ps, p => (fs.descend fs.depth p).flatMap fun d => searchAt fs ps d ++ searchBelow fs ps d
def searchEntries (fs : FileSet) : List NamePattern → Place → List Place
  | [], _ => []
  | .anyDepth :: ps, p =>
    searchBelow fs ps p ++ ((fs.descend fs.depth p).drop 1).flatMap fun d => searchAt fs ps d ++ searchBelow fs ps d
  | first :: ps, p => (fs.fitting first p).flatMap fun q => search fs ps q
/-- Places that a pattern after any number of directories leads to from one of them. -/
def searchAt (fs : FileSet) : List NamePattern → Place → List Place
  | [], p => [p]
  | .exactly name :: ps, p => if name = ".." then searchEntries fs ps p.parent else []
  | _, _ => []
/-- Places that a pattern after any number of directories leads to by way of the names in one of them. -/
def searchBelow (fs : FileSet) : List NamePattern → Place → List Place
  | [], p => ((fs.entries p).filter (!isHidden ·)).map fun n => p ++ [n]
  | .exactly name :: ps, p =>
    if name = ".." then
      if ps.isEmpty || (fs.entries p).isEmpty then [] else search fs ps p.parent
    else (fs.fitting (.exactly name) p).flatMap fun q => search fs ps q
  | first :: ps, p => (fs.fitting first p).flatMap fun q => search fs ps q
end

/-- Where the search for a pattern begins, and what is left of it. -/
def searchFrom (fs : FileSet) : List NamePattern → List Place
  | .exactly "" :: p :: ps => search fs (p :: ps) Place.root
  | ps => search fs ps []

/-- Paths of the files that fit a pattern, each once, by UTF-16 units; or the reason why the pattern cannot be used. -/
def glob (fs : FileSet) (pattern : String) : Except String (List String) := do
  let places := (← Path.ofPattern pattern).flatMap (searchFrom fs)
  return Text.sortBy id ((places.filter fs.isFile).map Place.path).eraseDups

end OpGraph.FileSet
