import OpGraph.Glob.Braces
import OpGraph.Glob.Name

/-!
Patterns of paths. A pattern is parted at its slashes after its braces are expanded. Then single dots go, a name takes
away the double dots after it, and of two patterns of which one covers the other only the wider one stays.
-/

namespace OpGraph.Glob

def isPattern (path : String) : Bool :=
  path.toList.any fun c => c == '*' || c == '?' || c == '[' || c == '\x7b'

def segments : List Char → List (List Char)
  | [] => [[]]
  | '/' :: cs => [] :: segments cs
  | c :: cs =>
    match segments cs with
    | s :: ss => (c :: s) :: ss
    | [] => [[c]]

namespace Path

abbrev Parts := List (List Char)

def dot : List Char := ['.']
def parent : List Char := ['.', '.']
def anyDepth : List Char := ['*', '*']
def anyName : List Char := ['*']

/-- Parts of a text, the slashes of a row counting as one. -/
def split (cs : List Char) : Parts :=
  match segments cs with
  | [] => [[]]
  | [s] => [s]
  | s :: ss => s :: ss.dropLast.filter (!·.isEmpty) ++ ss.getLast?.toList

/-! ### Simplification -/

/-- Makes one of neighbours that stand for any number of directories. -/
def mergeDepths : Parts → Parts
  | a :: b :: ps => if a = anyDepth ∧ b = anyDepth then mergeDepths (b :: ps) else a :: mergeDepths (b :: ps)
  | ps => ps

def goesDown (p : List Char) : Bool :=
  p ≠ [] && p ≠ dot && p ≠ parent

/-- Goes up from any depth in two ways, if two parts that go down follow: from above the start, or from below it, where
nothing is left to go up from. -/
def splitDepth : Parts → Option (Parts × Parts)
  | [] => none
  | a :: rest =>
    match a, rest with
    | ['*', '*'], ['.', '.'] :: p :: q :: more =>
      if goesDown p && goesDown q then some (parent :: p :: q :: more, anyDepth :: p :: q :: more)
      else (splitDepth rest).map fun (l, r) => (a :: l, a :: r)
    | _, _ => (splitDepth rest).map fun (l, r) => (a :: l, a :: r)

/-- Takes out dots that are neither first nor last; a dot alone with a dot or a slash is a dot. -/
def dropDots (ps : Parts) : Parts :=
  match ps with
  | [] => []
  | [p] => [p]
  | p :: rest =>
    let inner := rest.dropLast.filter fun q => q ≠ dot && q ≠ []
    match p :: inner ++ rest.getLast?.toList with
    | [a, b] => if a = dot ∧ (b = dot ∨ b = []) then [dot] else [a, b]
    | ps => ps

/-- Takes out the first name with double dots after it. At the front a dot stays before any number of directories. -/
def dropParent (front : Bool) : Parts → Option Parts
  | a :: b :: rest =>
    if goesDown a && a ≠ anyDepth && b = parent then
      some (if front && rest.head? = some anyDepth then dot :: rest else rest)
    else (dropParent false (b :: rest)).map (a :: ·)
  | _ => none

/-- Takes out names with double dots after them as long as there are some, with fuel for the number of parts. -/
def dropParents : (fuel : Nat) → Parts → Parts
  | 0, ps => ps
  | fuel + 1, ps =>
    match dropParent true ps with
    | some [] => [[]]
    | some ps => dropParents fuel ps
    | none => ps

/-- Simplifies a pattern, with fuel for the number of parts and of double dots. -/
def simplify : (fuel : Nat) → Parts → List Parts
  | 0, ps => [ps]
  | fuel + 1, ps =>
    let merged := mergeDepths ps
    match splitDepth merged with
    | some (above, below) => simplify fuel above ++ simplify fuel below
    | none =>
      let simpler := dropParents merged.length (dropDots merged)
      if simpler = merged then [simpler] else simplify fuel simpler

/-! ### Covering -/

inductive Wider where
  | neither | first | second
  deriving DecidableEq

def coversName (star p : List Char) : Bool :=
  star = anyName && p ≠ [] && p.head? ≠ some '.' && p ≠ anyDepth

/-- The pattern that covers two patterns of one length that differ only in names for which one of them has a star, or in
where a part stands for any number of directories; the fuel bounds the number of parts of both. -/
def cover : (fuel : Nat) → Wider → Parts → Parts → Option Parts
  | 0, _, _, _ => none
  | fuel + 1, w, as, bs =>
    match as, bs with
    | a :: as', b :: bs' =>
      if a = b then (cover fuel w as' bs').map (a :: ·)
      else if a = anyDepth && as'.head? = some b then (cover fuel w as' bs).map (a :: ·)
      else if b = anyDepth && bs'.head? = some a then (cover fuel w as bs').map (b :: ·)
      else if coversName a b then
        if w = .second then none else (cover fuel .first as' bs').map (a :: ·)
      else if coversName b a then
        if w = .first then none else (cover fuel .second as' bs').map (b :: ·)
      else none
    | _, _ => some []

def absorb (ps : Parts) : List Parts → Option (List Parts)
  | [] => none
  | qs :: rest =>
    match if ps.length = qs.length then cover (ps.length + qs.length + 1) .neither ps qs else none with
    | some both => some (both :: rest)
    | none => (absorb ps rest).map (qs :: ·)

/-- Patterns without those that others cover; the fuel bounds their number. -/
def withoutCovered : (fuel : Nat) → List Parts → List Parts
  | 0, pss => pss
  | _ + 1, [] => []
  | fuel + 1, ps :: rest =>
    match absorb ps rest with
    | some rest => withoutCovered fuel rest
    | none => ps :: withoutCovered fuel rest

def ofText (pattern : String) : List Parts :=
  let all := (expandBraces pattern.toList).map split
  let simple := all.flatMap fun ps => simplify (2 * ps.length + 1) ps
  withoutCovered simple.length simple

/-- The patterns of names that a text stands for, or the reason why it cannot be used. -/
def ofPattern (pattern : String) : Except String (List (List NamePattern)) :=
  (ofText pattern).mapM fun ps => ps.mapM NamePattern.ofText

end Path

end OpGraph.Glob
