import OpGraph.Document.Basic

/-!
The readable JSON text of a document, with members in their own order. Numbers that are not finite become null,
undefined members are left out, and undefined items are null.
-/

namespace OpGraph.Document

def numberText (x : Float) : String :=
  if x.isFinite then Shortest.text x else "null"

def enclose (opening closing : String) (step margin : List Char) (parts : List String) : String :=
  if parts.isEmpty then opening ++ closing
  else if step.isEmpty then opening ++ ",".intercalate parts ++ closing
  else
    let inner := "\n" ++ String.ofList (margin ++ step)
    opening ++ inner ++ ("," ++ inner).intercalate parts ++ "\n" ++ String.ofList margin ++ closing

mutual
def render (step margin : List Char) : Document → Option String
  | null => some "null"
  | undefined => none
  | bool b => some (if b then "true" else "false")
  | int i => some (Text.quote (toString i))
  | count n => some (numberText (Binary64.ofInt n))
  | number x => some (numberText x)
  | str s => some (Text.quote s)
  | array items => some (enclose "[" "]" step margin (renderItems step (margin ++ step) items))
  | object members => some (enclose "\x7b" "\x7d" step margin (renderMembers step (margin ++ step) members))
def renderItems (step margin : List Char) : List Document → List String
  | [] => []
  | d :: ds => (render step margin d).getD "null" :: renderItems step margin ds
def renderMembers (step margin : List Char) : List (String × Document) → List String
  | [] => []
  | (key, d) :: ms =>
    match render step margin d with
    | some text => (Text.quote key ++ (if step.isEmpty then ":" else ": ") ++ text) :: renderMembers step margin ms
    | none => renderMembers step margin ms
end

/-- Text of a document, indented by at most ten blanks a level; without indentation everything is on one line. -/
def readable (d : Document) (indent : Nat := 2) : Option String :=
  d.render (List.replicate (min indent 10) ' ') []

end OpGraph.Document
