import OpGraph.Digest.Sha256
import OpGraph.Document.Basic
import OpGraph.Error

/-!
The canonical JSON text of a document: no blanks, members sorted by the UTF-16 units of their keys, and no numbers that
are not finite. Digests are taken of this text.
-/

namespace OpGraph.Document

def canonicalNumber (x : Float) : Except Error String :=
  if x.isFinite then .ok (Shortest.text x) else .error ⟨.nonFinite (Shortest.text x), none⟩

mutual
def canonical : Document → Except Error String
  | null | undefined => .ok "null"
  | bool b => .ok (if b then "true" else "false")
  | int i => .ok (Text.quote (toString i))
  | count n => canonicalNumber (Binary64.ofInt n)
  | number x => canonicalNumber x
  | str s => .ok (Text.quote s)
  | array items => do return "[" ++ ",".intercalate (← canonicalItems items) ++ "]"
  | object members => do
    let sorted := Text.sortBy (·.1) (canonicalMembers members)
    let texts ← sorted.mapM fun (key, text) => do return Text.quote key ++ ":" ++ (← text)
    return "\x7b" ++ ",".intercalate texts ++ "\x7d"
def canonicalItems : List Document → Except Error (List String)
  | [] => .ok []
  | d :: ds => do return (← d.canonical) :: (← canonicalItems ds)
def canonicalMembers : List (String × Document) → List (String × Except Error String)
  | [] => []
  | (key, d) :: ms => if d.isUndefined then canonicalMembers ms else (key, d.canonical) :: canonicalMembers ms
end

def digest (d : Document) : Except Error String := do
  return "graphscript-sha256:" ++ Sha256.hex (← d.canonical)

end OpGraph.Document
