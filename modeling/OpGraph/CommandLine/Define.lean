import OpGraph.Config
import OpGraph.Text.Blank

/-!
Values given as arguments: integers of any size, JSON values without objects, and any other text as it stands.
-/

namespace OpGraph.CommandLine

def integer? (cs : List Char) : Option Int :=
  let (negative, ds) := match cs with
    | '-' :: ds => (true, ds)
    | '+' :: ds => (false, ds)
    | ds => (false, ds)
  if ds.isEmpty || !ds.all Char.isDigit then none
  else
    let n : Int := Json.natOfDigits ds
    some (if negative then -n else n)

mutual
/-- The literal of a JSON value that holds no object. -/
def literalOfJson? : Json → Option Literal
  | .null => some .none
  | .bool b => some (.bool b)
  | .number x => some (.ofNumber x)
  | .string s => some (.str s)
  | .array js => (literalsOfJson? js).map .list
  | .object _ => none
def literalsOfJson? : List Json → Option (List Literal)
  | [] => some []
  | j :: js => do return (← literalOfJson? j) :: (← literalsOfJson? js)
end

def parseLiteral (s : String) : Literal :=
  let text := Text.trim s
  match integer? text.toList with
  | some i => .int i
  | none => ((Json.read? text).bind literalOfJson?).getD (.str text)

/-- A name and a value around the first equals sign, which does not come first. -/
def parseDefine (s : String) : Option (String × Literal) :=
  let name := s.toList.takeWhile (· ≠ '=')
  match s.toList.dropWhile (· ≠ '=') with
  | _ :: rest =>
    if name.isEmpty then none else some (String.ofList (Text.trimChars name), parseLiteral (String.ofList rest))
  | [] => none

end OpGraph.CommandLine
