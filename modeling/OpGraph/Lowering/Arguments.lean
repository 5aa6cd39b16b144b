import OpGraph.Error
import OpGraph.Json.Members
import OpGraph.Schema.Operator

/-!
Matching of call arguments with the parameters of the callee. Positional arguments fill parameters in order, a variadic
input taking all that remain; keywords fill the rest.
-/

namespace OpGraph

/-- Arguments of a call by their use. An omitted optional input before a given one is none. -/
structure Arguments (α : Type) where
  inputs : List (Option α)
  attrs : List (String × α)

namespace Arguments

variable {α : Type}

def error {β : Type} (f : CallFault) : Except Error β :=
  .error ⟨.call f, none⟩

/-- What the parameters took: the inputs and attributes, the positional arguments that remain, and the keywords that
were used. -/
structure Taken (α : Type) where
  inputs : List (Option α) := []
  attrs : List (String × α) := []
  rest : List α
  used : List String := []

def Taken.put (t : Taken α) (p : CallParam) (v : α) : Taken α :=
  if p.isInput then { t with inputs := t.inputs ++ [some v] } else { t with attrs := t.attrs ++ [(p.name, v)] }

def take (keywords : List (String × α)) (callee : String) (t : Taken α) (p : CallParam) : Except Error (Taken α) :=
  if p.isVariadic then
    if t.rest.isEmpty && p.required then error (.missingVariadic p.name callee)
    else .ok { t with inputs := t.inputs ++ t.rest.map some, rest := [] }
  else match t.rest with
    | v :: rest => .ok ({ t with rest }.put p v)
    | [] =>
      match Members.get? keywords p.name with
      | some v => .ok ({ t with used := t.used ++ [p.name] }.put p v)
      | none =>
        if p.required then
          error (if p.isInput then .missingInput p.name callee else .missingAttribute p.name callee)
        else if p.isInput then .ok { t with inputs := t.inputs ++ [none] }
        else .ok t

def trim (inputs : List (Option α)) : List (Option α) :=
  (inputs.reverse.dropWhile Option.isNone).reverse

/-- Matches arguments with parameters. Keywords have distinct names. -/
def separate (params : List CallParam) (args : List α) (keywords : List (String × α)) (callee : String) :
    Except Error (Arguments α) := do
  let t ← params.foldlM (take keywords callee) { rest := args }
  if !t.rest.isEmpty then error (.tooManyPositional callee (args.length - t.rest.length) args.length)
  else match keywords.find? fun k => !t.used.contains k.1 with
    | some k => error (.unexpectedKeyword callee k.1)
    | none => return ⟨trim t.inputs, t.attrs⟩

end Arguments

end OpGraph
