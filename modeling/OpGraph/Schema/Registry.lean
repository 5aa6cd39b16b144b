import OpGraph.Json.Members
import OpGraph.Schema.Operator
import OpGraph.Text.Units

/-!
Registries of operators. An operator is filed under the text of its domain and its name, with its versions in ascending
order.
-/

namespace OpGraph

structure Registry where
  entries : List (String × List OpSchema) := []

namespace Registry

/-- The key of an operator: its domain, two colons and its name. -/
def key (domain name : String) : String :=
  domain ++ "::" ++ name

/-- Files a version among others, in ascending order and in place of an equal one. -/
def insertVersion (s : OpSchema) : List OpSchema → List OpSchema
  | [] => [s]
  | t :: ts =>
    if s.since < t.since then s :: t :: ts
    else if s.since = t.since then s :: ts
    else t :: insertVersion s ts

def versions (r : Registry) (k : String) : List OpSchema :=
  (Members.get? r.entries k).getD []

def register (r : Registry) (s : OpSchema) : Registry :=
  let k := key s.domain s.name
  ⟨Members.set r.entries k (insertVersion s (r.versions k))⟩

/-- The latest schema of an operator that is not newer than `version`, or the latest of all. -/
def get? (r : Registry) (domain name : String) (version : Option Int) : Option OpSchema :=
  match version with
  | none => (r.versions (key domain name)).getLast?
  | some v => ((r.versions (key domain name)).filter (·.since ≤ v)).getLast?

def contains (r : Registry) (domain name : String) (version : Option Int) : Bool :=
  (r.get? domain name version).isSome

/-- Names of the operators whose key starts with the domain, by UTF-16 units. -/
def names (r : Registry) (domain : String) : List String :=
  let start := (key domain "").toList
  let found := r.entries.filterMap fun (k, _) =>
    if start.isPrefixOf k.toList then some (String.ofList (k.toList.drop start.length)) else none
  Text.sortBy id found

def ofList (schemas : List OpSchema) : Registry :=
  schemas.foldl register {}

end Registry

end OpGraph
