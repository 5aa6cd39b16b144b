import OpGraph.Json.Basic
import OpGraph.Number.Binary64

/-!
Validation of documents. A check gives a value or all that is wrong, each issue with its path, in the order in which the
parts of the document are declared.
-/

namespace OpGraph

structure Issue where
  path : List String
  message : String
  value : Option Json := none

namespace Issue

def pathText (i : Issue) : String :=
  let text := ".".intercalate i.path
  if text = "" then "$" else text

def text (i : Issue) : String :=
  i.pathText ++ ": " ++ i.message

def format (issues : List Issue) : String :=
  "; ".intercalate (issues.map text)

end Issue

inductive Validated (α : Type) where
  | ok (a : α)
  | failed (issues : List Issue)

namespace Validated

variable {α β : Type}

def map (f : α → β) : Validated α → Validated β
  | ok a => ok (f a)
  | failed is => failed is

def apply : Validated (α → β) → Validated α → Validated β
  | ok f, ok a => ok (f a)
  | failed is, ok _ => failed is
  | ok _, failed js => failed js
  | failed is, failed js => failed (is ++ js)

instance : Applicative Validated where
  map := map
  pure := ok
  seq f a := apply f (a ())

def each (f : α → Validated β) : List α → Validated (List β)
  | [] => ok []
  | a :: as => List.cons <$> f a <*> each f as

def issues : Validated α → List Issue
  | ok _ => []
  | failed is => is

def toOption : Validated α → Option α
  | ok a => some a
  | failed _ => none

end Validated

/-- A check of a part of a document at a path; the part may be missing. -/
abbrev Check (α : Type) := List String → Option Json → Validated α

namespace Check

variable {α : Type}

def fail (path : List String) (message : String) : Validated α :=
  .failed [{ path, message }]

def received : Option Json → String
  | some j => j.kind
  | none => "undefined"

def wrongType (expected : String) (path : List String) (j : Option Json) : Validated α :=
  fail path ("Invalid input: expected " ++ expected ++ ", received " ++ received j)

def string : Check String
  | _, some (.string s) => .ok s
  | path, j => wrongType "string" path j

def nonEmptyString : Check String
  | path, some (.string s) => if s = "" then fail path "Too small: expected string to have >=1 characters" else .ok s
  | path, j => wrongType "string" path j

def bool : Check Bool
  | _, some (.bool b) => .ok b
  | path, j => wrongType "boolean" path j

def number : Check Float
  | path, some (.number x) => if x.isFinite then .ok x else wrongType "number" path (some (.number x))
  | path, j => wrongType "number" path j

/-- The largest integer all of whose smaller neighbours are floats too. -/
def maxSafe : Int := 0x1fffffffffffff

/-- An integer of at most 53 bits that is not below a least one; the text tells the bound. -/
def integer (least : Int) (bound : String) : Check Int := fun path j =>
  match number path j with
  | .failed is => .failed is
  | .ok x =>
    match Binary64.toInt? x with
    | none => fail path "Invalid input: expected int, received number"
    | some i =>
      let messages :=
        (if maxSafe < i then [s!"Too big: expected int to be <{maxSafe}"] else []) ++
        (if i < -maxSafe then [s!"Too small: expected int to be >-{maxSafe}"] else []) ++
        (if i < least then ["Too small: expected number to be " ++ bound] else [])
      if messages.isEmpty then .ok i else .failed (messages.map fun message => { path, message })

def positive : Check Int :=
  integer 1 ">0"

def nonNegative : Check Int :=
  integer 0 ">=0"

def oneOf (words : List (String × α)) : Check α := fun path j =>
  let refused : Validated α :=
    fail path ("Invalid option: expected one of " ++ "|".intercalate (words.map fun w => "\"" ++ w.1 ++ "\""))
  match j with
  | some (.string s) =>
    match words.find? (·.1 == s) with
    | some w => .ok w.2
    | none => refused
  | _ => refused

def form (read? : Json → Option α) : Check α := fun path j =>
  match j.bind read? with
  | some a => .ok a
  | none => fail path "Invalid input"

def items (item : Check α) (path : List String) : (index : Nat) → List Json → Validated (List α)
  | _, [] => .ok []
  | i, j :: js => List.cons <$> item (path ++ [toString i]) (some j) <*> items item path (i + 1) js

def array (item : Check α) : Check (List α)
  | path, some (.array js) => items item path 0 js
  | path, j => wrongType "array" path j

def member (j : Json) (key : String) (check : Check α) (path : List String) : Validated α :=
  check (path ++ [key]) (j.get? key)

def orMissing (check : Check α) : Check (Option α)
  | _, none => .ok none
  | path, j => some <$> check path j

def withDefault (check : Check α) (default : α) : Check α
  | _, none => .ok default
  | path, j => check path j

def object (members : List String → Json → Validated α) : Check α
  | path, some (.object ms) => members path (.object ms)
  | path, j => wrongType "object" path j

end Check

end OpGraph
