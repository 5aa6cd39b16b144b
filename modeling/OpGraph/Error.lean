import OpGraph.Fault.Syntax
import OpGraph.Fault.Value
import OpGraph.Fault.Lowering
import OpGraph.Source.Location

/-!
Errors: a fault and, where it is known, the place in the script. Faults of scripts, schemas and configurations have a
kind; the others tell of a limit of the representation of numbers or of a misuse of an operation.
-/

namespace OpGraph

inductive Fault where
  | script (f : SyntaxFault)
  | eval (f : EvalFault)
  | tensor (f : TensorFault)
  | call (f : CallFault)
  | lowering (f : LoweringFault)
  /-- A schema document or a configuration that cannot be used. -/
  | configuration (message : String)
  | stated (code : ErrorCode) (message : String)
  /-- A literal whose digits do not fit the base it announces. -/
  | digits (literal : String)
  | tooLarge
  /-- A float without a canonical text. -/
  | nonFinite (text : String)
  | scopeUnderflow
  | noScope
  | unbalancedScopes (function : String)
  /-- A reserved word on the command line, alone or as the value of an option. -/
  | reservedWord (asValue : Bool)
  deriving DecidableEq, Repr

namespace Fault

def code : Fault → Option ErrorCode
  | script f => some f.code
  | eval f => some f.code
  | tensor f => some f.code
  | call _ => some .arityError
  | lowering f => some f.code
  | configuration _ => some .configurationError
  | stated c _ => some c
  | _ => none

def message : Fault → String
  | script f => f.message
  | eval f => f.message
  | tensor f => f.message
  | call f => f.message
  | lowering f => f.message
  | configuration m => m
  | stated _ m => m
  | digits literal => s!"Cannot convert {literal} to a BigInt"
  | tooLarge => "Maximum BigInt size exceeded"
  | nonFinite text => s!"JCS: non-finite number {text} cannot be serialized"
  | scopeUnderflow => "Scope stack underflow"
  | noScope => "No scope has been entered"
  | unbalancedScopes function => s!"Unbalanced scopes after {function}"
  | reservedWord asValue => (if asValue then "nextArg" else "arg") ++ ".startsWith is not a function"

end Fault

structure Error where
  fault : Fault
  location : Option Location := none
  deriving DecidableEq, Repr

namespace Error

def code (e : Error) : Option ErrorCode :=
  e.fault.code

/-- Gives a place to an error that has a kind and no place yet. -/
def located (e : Error) (l : Location) : Error :=
  if e.code.isSome ∧ e.location.isNone then { e with location := some l } else e

/-- Moves an error that has a kind to a place. -/
def relocated (e : Error) (l : Location) : Error :=
  if e.code.isSome then { e with location := some l } else e

def format (e : Error) (source : Option String) : String :=
  match e.location with
  | some l => s!"ERROR: {e.fault.message}\n{l.format source}"
  | none => s!"ERROR: {e.fault.message}"

end Error

theorem bind_eq_ok {ε α β : Type} {r : Except ε α} {f : α → Except ε β} {b : β} :
    r >>= f = .ok b ↔ ∃ a, r = .ok a ∧ f a = .ok b := by
  cases r with
  | error e =>
    constructor
    · intro h
      cases h
    · rintro ⟨a, h, -⟩
      cases h
  | ok a =>
    constructor
    · exact fun h => ⟨a, rfl, h⟩
    · rintro ⟨a', h, hf⟩
      cases h
      exact hf

theorem map_eq_ok {ε α β : Type} {r : Except ε α} {f : α → β} {b : β} :
    f <$> r = .ok b ↔ ∃ a, r = .ok a ∧ f a = b := by
  rw [map_eq_pure_bind, bind_eq_ok]
  exact exists_congr fun a => and_congr_right fun _ => ⟨Except.ok.inj, congrArg _⟩

structure Diagnostic where
  message : String
  location : Option Location := none
  deriving DecidableEq, Repr

def Diagnostic.format (d : Diagnostic) (source : Option String) : String :=
  match d.location with
  | some l => s!"WARNING: {d.message}\n{l.format source}"
  | none => s!"WARNING: {d.message}"

end OpGraph
