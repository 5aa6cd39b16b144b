/-!
The kinds of errors that a script, a schema or a configuration can give rise to.
-/

namespace OpGraph

inductive ErrorCode where
  | unsupportedConstruct
  | syntaxError
  | unboundName
  | arityError
  | typeMismatch
  | emptyList
  | capturedVariableMutation
  | configurationError
  deriving DecidableEq, Repr

def ErrorCode.all : List ErrorCode :=
  [.unsupportedConstruct, .syntaxError, .unboundName, .arityError, .typeMismatch, .emptyList,
    .capturedVariableMutation, .configurationError]

def ErrorCode.name : ErrorCode → String
  | unsupportedConstruct => "UnsupportedConstruct"
  | syntaxError => "SyntaxError"
  | unboundName => "UnboundName"
  | arityError => "ArityError"
  | typeMismatch => "TypeMismatch"
  | emptyList => "EmptyList"
  | capturedVariableMutation => "CapturedVariableMutation"
  | configurationError => "ConfigurationError"

def ErrorCode.ofName? (s : String) : Option ErrorCode :=
  ErrorCode.all.find? (·.name == s)

end OpGraph
