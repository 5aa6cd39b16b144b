import OpGraph.Text.Units
import OpGraph.Fault.Code

/-!
Faults of the text of a script: characters that form no token, and tokens that form no statement.
-/

namespace OpGraph

inductive SyntaxFault where
  | unindent
  | complexLiteral
  | malformedNumber
  | unterminatedString
  /-- A UTF-16 unit that starts no token. -/
  | unexpectedUnit (unit : Nat)
  /-- One token was wanted and another found, both as messages describe them. -/
  | expected (wanted found : String)
  | unexpected (found : String)
  | unexpectedKeyword (word : String)
  | unexpectedIndent
  | defaultOrder
  | argumentOrder
  | emptySubscript
  | notOneExpression
  | tooDeep
  | decorator
  | parameterForm (function : String)
  | statement (word : String)
  | augmentedTarget
  | assignmentExpression
  | lambda
  | conditionalExpression
  | starArgument
  | comprehension
  | display
  | ellipsis
  deriving DecidableEq, Repr

namespace SyntaxFault

/-- Constructs outside the language are told apart from malformed text. -/
def code : SyntaxFault → ErrorCode
  | decorator | parameterForm _ | statement _ | augmentedTarget | assignmentExpression | lambda
  | conditionalExpression | starArgument | comprehension | display | ellipsis => .unsupportedConstruct
  | _ => .syntaxError

def message : SyntaxFault → String
  | unindent => "Unindent does not match any outer indentation level."
  | complexLiteral => "Complex literals are not supported."
  | malformedNumber => "Invalid numeric literal."
  | unterminatedString => "Unterminated string literal."
  | unexpectedUnit u => s!"Unexpected character '{Text.ofUnit u}'."
  | expected wanted found => s!"Expected {wanted} but found {found}."
  | unexpected found => s!"Unexpected {found}."
  | unexpectedKeyword word => s!"Unexpected keyword '{word}'."
  | unexpectedIndent => "Unexpected indent."
  | defaultOrder => "Non-default argument follows default argument."
  | argumentOrder => "Positional argument follows keyword argument."
  | emptySubscript => "Expected subscript."
  | notOneExpression => "Expected a single expression."
  | tooDeep => "Nesting is too deep."
  | decorator => "Decorators are not supported."
  | parameterForm function => s!"{function}: Unsupported feature in function signature."
  | statement word => s!"Unsupported statement '{word}'."
  | augmentedTarget => "Augmented assignment target must be a name."
  | assignmentExpression => "Assignment expressions are not supported."
  | lambda => "Lambda expressions are not supported."
  | conditionalExpression => "Conditional expressions are not supported."
  | starArgument => "Star arguments are not supported."
  | comprehension => "Comprehensions are not supported."
  | display => "Dictionary and set displays are not supported."
  | ellipsis => "Ellipsis is not supported."

end SyntaxFault

end OpGraph
