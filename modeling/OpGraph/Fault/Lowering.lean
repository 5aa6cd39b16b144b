import OpGraph.Fault.Code

/-!
Faults of functions that cannot be lowered: calls that do not fit their callee, and statements outside the language of
graphs.
-/

namespace OpGraph

inductive CallFault where
  | tooManyActuals (actual formal : Nat)
  | missingVariadic (param callee : String)
  | missingInput (param callee : String)
  | missingAttribute (param callee : String)
  | tooManyPositional (callee : String) (taken given : Nat)
  | unexpectedKeyword (callee keyword : String)
  | returnCount (values types : Nat)
  deriving DecidableEq, Repr

namespace CallFault

def message : CallFault → String
  | tooManyActuals actual formal =>
    s!"Number of actual parameters {actual} exceeds number of formal parameters {formal}."
  | missingVariadic param callee => s!"Missing required variadic input {param} of {callee}."
  | missingInput param callee => s!"Missing required input {param} of {callee}."
  | missingAttribute param callee => s!"Missing required attribute {param} of {callee}."
  | tooManyPositional callee taken given => s!"{callee} takes {taken} positional arguments but {given} were given."
  | unexpectedKeyword callee keyword => s!"{callee} got an unexpected keyword argument '{keyword}'."
  | returnCount values types =>
    s!"Mismatch in number of return values and types: {values} values, {types} declared types."

end CallFault

inductive LoweringFault where
  | operator (name : String)
  | expressionType (name : String)
  | chainedComparison
  | emptyBoolean
  | multipleOutputs
  | opsetExpression
  | callee
  | stepNotLiteral
  | stepZero
  | sliceComponent
  | returnInBlock
  | statementType (name : String)
  | breakForm
  | breakTest
  | breakNotLast
  | breakCondition (name : String)
  | importInFunction
  | tupleTarget
  | target
  | multiAssignment
  | missingValue
  | leftNotTuple (name : String)
  | tupleSizes
  | emptyReturn
  | returnNotLast
  | unassigned (name : String)
  | emptyConditional
  | conditionalOutput (name : String)
  | loopTarget
  | loopBound
  | loopRange
  | whileTest
  | loopElse
  | loopCondition (name : String)
  | topLevel (name : String)
  | moduleLevel (name : String)
  | moduleAssignment
  | module (name : String)
  | graphValue (what kind : String)
  | attributeType (type name : String)
  | attributeGraphValue (attr name : String)
  | captured (name function : String)
  | noDefaultOpset
  | twoOpsets (used current : String)
  deriving DecidableEq, Repr

namespace LoweringFault

def code : LoweringFault → ErrorCode
  | graphValue .. | attributeType .. | attributeGraphValue .. | sliceComponent => .typeMismatch
  | captured .. => .capturedVariableMutation
  | noDefaultOpset | twoOpsets .. => .configurationError
  | _ => .unsupportedConstruct

def message : LoweringFault → String
  | operator name => s!"Unsupported operator {name}."
  | expressionType name => s!"Unsupported expression type {name}."
  | chainedComparison => "Chained comparisons are not supported."
  | emptyBoolean => "Empty boolean expression."
  | multipleOutputs => "Only a call can be assigned to several variables."
  | opsetExpression => "Invalid opset expression: an operator must be called as <opset>.<name>(...)."
  | callee => "Invalid callee."
  | stepNotLiteral => "Slice step must be a literal integer."
  | stepZero => "Slice step cannot be zero."
  | sliceComponent => "Slice component type must be int."
  | returnInBlock => "Return statements are not permitted inside control-flow statements."
  | statementType name => s!"Unsupported statement type {name}."
  | breakForm => "Instruction break is only supported as 'if <condition>: break' at the end of a loop."
  | breakTest => "Instruction break can only be introduced by a test of the form 'if <condition>: break'."
  | breakNotLast => "Instruction break must be the last one of the loop."
  | breakCondition name => s!"Unable to find condition variable '{name}' among the variables of the loop body."
  | importInFunction => "Imports are only supported at module level."
  | tupleTarget => "Only names can be assigned from a call with several outputs."
  | target => "Unsupported construct in LHS of assignment."
  | multiAssignment => "Multi-assignment not supported."
  | missingValue => "Annotated declarations need a value."
  | leftNotTuple name => s!"Left term must be a tuple not {name}."
  | tupleSizes => "Expected same number of elements on lhs and rhs of assignments."
  | emptyReturn => "Return statement without return-value not supported."
  | returnNotLast => "Return must be the last statement of a function."
  | unassigned name => s!"Variable {name} is not assigned a value along a conditional branch."
  | emptyConditional => "A conditional must assign at least one variable used after it."
  | conditionalOutput name => s!"Input and output cannot be the same {name}."
  | loopTarget => "For loop target must be a single variable."
  | loopBound => "Unsupported loop bound, only function 'range' is allowed."
  | loopRange => "Unsupported loop bound, it should be 'range(?)'."
  | whileTest => "Unexpected condition for a while loop, it should be 'while <condition_name>:'."
  | loopElse => "Loops with an else clause are not supported."
  | loopCondition name => s!"The loop condition '{name}' must be assigned in the loop body."
  | topLevel name => s!"Unsupported top-level statement type {name}."
  | moduleLevel name => s!"Unsupported module-level statement type {name}."
  | moduleAssignment => "Module-level assignments must bind one name to a value."
  | module name => s!"Unsupported module '{name}'."
  | graphValue what kind => s!"Cannot use {what} of kind '{kind}' as a graph value."
  | attributeType type name => s!"Unsupported attribute type {type} for {name}."
  | attributeGraphValue attr name =>
    s!"Attribute {attr} must be a constant or an attribute parameter, but '{name}' is a graph value."
  | captured name function => s!"Outer scope variable {name} referenced by function '{function}' modified."
  | noDefaultOpset =>
    "A default opset must be given for functions that do not use any operator of the default domain."
  | twoOpsets used current => s!"Two distinct opsets were used ({used} != {current})."

end LoweringFault

end OpGraph
