/-
What can be wrong with the children of a node.

A semantic action builds its node only from children of the right shape.
What it expected and did not find is a cause; the text of a fault names the
cause and shows the children.
-/
import ShiftReduce.Tree.Fragment

namespace ShiftReduce

/-- What a semantic action expected and did not find. -/
inductive Expectation where
  | variableName
  | typeName
  | initializer
  | constantName
  | constantDeclaration
  | functionBody
  | returnType
  | functionName
  | parameters
  | parameterName
  | parameter
  | assignmentTarget
  | assignment
  | binaryOperation
  | unaryOperation
  | callee
  | literalToken
  | numericToken
  | identifier
  | singleIdentifier
  | condition
  | block
  | whileLoop
  | loopBody
  | forLoop
deriving DecidableEq, Repr

/-- The text of an expectation. -/
def Expectation.text : Expectation → String
  | variableName => "a variable name"
  | typeName => "a type name"
  | initializer => "an initializer after `='"
  | constantName => "a constant name"
  | constantDeclaration => "[name, type, `=', value]"
  | functionBody => "a function body"
  | returnType => "a return type"
  | functionName => "a function name"
  | parameters => "parameters"
  | parameterName => "a parameter name"
  | parameter => "[name, type]"
  | assignmentTarget => "an assignment target"
  | assignment => "[target, `=', value]"
  | binaryOperation => "[node, operator, node]"
  | unaryOperation => "[operator, node]"
  | callee => "a callee"
  | literalToken => "a single literal token"
  | numericToken => "a single numeric token"
  | identifier => "an identifier"
  | singleIdentifier => "a single identifier"
  | condition => "a condition"
  | block => "a block"
  | whileLoop => "[condition, block]"
  | loopBody => "a loop body"
  | forLoop =>
      "[block], [condition, block] or [init, condition, update, block]"

/-- Why no node can be built from some children. -/
inductive ShapeFault where
  | expected (what : Expectation)
  /-- Children that belong to nothing. -/
  | unexpectedChildren
  /-- Children behind the last one that was expected. -/
  | tooManyChildren
  | literal (reason : LiteralFault)
deriving DecidableEq, Repr

/-- The text of a fault in the given children. -/
def ShapeFault.reason (children : List Fragment) : ShapeFault → String
  | expected what =>
      "expected " ++ what.text ++ ", got " ++ Fragment.describe children
  | unexpectedChildren => "unexpected children " ++ Fragment.describe children
  | tooManyChildren => "too many children " ++ Fragment.describe children
  | literal reason => reason.message

end ShiftReduce
