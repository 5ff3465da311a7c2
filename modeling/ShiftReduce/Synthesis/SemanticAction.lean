/-
Semantic actions by name.

A rule names the builder that makes the node of its left-hand side; some
builders have two names. Building fails if there is no builder of that
name, or if the children do not suit it.
-/
import ShiftReduce.Synthesis.Builder

namespace ShiftReduce

/-- The builder with a name. -/
def builder? : String → Option Builder
  | "Program" => some Builder.program
  | "Block" => some Builder.block
  | "List" => some Builder.list
  | "VarDecl" => some Builder.varDecl
  | "ConstDecl" => some Builder.constDecl
  | "FuncDecl" => some Builder.funcDecl
  | "Param" => some Builder.param
  | "Assign" => some Builder.assign
  | "AssignExpr" => some Builder.assign
  | "BinaryExpr" => some Builder.binary
  | "UnaryExpr" => some Builder.unary
  | "Call" => some Builder.call
  | "CallExpr" => some Builder.call
  | "Literal" => some Builder.literal
  | "Num" => some Builder.number
  | "Ident" => some Builder.identifier
  | "Identifier" => some Builder.identifier
  | "If" => some Builder.ifElse
  | "IfStmt" => some Builder.ifElse
  | "While" => some Builder.whileLoop
  | "WhileStmt" => some Builder.whileLoop
  | "For" => some Builder.forLoop
  | "ForStmt" => some Builder.forLoop
  | _ => none

/-- Whether there is a builder with a name. -/
def isKnownAction (name : String) : Bool := (builder? name).isSome

/-- Why a semantic action has not built a node. -/
inductive SynthesisError where
  /-- There is no builder with the name. -/
  | unknownAction (action : String) (rule : Nat)
  /-- The builder does not take these children. -/
  | shape (action : String) (rule : Nat) (fault : ShapeFault)
      (children : List Fragment)

namespace SynthesisError

/-- The code under which a synthesis error is listed. -/
def code (_ : SynthesisError) : String := "P007"

/-- Where the children that do not suit stand, as far as that is known. -/
def place (children : List Fragment) : String :=
  match Fragment.position? children with
  | none => ""
  | some position => " at " ++ position.toText

/-- The text of a synthesis error. -/
def message : SynthesisError → String
  | unknownAction action rule =>
    "unknown semantic action `" ++ action ++ "' (rule " ++ toString rule ++ ")"
  | shape action rule fault children =>
    "semantic action `" ++ action ++ "' (rule " ++ toString rule
      ++ ") cannot build a node" ++ place children ++ ": "
      ++ fault.reason children

end SynthesisError

/-- Build the node of a rule from its children, given in the order of the
source. -/
def synthesize (action : String) (children : List Fragment) (rule : Nat) :
    Except SynthesisError Node :=
  match builder? action with
  | none => .error (.unknownAction action rule)
  | some build =>
    match build children with
    | .ok node => .ok node
    | .error fault => .error (.shape action rule fault children)

end ShiftReduce
