/-
# Faults

Every way in which an operation on expressions, equations or searches can be
refused.  A constructor names the cause and carries the values concerned.
`Fault.kind` sorts causes into classes, `Fault.message` is the sentence shown
to a user, and `Fault.details` lists the values shown beside it.
-/

import SecondOrder.Operand.Basic

namespace SecondOrder

inductive Fault where
  /-- An application without a child. -/
  | emptyApplication
  /-- A text where an expression is needed. -/
  | notExpression (text : String)
  /-- A binding headed by something other than a symbol. -/
  | headNotSymbol (head : Operand)
  /-- A binding without a variable. -/
  | emptyBinding
  /-- A binder slot filled by something other than a variable. -/
  | binderNotVariable (binder : Operand)
  /-- New parts for a node that has none. -/
  | atomWithoutParts (atom : Operand)
  /-- A function without a parameter. -/
  | emptyLambda
  /-- A parameter that is no variable. -/
  | parameterNotVariable (parameter : Operand)
  /-- The application of something that is neither a function nor an unknown. -/
  | notApplicable (function : Operand)
  /-- The application of a function to nothing. -/
  | emptyArguments
  /-- The reduction of something other than a function. -/
  | notLambda (function : Operand)
  /-- One expression where a sequence of arguments is needed. -/
  | argumentsNotSequence (argument : Expr)
  /-- The projection on something that is not a parameter. -/
  | notParameter (point : Operand)
  /-- Not as many temporary unknowns as an imitated application has children. -/
  | temporariesPerChild (target : Expr) (temporaries : List Expr)
  /-- Other than one temporary unknown for the body of an imitated binding. -/
  | oneTemporary (temporaries : List Expr)
  /-- The imitation of an atomic expression. -/
  | notImitable (target : Operand)
  /-- An equation with a side that is no expression. -/
  | sideNotExpression (pattern subject : Operand)
  /-- The decomposition of an equation that does not decompose. -/
  | notDecomposable (pattern subject : Expr)
  /-- A function applied to a wrong number of arguments. -/
  | arityMismatch (function : Expr) (arguments : List Operand)
  /-- A bound variable to be replaced by something that cannot be bound. -/
  | illegalCapture (binding : Expr) (x : Var) (replacement : Operand)
  /-- The renaming of a variable that the binding does not bind. -/
  | unboundVariable (x : Operand) (binding : Expr)
  /-- A branch point deeper than the search may go. -/
  | depthExceeded (depth : Nat) (limit : Int)
  /-- An index outside its sequence. -/
  | outOfRange
deriving Inhabited

namespace Fault

/-- The classes of faults. -/
inductive Kind where
  | invalidArgument
  | arityMismatch
  | illegalCapture
  | unboundVariable
  | searchLimit
  | index
deriving DecidableEq, Inhabited

def kind : Fault → Kind
  | arityMismatch .. => .arityMismatch
  | illegalCapture .. => .illegalCapture
  | unboundVariable .. => .unboundVariable
  | depthExceeded .. => .searchLimit
  | outOfRange => .index
  | _ => .invalidArgument

/-- The sentence for a fault whose class alone does not say what is wrong. -/
def message : Fault → Option String
  | emptyApplication => some "an application needs at least one child"
  | notExpression _ => some "not an expression"
  | headNotSymbol _ => some "the head of a binding must be a symbol"
  | emptyBinding => some "a binding needs at least one bound variable"
  | binderNotVariable _ => some "only variables can be bound"
  | atomWithoutParts _ => some "atomic expressions have no parts"
  | emptyLambda => some "an expression function needs at least one variable"
  | parameterNotVariable _ => some "expression functions can only bind variables"
  | notApplicable _ => some "only expression functions and metavariables can be applied"
  | emptyArguments => some "an expression function application needs arguments"
  | notLambda _ => some "only expression functions can be beta-reduced"
  | argumentsNotSequence _ => some "arguments must be given as a sequence"
  | notParameter _ => some "the projected variable must be one of the variables"
  | temporariesPerChild .. => some "need one temporary metavariable per child"
  | oneTemporary _ => some "need exactly one temporary metavariable for a binding"
  | notImitable _ => some "only applications and bindings can be imitated"
  | sideNotExpression .. => some "both sides of a constraint must be expressions"
  | notDecomposable .. => some "only simplification constraints can be broken up"
  | depthExceeded depth limit => some ("search depth " ++ toString depth
      ++ " exceeds the configured maximum of " ++ toString limit)
  | arityMismatch .. | illegalCapture .. | unboundVariable .. | outOfRange => none

/-- A value shown with a fault. -/
inductive Detail where
  | operand (value : Operand)
  | sequence (values : List Operand)
  | equation (pattern subject : Expr)
deriving Inhabited

/-- The values shown with a fault, in order. -/
def details : Fault → List Detail
  | notExpression text => [.operand (.text text)]
  | headNotSymbol head => [.operand head]
  | binderNotVariable binder => [.operand binder]
  | atomWithoutParts atom => [.operand atom]
  | parameterNotVariable parameter => [.operand parameter]
  | notApplicable function => [.operand function]
  | notLambda function => [.operand function]
  | argumentsNotSequence argument => [.operand argument]
  | notParameter point => [.operand point]
  | temporariesPerChild target temporaries =>
      [.operand target, .sequence (temporaries.map .expr)]
  | oneTemporary temporaries => [.sequence (temporaries.map .expr)]
  | notImitable target => [.operand target]
  | sideNotExpression pattern subject => [.operand pattern, .operand subject]
  | notDecomposable pattern subject => [.equation pattern subject]
  | arityMismatch function arguments => [.operand function, .sequence arguments]
  | illegalCapture binding x replacement =>
      [.operand binding, .operand (Expr.var x), .operand replacement]
  | unboundVariable x binding => [.operand x, .operand binding]
  | emptyApplication | emptyBinding | emptyLambda | emptyArguments | depthExceeded .. |
      outOfRange => []

end Fault

/-- What an operation that changes a value in place comes to: the state it
leaves, and its result or the fault that stopped it there. -/
structure Attempt (σ α : Type) where
  state : σ
  result : Except Fault α

end SecondOrder
