/-
# Functions from operands

The checked forms of the operations on functions: building a function or an
application of one, reducing, and the three guesses.  Where a sequence is
expected a single operand may be given instead (`Operands.single`); it counts
as the sequence of that one operand, except that reduction insists on a
sequence.
-/

import SecondOrder.Lambda.Guess
import SecondOrder.Operand.Build

namespace SecondOrder

/-- A sequence of operands, or one expression in the place of a sequence. -/
inductive Operands where
  | single (e : Expr)
  | many (es : List Operand)
deriving Inhabited

namespace Operands

def toList : Operands → List Operand
  | single e => [e]
  | many es => es

end Operands

namespace Operand

/-- The operand as a parameter of a function. -/
def parameter (x : Operand) : Except Fault Var :=
  match x.var? with
  | some x => .ok x
  | none => .error (.parameterNotVariable x)

/-- The operands as the parameters of a function. -/
def parameters (xs : List Operand) : Except Fault Binders := do
  match xs with
  | [] => throw .emptyLambda
  | x :: xs => return ⟨← x.parameter, ← xs.mapM parameter⟩

/-- The function `λ xs. body`. -/
def function (R : Reserved) (xs : Operands) (body : Operand) : Except Fault Expr := do
  let xs ← parameters xs.toList
  return R.lambda xs (← body.expression)

/-- The application of a function or an unknown to arguments. -/
def applied (R : Reserved) (f : Operand) (args : Operands) : Except Fault Expr := do
  match f with
  | expr g =>
    if g.isLambda R || g.isMarked then
      match args.toList with
      | [] => throw .emptyArguments
      | a :: as => return R.apply g (← a.expression) (← as.mapM expression)
    else throw (.notApplicable f)
  | text _ => throw (.notApplicable f)

/-- Puts the second of each pair in the place of the first, one pair after the
other. -/
def substEach (e : Operand) : List (Var × Operand) → Except Fault Operand
  | [] => .ok e
  | (x, a) :: pairs => do substEach (← subst e (Expr.var x) a) pairs

/-- The function `f` applied to `args`, with the application carried out. -/
def betaReduce (R : Reserved) (f : Operand) (args : Operands) : Except Fault Operand := do
  match f with
  | expr (.bind g xs b) =>
    if g ≠ R.lambdaSym then throw (.notLambda f)
    match args with
    | .single a => throw (.argumentsNotSequence a)
    | .many as =>
      if xs.length ≠ as.length then throw (.arityMismatch (.bind g xs b) as)
      substEach b (xs.toList.zip as)
  | _ => throw (.notLambda f)

/-- The function that ignores its parameters. -/
def constantFn (R : Reserved) (xs : Operands) (e : Operand) : Except Fault Expr := function R xs e

/-- The function that returns its parameter `x`. -/
def projectionFn (R : Reserved) (xs : Operands) (x : Operand) : Except Fault Expr :=
  if xs.toList.any (· == x) then function R xs x else .error (.notParameter x)

/-- The imitation of `e`.  The temporary unknowns are applied first, then their
number is compared with the shape of `e`, and last the parameters are
checked. -/
def imitationFn (R : Reserved) (xs : Operands) (e : Operand) (temporaries : Operands) :
    Except Fault Expr := do
  let hs ← temporaries.toList.mapM fun h => applied R h (.many xs.toList)
  let temps := temporaries.toList.filterMap expr?
  let body ← match e with
    | expr (.app f as) =>
      if hs.length = as.length + 1 then application (hs.map expr)
      else throw (.temporariesPerChild (.app f as) temps)
    | expr (.bind g ys _) => match hs with
      | [h] => pure (.bind g ys h)
      | _ => throw (.oneTemporary temps)
    | _ => throw (.notImitable e)
  function R xs body

end Operand
end SecondOrder
