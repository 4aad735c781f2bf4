/-
# Functions and their application

A function `λx₁…x_k. b` is a binding headed by the reserved symbol
`Reserved.lambdaSym`.  An application of a function or of an unknown to at
least one argument is an application headed by `Reserved.applySym`; it is a
redex when what it applies is a function.

`betaReduce` substitutes the arguments one parameter after another.
`contractAll` contracts every redex that an expression contains at the start,
innermost first; redexes that arise on the way stay.
-/

import SecondOrder.Expr.Subst
import SecondOrder.Reserved

namespace SecondOrder

namespace Reserved

/-- The function `λ xs. body`. -/
def lambda (R : Reserved) (xs : Binders) (body : Expr) : Expr := .bind R.lambdaSym xs body

/-- The application of `f` to `a` and then `as`. -/
def apply (R : Reserved) (f a : Expr) (as : List Expr) : Expr := .app (.sym R.applySym) (f :: a :: as)

/-- The application of `f` to the variables `xs`. -/
def applyVars (R : Reserved) (f : Expr) (xs : Binders) : Expr :=
  R.apply f (.var xs.first) (xs.rest.map .var)

end Reserved

namespace Expr

def isLambda (R : Reserved) : Expr → Bool
  | bind f _ _ => f == R.lambdaSym
  | _ => false

/-- What is applied and to which arguments, if `e` is an application of a
function or an unknown. -/
def asApply? (R : Reserved) : Expr → Option (Expr × List Expr)
  | app (sym f) (g :: a :: as) => if f = R.applySym then some (g, a :: as) else none
  | _ => none

def isApply (R : Reserved) (e : Expr) : Bool := (e.asApply? R).isSome

/-- An applied function. -/
def isRedex (R : Reserved) (e : Expr) : Bool :=
  match e.asApply? R with
  | some (g, _) => g.isLambda R
  | none => false

/-- Puts the second of each pair in the place of the first, one pair after the
other. -/
def substEach (e : Expr) : List (Var × Expr) → Except Fault Expr
  | [] => .ok e
  | (x, a) :: pairs => do substEach (← e.subst (var x) a) pairs

/-- The function `f` applied to `args`, with the application carried out. -/
def betaReduce (R : Reserved) (f : Expr) (args : List Expr) : Except Fault Expr :=
  match f with
  | bind g xs b =>
    if g ≠ R.lambdaSym then .error (.notLambda f)
    else if xs.length ≠ args.length then .error (.arityMismatch f (args.map .expr))
    else b.substEach (xs.toList.zip args)
  | _ => .error (.notLambda f)

/-- The redex `e` carried out; any other expression stays as it is. -/
def contract (R : Reserved) (e : Expr) : Except Fault Expr :=
  match e.asApply? R with
  | some (g, args) => if g.isLambda R then betaReduce R g args else .ok e
  | none => .ok e

end Expr

/-- A fault and the depth of the node where it arose. -/
abbrev DeepFault := Nat × Fault

/-- Two results side by side; of two faults the deeper one counts, and of two
at one depth the first. -/
def bothDeep {α β : Type} : Except DeepFault α → Except DeepFault β → Except DeepFault (α × β)
  | .ok a, .ok b => .ok (a, b)
  | .error x, .ok _ => .error x
  | .ok _, .error y => .error y
  | .error x, .error y => .error (if x.1 < y.1 then y else x)

namespace Expr

mutual

/-- Contracts every redex of an expression that stands at the given depth. -/
def contractFrom (R : Reserved) (depth : Nat) : Expr → Except DeepFault Expr
  | app f as =>
    match bothDeep (contractFrom R (depth + 1) f) (contractFromAll R (depth + 1) as) with
    | .error x => .error x
    | .ok (g, bs) =>
      if (app f as).isRedex R then ((app g bs).contract R).mapError fun fault => (depth, fault)
      else .ok (app g bs)
  | bind f xs b => (contractFrom R (depth + 1) b).map (bind f xs)
  | e => .ok e

def contractFromAll (R : Reserved) (depth : Nat) : List Expr → Except DeepFault (List Expr)
  | [] => .ok []
  | a :: as =>
    (bothDeep (contractFrom R depth a) (contractFromAll R depth as)).map fun p => p.1 :: p.2

end

/-- Contracts every redex that `e` contains at the start.  The deepest go first
and those at one depth from left to right, which decides between two faults. -/
def contractAll (R : Reserved) (e : Expr) : Except Fault Expr :=
  (contractFrom R 0 e).mapError Prod.snd

end Expr
end SecondOrder
