/-
# The three guesses for an unknown function

A function whose application should equal a given expression either ignores its
arguments (`constantFn`), returns one of them (`projectionFn`), or reproduces
the outermost shape of the expression and leaves the rest to further unknowns
(`imitationFn`), each of which is applied to all parameters.
-/

import SecondOrder.Lambda.Basic

namespace SecondOrder
namespace Reserved

/-- The function `λ xs. e`, for `xs` that do not occur in `e`. -/
def constantFn (R : Reserved) (xs : Binders) (e : Expr) : Expr := R.lambda xs e

/-- The function `λ xs. x`, for `x` among `xs`. -/
def projectionFn (R : Reserved) (xs : Binders) (x : Var) : Expr := R.lambda xs (.var x)

/-- How many temporary unknowns the imitation of an expression takes: one per
child of an application, one for the body of a binding. -/
def temporaryCount : Expr → Nat
  | .app _ as => as.length + 1
  | _ => 1

/-- The imitation of `e` with parameters `xs`.  For `g(e₁,…)` it is
`λ xs. h₀(xs)(h₁(xs),…)`, for a binding `g[ys, b]` it is `λ xs. g[ys, h(xs)]`;
an atom cannot be imitated. -/
def imitationFn (R : Reserved) (xs : Binders) (e : Expr) (temporaries : List Expr) :
    Except Fault Expr :=
  match e, temporaries with
  | .app _ as, h :: hs =>
    if as.length = hs.length then
      .ok (R.lambda xs (.app (R.applyVars h xs) (hs.map fun h => R.applyVars h xs)))
    else .error (.temporariesPerChild e temporaries)
  | .app .., [] => .error (.temporariesPerChild e [])
  | .bind g ys _, [h] => .ok (R.lambda xs (.bind g ys (R.applyVars h xs)))
  | .bind .., _ => .error (.oneTemporary temporaries)
  | _, _ => .error (.notImitable e)

end Reserved
end SecondOrder
