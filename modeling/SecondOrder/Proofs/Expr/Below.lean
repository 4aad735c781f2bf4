/-
# Numbers stay below a bound

The variables `v<N>` of an expression have numbers below a bound.  An
assignment that is applied to a pattern keeps to it (`Equation.Below.apply`),
as it brings in no variables of its own but `x<N>`.
-/

import SecondOrder.Proofs.EquationSet.Contents
import SecondOrder.Proofs.Expr.Provenance

namespace SecondOrder

namespace Expr

variable {n : Nat} {f : Sym} {xs : Binders} {b g : Expr} {as : List Expr} {x : Var}

/-- An application is below a number if its parts are, -/
theorem below_app : (app g as).Below n ↔ g.Below n ∧ ∀ a ∈ as, a.Below n := allVars_app

/-- a binding if its slots and its body are, -/
theorem below_bind : (bind f xs b).Below n ↔ (∀ x ∈ xs.toList, x.Below n) ∧ b.Below n := allVars_bind

/-- and a variable if it is below it itself. -/
theorem below_var : (var x).Below n ↔ x.Below n := allVars_var

end Expr

/-- **To apply an assignment keeps numbers below the bound.** -/
theorem Equation.Below.apply {R : Reserved} {a : Equation} {p q : Expr} {n : Nat} (ha : a.Below n)
    (hp : p.Below n) (h : a.apply R p = .ok q) : q.Below n :=
  allVars_of_apply (fun _ _ hy => hy.below n) ha.2 hp h

end SecondOrder
