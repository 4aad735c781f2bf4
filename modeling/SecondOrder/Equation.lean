/-
# Equations

An equation asks for values of the unknowns in its pattern that turn the
pattern into its subject.  `Equation.rule` says which inference rule fits it,
by the shapes of its two sides.  As an assignment `(unknown, value)` an
equation can be applied to other expressions (`Equation.apply`).

Two equations are the same when their sides are similar: equal as nodes, or
compound and equal up to bound names.
-/

import SecondOrder.Lambda.Basic
import SecondOrder.Operand.Basic
import SecondOrder.Expr.Alpha

namespace SecondOrder

/-- A pattern to be turned into a subject. -/
structure Equation where
  pattern : Expr
  subject : Expr
deriving Inhabited

/-- The inference rules. -/
inductive Rule where
  /-- Both sides are equal already. -/
  | trivial
  /-- The pattern is an unknown, which takes the subject as its value. -/
  | assign
  /-- Both sides have the same outermost shape and are compared part by part. -/
  | decompose
  /-- An unknown function is applied, or a redex stands in the pattern's place. -/
  | guess
  /-- No assignment helps. -/
  | clash
deriving DecidableEq, Inhabited

/-- The order in which rules are tried. -/
def Rule.priority : List Rule := [clash, trivial, assign, decompose, guess]

namespace Equation

/-- The sides are similar. -/
def same (c d : Equation) : Bool := c.pattern.similar d.pattern && c.subject.similar d.subject

instance : BEq Equation := ⟨same⟩

/-- The equation between two operands. -/
def ofOperands (pattern subject : Operand) : Except Fault Equation :=
  match pattern, subject with
  | .expr p, .expr e => .ok ⟨p, e⟩
  | _, _ => .error (.sideNotExpression pattern subject)

/-- Whether both sides have the same outermost shape: applications with the
same number of children, unless the pattern applies a function or an unknown,
or bindings with the same head and the same number of variables. -/
def decomposes (R : Reserved) (c : Equation) : Bool :=
  match c.pattern, c.subject with
  | .app f as, .app _ bs => !(Expr.app f as).isApply R && as.length == bs.length
  | .bind f xs _, .bind g ys _ => f == g && xs.length == ys.length
  | _, _ => false

/-- Whether the pattern applies a function or an unknown, be it only as an
application that has an unknown for its second child. -/
def isFlexible (R : Reserved) (c : Equation) : Bool :=
  c.pattern.isApply R || match c.pattern with
    | .app _ (h :: _) => h.isMarked
    | _ => false

/-- The rule that fits the equation. -/
def rule (R : Reserved) (c : Equation) : Rule :=
  if c.pattern == c.subject then .trivial
  else if c.pattern.isMarked then .assign
  else if c.decomposes R then .decompose
  else if c.isFlexible R then .guess
  else .clash

/-- Whether the equation gives an unknown a value. -/
def isAssignment (c : Equation) : Bool := c.pattern.isMarked

/-- The equations between corresponding parts: children of applications, bound
variables and bodies of bindings. -/
def pieces (c : Equation) : List Equation :=
  match c.pattern, c.subject with
  | .app f as, .app g bs => List.zipWith mk (f :: as) (g :: bs)
  | .bind _ xs b, .bind _ ys d =>
      List.zipWith (fun x y => ⟨.var x, .var y⟩) xs.toList ys.toList ++ [⟨b, d⟩]
  | _, _ => []

/-- The pieces of an equation that decomposes; any other is refused. -/
def decompose (R : Reserved) (c : Equation) : Except Fault (List Equation) :=
  if c.rule R = .decompose then .ok c.pieces
  else .error (.notDecomposable c.pattern c.subject)

/-- The equation applied as an assignment: every free occurrence of the pattern
gives way to the subject, and every redex that then stands in the result is
contracted once. -/
def apply (R : Reserved) (c : Equation) (target : Expr) : Except Fault Expr := do
  (← target.subst c.pattern c.subject).contractAll R

/-- The compact form. -/
def text (c : Equation) : String := "(" ++ c.pattern.text ++ ", " ++ c.subject.text ++ ")"

/-- The long form. -/
def termText (c : Equation) : String :=
  "Constraint(" ++ c.pattern.termText ++ ", " ++ c.subject.termText ++ ")"

end Equation
end SecondOrder
