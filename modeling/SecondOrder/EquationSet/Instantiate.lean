/-
# Instantiating patterns

`EquationSet.instantiate` applies the equations of one set, in order, to the
patterns of another, each equation to all patterns before the next one is
taken.  A pattern may refuse an assignment; then the patterns changed before it
stay changed.  A set can be instantiated by itself: its equations then change
while they are being applied (`instantiateSelf`).
-/

import SecondOrder.Expr.Position
import SecondOrder.EquationSet.Basic

namespace SecondOrder
namespace EquationSet

/-- Applies the equations in order to one pattern. -/
def applyAll (R : Reserved) (assignments : List Equation) (pattern : Expr) : Except Fault Expr :=
  assignments.foldlM (fun p c => c.apply R p) pattern

/-- Applies one assignment to the patterns of all equations, up to the first
that refuses it. -/
def instantiatePatterns (R : Reserved) (a : Equation) : List Equation → Attempt (List Equation) Unit
  | [] => ⟨[], .ok ()⟩
  | c :: cs => match a.apply R c.pattern with
    | .error fault => ⟨c :: cs, .error fault⟩
    | .ok p =>
      let rest := instantiatePatterns R a cs
      ⟨{ c with pattern := p } :: rest.state, rest.result⟩

/-- Applies assignments in order to the patterns of all equations. -/
def instantiateEach (R : Reserved) : List Equation → List Equation → Attempt (List Equation) Unit
  | [], cs => ⟨cs, .ok ()⟩
  | a :: assignments, cs => match instantiatePatterns R a cs with
    | ⟨ds, .ok ()⟩ => instantiateEach R assignments ds
    | ⟨ds, .error fault⟩ => ⟨ds, .error fault⟩

/-- Applies the equations of `s` in order to the patterns of `t`. -/
def instantiate (R : Reserved) (s t : EquationSet) : Attempt EquationSet Unit :=
  let changed := instantiateEach R s.equations t.equations
  ⟨{ t with equations := changed.state }, changed.result⟩

/-- For every pair of places in order, applies the equation at the first place,
as it then is, to the pattern at the second. -/
def instantiateAt (R : Reserved) : List (Nat × Nat) → List Equation → Attempt (List Equation) Unit
  | [], cs => ⟨cs, .ok ()⟩
  | (i, j) :: places, cs => match cs[i]?, cs[j]? with
    | some a, some c => match a.apply R c.pattern with
      | .error fault => ⟨cs, .error fault⟩
      | .ok p => instantiateAt R places (cs.set j { c with pattern := p })
    | _, _ => instantiateAt R places cs

/-- Applies the equations of `s` in order to the patterns of `s` itself. -/
def instantiateSelf (R : Reserved) (s : EquationSet) : Attempt EquationSet Unit :=
  let places := List.range s.size
  let changed := instantiateAt R (places.flatMap fun i => places.map fun j => (i, j)) s.equations
  ⟨{ s with equations := changed.state }, changed.result⟩

/-- Changes the equation at an index; a negative index counts from the end. -/
def modifyAt (s : EquationSet) (i : Int) (f : Equation → Equation) : Except Fault EquationSet :=
  match Expr.resolveStep s.size i with
  | none => .error .outOfRange
  | some j => .ok { s with equations := s.equations.modify j f }

end EquationSet
end SecondOrder
