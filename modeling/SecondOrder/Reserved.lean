/-
# The reserved namespace

Functions and their applications are ordinary bindings and applications headed
by two symbols of a reserved namespace.  `Reserved` fixes the namespace; every
operation that builds or recognises functions takes it as a parameter.

`Reserved.Scope` is a current namespace that can be replaced outright or for
the time between an `enter` and the matching `leave`.
-/

import SecondOrder.Expr.Basic

namespace SecondOrder

/-- The namespace of the symbols for functions and their application. -/
structure Reserved where
  cd : String := "SecondOrderMatching"
deriving DecidableEq, Inhabited

namespace Reserved

/-- A symbol of the reserved namespace. -/
def symbol (R : Reserved) (name : String) : Sym := ⟨name, R.cd, false⟩

/-- The head of a function. -/
def lambdaSym (R : Reserved) : Sym := R.symbol "EF"

/-- The head of the application of a function or of an unknown. -/
def applySym (R : Reserved) : Sym := R.symbol "EFA"

/-- The current namespace and those that open scopes will bring back, the
innermost first. -/
structure Scope where
  current : Reserved := {}
  saved : List Reserved := []
deriving Inhabited

namespace Scope

/-- Makes `R` current for good. -/
def replace (s : Scope) (R : Reserved) : Scope := { s with current := R }

/-- Makes `R` current until the scope is left. -/
def enter (s : Scope) (R : Reserved) : Scope := ⟨R, s.current :: s.saved⟩

/-- Leaves the innermost scope: what was current on entry is current again,
whatever was made current inside. -/
def leave (s : Scope) : Scope :=
  match s.saved with
  | [] => s
  | R :: saved => ⟨R, saved⟩

/-- What is made current inside a scope does not last beyond it. -/
theorem leave_replace_enter (s : Scope) (R S : Reserved) :
    ((s.enter R).replace S).leave = s := rfl

end Scope
end Reserved
end SecondOrder
