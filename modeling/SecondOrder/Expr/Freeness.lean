/-
# Free occurrences

An occurrence is free when it stands in no binder slot and no binding around it
binds one of its free variables.  A binding binds its variables everywhere
inside itself, and names are compared with their marks, so `_x` is not bound by
`x`.

`freeNames` lists the free occurrences of variables and symbols by recursion on
the expression, `freeVars` the variables among them without repetition, and
`occursFree` looks for a free copy of a whole expression.  The same notion told
by positions is `Expr.isFreeAt`.
-/

import SecondOrder.Expr.Basic

namespace SecondOrder
namespace Expr

mutual

/-- The free occurrences of variables and all occurrences of symbols, heads of
bindings included, from left to right. -/
def freeNames : Expr → List Expr
  | var x => [var x]
  | sym f => [sym f]
  | app f as => freeNames f ++ freeNamesAll as
  | bind f xs b => sym f :: (freeNames b).filter fun e => !xs.binds e
  | _ => []

def freeNamesAll : List Expr → List Expr
  | [] => []
  | a :: as => freeNames a ++ freeNamesAll as

end

/-- The free names of arguments are listed one argument after another. -/
theorem freeNamesAll_eq_flatMap (as : List Expr) : freeNamesAll as = as.flatMap freeNames := by
  induction as with
  | nil => rfl
  | cons a as ih => rw [freeNamesAll, ih, List.flatMap_cons]

/-- The variable at a variable node. -/
def var? : Expr → Option Var
  | var x => some x
  | _ => none

/-- The variables that occur free, each once, in the order of their first free
occurrences. -/
def freeVars (e : Expr) : List Var := (e.freeNames.filterMap var?).eraseDups

/-- The free variables are the variables among the free names, each listed
once. -/
theorem mem_freeVars {x : Var} {e : Expr} : x ∈ e.freeVars ↔ var x ∈ e.freeNames := by
  rw [freeVars, List.mem_eraseDups, List.mem_filterMap]
  constructor
  · rintro ⟨a, ha, h⟩
    cases a <;> cases h
    exact ha
  · exact fun h => ⟨var x, h, rfl⟩

/-- The free occurrences of unknowns, from left to right. -/
def freeUnknowns (e : Expr) : List Expr := e.freeNames.filter isMarked

mutual

/-- Whether `e` holds a copy of `s` outside binder slots with no binding around
the copy that binds one of `free`. -/
def occursApart (s : Expr) (free : List Var) (e : Expr) : Bool :=
  match e with
  | app f as => app f as == s || occursApart s free f || occursApartAny s free as
  | bind f xs b => bind f xs b == s
      || (!(xs.toList.any free.contains) && (sym f == s || occursApart s free b))
  | e => e == s

def occursApartAny (s : Expr) (free : List Var) (as : List Expr) : Bool :=
  match as with
  | [] => false
  | a :: as => occursApart s free a || occursApartAny s free as

end

/-- Whether a copy of `s` occurs in `e` with none of its free variables bound
by a binding of `e` around it. -/
def occursFree (s e : Expr) : Bool := occursApart s s.freeVars e

/-- Inserts a text before the first one that is not smaller, unless it is there
already. -/
def insertName (s : String) : List String → List String
  | [] => [s]
  | t :: ts => if s = t then t :: ts else if s < t then s :: t :: ts else t :: insertName s ts

/-- The names of the free variables, each once, in the order of their
characters. -/
def freeVarNames (e : Expr) : List String :=
  (e.freeVars.map Var.name).foldr insertName []

end Expr
end SecondOrder
