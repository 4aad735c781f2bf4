/-
# Numbered names and fresh variables

A numbered name is a stem letter followed by decimal digits, like `x12`; one
line feed may follow the digits.  `numberAfter` reads the number.  A variable
is fresh for some expressions when its name is carried by no variable node of
them, free, bound or in a binder slot, marked or not; `freshVar` takes the
number above all those in use with the stem `x`.

Numbers are natural numbers of any size.  Names are read and written whatever
the number of their digits, also where an implementation gives up on a number
of some thousands of digits.
-/

import SecondOrder.Expr.Basic

namespace SecondOrder

/-- The value of a decimal digit. -/
def digitValue (c : Char) : Nat := c.toNat - '0'.toNat

/-- The number written by `cs`, if `cs` is one or more ASCII digits. -/
def decimal? (cs : List Char) : Option Nat :=
  if cs ≠ [] ∧ cs.all Char.isDigit = true then
    some (cs.foldl (fun n c => 10 * n + digitValue c) 0)
  else none

/-- The characters without one final line feed. -/
def withoutLineFeed (cs : List Char) : List Char :=
  if cs.getLast? = some '\n' then cs.dropLast else cs

/-- The number of a name that is `stem` followed by digits. -/
def numberAfter (stem : Char) (name : String) : Option Nat :=
  match name.toList with
  | [] => none
  | c :: cs => if c = stem then decimal? (withoutLineFeed cs) else none

/-- The name that is `stem` followed by `n`. -/
def numberedName (stem : Char) (n : Nat) : String := stem.toString ++ toString n

namespace Expr

mutual

/-- The variables at all variable nodes and in all binder slots, in order and
with repetitions.  Symbols are not among them. -/
def vars : Expr → List Var
  | var x => [x]
  | app f as => vars f ++ varsAll as
  | bind _ xs b => xs.toList ++ vars b
  | _ => []

def varsAll : List Expr → List Var
  | [] => []
  | a :: as => vars a ++ varsAll as

end

/-- The variables of arguments are listed one argument after another. -/
theorem varsAll_eq_flatMap (as : List Expr) : varsAll as = as.flatMap vars := by
  induction as with
  | nil => rfl
  | cons a as ih => rw [varsAll, ih, List.flatMap_cons]

end Expr

/-- The least number above every number that `xs` use with `stem`. -/
def numberAbove (stem : Char) (xs : List Var) : Nat :=
  xs.foldl (fun n x => match numberAfter stem x.name with
    | some m => max n (m + 1)
    | none => n) 0

/-- More variables never lower the least number above all of them. -/
theorem le_foldl_numberAbove (stem : Char) (xs : List Var) (m : Nat) :
    m ≤ xs.foldl (fun n x => match numberAfter stem x.name with
      | some m => max n (m + 1)
      | none => n) m := by
  induction xs generalizing m with
  | nil => exact Nat.le_refl m
  | cons x xs ih =>
    rw [List.foldl_cons]
    refine Nat.le_trans ?_ (ih _)
    split
    · exact Nat.le_max_left ..
    · exact Nat.le_refl m

/-- **Every number in use is below.** -/
theorem lt_numberAbove {stem : Char} {xs : List Var} {x : Var} {n : Nat} (hx : x ∈ xs)
    (hn : numberAfter stem x.name = some n) : n < numberAbove stem xs := by
  obtain ⟨ys, zs, rfl⟩ := List.append_of_mem hx
  rw [numberAbove, List.foldl_append, List.foldl_cons]
  refine Nat.lt_of_lt_of_le ?_ (le_foldl_numberAbove stem zs _)
  rw [hn]
  exact Nat.lt_of_lt_of_le (Nat.lt_succ_self n) (Nat.le_max_right ..)

/-- A variable `x<N>` whose name no variable node of `es` carries. -/
def freshVar (es : List Expr) : Var :=
  ⟨numberedName 'x' (numberAbove 'x' (es.flatMap Expr.vars)), false⟩

/-- Moves a counter of `v<N>` names past the name of `e`, if `e` is a variable
or symbol with such a name. -/
def Expr.passName (e : Expr) (next : Int) : Int :=
  match e.name?.bind (numberAfter 'v') with
  | some n => max next (n + 1)
  | none => next

end SecondOrder
