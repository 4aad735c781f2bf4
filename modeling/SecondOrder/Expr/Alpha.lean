/-
# Renaming and equality up to bound names

`Expr.rename` replaces one variable by another everywhere, binder slots
included; with a fresh second variable it is an injective change of names.

`Expr.alphaIn` compares two expressions under the bindings already entered on
both sides.  Bound variables answer to each other by binder and position, the
last of repeated slots being the one that binds; free variables, heads of
bindings, symbols and literals are compared as nodes.  A mark belongs to the
name, so it plays no part for bound variables.
-/

import SecondOrder.Expr.Basic

namespace SecondOrder
namespace Expr

mutual

/-- Every `x` turned into `y`, at variable nodes and in binder slots. -/
def rename (x y : Var) : Expr → Expr
  | var z => var (if z = x then y else z)
  | app f as => app (rename x y f) (renameAll x y as)
  | bind f xs b => bind f (xs.rename x y) (rename x y b)
  | e => e

def renameAll (x y : Var) : List Expr → List Expr
  | [] => []
  | a :: as => rename x y a :: renameAll x y as

end

/-- Arguments are renamed one by one. -/
theorem renameAll_eq_map (x y : Var) (as : List Expr) : renameAll x y as = as.map (rename x y) := by
  induction as with
  | nil => rfl
  | cons a as ih => rw [renameAll, ih, List.map_cons]

/-- A renaming does not change the size of arguments, if it does not change
that of each. -/
theorem sizeAll_renameAll {x y : Var} {as : List Expr}
    (h : ∀ a ∈ as, (a.rename x y).size = a.size) : sizeAll (renameAll x y as) = sizeAll as := by
  induction as with
  | nil => rfl
  | cons a as ih =>
    rw [renameAll, sizeAll, sizeAll, h a (List.mem_cons_self ..),
      ih fun b hb => h b (List.mem_cons_of_mem _ hb)]

/-- **Renaming keeps the size.** -/
@[simp] theorem size_rename (x y : Var) (e : Expr) : (e.rename x y).size = e.size := by
  induction e with
  | app f as hf has => simp only [rename, size, hf, sizeAll_renameAll has]
  | bind f xs b hb => simp only [rename, size, hb]
  | _ => simp only [rename, size]

/-- Whether `x` on the left and `y` on the right are the same variable under
the pairs of bound variables `env`, innermost first: bound by the same pair, or
both free and equal. -/
def sameVarIn : List (Var × Var) → Var → Var → Bool
  | [], x, y => x == y
  | (u, v) :: env, x, y => if x = u ∨ y = v then x == u && y == v else sameVarIn env x y

mutual

/-- Equality up to bound names under the pairs of bound variables `env`. -/
def alphaIn (env : List (Var × Var)) : Expr → Expr → Bool
  | var x, var y => sameVarIn env x y
  | sym f, sym g => f == g
  | int m, int n => m == n
  | float x, float y => x.key == y.key
  | str s, str t => s == t
  | app f as, app g bs => alphaIn env f g && alphaInAll env as bs
  | bind f xs b, bind g ys c => f == g && xs.length == ys.length
      && alphaIn ((xs.toList.zip ys.toList).reverse ++ env) b c
  | _, _ => false

def alphaInAll (env : List (Var × Var)) : List Expr → List Expr → Bool
  | [], [] => true
  | a :: as, b :: bs => alphaIn env a b && alphaInAll env as bs
  | _, _ => false

end

/-- Equality up to bound names. -/
def alphaEq (a b : Expr) : Bool := alphaIn [] a b

/-- Equality up to bound names of two compound expressions. -/
def alphaEquivalent (a b : Expr) : Bool := a.isCompound && b.isCompound && alphaEq a b

/-- Equal as nodes, or compound and equal up to bound names. -/
def similar (a b : Expr) : Bool := a == b || alphaEquivalent a b

end Expr
end SecondOrder
