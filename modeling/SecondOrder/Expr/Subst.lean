/-
# Substitution without capture

`subst e v r` puts `r` in the place of every free `v` in `e`.  A binding whose
variables would capture a free variable of `r` is renamed first, one variable
after another, each to a name fresh for the whole binding and for `r`.  Only
bindings inside `e` count, not those that may stand around it.

A binding that binds `v` itself is renamed along: its slot takes `r`, so `r`
has to be a variable there.  The substitution is refused with `illegalCapture`
if it is not, and with `unboundVariable` if a binding lists a variable twice
that has to give way, since the first renaming has used up both slots.
-/

import SecondOrder.Expr.Alpha
import SecondOrder.Expr.Freeness
import SecondOrder.Expr.Names
import SecondOrder.Fault

namespace SecondOrder
namespace Expr

/-- Renames the given variables of the binding `f[xs, b]` in turn, each to a
variable fresh for the binding as it then stands and for `r`. -/
def freshen (f : Sym) (r : Expr) : List Var → Binders → Expr → Except Fault (Binders × Expr)
  | [], xs, b => .ok (xs, b)
  | x :: rest, xs, b =>
    if x ∈ xs.toList then
      let y := freshVar [bind f xs b, r]
      freshen f r rest (xs.rename x y) (b.rename x y)
    else .error (.unboundVariable (var x) (bind f xs b))

/-- The variables and the body of the binding `f[xs, b]`, renamed so that no
variable of `r` is captured when `r` takes the place of `v` in the body. -/
def clearOf (f : Sym) (v r : Expr) (xs : Binders) (b : Expr) : Except Fault (Binders × Expr) :=
  if occursFree v b then
    freshen f r (xs.toList.filter fun x => occursFree (var x) r) xs b
  else .ok (xs, b)

/-- Making way changes names only, so the body keeps its size.  Substitution
goes on in it. -/
theorem size_of_freshen {f : Sym} {r : Expr} {zs : List Var} {xs ys : Binders} {b c : Expr}
    (h : freshen f r zs xs b = .ok (ys, c)) : c.size = b.size := by
  induction zs generalizing xs b with
  | nil => cases h; rfl
  | cons z zs ih =>
    rw [freshen] at h
    split at h
    · rw [ih h, size_rename]
    · cases h

/-- **Clearing the way keeps the size of the body,** which is why substitution
ends. -/
theorem size_of_clearOf {f : Sym} {v r : Expr} {xs ys : Binders} {b c : Expr}
    (h : clearOf f v r xs b = .ok (ys, c)) : c.size = b.size := by
  rw [clearOf] at h
  split at h
  · exact size_of_freshen h
  · cases h; rfl

mutual

/-- Puts `r` in the place of every free `v` in `e`. -/
def subst (e v r : Expr) : Except Fault Expr :=
  match e with
  | app f as => do
    let g ← subst f v r
    let bs ← substAll as v r
    return app g bs
  | bind f xs b =>
    match xs.bound? v, r with
    | some x, var y => do
      let c ← subst b v r
      return bind f (xs.rename x y) c
    | some x, _ => .error (.illegalCapture (bind f xs b) x r)
    | none, _ =>
      match _cleared : clearOf f v r xs b with
      | .error fault => .error fault
      | .ok (ys, c) => do
        let d ← subst c v r
        return bind f ys d
  | e => .ok (if e == v then r else e)
termination_by e.size
decreasing_by
  all_goals simp only [size]
  · have := sizeAll_pos as; omega
  · have := size_pos f; omega
  · omega
  · have := size_of_clearOf _cleared; omega

def substAll (as : List Expr) (v r : Expr) : Except Fault (List Expr) :=
  match as with
  | [] => .ok []
  | a :: as => do
    let b ← subst a v r
    let bs ← substAll as v r
    return b :: bs
termination_by sizeAll as
decreasing_by
  all_goals simp only [sizeAll]
  · have := sizeAll_pos as; omega
  · have := size_pos a; omega

end

/-- The binding `e` with its variable `x` exchanged for `y`, in every slot that
holds `x` and at the free occurrences of `x` in the body.  Anything but a
binding of `x` is refused. -/
def alphaConvert (e x y : Expr) : Except Fault Expr :=
  match e with
  | bind f xs b => match xs.bound? x with
    | some u => do
      let c ← b.subst x y
      match y with
      | var v => return bind f (xs.rename u v) c
      | _ => .error (.binderNotVariable y)
    | none => .error (.unboundVariable x e)
  | _ => .error (.unboundVariable x e)

end Expr
end SecondOrder
