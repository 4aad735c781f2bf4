/-
# Comparison by renaming

Two bindings with the same head and as many variables are compared by giving
them the same variables, one slot after another, each fresh for both as they
then stand; their bodies are compared next.  A variable listed more than once
gives way in all its slots, so only the name that its last slot gets is left of
it.

`Expr.alphaDecide` compares so, and `Expr.alphaDecideWhole` holds of compound
expressions only.  Every renaming goes through `Expr.alphaConvert` and could be
refused.
-/

import SecondOrder.Expr.Subst

namespace SecondOrder
namespace Expr

/-- The body of a binding; anything else stands for itself. -/
def body : Expr → Expr
  | bind _ _ b => b
  | e => e

/-- The variable in slot `i` of a binding. -/
def slot? : Expr → Nat → Option Var
  | bind _ xs _, i => xs.toList[i]?
  | _, _ => none

/-- The binding `e` with the variable of its slot `i` exchanged for `y`. -/
def convertSlot (e : Expr) (i : Nat) (y : Var) : Except Fault Expr :=
  match e.slot? i with
  | some x => e.alphaConvert (var x) (var y)
  | none => .error .outOfRange

/-- Gives the two bindings the same variable in each of the listed slots. -/
def convertSlots (a b : Expr) : List Nat → Except Fault (Expr × Expr)
  | [] => .ok (a, b)
  | i :: slots => do
    let y := freshVar [a, b]
    let a ← a.convertSlot i y
    let b ← b.convertSlot i y
    convertSlots a b slots

section Size

variable {a b c d e q : Expr} {x y : Var}

/-- To put a variable in the place of a variable keeps the size. -/
theorem size_of_subst_var (h : e.subst (var x) (var y) = .ok q) : q.size = e.size := by
  refine subst.induct (var x) (var y)
    (fun e => ∀ q, e.subst (var x) (var y) = .ok q → q.size = e.size)
    (fun as => ∀ bs, substAll as (var x) (var y) = .ok bs → sizeAll bs = sizeAll as)
    ?app ?rebound ?captured ?refused ?cleared ?atom ?nil ?cons e q h
  case app =>
    intro f as ihf ihas q h
    simp only [subst, Bind.bind, Except.bind] at h
    split at h <;> try contradiction
    next g hg =>
    split at h <;> cases h
    next bs hbs => simp only [size, ihf g hg, ihas bs hbs]
  case rebound =>
    intro f xs b z w hw hz ih q h
    rw [subst.eq_def] at h
    simp only [hz, Bind.bind, Except.bind] at h
    split at h <;> cases h
    next c hc => simp only [size, ih c hc]
  case captured =>
    intro f xs b z hz hvar
    exact absurd rfl (hvar y)
  case refused =>
    intro f xs b hbound fault hclear q h
    rw [subst.eq_def] at h
    simp only [hbound] at h
    split at h
    · contradiction
    · next _ _ hclear' => rw [hclear] at hclear'; contradiction
  case cleared =>
    intro f xs b hbound ys c hclear ih q h
    rw [subst.eq_def] at h
    simp only [hbound, Bind.bind, Except.bind] at h
    split at h
    · contradiction
    · next _ _ hclear' =>
      rw [hclear] at hclear'
      cases hclear'
      split at h <;> cases h
      next d hd => simp only [size, ih d hd, size_of_clearOf hclear]
  case atom =>
    intro e happ hbind q h
    rw [subst] at h
    · cases h
      split
      · next he => rw [same_var_iff.1 he]; rfl
      · rfl
    · exact happ
    · exact hbind
  case nil =>
    intro bs h
    rw [substAll] at h
    cases h
    rfl
  case cons =>
    intro a as iha ihas bs h
    simp only [substAll, Bind.bind, Except.bind] at h
    split at h <;> try contradiction
    next b hb =>
    split at h <;> cases h
    next cs hcs => simp only [sizeAll, iha b hb, ihas cs hcs]

/-- To convert a slot keeps the size of the body. -/
theorem size_body_of_convertSlot {i : Nat} (h : a.convertSlot i y = .ok q) :
    q.body.size = a.body.size := by
  rw [convertSlot] at h
  split at h
  · next z hz =>
    rw [alphaConvert.eq_def] at h
    split at h
    · next f xs b =>
      simp only [Bind.bind, Except.bind] at h
      split at h
      · next u hu =>
        obtain ⟨hzu, -⟩ := Binders.bound?_eq_some.1 hu
        split at h <;> cases h
        next c hc => exact size_of_subst_var hc
      · contradiction
    · contradiction
  · contradiction

/-- **Conversion keeps the size of the bodies,** which is why comparison
ends. -/
theorem size_body_of_convertSlots {slots : List Nat} (h : convertSlots a b slots = .ok (c, d)) :
    c.body.size = a.body.size := by
  induction slots generalizing a b with
  | nil => cases h; rfl
  | cons i slots ih =>
    simp only [convertSlots, Bind.bind, Except.bind] at h
    split at h <;> try contradiction
    next a' ha =>
    split at h <;> try contradiction
    rw [ih h, size_body_of_convertSlot ha]

end Size

mutual

/-- Whether two expressions are equal up to bound names, found out by
renaming. -/
def alphaDecide (a b : Expr) : Except Fault Bool :=
  match a, b with
  | app f as, app g bs => do
    if as.length ≠ bs.length then return false
    if ← alphaDecide f g then alphaDecideAll as bs else return false
  | bind f xs b, bind g ys c =>
    if xs.length ≠ ys.length then .ok false
    else if f ≠ g then .ok false
    else match _converted : convertSlots (bind f xs b) (bind g ys c) (List.range xs.length) with
      | .error fault => .error fault
      | .ok (d, e) => alphaDecide d.body e.body
  | a, b => .ok (a == b)
termination_by a.size
decreasing_by
  all_goals simp only [size]
  · have := sizeAll_pos as; omega
  · have := size_pos f; omega
  · have := size_body_of_convertSlots _converted
    have : d.body.size = b.size := this
    omega

def alphaDecideAll (as bs : List Expr) : Except Fault Bool :=
  match as, bs with
  | a :: as, b :: bs => do
    if ← alphaDecide a b then alphaDecideAll as bs else return false
  | _, _ => .ok true
termination_by sizeAll as
decreasing_by
  all_goals simp only [sizeAll]
  · have := sizeAll_pos as; omega
  · have := size_pos a; omega

end

/-- Whether two compound expressions are equal up to bound names. -/
def alphaDecideWhole (a b : Expr) : Except Fault Bool :=
  if a.isCompound && b.isCompound then alphaDecide a b else .ok false

end Expr
end SecondOrder
