/-
# The rule of an equation

The rules are tried in turn, so the rule of an equation says that it suits the
equation and that none of those before it does (`Equation.suits_rule`).  Only
applications to equally many arguments, and bindings with the same head and
equally many variables, decompose.
-/

import SecondOrder.Equation

namespace SecondOrder

namespace Equation

open SecondOrder.Expr

variable {R : Reserved} {c : Equation}

/-- The rule suits the equation, and none of those tried before it does. -/
inductive Suits (R : Reserved) (c : Equation) : Rule → Prop
  | trivial (same : (c.pattern == c.subject) = true) : Suits R c .trivial
  | assign (differ : (c.pattern == c.subject) = false) (unknown : c.pattern.isMarked = true) : Suits R c .assign
  | decompose (differ : (c.pattern == c.subject) = false) (known : c.pattern.isMarked = false)
      (shape : c.decomposes R = true) : Suits R c .decompose
  | guess (differ : (c.pattern == c.subject) = false) (known : c.pattern.isMarked = false)
      (shape : c.decomposes R = false) (flexible : c.isFlexible R = true) : Suits R c .guess
  | clash (differ : (c.pattern == c.subject) = false) (known : c.pattern.isMarked = false)
      (shape : c.decomposes R = false) (rigid : c.isFlexible R = false) : Suits R c .clash

/-- **The rule of an equation suits it.** -/
theorem suits_rule (R : Reserved) (c : Equation) : c.Suits R (c.rule R) := by
  cases hdiffer : c.pattern == c.subject with
  | true =>
    rw [rule, if_pos hdiffer]
    exact .trivial hdiffer
  | false => cases hknown : c.pattern.isMarked with
    | true =>
      rw [rule, hdiffer, hknown]
      exact .assign hdiffer hknown
    | false => cases hshape : c.decomposes R with
      | true =>
        rw [rule, hdiffer, hknown, hshape]
        exact .decompose hdiffer hknown hshape
      | false => cases hflexible : c.isFlexible R with
        | true =>
          rw [rule, hdiffer, hknown, hshape, hflexible]
          exact .guess hdiffer hknown hshape hflexible
        | false =>
          rw [rule, hdiffer, hknown, hshape, hflexible]
          exact .clash hdiffer hknown hshape hflexible

/-- A trivial equation is one between equal nodes. -/
theorem beq_of_trivial (h : c.rule R = .trivial) : (c.pattern == c.subject) = true := by
  cases (h ▸ suits_rule R c : c.Suits R .trivial) with
  | trivial same => exact same

/-- An assignment is to an unknown. -/
theorem isMarked_of_assign (h : c.rule R = .assign) : c.pattern.isMarked = true := by
  cases (h ▸ suits_rule R c : c.Suits R .assign) with
  | assign _ unknown => exact unknown

/-- What is decomposed has two sides of one shape. -/
theorem decomposes_of_rule (h : c.rule R = .decompose) : c.decomposes R = true := by
  cases (h ▸ suits_rule R c : c.Suits R .decompose) with
  | decompose _ _ shape => exact shape

/-- The rule of a guess is for patterns that apply something and do not
decompose. -/
theorem of_guess (h : c.rule R = .guess) :
    c.pattern.isMarked = false ∧ c.decomposes R = false ∧ c.isFlexible R = true := by
  cases (h ▸ suits_rule R c : c.Suits R .guess) with
  | guess _ known shape flexible => exact ⟨known, shape, flexible⟩

/-- An equation clashes if no rule fits it. -/
theorem of_clash (h : c.rule R = .clash) : (c.pattern == c.subject) = false ∧
    c.pattern.isMarked = false ∧ c.decomposes R = false ∧ c.isFlexible R = false := by
  cases (h ▸ suits_rule R c : c.Suits R .clash) with
  | clash differ known shape rigid => exact ⟨differ, known, shape, rigid⟩

/-- Conversely an equation of one shape is decomposed, unless its sides are
equal: no unknown stands alone on the left. -/
theorem rule_of_decomposes (h : c.decomposes R = true) (hne : (c.pattern == c.subject) = false) :
    c.rule R = .decompose := by
  have hm : c.pattern.isMarked = false := by
    rw [decomposes] at h
    split at h
    · next hp _ => rw [hp]; rfl
    · next hp _ => rw [hp]; rfl
    · cases h
  rw [rule, hne, hm, h]
  rfl

/-- The symbol for application applies its first argument if there is another
one. -/
theorem isApply_of_ne_nil (m : Expr) {as : List Expr} (has : as ≠ []) :
    (Expr.app (.sym R.applySym) (m :: as)).isApply R = true := by
  cases as with
  | nil => contradiction
  | cons a as => rw [isApply, asApply?, if_pos rfl]; rfl

/-- No other symbol applies its first argument, however many there are. -/
theorem isApply_of_ne {f : Expr} (hf : f ≠ .sym R.applySym) (as : List Expr) :
    (Expr.app f as).isApply R = false := by
  cases f with
  | sym g =>
    match as with
    | [] => rfl
    | [_] => rfl
    | a :: b :: as => rw [isApply, asApply?, if_neg fun h => hf (congrArg Expr.sym h)]; rfl
  | _ => rfl

/-- Applications of as many arguments decompose, unless an unknown is
applied. -/
theorem decomposes_app {f g : Expr} {as bs : List Expr} (hf : f ≠ .sym R.applySym)
    (hlen : as.length = bs.length) : decomposes R ⟨.app f as, .app g bs⟩ = true := by
  rw [decomposes]
  dsimp only
  rw [isApply_of_ne hf, hlen, beq_self_eq_true]
  rfl

/-- Two applications decompose only if they have as many arguments, and none if
the pattern applies something. -/
theorem of_decomposes_app {f g : Expr} {as bs : List Expr} (h : decomposes R ⟨.app f as, .app g bs⟩ = true) :
    (Expr.app f as).isApply R = false ∧ as.length = bs.length := by
  rw [decomposes] at h
  dsimp only at h
  rw [Bool.and_eq_true, Bool.not_eq_true'] at h
  exact ⟨h.1, eq_of_beq h.2⟩

/-- So do bindings with the same head and as many variables. -/
theorem decomposes_bind {f : Sym} {xs ys : Binders} {b d : Expr} (hlen : xs.length = ys.length) :
    decomposes R ⟨.bind f xs b, .bind f ys d⟩ = true := by
  rw [decomposes]
  dsimp only
  rw [hlen, beq_self_eq_true, beq_self_eq_true]
  rfl

end Equation

end SecondOrder
