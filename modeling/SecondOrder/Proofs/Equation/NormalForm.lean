/-
# One sweep is enough

To apply an assignment is to substitute, to list the positions of all redexes
once, and to contract what stands there, the longest positions first.  If
nothing but unknowns and functions is applied, in the target and in the value,
the result contains no redex (`Equation.apply_normal`): what is applied in it
was an unknown before, and it is not the unknown that was assigned.

An unknown that an ordinary binding binds may be applied as well.  If the
binding has to give way, the unknown is renamed to an ordinary variable, which
may also be the name of a parameter; then contraction puts an argument into its
place (`Equation.apply_redex`).
-/

import SecondOrder.Proofs.Expr.Faults
import SecondOrder.Proofs.Expr.Shape
import SecondOrder.Proofs.Expr.Sweep

namespace SecondOrder

open SecondOrder.Expr

namespace Equation

variable {R : Reserved} {c : Equation} {t : Expr}

/-- **One sweep is enough.**  The unknown `c.pattern` takes the value
`c.subject` in `t`, where both the value and `t` are well applied, and the
value is a function if the unknown is applied in `t`.  Then the positions of
the redexes are collected once and contracted one by one, and that is refused
for a wrong number of arguments, an illegal capture or a variable that is not
bound any more, but never for a position that is not there or for what would be
no expression.  If it is not refused, the result contains no redex, as long as
no binding of `t` has to give way with a variable that is applied. -/
theorem apply_normal (hc : c.pattern.isMarked = true) (ht : WellApplied R t) (hr : WellApplied R c.subject)
    (hfn : AppliedIn R c.pattern t → c.subject.isLambda R = true)
    (hway : ∀ f xs b x, bind f xs b ∈ t.nodes → GivesWay c.pattern c.subject xs b x →
      ¬AppliedIn R (.var x) b) :
    c.apply R t = t.subst c.pattern c.subject >>= sweep R ∧
      (∀ fault, c.apply R t = .error fault → fault.kind = .arityMismatch ∨
        fault.kind = .illegalCapture ∨ fault.kind = .unboundVariable) ∧
      ∀ q, c.apply R t = .ok q → ∀ n ∈ q.nodes, n.isRedex R = false := by
  refine ⟨?sweep, ?faults, fun q hq => ?normal⟩
  case sweep =>
    rw [apply, funext fun e => sweep_eq_contractAll R e]
  case faults =>
    let K (k : Fault.Kind) : Prop := k = .arityMismatch ∨ k = .illegalCapture ∨ k = .unboundVariable
    have hcapture : K .illegalCapture := .inr (.inl rfl)
    have hunbound : K .unboundVariable := .inr (.inr rfl)
    exact FaultsIn.bind (K := K) (faultsIn_subst hcapture hunbound _ _ _) fun e =>
      faultsIn_contractAll hcapture hunbound (.inl rfl) e
  case normal =>
    obtain ⟨t', depth, hsub, hcontract⟩ := brings_of_apply hq
    exact ((ht.subst hc hr hfn hway hsub).contractFrom hcontract).not_isRedex

/-- In `q[x. _m(_m(x))]` the bound `x` gives way when `_m` becomes
`λa. p(a, x)`, and both applications are contracted in one sweep. -/
theorem apply_normal_nested :
    let R : Reserved := {}
    let v (name : String) : Expr := var ⟨name, false⟩
    let p (a b : Expr) : Expr := app (sym ⟨"p", "base", false⟩) [a, b]
    let q (x : String) (b : Expr) : Expr := bind ⟨"q", "base", false⟩ ⟨⟨x, false⟩, []⟩ b
    let m : Expr := var ⟨"m", true⟩
    let c : Equation := ⟨m, R.lambda ⟨⟨"a", false⟩, []⟩ (p (v "a") (v "x"))⟩
    let t : Expr := q "x" (R.apply m (R.apply m (v "x") []) [])
    WellApplied R t ∧ WellApplied R c.subject ∧
      c.apply R t = .ok (q "x0" (p (p (v "x0") (v "x")) (v "x"))) ∧
      ∀ n ∈ (q "x0" (p (p (v "x0") (v "x")) (v "x"))).nodes, n.isRedex R = false := by
  intro R v p q m c t
  have hv (name : String) : WellApplied R (v name) := .var _
  have hp (a b : Expr) (ha : WellApplied R a) (hb : WellApplied R b) : WellApplied R (p a b) :=
    .app (.sym (by decide)) (by simp [ha, hb])
  have hm (a : Expr) (ha : WellApplied R a) : WellApplied R (R.apply m a []) :=
    .apply rfl (List.cons_ne_nil _ _) (List.forall_mem_singleton.2 ha)
  have ht : WellApplied R t := .bind (fun h => absurd h (by decide)) (hm _ (hm _ (hv "x")))
  have hr : WellApplied R c.subject :=
    .bind (fun _ => List.forall_mem_singleton.2 rfl) (hp _ _ (hv "a") (hv "x"))
  have hway : ∀ f xs b x, bind f xs b ∈ t.nodes → GivesWay m c.subject xs b x → ¬AppliedIn R (.var x) b := by
    intro f xs b x hb hway
    obtain ⟨-, rfl, rfl⟩ : f = _ ∧ xs = _ ∧ b = _ := by
      simpa [t, q, v, m, R, Reserved.apply, nodes, nodesAll] using hb
    obtain rfl := List.mem_singleton.1 hway.mem
    rintro ⟨as, has⟩
    simp [nodes, nodesAll] at has
  have hq : c.apply R t = .ok (q "x0" (p (p (v "x0") (v "x")) (v "x"))) := by cbv
  exact ⟨ht, hr, hq, (apply_normal rfl ht hr (fun _ => rfl) hway).2.2 _ hq⟩

/-- The bound unknown `_k` of `q[_k. (λa,b. p(a, _m))(_k(c), λz. z)]` gives way
to `x0` when `_m` becomes `r(b, _k)`, and so does the parameter `b`, which is
called `x0` as well then.  The function `λz. z` takes both places, and what was
`_k(c)` has become a redex. -/
theorem apply_redex :
    let R : Reserved := {}
    let v (name : String) : Expr := var ⟨name, false⟩
    let u (name : String) : Expr := var ⟨name, true⟩
    let p (a b : Expr) : Expr := app (sym ⟨"p", "base", false⟩) [a, b]
    let id : Expr := R.lambda ⟨⟨"z", false⟩, []⟩ (v "z")
    let f : Expr := R.lambda ⟨⟨"a", false⟩, [⟨"b", false⟩]⟩ (p (v "a") (u "m"))
    let c : Equation := ⟨u "m", p (v "b") (u "k")⟩
    let t : Expr := bind ⟨"q", "base", false⟩ ⟨⟨"k", true⟩, []⟩ (R.apply f (R.apply (u "k") (v "c") []) [id])
    c.pattern.isMarked = true ∧ WellApplied R t ∧ WellApplied R c.subject ∧
      (∀ n ∈ c.subject.nodes, n.isRedex R = false) ∧ ¬AppliedIn R c.pattern t ∧
      ∃ q, c.apply R t = .ok q ∧ ∃ n ∈ q.nodes, n.isRedex R = true := by
  intro R v u p id f c t
  have hv (name : String) : WellApplied R (v name) := .var _
  have hu (name : String) : WellApplied R (u name) := .var _
  have hp (a b : Expr) (ha : WellApplied R a) (hb : WellApplied R b) : WellApplied R (p a b) :=
    .app (.sym (by decide)) (by simp [ha, hb])
  have hid : WellApplied R id := .bind (fun _ => List.forall_mem_singleton.2 rfl) (hv "z")
  have hk : WellApplied R (R.apply (u "k") (v "c") []) :=
    .apply rfl (List.cons_ne_nil _ _) (List.forall_mem_singleton.2 (hv "c"))
  have ht : WellApplied R t := .bind (fun h => absurd h (by decide)) (.redex
    (by decide) (hp _ _ (hv "a") (hu "m")) (List.cons_ne_nil _ _)
    (by simp [hk, hid]))
  let s (k : Var) (g : Expr) : Expr := bind ⟨"q", "base", false⟩ ⟨k, []⟩ g
  have hsub : t.subst c.pattern c.subject = .ok (s ⟨"x0", false⟩ (R.apply
      (R.lambda ⟨⟨"a", false⟩, [⟨"x0", false⟩]⟩ (p (v "a") c.subject)) (R.apply (v "x0") (v "c") []) [id])) := by
    simp only [t, c, s, f, id, p, u, v, R]
    cbv
  have hcontract : (s ⟨"x0", false⟩ (R.apply (R.lambda ⟨⟨"a", false⟩, [⟨"x0", false⟩]⟩ (p (v "a") c.subject))
      (R.apply (v "x0") (v "c") []) [id])).contractAll R =
      .ok (s ⟨"x0", false⟩ (p (R.apply id (v "c") []) c.subject)) := by
    simp only [c, s, id, p, u, v, R, contractAll, contractFrom, contractFromAll, bothDeep, Reserved.apply,
      Reserved.lambda, isRedex, asApply?, isLambda, Except.map, Except.mapError]
    cbv
  have hq : c.apply R t = .ok (s ⟨"x0", false⟩ (p (R.apply id (v "c") []) c.subject)) := by
    rw [apply, hsub]
    exact hcontract
  refine ⟨rfl, ht, hp _ _ (hv "b") (hu "k"), ?_, ?_, _, hq, R.apply id (v "c") [], ?_, rfl⟩
  · decide
  · rintro ⟨as, has⟩
    simp [t, f, id, c, p, u, v, Reserved.apply, Reserved.lambda, nodes, nodesAll] at has
  · simp [s, p, Reserved.apply, nodes, nodesAll]

end Equation
end SecondOrder
