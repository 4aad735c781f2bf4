/-
# Where variables come from

Substitution and contraction bring in no variables of their own but the `x<N>`
that make way for others.  So each variable of what an assignment makes of a
pattern, bound or free, stood in the pattern or in the value before, or is such
an `x<N>` (`Equation.mem_vars_of_apply`).
-/

import SecondOrder.Proofs.Expr.Inversion

namespace SecondOrder

namespace Expr

variable {P : Var → Prop} {R : Reserved} {depth : Nat} {f : Sym} {xs : Binders} {b e g v r q : Expr}
  {as : List Expr} {x y : Var}

/-- Every variable of the expression, bound or free, has the property. -/
def AllVars (P : Var → Prop) (e : Expr) : Prop := ∀ x ∈ e.vars, P x

/-- The property holds of all variables that a bound variable may be renamed to
where it makes way.  Substitution brings in no others of its own. -/
def HoldsOfRenamed (P : Var → Prop) : Prop := ∀ y : Var, y.marked = false → y.Numbered 'x' → P y

/-- For an application it has to hold in all children. -/
theorem allVars_app : (app g as).AllVars P ↔ g.AllVars P ∧ ∀ a ∈ as, a.AllVars P := by
  simp only [AllVars, mem_vars_app, or_imp, forall_and, forall_exists_index, and_imp]
  exact and_congr_right fun _ => ⟨fun h a ha x hx => h x a ha hx, fun h x a ha hx => h a ha x hx⟩

/-- For a binding it has to hold of the slots, too. -/
theorem allVars_bind : (bind f xs b).AllVars P ↔ (∀ x ∈ xs.toList, P x) ∧ b.AllVars P := by
  simp only [AllVars, mem_vars_bind, or_imp, forall_and]

/-- For a variable it has to hold of that variable. -/
theorem allVars_var : (var x).AllVars P ↔ P x :=
  ⟨fun h => h x List.mem_cons_self, fun h _ hy => List.mem_singleton.1 hy ▸ h⟩

/-- What holds of all variables and of the new name holds after a renaming. -/
theorem AllVars.rename (he : e.AllVars P) (hy : P y) : (e.rename x y).AllVars P := by
  intro z hz
  rcases mem_vars_of_rename hz with rfl | ⟨hz, -⟩
  · exact hy
  · exact he z hz

section Results

variable (hP : HoldsOfRenamed P)

include hP

/-- What holds on both sides holds of the result: the only other variables are
those that made way. -/
theorem AllVars.subst (he : e.AllVars P) (hr : r.AllVars P) (h : e.subst v r = .ok q) : q.AllVars P := by
  induction e using sizedInduct generalizing q with
  | atom e hatom =>
    rw [subst_atom hatom] at h
    cases h
    split
    · exact hr
    · exact he
  | app g as ihg ihas =>
    obtain ⟨hg, has⟩ := allVars_app.1 he
    obtain ⟨g', as', hg', has', rfl⟩ := of_subst_app h
    refine allVars_app.2 ⟨ihg hg hg', fun a' ha' => ?_⟩
    obtain ⟨a, ha, haa'⟩ := exists_of_forall₂ has' a' ha'
    exact ihas a ha (has a ha) haa'
  | bind f xs b ih =>
    obtain ⟨hxs, hb⟩ := allVars_bind.1 he
    rcases of_subst_bind h with ⟨x, y, c, rfl, -, rfl, hc, rfl⟩ | ⟨-, ys, c, d, hclear, hd, rfl⟩
    · refine allVars_bind.2 ⟨fun z hz => ?_, ih b rfl hb hc⟩
      rcases mem_toList_rename hz with rfl | ⟨hz, -⟩
      · exact allVars_var.1 hr
      · exact hxs z hz
    · have hrename : ∀ x ∈ xs.toList, ∀ (y : Var) (e : Expr), y.marked = false → y.Numbered 'x' →
          e.AllVars P → (e.rename x y).AllVars P := fun _ _ y _ hm hy he => he.rename (hP y hm hy)
      obtain ⟨hc, -, hys, -⟩ := of_clearOf hrename hb hclear
      refine allVars_bind.2 ⟨fun z hz => ?_, ih c (size_of_clearOf hclear) hc hd⟩
      exact (hys z hz).elim (hxs z) fun hz => hP z hz.1 hz.2

/-- To contract an application brings no other variable in, either. -/
theorem AllVars.contract (he : e.AllVars P) (h : e.contract R = .ok q) : q.AllVars P := by
  by_cases hredex : e.isRedex R = true
  · obtain ⟨us, b, a, as, rfl⟩ := isRedex_iff.1 hredex
    obtain ⟨hlambda, has⟩ := List.forall_mem_cons.1 (allVars_app.1 he).2
    refine of_substEach (P := AllVars P) (fun pair hpair p q hp hq => ?_) (allVars_bind.1 hlambda).2
      (of_contract_lambda h).2
    exact hp.subst hP (has _ (List.of_mem_zip hpair).2) hq
  · cases (contract_of_isRedex_eq_false (Bool.eq_false_iff.2 hredex)).symm.trans h
    exact he

/-- The same for all contractions in an expression. -/
theorem AllVars.contractFrom (he : e.AllVars P) (h : contractFrom R depth e = .ok q) : q.AllVars P := by
  induction e using sizedInduct generalizing depth q with
  | atom e hatom =>
    cases (contractFrom_atom hatom).symm.trans h
    exact he
  | app g as ihg ihas =>
    obtain ⟨hg, has⟩ := allVars_app.1 he
    obtain ⟨g', as', hg', has', hq⟩ := of_contractFrom_app h
    have hparts : (app g' as').AllVars P := by
      refine allVars_app.2 ⟨ihg hg hg', fun a' ha' => ?_⟩
      obtain ⟨a, ha, haa'⟩ := exists_of_forall₂ has' a' ha'
      exact ihas a ha (has a ha) haa'
    rcases hq with ⟨-, hq⟩ | ⟨-, rfl⟩
    · exact hparts.contract hP hq
    · exact hparts
  | bind f xs b ih =>
    obtain ⟨hxs, hb⟩ := allVars_bind.1 he
    obtain ⟨c, hc, rfl⟩ := of_contractFrom_bind h
    exact allVars_bind.2 ⟨hxs, ih b rfl hb hc⟩

end Results

end Expr

namespace Equation

open SecondOrder.Expr

variable {P : Var → Prop} {R : Reserved} {a : Equation} {p q : Expr} {x : Var}

/-- Every variable of both sides, bound or free, has the property. -/
def AllVars (P : Var → Prop) (c : Equation) : Prop := c.pattern.AllVars P ∧ c.subject.AllVars P

/-- **Every variable of what an assignment makes of a pattern** stood in the
pattern or in the value, or is one that made way. -/
theorem mem_vars_of_apply (h : a.apply R p = .ok q) (hx : x ∈ q.vars) :
    x ∈ p.vars ∨ x ∈ a.subject.vars ∨ x.marked = false ∧ x.Numbered 'x' := by
  obtain ⟨p', depth, hp, hq⟩ := brings_of_apply h
  have hway : HoldsOfRenamed fun y => y ∈ p.vars ∨ y ∈ a.subject.vars ∨ y.marked = false ∧ y.Numbered 'x' :=
    fun _ hm hy => .inr (.inr ⟨hm, hy⟩)
  have hsubst := AllVars.subst hway (fun _ => .inl) (fun _ hy => .inr (.inl hy)) hp
  exact hsubst.contractFrom hway hq x hx

/-- What the variables of pattern and value have in common with those that make
way, the variables of the result have. -/
theorem allVars_of_apply (hP : HoldsOfRenamed P) (ha : a.subject.AllVars P) (hp : p.AllVars P)
    (h : a.apply R p = .ok q) : q.AllVars P := by
  intro x hx
  rcases mem_vars_of_apply h hx with hx | hx | ⟨hm, hx⟩
  · exact hp x hx
  · exact ha x hx
  · exact hP x hm hx

end Equation

end SecondOrder
