/-
# Assignments in another order

Two assignments to different unknowns, with values that hold no unknown, can be
carried out on a pattern in either order: the results are similar
(`EquationSet.instantiate_swap`).  Each assignment is carried out by a sweep of
its own, so the two orders contract different functions at different times, and
give bound variables different names.  What the pattern means when functions
are carried out and both unknowns have their values does not depend on the
order, and each result is that meaning written out.

Every contraction has to be in good order, as in general arguments are not put
into a body at once, and the first sweep has to be thorough, as what it leaves
is only contracted if another one comes.  If the bound variable of one value is
the parameter's name, or what is applied is a parameter or an application, the
order shows (`EquationSet.instantiate_order`).
-/

import SecondOrder.Proofs.EquationSet.Instantiate
import SecondOrder.Proofs.Expr.Contraction

namespace SecondOrder

open SecondOrder.Expr

/-- In the pattern `p` the equation assigns an unknown that no binding binds a
value without unknowns. -/
structure Equation.AssignsIn (p : Expr) (c : Equation) : Prop where
  unknown : c.pattern.isMarked = true
  unbound : ∀ x ∈ p.slots, c.pattern ≠ var x
  ground : ∀ n ∈ c.subject.nodes, n.isMarked = false

/-- The unknown of `c` given its value, carried out in `ρ`. -/
def Env.give (R : Reserved) (ρ : Env) (c : Equation) : Env :=
  ρ.assign R true [(c.pattern, c.subject.nameless)]

namespace Env

variable {R : Reserved} {ρ ρ' : Env} {c d : Equation} {p e n : Expr}

/-- The unknown that is given its value comes to what the value comes to. -/
theorem give_self (ρ : Env) (c : Equation) :
    ρ.give R c c.pattern = c.subject.nameless.eval R true ρ [] := by
  have hself : (c.pattern == c.pattern) = true := Expr.same_refl _
  rw [give, assign, List.lookup_cons, hself]

/-- Every other name stays what it was. -/
theorem give_of_ne (hc : c.pattern.isMarked = true) (hn : n ≠ c.pattern) : ρ.give R c n = ρ n := by
  have hne : (n == c.pattern) = false :=
    Bool.eq_false_iff.2 (mt (beq_name_iff (isName_of_isMarked hc)).1 hn)
  rw [give, assign, List.lookup_cons, hne]
  rfl

/-- Only an unknown is given a value. -/
theorem Literal.give (hρ : ρ.Literal R true) (hc : c.pattern.isMarked = true) : (ρ.give R c).Literal R true := by
  have hne {n : Expr} (hn : n.isMarked = false) : n ≠ c.pattern := by
    rintro rfl
    exact Bool.false_ne_true (hn.symm.trans hc)
  refine ⟨?_, fun n hn hm => ?_⟩
  · rw [give_of_ne hc (hne rfl)]
    exact hρ.applySym
  · rw [give_of_ne hc (hne (hm rfl))]
    exact hρ.plain n hn hm

/-- **To substitute a value is to give it.** -/
theorem eval_subst (hc : c.pattern.isMarked = true) (hslot : ∀ x ∈ p.slots, c.pattern ≠ var x)
    (h : p.subst c.pattern c.subject = .ok e) :
    e.nameless.eval R true ρ [] = p.nameless.eval R true (ρ.give R c) [] := by
  have hform := namelessIn_subst (S := []) (isName_of_isMarked hc) hslot nofun (fun _ => nofun) h
  rw [nameless, hform]
  exact Nameless.eval_replace (List.forall_mem_singleton.2 (eval_nameless c.subject))

/-- The value of an expression without unknowns does not depend on theirs. -/
theorem eval_ground (hρ : ρ.Literal R true) (hc : c.pattern.isMarked = true)
    (he : ∀ n ∈ e.nodes, n.isMarked = false) :
    e.nameless.eval R true ρ [] = e.nameless.eval R true (ρ.give R c) [] := by
  have hname (n : Expr) (hn : n ∈ e.nodes) : ρ n = ρ.give R c n := by
    refine (give_of_ne hc ?_).symm
    rintro rfl
    exact Bool.false_ne_true ((he _ hn).symm.trans hc)
  have hcongr : _ ∧ ((IsName e → _) → (e.namelessIn []).eval R true ρ [] = _) :=
    eval_congr (fun _ => hρ) fun n hn _ => .of_eq (hname n hn)
  exact hcongr.2 fun _ => hname e (self_mem_nodes e)

/-- Values without unknowns can be given in either order. -/
theorem give_swap (hρ : ρ.Literal R true) (hne : c.pattern ≠ d.pattern) (hc : c.pattern.isMarked = true)
    (hd : d.pattern.isMarked = true) (hcs : ∀ n ∈ c.subject.nodes, n.isMarked = false)
    (hds : ∀ n ∈ d.subject.nodes, n.isMarked = false) :
    (ρ.give R c).give R d = (ρ.give R d).give R c := by
  funext n
  by_cases hnc : n = c.pattern
  · subst hnc
    rw [give_of_ne hd hne, give_self, give_self, eval_ground hρ hd hcs]
  · by_cases hnd : n = d.pattern
    · subst hnd
      rw [give_self, give_of_ne hc hnc, give_self, eval_ground hρ hc hds]
    · rw [give_of_ne hd hnd, give_of_ne hc hnc, give_of_ne hc hnc, give_of_ne hd hnd]

end Env

namespace EquationSet

variable {R : Reserved} {ρ : Env} {c d : Equation} {p p' q q' : Expr} {s s' t u u' : EquationSet}

/-- When the assignments are carried out on `p` one after the other, every
contraction is in good order, and no sweep but the last leaves anything to be
contracted. -/
def OrderlyAlong (R : Reserved) : List Equation → Expr → Prop
  | [], _ => True
  | c :: S, p => ∀ e, p.subst c.pattern c.subject = .ok e →
      Orderly R e ∧ (S ≠ [] → Thorough R e) ∧ ∀ q, e.contractAll R = .ok q → OrderlyAlong R S q

/-- What two assignments make of a pattern is what the pattern means when
functions are carried out and both unknowns have their values. -/
theorem meaning_applyAll (hc : c.AssignsIn p) (hd : d.AssignsIn p) (horder : OrderlyAlong R [c, d] p)
    (h : applyAll R [c, d] p = .ok q) (hρ : ρ.Literal R false) :
    (q.nameless.eval R false ρ []).meaning =
      (p.nameless.eval R true ((ρ.give R d).give R c) []).meaning := by
  obtain ⟨p', hcp, h⟩ := bind_eq_ok.1 h
  obtain ⟨q', hdp, h⟩ := bind_eq_ok.1 h
  cases h
  obtain ⟨e, depth, hsub, hcontract⟩ := Equation.brings_of_apply hcp
  obtain ⟨e', depth', hsub', hcontract'⟩ := Equation.brings_of_apply hdp
  obtain ⟨he, hthorough, horder⟩ := horder e hsub
  obtain ⟨he', -⟩ := horder p' (contractAll_of_ok hcontract) e' hsub'
  have hslot : ∀ x ∈ p'.slots, d.pattern ≠ var x := by
    rintro x hx heq
    have hm : x.marked = true := by
      have h := hd.unknown
      rwa [heq] at h
    have hxe := mem_slots_of_contractFrom he hcontract hx hm
    rcases mem_slots_of_subst (isName_of_isMarked hc.unknown) hc.unbound hsub hxe hm with hx | hx
    · exact hd.unbound x hx heq
    · exact Bool.false_ne_true ((hc.ground _ (var_mem_nodes_of_mem_slots hx)).symm.trans hm)
  have hfirst : SameValue R true e p' :=
    sameValue_contractFrom he (fun _ => hthorough (List.cons_ne_nil _ _)) hcontract
  have hsecond : SameValue R false e' q := sameValue_contractFrom he' nofun hcontract'
  calc (q.nameless.eval R false ρ []).meaning
      = (e'.nameless.eval R true ρ []).meaning := (hsecond ρ [] [] rfl hρ).1
    _ = (p'.nameless.eval R true (ρ.give R d) []).meaning := by rw [Env.eval_subst hd.unknown hslot hsub']
    _ = (e.nameless.eval R true (ρ.give R d) []).meaning :=
      (hfirst _ [] [] rfl (hρ.opened.give hd.unknown)).1
    _ = (p.nameless.eval R true ((ρ.give R d).give R c) []).meaning := by
      rw [Env.eval_subst hc.unknown hc.unbound hsub]

/-- Two assignments can be applied to a pattern in either order. -/
theorem applyAll_swap (hne : c.pattern ≠ d.pattern) (hc : c.AssignsIn p) (hd : d.AssignsIn p)
    (horder : OrderlyAlong R [c, d] p) (horder' : OrderlyAlong R [d, c] p)
    (h : applyAll R [c, d] p = .ok q) (h' : applyAll R [d, c] p = .ok q') : q.similar q' = true := by
  have hfree := Env.literal_free R
  have hmeaning : (q.nameless.eval R false (.free R) []).meaning =
      (q'.nameless.eval R false (.free R) []).meaning := by
    rw [meaning_applyAll hc hd horder h hfree, meaning_applyAll hd hc horder' h' hfree,
      Env.give_swap hfree.opened hne hc.unknown hd.unknown hc.ground hd.ground]
  rw [similar_iff_alphaEq, alphaEq_iff_nameless]
  calc q.nameless = ((q.nameless.eval R false (.free R) []).meaning 0).form 0 := (form_meaning (S := []) q).symm
    _ = ((q'.nameless.eval R false (.free R) []).meaning 0).form 0 := by rw [hmeaning]
    _ = q'.nameless := form_meaning (S := []) q'

/-- **Two assignments can be carried out in either order.**  Let `c` and `d`
give different unknowns values that hold no unknown, and let no binding of a
pattern bind the two.  If along either order every contraction is in good
order, and the first sweep leaves nothing for the second one, then the two
instantiations, where neither is refused, leave the subjects as they are and
make the same of every pattern, up to bound names. -/
theorem instantiate_swap (hne : c.pattern ≠ d.pattern) (hs : s.equations = [c, d]) (hs' : s'.equations = [d, c])
    (hassigns : ∀ e ∈ t.equations, c.AssignsIn e.pattern ∧ d.AssignsIn e.pattern)
    (horder : ∀ e ∈ t.equations, OrderlyAlong R [c, d] e.pattern ∧ OrderlyAlong R [d, c] e.pattern)
    (h : s.instantiate R t = ⟨u, .ok ()⟩) (h' : s'.instantiate R t = ⟨u', .ok ()⟩) :
    List.Forall₂ (fun a b => a.pattern.similar b.pattern = true ∧ a.subject = b.subject)
      u.equations u'.equations := by
  have hall := applyAll_of_instantiate h
  have hall' := (List.forall₂_and_left _ _).2 ⟨fun e he => he, applyAll_of_instantiate h'⟩
  rw [hs] at hall
  rw [hs'] at hall'
  refine forall₂_trans (fun a e b ha hb => ?_) hall.flip hall'
  obtain ⟨he, hb⟩ := hb
  obtain ⟨hc, hd⟩ := hassigns e he
  exact ⟨applyAll_swap hne hc hd (horder e he).1 (horder e he).2 ha.1 hb.1, ha.2.trans hb.2.symm⟩

/-- What substitution and contraction make of a pattern for one assignment and
then for another one is what both make of it. -/
theorem instantiate_pair {e e' x : Expr} (hc : p.subst c.pattern c.subject = .ok e)
    (hp : e.contractAll R = .ok p') (hd : p'.subst d.pattern d.subject = .ok e') (hq : e'.contractAll R = .ok q) :
    ({ equations := [c, d] } : EquationSet).instantiate R { equations := [⟨p, x⟩] } =
      ⟨{ equations := [⟨q, x⟩] }, .ok ()⟩ := by
  have hall : applyAll R [c, d] p = .ok q :=
    bind_eq_ok.2 ⟨p', bind_eq_ok.2 ⟨e, hc, hp⟩, bind_eq_ok.2 ⟨q, bind_eq_ok.2 ⟨e', hd, hq⟩, rfl⟩⟩
  have heach : instantiateEach R [c, d] [⟨p, x⟩] = ⟨[⟨q, x⟩], .ok ()⟩ :=
    instantiateEach_of_applyAll (.cons ⟨hall, rfl⟩ .nil)
  rw [instantiate, heach]

/-- The pattern `q[x. _f(p(x, _a))]` with `λu. p(u, x)` for `_f` and
`r[x0. x0]` for `_a`: the bound `x` gives way to `x0` or, if the other value is
there already, to `x1`. -/
theorem instantiate_swap_renamed :
    let R : Reserved := {}
    let v (name : String) : Expr := var ⟨name, false⟩
    let u (name : String) : Expr := var ⟨name, true⟩
    let p (a b : Expr) : Expr := app (sym ⟨"p", "base", false⟩) [a, b]
    let q (x : String) (b : Expr) : Expr := bind ⟨"q", "base", false⟩ ⟨⟨x, false⟩, []⟩ b
    let c : Equation := ⟨u "f", R.lambda ⟨⟨"u", false⟩, []⟩ (p (v "u") (v "x"))⟩
    let d : Equation := ⟨u "a", q "x0" (v "x0")⟩
    let pattern : Expr := q "x" (R.apply (u "f") (p (v "x") (u "a")) [])
    let result (x : String) : Expr := q x (p (p (v x) d.subject) (v "x"))
    c.pattern ≠ d.pattern ∧ (c.AssignsIn pattern ∧ d.AssignsIn pattern) ∧
      (OrderlyAlong R [c, d] pattern ∧ OrderlyAlong R [d, c] pattern) ∧
      ({ equations := [c, d] } : EquationSet).instantiate R { equations := [⟨pattern, v "e"⟩] } =
        ⟨{ equations := [⟨result "x0", v "e"⟩] }, .ok ()⟩ ∧
      ({ equations := [d, c] } : EquationSet).instantiate R { equations := [⟨pattern, v "e"⟩] } =
        ⟨{ equations := [⟨result "x1", v "e"⟩] }, .ok ()⟩ ∧
      (result "x0").similar (result "x1") = true := by
  intro R v u p q c d pattern result
  let redex (x : String) (a : Expr) : Expr := q x (R.apply c.subject (p (v x) a) [])
  let reduct (x : String) (a : Expr) : Expr := q x (p (p (v x) a) (v "x"))
  -- What either order makes of the pattern, one substitution or contraction after another.
  have hfirst : pattern.subst c.pattern c.subject = .ok (redex "x0" (u "a")) := by
    simp only [pattern, c, redex, p, q, u, v, R]
    cbv
  have hfirst' : pattern.subst d.pattern d.subject = .ok (q "x" (R.apply (u "f") (p (v "x") d.subject) [])) := by
    simp only [pattern, d, p, q, u, v, R]
    cbv
  have hsecond : (reduct "x0" (u "a")).subst d.pattern d.subject = .ok (result "x0") := by
    simp only [d, reduct, result, p, q, u, v]
    cbv
  have hsecond' : (q "x" (R.apply (u "f") (p (v "x") d.subject) [])).subst c.pattern c.subject =
      .ok (redex "x1" d.subject) := by
    simp only [d, c, redex, p, q, u, v, R]
    cbv
  have hcontract : (redex "x0" (u "a")).contractAll R = .ok (reduct "x0" (u "a")) := by
    simp only [redex, reduct, c, p, q, u, v, R, contractAll, contractFrom, contractFromAll, bothDeep,
      Reserved.apply, Reserved.lambda, isRedex, asApply?, isLambda, Except.map, Except.mapError]
    cbv
  have hcontract' : (redex "x1" d.subject).contractAll R = .ok (result "x1") := by
    simp only [redex, result, c, d, p, q, v, R, contractAll, contractFrom, contractFromAll, bothDeep,
      Reserved.apply, Reserved.lambda, isRedex, asApply?, isLambda, Except.map, Except.mapError]
    cbv
  -- The one redex on the way, in either order, is that of the value of `_f`.
  have hplain : ∀ n ∈ (result "x0").nodes, n.isRedex R = false := by decide
  have hwaiting : ∀ n ∈ (q "x" (R.apply (u "f") (p (v "x") d.subject) [])).nodes, n.isRedex R = false := by decide
  have hbody : ∀ n ∈ (p (v "u") (v "x")).nodes, n.isRedex R = false := by decide
  have hsep (a : Expr) : Separate ⟨⟨"u", false⟩, []⟩ (p (v "u") (v "x")) [a] := by
    constructor <;> simp [p, v, Binders.toList, Binders.length, slots, slotsAll, nodes, nodesAll]
  have hreduces {x : String} {a : Expr} (ha : a = u "a" ∨ a = d.subject) {us : Binders} {b : Expr} {as : List Expr}
      (h : Reduces R (redex x a) us b as) :
      us = ⟨⟨"u", false⟩, []⟩ ∧ b = p (v "u") (v "x") ∧ ∃ a, as = [a] := by
    obtain ⟨b₀, a₀, as₀, hn, hb, has⟩ := h
    obtain ⟨rfl, rfl, rfl⟩ : us = ⟨⟨"u", false⟩, []⟩ ∧ b₀ = p (v "u") (v "x") ∧ as₀ = [] := by
      rcases ha with rfl | rfl <;>
        simp [redex, c, d, p, q, u, v, R, Reserved.apply, Reserved.lambda, nodes, nodesAll] at hn <;>
        simp [p, v, hn]
    cases has with
    | cons _ has =>
      cases has
      cases (contractAll_of_not_isRedex hbody).symm.trans hb
      exact ⟨rfl, rfl, _, rfl⟩
  have hredex {x : String} {a : Expr} (ha : a = u "a" ∨ a = d.subject) : Orderly R (redex x a) := by
    intro us b as h
    obtain ⟨rfl, rfl, a, rfl⟩ := hreduces ha h
    exact hsep a
  have hthorough : Thorough R (redex "x0" (u "a")) := by
    refine ⟨fun us b as h pair hpair hcalled => ?_, fun g hmem hr => ?_⟩
    · obtain ⟨rfl, rfl, a, rfl⟩ := hreduces (.inl rfl) h
      obtain rfl := List.mem_singleton.1 hpair
      obtain ⟨g, as, hn, hg⟩ := hcalled
      simp [p, v, nodes, nodesAll] at hn
      simp [hn, Caller, R, Reserved.applySym, Reserved.symbol, isMarked] at hg
    · obtain ⟨f, as, hn, hg⟩ := hmem
      simp [redex, c, p, q, u, v, R, Reserved.apply, Reserved.lambda, nodes, nodesAll] at hn
      obtain ⟨us, b, a, bs, rfl⟩ := isRedex_iff.1 hr
      rcases hn with ⟨rfl, rfl⟩ | ⟨rfl, rfl⟩ | ⟨rfl, rfl⟩ <;> simp at hg
  have horder : OrderlyAlong R [c, d] pattern := by
    intro e he
    cases hfirst.symm.trans he
    refine ⟨hredex (.inl rfl), fun _ => hthorough, fun e he => ?_⟩
    cases hcontract.symm.trans he
    intro e he
    cases hsecond.symm.trans he
    exact ⟨orderly_of_not_isRedex hplain, fun h => absurd rfl h, fun _ _ => trivial⟩
  have horder' : OrderlyAlong R [d, c] pattern := by
    intro e he
    cases hfirst'.symm.trans he
    refine ⟨orderly_of_not_isRedex hwaiting, fun _ => thorough_of_not_isRedex hwaiting, fun e he => ?_⟩
    cases (contractAll_of_not_isRedex hwaiting).symm.trans he
    intro e he
    cases hsecond'.symm.trans he
    exact ⟨hredex (.inr rfl), fun h => absurd rfl h, fun _ _ => trivial⟩
  have h := instantiate_pair (x := v "e") hfirst hcontract hsecond (contractAll_of_not_isRedex hplain)
  have h' := instantiate_pair (x := v "e") hfirst' (contractAll_of_not_isRedex hwaiting) hsecond' hcontract'
  have hne : c.pattern ≠ d.pattern := by simp [c, d, u]
  have hc : c.AssignsIn pattern :=
    ⟨rfl, by simp [pattern, c, p, q, u, v, Reserved.apply, slots, slotsAll, Binders.toList], by decide⟩
  have hd : d.AssignsIn pattern :=
    ⟨rfl, by simp [pattern, d, p, q, u, v, Reserved.apply, slots, slotsAll, Binders.toList], by decide⟩
  have hsame := instantiate_swap hne rfl rfl (List.forall_mem_singleton.2 ⟨hc, hd⟩)
    (List.forall_mem_singleton.2 ⟨horder, horder'⟩) h h'
  exact ⟨hne, ⟨hc, hd⟩, ⟨horder, horder'⟩, h, h', (List.forall₂_cons.1 hsame).1.1⟩

/-- The order shows in `_f(_a, c)` with `λa, b. q(a, b)` for `_f` and `b` for
`_a`, which becomes `q(b, c)` or `q(c, c)`.  It also shows, with
`λx. λy. q(x, y)` for `_f`, where a function applies its parameter, in
`(λ_k. _k(c))(_f(d))`, and where what is applied is an application, in
`_f(d)(c)`: another sweep is needed to make `q(d, c)` of `(λy. q(d, y))(c)`,
and it only comes if `_f` has its value first. -/
theorem instantiate_order :
    let R : Reserved := {}
    let v (name : String) : Expr := var ⟨name, false⟩
    let u (name : String) : Expr := var ⟨name, true⟩
    let q (a b : Expr) : Expr := app (sym ⟨"q", "base", false⟩) [a, b]
    let order (c d : Equation) (pattern q q' : Expr) : Prop :=
      c.pattern ≠ d.pattern ∧ (c.AssignsIn pattern ∧ d.AssignsIn pattern) ∧
        ({ equations := [c, d] } : EquationSet).instantiate R { equations := [⟨pattern, v "e"⟩] } =
          ⟨{ equations := [⟨q, v "e"⟩] }, .ok ()⟩ ∧
        ({ equations := [d, c] } : EquationSet).instantiate R { equations := [⟨pattern, v "e"⟩] } =
          ⟨{ equations := [⟨q', v "e"⟩] }, .ok ()⟩ ∧
        q.similar q' = false
    let f : Expr := R.lambda ⟨⟨"a", false⟩, [⟨"b", false⟩]⟩ (q (v "a") (v "b"))
    let inner (x : Expr) : Expr := R.lambda ⟨⟨"y", false⟩, []⟩ (q x (v "y"))
    let g : Expr := R.lambda ⟨⟨"x", false⟩, []⟩ (inner (v "x"))
    let k : Expr := R.lambda ⟨⟨"k", true⟩, []⟩ (R.apply (u "k") (v "c") [])
    order ⟨u "f", f⟩ ⟨u "a", v "b"⟩ (R.apply (u "f") (u "a") [v "c"]) (q (v "b") (v "c"))
        (q (v "c") (v "c")) ∧
      order ⟨u "f", g⟩ ⟨u "a", v "b"⟩ (R.apply k (R.apply (u "f") (v "d") []) []) (q (v "d") (v "c"))
        (R.apply (inner (v "d")) (v "c") []) ∧
      order ⟨u "f", g⟩ ⟨u "a", v "b"⟩ (R.apply (R.apply (u "f") (v "d") []) (v "c") []) (q (v "d") (v "c"))
        (R.apply (inner (v "d")) (v "c") []) := by
  intro R v u q order f inner g k
  have hne (x y : Expr) : (⟨u "f", x⟩ : Equation).pattern ≠ (⟨u "a", y⟩ : Equation).pattern := by simp [u]
  have hassigns {name : String} {x p : Expr} (hslot : ∀ y ∈ p.slots, u name ≠ var y)
      (hx : ∀ n ∈ x.nodes, n.isMarked = false) : (⟨u name, x⟩ : Equation).AssignsIn p := ⟨rfl, hslot, hx⟩
  have hslots (name : String) (hname : name ≠ "k") :
      ∀ y ∈ (R.apply k (R.apply (u "f") (v "d") []) []).slots, u name ≠ var y := by
    simp [u, v, k, Reserved.apply, Reserved.lambda, slots, slotsAll, Binders.toList, hname]
  refine ⟨⟨hne f _, ⟨hassigns (List.forall_mem_nil _) (by decide), hassigns (List.forall_mem_nil _) (by decide)⟩,
      ?_, ?_, by decide⟩,
    ⟨hne g _, ⟨hassigns (hslots "f" (by decide)) (by decide), hassigns (hslots "a" (by decide)) (by decide)⟩,
      ?_, ?_, by decide⟩,
    hne g _, ⟨hassigns (List.forall_mem_nil _) (by decide), hassigns (List.forall_mem_nil _) (by decide)⟩,
    ?_, ?_, by decide⟩
  all_goals
    dsimp only [u, v, R, f, g, k, inner, q, Reserved.apply, Reserved.lambda]
    apply instantiate_pair
    case hc => cbv
    case hp =>
      simp only [contractAll, contractFrom, contractFromAll, bothDeep, isRedex, asApply?, isLambda,
        Reserved.applySym, Reserved.symbol, if_true, Except.map, Except.mapError]
      cbv
    case hd => cbv
    case hq =>
      simp only [contractAll, contractFrom, contractFromAll, bothDeep, isRedex, asApply?, isLambda,
        Reserved.applySym, Reserved.symbol, if_true, Except.map, Except.mapError]
      cbv

end EquationSet
end SecondOrder
