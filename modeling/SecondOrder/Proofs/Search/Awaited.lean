/-
# Temporaries that still have to be found

An imitation is a function whose body applies temporaries.  Nothing is returned
before each of them has a value, and for any pattern that is so because of the
equation that the imitation was made for: carried out on it, the imitation
leaves a template (`Expr.Template`), which decomposes into applications of the
temporaries.

So an equation that demands a temporary is pending until the temporary is
assigned (`Ongoing.reaches`), and at a branch point there is one that applies
it (`Confined.applies_of_awaits`).  If the head of an application only becomes
the symbol for application when the imitation is carried out, then the template
comes a step later (`Equation.Defers`).
-/

import SecondOrder.Proofs.EquationSet.Membership
import SecondOrder.Proofs.Expr.Similar
import SecondOrder.Proofs.Search.Confined

namespace SecondOrder

namespace Expr

variable {R : Reserved} {T : Expr → Prop} {U : Vocabulary} {h t v r e e' p p' q : Expr} {x y : Var}
  {depth : Nat}

/-- The expression applies `h`. -/
def Applies (R : Reserved) (h e : Expr) : Prop := ∃ a as, e = R.apply h a as

/-- Matched with `e`, the pattern decomposes into applications of unknowns that
satisfy `T`, among them one of `t`. -/
inductive Template (R : Reserved) (T : Expr → Prop) (t : Expr) : Expr → Expr → Prop
  | app {p f : Expr} {ps es : List Expr} (heads : ∀ q ∈ p :: ps, ∃ h, T h ∧ Applies R h q)
      (used : ∃ q ∈ p :: ps, Applies R t q) (length : ps.length = es.length) :
      Template R T t (.app p ps) (.app f es)
  | bind {g : Sym} {xs ys : Binders} {p e : Expr} (body : Applies R t p)
      (slots : ∀ x ∈ xs.toList, .var x ≠ t) (length : xs.length = ys.length) :
      Template R T t (.bind g xs p) (.bind g ys e)

/-- An application of an unknown stays one under a renaming of another name. -/
theorem Applies.rename (hm : h.isMarked = true) (hx : .var x ≠ h) (he : Applies R h e) :
    Applies R h (e.rename x y) := by
  obtain ⟨a, as, rfl⟩ := he
  have hkeep : h.rename x y = h := by
    rcases isName_of_isMarked hm with ⟨z, rfl⟩ | ⟨f, rfl⟩
    · rw [Expr.rename, if_neg fun hz => hx (congrArg Expr.var hz.symm)]
    · rfl
  refine ⟨a.rename x y, as.map (Expr.rename x y), ?_⟩
  rw [Reserved.apply, Expr.rename, renameAll_eq_map, List.map_cons, List.map_cons, hkeep]
  rfl

/-- It stays one under a substitution for another name, which may change the
arguments but not the unknown that they are given to. -/
theorem Applies.subst (hv : IsName v) (hne : v ≠ .sym R.applySym) (hm : h.isMarked = true)
    (hvh : h ≠ v) (he : Applies R h e) (hq : e.subst v r = .ok q) : Applies R h q := by
  obtain ⟨a, as, rfl⟩ := he
  obtain ⟨f, bs, hf, has, rfl⟩ := of_subst_app hq
  rw [subst_of_ne (.inr ⟨_, rfl⟩) hne.symm hv] at hf
  cases hf
  cases has with
  | cons hh has => cases has with
    | cons _ _ =>
      rw [subst_of_ne (isName_of_isMarked hm) hvh hv] at hh
      cases hh
      exact ⟨_, _, rfl⟩

/-- Contraction leaves the application standing: its unknown is no function, so
only the arguments are contracted. -/
theorem Applies.contractFrom (hm : h.isMarked = true) (he : Applies R h e)
    (hq : contractFrom R depth e = .ok q) : Applies R h q := by
  obtain ⟨a, as, rfl⟩ := he
  obtain ⟨f, bs, hf, has, hredex⟩ := of_contractFrom_app hq
  cases hf
  cases has with
  | cons hh has => cases has with
    | cons _ _ =>
      rw [contractFrom_atom (isCompound_of_isMarked hm)] at hh
      cases hh
      rcases hredex with ⟨hredex, -⟩ | ⟨-, rfl⟩
      · rw [isRedex_of_isMarked hm] at hredex
        cases hredex
      · exact ⟨_, _, rfl⟩

/-- To apply an unknown that no binding around binds is a matter of the
expression up to bound names. -/
theorem Applies.of_alphaIn {env : List (Var × Var)} (henv : ∀ pair ∈ env, pair.1 ≠ x)
    (he : Applies R (.var x) e) (h : alphaIn env e e' = true) :
    Applies R (.var x) e' ∧ ∀ pair ∈ env, pair.2 ≠ x := by
  obtain ⟨a, as, rfl⟩ := he
  cases e' with
  | app f bs =>
    rw [Reserved.apply, alphaIn, Bool.and_eq_true] at h
    obtain ⟨hf, has⟩ := h
    cases f with
    | sym f =>
      obtain rfl : R.applySym = f := eq_of_beq hf
      cases bs with
      | nil => cases has
      | cons b bs =>
        rw [alphaInAll, Bool.and_eq_true] at has
        obtain ⟨hb, has⟩ := has
        cases bs with
        | nil => cases has
        | cons c bs =>
          cases b with
          | var y =>
            obtain ⟨rfl, henv'⟩ := eq_of_sameVarIn henv hb
            exact ⟨⟨c, bs, rfl⟩, henv'⟩
          | _ => cases hb
    | _ => cases hf
  | _ => cases h

/-- What no name of a vocabulary is does not stand for itself. -/
theorem Uses.ne_of_not_atom (he : Uses R U e) (hx : ¬U.atom (.var x)) : e ≠ .var x := by
  rintro rfl
  cases he with
  | var atom => exact hx atom

namespace Template

/-- The children of a template stay what they are if every application does. -/
theorem app_congr {p f p' : Expr} {ps es ps' : List Expr} (ht : T t)
    (h : Template R T t (.app p ps) (.app f es))
    (hall : List.Forall₂ (fun q q' => ∀ m, T m → Applies R m q → Applies R m q') (p :: ps)
      (p' :: ps')) : Template R T t (.app p' ps') (.app f es) := by
  have hlen := hall.length_eq
  cases h with
  | app heads used length =>
    refine .app (fun q' hq' => ?_) ?_ ((Nat.succ.inj hlen).symm.trans length)
    · obtain ⟨q, hq, hqq'⟩ := exists_of_forall₂ hall q' hq'
      obtain ⟨m, hm, hmq⟩ := heads q hq
      exact ⟨m, hm, hqq' m hm hmq⟩
    · obtain ⟨q, hq, hqt⟩ := used
      obtain ⟨q', hq', hqq'⟩ := exists_of_forall₂_left hall q hq
      exact ⟨q', hq', hqq' t ht hqt⟩

/-- To be a template is a matter of both sides up to bound names. -/
theorem of_similar (hvar : ∀ m, T m → ∃ x, m = .var x) (ht : T t) (h : Template R T t p e)
    (hp : p.similar p' = true) (he : e.similar e' = true) : Template R T t p' e' := by
  rw [similar_iff_alphaEq] at hp he
  cases h with
  | @app p f ps es heads used length =>
    cases p' with
    | app p' ps' => cases e' with
      | app f' es' =>
        rw [alphaEq, alphaIn, Bool.and_eq_true, alphaInAll_iff] at hp he
        have happ : Template R T t (.app p' ps') (.app f es) := by
          refine app_congr ht (.app heads used length) (List.Forall₂.imp ?_ (.cons hp.1 hp.2))
          intro q q' hqq' m hm hqm
          obtain ⟨x, rfl⟩ := hvar m hm
          exact (hqm.of_alphaIn (List.forall_mem_nil _) hqq').1
        cases happ with
        | app heads used length => exact .app heads used (length.trans he.2.length_eq)
      | _ => cases he
    | _ => cases hp
  | @bind g xs ys p e body slots length =>
    cases p' with
    | bind g' xs' p' => cases e' with
      | bind g'' ys' e' =>
        rw [alphaEq, alphaIn, Bool.and_eq_true, Bool.and_eq_true, List.append_nil] at hp he
        obtain ⟨x, rfl⟩ := hvar t ht
        obtain rfl := eq_of_beq hp.1.1
        obtain rfl := eq_of_beq he.1.1
        have hlen : xs.toList.length = xs'.toList.length := eq_of_beq hp.1.2
        obtain ⟨hbody, hslots⟩ := body.of_alphaIn (fun pair hpair heq =>
          slots pair.1 (List.of_mem_zip (List.mem_reverse.1 hpair)).1 (congrArg _ heq)) hp.2
        refine .bind hbody (fun z hz heq => ?_)
          ((eq_of_beq hp.1.2).symm.trans (length.trans (eq_of_beq he.1.2)))
        obtain rfl := Expr.var.inj heq
        have hsnd : z ∈ (xs.toList.zip xs'.toList).map Prod.snd := by
          rwa [List.map_snd_zip (Nat.le_of_eq hlen.symm)]
        obtain ⟨pair, hpair, rfl⟩ := List.mem_map.1 hsnd
        exact hslots pair (List.mem_reverse.2 hpair) rfl
      | _ => cases he
    | _ => cases hp

section Kept

variable (hT : ∀ m, T m → m.isMarked = true) (ht : T t)

include hT ht

/-- A renaming that no temporary has a part in leaves a template one. -/
theorem rename (hx : ¬T (.var x)) (hy : y.marked = false) (h : Template R T t p e) :
    Template R T t (p.rename x y) e := by
  cases h with
  | @app p f ps es heads used length =>
    rw [Expr.rename, renameAll_eq_map]
    refine app_congr ht (.app heads used length) (.cons ?_ ?_)
    · exact fun m hm hp => hp.rename (hT m hm) fun heq => hx (heq ▸ hm)
    · refine List.forall₂_map_right_iff.2 (List.forall₂_same.2 fun q _ m hm hq => ?_)
      exact hq.rename (hT m hm) fun heq => hx (heq ▸ hm)
  | bind body slots length =>
    refine .bind (body.rename (hT t ht) fun heq => hx (heq ▸ ht)) (fun z hz => ?_)
      ((Binders.length_rename ..).trans length)
    rcases mem_toList_rename hz with rfl | ⟨hz, -⟩
    · rintro rfl
      exact Bool.false_ne_true (hy.symm.trans (hT _ ht))
    · exact slots z hz

/-- **Substitution keeps a template,** unless it takes a temporary away. -/
theorem subst (hv : IsName v) (hne : v ≠ .sym R.applySym) (hvT : ¬T v) (hr : r ≠ t)
    (h : Template R T t p e) (hq : p.subst v r = .ok q) : Template R T t q e := by
  have hheads {m q q' : Expr} (hm : T m) (hqm : Applies R m q) (hqq' : q.subst v r = .ok q') :
      Applies R m q' := hqm.subst hv hne (hT m hm) (fun heq => hvT (heq ▸ hm)) hqq'
  cases h with
  | @app p f ps es heads used length =>
    obtain ⟨p', ps', hp, hps, rfl⟩ := of_subst_app hq
    refine app_congr ht (.app heads used length) (.cons ?_ (hps.imp ?_))
    · exact fun m hm hpm => hheads hm hpm hp
    · exact fun q q' hqq' m hm hqm => hheads hm hqm hqq'
  | bind body slots length =>
    rcases of_subst_bind hq with ⟨x, y, c, rfl, -, rfl, hc, rfl⟩ | ⟨-, ys, c, d, hc, hd, rfl⟩
    · refine .bind (hheads ht body hc) (fun z hz => ?_) ((Binders.length_rename ..).trans length)
      rcases mem_toList_rename hz with rfl | ⟨hz, -⟩
      · exact hr
      · exact slots z hz
    · obtain ⟨hbody, hlen, hys, -⟩ := of_clearOf (fun x hx y e' _ _ (he : Applies R t e') =>
        he.rename (hT t ht) (slots x hx)) body hc
      refine .bind (hheads ht hbody hd) (fun z hz => ?_) (hlen.trans length)
      rcases hys z hz with hz | ⟨hplain, -⟩
      · exact slots z hz
      · rintro rfl
        exact Bool.false_ne_true (hplain.symm.trans (hT _ ht))

/-- A template stays one when its redexes are contracted: its children apply
unknowns, so neither it nor they are redexes. -/
theorem contractFrom (h : Template R T t p e) (hq : contractFrom R depth p = .ok q) :
    Template R T t q e := by
  cases h with
  | @app p f ps es heads used length =>
    obtain ⟨p', ps', hp, hps, hredex⟩ := of_contractFrom_app hq
    have hplain : (Expr.app p ps).isRedex R = false := by
      obtain ⟨m, -, a, as, rfl⟩ := heads p List.mem_cons_self
      have hne : R.apply m a as ≠ .sym R.applySym := nofun
      exact isRedex_of_ne hne ps
    rcases hredex with ⟨hredex, -⟩ | ⟨-, rfl⟩
    · cases hplain.symm.trans hredex
    · refine app_congr ht (.app heads used length) (.cons ?_ (hps.imp ?_))
      · exact fun m hm hpm => hpm.contractFrom (hT m hm) hp
      · exact fun q q' hqq' m hm hqm => hqm.contractFrom (hT m hm) hqq'
  | bind body slots length =>
    obtain ⟨c, hc, rfl⟩ := of_contractFrom_bind hq
    exact .bind (body.contractFrom (hT t ht) hc) slots length

/-- Arguments that come into the place of parameters leave a template one,
unless one of them is the temporary itself, which a slot could then take. -/
theorem substEach {pairs : List (Var × Expr)}
    (hpairs : ∀ pair ∈ pairs, pair.1.marked = false ∧ pair.2 ≠ t)
    (h : Template R T t p e) (hq : p.substEach pairs = .ok q) : Template R T t q e := by
  refine of_substEach (P := fun p => Template R T t p e) (fun pair hpair _ _ hp hq => ?_) h hq
  refine hp.subst hT ht (.inl ⟨_, rfl⟩) nofun (fun hm => ?_) (hpairs pair hpair).2 hq
  exact Bool.false_ne_true ((hpairs pair hpair).1.symm.trans (hT _ hm))

end Kept

end Template

/-- A ground expression is no application of a function or an unknown. -/
theorem Uses.same_apply_eq_false {W : Var → Prop} {g a : Expr} {as : List Expr}
    (he : Uses R (.ground R W) e) : (R.apply g a as).same e = false := by
  cases e with
  | app f bs =>
    rw [Reserved.apply, same, Bool.and_eq_false_iff]
    refine .inl (Bool.eq_false_iff.2 fun hf => ?_)
    cases f with
    | sym f =>
      obtain rfl : R.applySym = f := eq_of_beq hf
      exact he.not_ground_apply
    | _ => cases hf
  | _ => rfl

end Expr

namespace Equation

open SecondOrder.Expr

variable {R : Reserved} {A T : Expr → Prop} {V W : Var → Prop} {t : Expr} {c d a : Equation} {n : Nat}
  {done : List Expr}

/-- The equation applies `t`, or decomposes into equations of which one
does. -/
def Demands (R : Reserved) (T : Expr → Prop) (t : Expr) (c : Equation) : Prop :=
  Applies R t c.pattern ∨ Template R T t c.pattern c.subject

/-- The equation demands `t` once its redex is contracted. -/
def Defers (R : Reserved) (T : Expr → Prop) (t : Expr) (c : Equation) : Prop :=
  ∃ us b a as, c.pattern = R.apply (R.lambda us b) a as ∧ (∀ u ∈ us.toList, u.marked = false) ∧
    Template R T t b c.subject

/-- A pattern that applies something is left for the end. -/
theorem rule_of_apply {g e : Expr} {es : List Expr} (hp : c.pattern = R.apply g e es)
    (he : Uses R (.ground R W) c.subject) : c.rule R = .guess := by
  have hne : (c.pattern == c.subject) = false := hp ▸ he.same_apply_eq_false
  have happly : (R.apply g e es).isApply R = true := isApply_of_ne_nil g (List.cons_ne_nil e es)
  have hdec : c.decomposes R = false := by
    rw [decomposes, hp]
    cases c.subject with
    | app f bs =>
      have happly : (Expr.app (.sym R.applySym) (g :: e :: es)).isApply R = true := happly
      rw [Reserved.apply]
      dsimp only
      rw [happly]
      rfl
    | _ => rfl
  have hflex : c.isFlexible R = true := by
    rw [isFlexible, hp, happly]
    rfl
  rw [rule, hne, hdec, hflex, hp]
  rfl

/-- A template decomposes. -/
theorem rule_of_template (h : Template R T t c.pattern c.subject)
    (he : Uses R (.ground R W) c.subject) : c.rule R = .decompose := by
  obtain ⟨p, e⟩ := c
  dsimp only at h he
  cases h with
  | @app p f ps es heads _ length =>
    obtain ⟨m, -, b, bs, rfl⟩ := heads p List.mem_cons_self
    refine rule_of_decomposes (decomposes_app nofun length) ?_
    change ((R.apply m b bs).same f && sameAll ps es) = false
    cases he with
    | app head => rw [head.same_apply_eq_false, Bool.false_and]
    | apply applied => exact applied.elim
  | @bind g xs ys p e body slots length =>
    obtain ⟨b, bs, rfl⟩ := body
    refine rule_of_decomposes (decomposes_bind length) ?_
    change (g == g && xs == ys && (R.apply t b bs).same e) = false
    cases he with
    | bind _ _ body => rw [body.same_apply_eq_false, Bool.and_false]

/-- An equation that is like one which applies the temporary applies it, too:
no binding around binds a temporary. -/
theorem applies_of_same (hvar : ∃ x, t = .var x) (h : Applies R t c.pattern) (hcd : (c == d) = true) :
    Applies R t d.pattern := by
  have hcd : (c.pattern.similar d.pattern && c.subject.similar d.subject) = true := hcd
  rw [Bool.and_eq_true] at hcd
  obtain ⟨x, rfl⟩ := hvar
  exact (h.of_alphaIn (List.forall_mem_nil _) (similar_iff_alphaEq.1 hcd.1)).1

/-- What an equation demands, those like it demand as well, so that it may be
left out beside them. -/
theorem Demands.of_same (hvar : ∀ m, T m → ∃ x, m = .var x) (ht : T t) (h : c.Demands R T t)
    (hcd : (c == d) = true) : d.Demands R T t := by
  refine h.imp (fun h => applies_of_same (hvar t ht) h hcd) fun h => ?_
  have hcd : (c.pattern.similar d.pattern && c.subject.similar d.subject) = true := hcd
  rw [Bool.and_eq_true] at hcd
  exact h.of_similar hvar ht hcd.1 hcd.2

/-- What applies something is similar only to what applies something. -/
theorem rule_of_same_apply {g e : Expr} {es : List Expr} (hp : c.pattern = R.apply g e es)
    (hd : Uses R (.ground R W) d.subject) (hcd : (c == d) = true) : d.rule R = .guess := by
  have hcd : (c.pattern.similar d.pattern && c.subject.similar d.subject) = true := hcd
  rw [Bool.and_eq_true, similar_iff_alphaEq, hp] at hcd
  have hpattern : ∃ g' e' es', d.pattern = R.apply g' e' es' := by
    have h := hcd.1
    cases hdp : d.pattern with
    | app f bs =>
      rw [hdp, alphaEq, Reserved.apply, alphaIn, Bool.and_eq_true, alphaInAll_iff] at h
      obtain ⟨hf, hbs⟩ := h
      cases f with
      | sym f =>
        obtain rfl : R.applySym = f := eq_of_beq hf
        cases hbs with
        | cons _ hbs => cases hbs with
          | cons _ _ => exact ⟨_, _, _, rfl⟩
      | _ => cases hf
    | _ =>
      rw [hdp] at h
      cases h
  obtain ⟨g', e', es', hpattern⟩ := hpattern
  exact rule_of_apply hpattern hd

/-- An assignment to another unknown keeps what is applied. -/
theorem Brings.applies {h p q : Expr} (ha : a.pattern.isMarked = true) (hm : h.isMarked = true)
    (hne : h ≠ a.pattern) (hpq : a.Brings R p q) (hp : Applies R h p) : Applies R h q := by
  obtain ⟨p', depth, hp', hq⟩ := hpq
  exact (hp.subst (isName_of_isMarked ha) (ne_applySym_of_isMarked ha) hm hne hp').contractFrom hm hq

section Kept

variable (hT : ∀ m, T m → m.isMarked = true ∧ ¬A m) (ht : T t)

include hT ht

/-- An assignment to another unknown keeps what an equation demands. -/
theorem Demands.apply (ha : a.pattern.isMarked = true) (haT : ¬T a.pattern) (hr : a.subject ≠ t)
    (h : c.Demands R T t) (hd : a.apply R c.pattern = .ok d.pattern) (hsubject : d.subject = c.subject) :
    d.Demands R T t := by
  have hbrings := brings_of_apply hd
  have hmarked (m : Expr) (hm : T m) : m.isMarked = true := (hT m hm).1
  rw [Demands, hsubject]
  refine h.imp (hbrings.applies ha (hmarked t ht) fun heq => haT (heq ▸ ht)) fun h => ?_
  obtain ⟨p, depth, hp, hq⟩ := hbrings
  exact (h.subst hmarked ht (isName_of_isMarked ha) (ne_applySym_of_isMarked ha) haT hr hp).contractFrom
    hmarked ht hq

/-- What keeps to the vocabulary of patterns is no temporary. -/
theorem ne_temporary (hvar : ∃ x, t = .var x) {e : Expr} (he : Uses R (.pending A T done) e) : e ≠ t := by
  obtain ⟨x, rfl⟩ := hvar
  exact he.ne_of_not_atom fun hatom => (hT _ ht).2 (hatom (hT _ ht).1).1

/-- The template in a redex comes out when the redex is contracted. -/
theorem Template.of_contract {us : Binders} {b e p q : Expr} {as : List Expr} (hvar : ∃ x, t = .var x)
    (hus : ∀ u ∈ us.toList, u.marked = false) (h : Template R T t b e)
    (has : ∀ a ∈ p :: as, Uses R (.pending A T done) a)
    (hq : (Expr.app (.sym R.applySym) (R.lambda us b :: p :: as)).contract R = .ok q) :
    Template R T t q e :=
  h.substEach (fun m hm => (hT m hm).1) ht (fun _ hpair =>
    ⟨hus _ (List.of_mem_zip hpair).1, ne_temporary hT ht hvar (has _ (List.of_mem_zip hpair).2)⟩)
    (of_contract_lambda hq).2

/-- When the redex is contracted the template comes out, and the equation
demands the temporary in earnest. -/
theorem Defers.contract {p : Expr} (hvar : ∃ x, t = .var x) (hc : c.Confined R A T V n done)
    (h : c.Defers R T t) (hp : c.pattern.contract R = .ok p) :
    Demands R T t ⟨p, c.subject⟩ := by
  obtain ⟨us, b, a, as, hpattern, hus, htemplate⟩ := h
  have huses := hc.pattern
  rw [hpattern] at hp huses
  have has : ∀ e ∈ a :: as, Uses R (.pending A T done) e := by
    cases huses with
    | app _ args => exact (List.forall_mem_cons.1 args).2
    | apply applied => cases applied.1
  exact .inr (Template.of_contract hT ht hvar hus htemplate has hp)

/-- An assignment contracts the redex, too. -/
theorem Defers.apply (hvar : ∃ x, t = .var x) (ha : a.pattern.isMarked = true) (haT : ¬T a.pattern)
    (hvalue : Uses R (.pending A T (done ++ [a.pattern])) a.subject) (hc : c.Confined R A T V n done)
    (h : c.Defers R T t) (hd : a.apply R c.pattern = .ok d.pattern) (hsubject : d.subject = c.subject) :
    d.Demands R T t := by
  obtain ⟨us, b, g, gs, hpattern, hus, htemplate⟩ := h
  have hmarked (m : Expr) (hm : T m) : m.isMarked = true := (hT m hm).1
  have hbrings := brings_of_apply hd
  have huses := hc.pattern
  rw [hpattern] at hbrings huses
  obtain ⟨f, depth, f', g', gs', hf, hf', hgs, hq⟩ := hbrings.apply ha
  have hargs : ∀ e ∈ g' :: gs', Uses R (.pending A T (done ++ [a.pattern])) e := by
    intro e' he'
    obtain ⟨e, he, hee'⟩ := exists_of_forall₂ hgs e' he'
    refine hee'.uses_pending ha hvalue ?_
    cases huses with
    | app _ args => exact args e (List.mem_cons_of_mem _ he)
    | apply applied => cases applied.1
  obtain ⟨ys, b₁, b', rfl, hclear, hb'⟩ := Brings.bind ha hus ⟨f, depth, hf, hf'⟩
  obtain ⟨hb₁, -, hys, -⟩ := of_clearOf (fun x hx y e hy _ (he : Template R T t e c.subject) =>
    he.rename hmarked ht (fun hm => Bool.false_ne_true ((hus x hx).symm.trans (hmarked _ hm))) hy)
    htemplate hclear
  obtain ⟨b₂, depth', hb₂, hb'⟩ := hb'
  have hr : a.subject ≠ t := ne_temporary hT ht hvar hvalue
  have hb₂ := hb₁.subst hmarked ht (isName_of_isMarked ha) (ne_applySym_of_isMarked ha) haT hr hb₂
  have hisLambda : (R.lambda us b).isLambda R = true := beq_self_eq_true R.lambdaSym
  have hlambda : f.isLambda R = true := isLambda_of_subst hisLambda hf
  rcases hq with ⟨-, hq⟩ | ⟨hplain, -⟩
  · refine .inr (hsubject ▸ Template.of_contract hT ht hvar (fun u hu => ?_)
      (hb₂.contractFrom hmarked ht hb') hargs hq)
    exact (hys u hu).elim (hus u) And.left
  · cases hplain.symm.trans hlambda

/-- Alignment keeps a template. -/
theorem template_of_align {P Q : EquationSet} (hvar : ∃ x, t = .var x)
    (h : Template R T t c.pattern c.subject) (hd : c.align P = ⟨Q, .ok d⟩) :
    Template R T t d.pattern d.subject := by
  refine of_align (P := fun _ e => Template R T t e.pattern e.subject) (fun n i e e' he he' => ?_) h hd
  rcases of_renameSlot he' with rfl | ⟨u, v, hpattern, hsubject⟩
  · exact he
  · obtain ⟨f, xs, b, b', hp, hu, hb, hp'⟩ := of_alphaConvert hpattern
    obtain ⟨g, ys, q, q', hq, -, -, hq'⟩ := of_alphaConvert hsubject
    rw [hp, hq] at he
    rw [hp', hq']
    obtain ⟨x, rfl⟩ := hvar
    have hm : x.marked = true := (hT _ ht).1
    cases he with
    | bind body slots length =>
      refine .bind (body.subst (.inl ⟨u, rfl⟩) nofun hm (slots u hu).symm hb) (fun z hz => ?_)
        ((Binders.length_rename ..).trans (length.trans (Binders.length_rename ..).symm))
      rcases mem_toList_rename hz with rfl | ⟨hz, -⟩
      · rintro heq
        rw [← Expr.var.inj heq] at hm
        cases hm
      · exact slots z hz

omit hT ht in
/-- A template leaves equations of which one applies the temporary. -/
theorem exists_pieces (h : Template R T t c.pattern c.subject) :
    ∃ d ∈ c.pieces, Applies R t d.pattern := by
  obtain ⟨p, e⟩ := c
  dsimp only at h
  cases h with
  | @app p f ps es heads used length =>
    obtain ⟨q, hq, hqt⟩ := used
    have hmap : (List.zipWith Equation.mk (p :: ps) (f :: es)).map Equation.pattern = p :: ps := by
      have hle : (p :: ps).length ≤ (f :: es).length := Nat.succ_le_succ (Nat.le_of_eq length)
      have hfst := List.map_fst_zip hle
      rw [List.zip_eq_zipWith, List.map_zipWith] at hfst
      rw [List.map_zipWith]
      exact hfst
    rw [← hmap] at hq
    obtain ⟨d, hd, rfl⟩ := List.mem_map.1 hq
    exact ⟨d, hd, hqt⟩
  | bind body slots length =>
    exact ⟨_, List.mem_append_right _ (List.mem_singleton.2 rfl), body⟩

end Kept

end Equation

namespace Search

open SecondOrder.Expr Equation

variable {R : Reserved} {A T : Expr → Prop} {V : Var → Prop} {s t : Search} {σ : EquationSet}
  {c d : Equation} {n : Nat} {u : Expr} {cs : List Equation}

/-- Among the equations is one that demands `u`, or the first will when its
redex is contracted. -/
def Awaits (R : Reserved) (T : Expr → Prop) (u : Expr) (cs : List Equation) : Prop :=
  (∃ d ∈ cs, d.Demands R T u) ∨ ∃ d ds, cs = d :: ds ∧ d.Defers R T u

namespace Confined

/-- A temporary is an unknown, and none of those that the user has named. -/
theorem isTemporary (h : Confined R A T V s σ) : ∀ m, T m → m.isMarked = true ∧ ¬A m :=
  fun m hm => ⟨(h.unknowns m (.inr hm)).1, (h.temporaries m hm).1⟩

/-- What is erased is treated, and only what demands a temporary is like what
does. -/
theorem demands_of_drop (h : Confined R A T V s σ) (hu : T u) (hd : d ∈ s.pending.equations)
    (hdemands : d.Demands R T u) (c : Equation) :
    (∃ e ∈ (s.drop c).pending.equations, e.Demands R T u) ∨ c.Demands R T u :=
  (mem_drop_or hd c).imp (fun hd => ⟨d, hd, hdemands⟩)
    (hdemands.of_same (fun m hm => (h.temporaries m hm).2) hu)

/-- Only an equation whose rule is to decompose or to guess demands a
temporary. -/
theorem rule_of_demands (h : Confined R A T V s σ) (hc : c ∈ s.pending.equations)
    (hdemands : c.Demands R T u) : Applies R u c.pattern ∧ c.rule R = .guess ∨
      Template R T u c.pattern c.subject ∧ c.rule R = .decompose := by
  have hground := (h.equations c hc).subject
  refine hdemands.imp (fun happ => ⟨happ, ?_⟩) fun htemplate => ⟨htemplate, ?_⟩
  · obtain ⟨a, as, hp⟩ := happ
    exact rule_of_apply hp hground
  · exact rule_of_template htemplate hground

/-- What demands a temporary is pending until it is treated, and then leaves
what does. -/
theorem demands_of_advance (h : Confined R A T V s σ) (hu : T u) (hc : c ∈ s.pending.equations)
    (hd : d ∈ s.pending.equations) (hdemands : d.Demands R T u) (ha : Advance R s c t) :
    ∃ e ∈ t.pending.equations, e.Demands R T u := by
  have hT := h.isTemporary
  have hvar := (h.temporaries u hu).2
  have hdrop := h.demands_of_drop hu hd hdemands c
  have hrule (hcu : c.Demands R T u) := h.rule_of_demands hc hcu
  have hadd (P : EquationSet) (cs : List Equation) {e : Equation} (he : e ∈ P.equations ∨ e ∈ cs)
      (hdemands : e.Demands R T u) : ∃ e ∈ (P.add cs).equations, e.Demands R T u := by
    have hgrows := EquationSet.grows_add P cs
    rcases he with he | he
    · obtain ⟨ds, -, heqs, -⟩ := hgrows.equations
      exact ⟨e, heqs ▸ List.mem_append_left _ he, hdemands⟩
    · obtain ⟨e', he', hsame⟩ := hgrows.covers e he
      exact ⟨e', he', hdemands.of_same (fun m hm => (h.temporaries m hm).2) hu (beq_symm hsame)⟩
  -- The equation treated may be the one that demands the temporary; any other one stays.
  cases ha with
  | trivial rule =>
    refine hdrop.resolve_right fun hcu => ?_
    rcases hrule hcu with ⟨-, hr⟩ | ⟨-, hr⟩ <;> cases rule.symm.trans hr
  | assign rule assigned =>
    obtain ⟨e, he, hdemands⟩ := hdrop.resolve_right fun hcu => by
      rcases hrule hcu with ⟨-, hr⟩ | ⟨-, hr⟩ <;> cases rule.symm.trans hr
    have hm := isMarked_of_assign rule
    obtain ⟨-, -, -, hall⟩ := h.assign_pending hc hm assigned
    obtain ⟨e', he', happly, hsubject⟩ := exists_of_forall₂_left hall e he
    have hnot : ¬T c.pattern := fun hm' => (hT _ hm').2 ((h.equations c hc).assigned hm).1
    have hr : c.subject ≠ u := fun heq => by
      have hplain := (h.equations c hc).subject.not_isMarked
      rw [heq, (hT u hu).1] at hplain
      cases hplain
    exact ⟨e', he', hdemands.apply hT hu hm hnot hr happly hsubject⟩
  | align rule aligned done =>
    obtain ⟨hP, hd'⟩ := h.align hc aligned
    have hequations := equations_of_align aligned
    refine (hdrop.resolve_right fun hcu => ?_).imp fun e he => ⟨hequations.symm ▸ he.1, he.2⟩
    rcases hrule hcu with ⟨-, hr⟩ | ⟨htemplate, -⟩
    · cases rule.symm.trans hr
    · exact done (rule_of_template (template_of_align hT hu hvar htemplate aligned) hd'.subject)
  | decompose rule aligned again =>
    have hequations := equations_of_align aligned
    rcases hdrop with ⟨e, he, hdemands⟩ | hcu
    · exact hadd _ _ (.inl (hequations.symm ▸ he)) hdemands
    · rcases hrule hcu with ⟨-, hr⟩ | ⟨htemplate, -⟩
      · cases rule.symm.trans hr
      · obtain ⟨e, he, happ⟩ := exists_pieces (template_of_align hT hu hvar htemplate aligned)
        exact hadd _ _ (.inr he) (.inl happ)
  | contract rule redex contracted =>
    rcases hdrop with ⟨e, he, hdemands⟩ | hcu
    · exact hadd _ _ (.inl he) hdemands
    · rcases hrule hcu with ⟨⟨a, as, hp⟩, -⟩ | ⟨-, hr⟩
      · rw [hp, Reserved.apply, isRedex_of_isMarked (hT u hu).1] at redex
        cases redex
      · cases rule.symm.trans hr

/-- A redex that defers a temporary stays the first equation until it is
contracted. -/
theorem awaits_of_defers {ds : List Equation} (h : Confined R A T V s σ) (hu : T u)
    (hb : s.pending.best? R = some c) (hs : s.pending.equations = d :: ds) (hdefers : d.Defers R T u)
    (ha : Advance R s c t) : Awaits R T u t.pending.equations := by
  have hT := h.isTemporary
  have hvar := (h.temporaries u hu).2
  have hc := EquationSet.mem_of_best? hb
  have hd : d ∈ s.pending.equations := hs ▸ List.mem_cons_self
  have hkeep (hr : c.rule R ≠ .guess) :
      (s.drop c).pending.equations = d :: EquationSet.eraseFirst c ds := by
    obtain ⟨us, b, a, as, hp, -⟩ := hdefers
    have hne : ¬(d == c) = true := fun hdc => hr (rule_of_same_apply hp (h.equations c hc).subject hdc)
    rw [equations_drop, hs]
    exact List.eraseP_cons_of_neg hne
  -- Only where a guess is due is the redex treated, so it stays in front of the others.
  cases ha with
  | trivial rule => exact .inr ⟨d, _, hkeep fun hr => (by cases rule.symm.trans hr), hdefers⟩
  | assign rule assigned =>
    have hm := isMarked_of_assign rule
    obtain ⟨-, -, -, hall⟩ := h.assign_pending hc hm assigned
    rw [hkeep fun hr => by cases rule.symm.trans hr] at hall
    have hnot : ¬T c.pattern := fun hm' => (hT _ hm').2 ((h.equations c hc).assigned hm).1
    have hvalue := (h.equations c hc).subject.unknowns_of_ground
    cases hall' : t.pending.equations with
    | nil =>
      rw [hall'] at hall
      cases hall
    | cons d' ds' =>
      rw [hall'] at hall
      obtain ⟨⟨happly, hsubject⟩, -⟩ := List.forall₂_cons.1 hall
      exact .inl ⟨d', List.mem_cons_self, hdefers.apply hT hu hvar hm hnot (hvalue _ _)
        (h.equations d hd) happly hsubject⟩
  | align rule aligned =>
    have hequations := equations_of_align aligned
    rw [hkeep fun hr => by cases rule.symm.trans hr] at hequations
    exact .inr ⟨d, _, hequations, hdefers⟩
  | @decompose P e rule aligned =>
    have hequations := equations_of_align aligned
    rw [hkeep fun hr => by cases rule.symm.trans hr] at hequations
    obtain ⟨es, -, heqs, -⟩ := (EquationSet.grows_add P e.pieces).equations
    refine .inr ⟨d, EquationSet.eraseFirst c ds ++ es, ?_, hdefers⟩
    rw [← List.cons_append, ← hequations]
    exact heqs
  | @contract p rule _ contracted =>
    obtain rfl := EquationSet.eq_of_best?_of_guess hb rule hs
    have hdemands := hdefers.contract hT hu hvar (h.equations c hc) contracted
    obtain ⟨e, he, hsame⟩ := (EquationSet.grows_add (s.drop c).pending [⟨p, c.subject⟩]).covers _
      List.mem_cons_self
    exact .inl ⟨e, he, hdemands.of_same (fun m hm => (h.temporaries m hm).2) hu (beq_symm hsame)⟩

/-- **A temporary is awaited until it is assigned.** -/
theorem awaits_of_advance (h : Confined R A T V s σ) (hu : T u) (hb : s.pending.best? R = some c)
    (ha : Advance R s c t) (hawaits : Awaits R T u s.pending.equations) :
    Awaits R T u t.pending.equations := by
  rcases hawaits with ⟨d, hd, hdemands⟩ | ⟨d, ds, hs, hdefers⟩
  · exact .inl (h.demands_of_advance hu (EquationSet.mem_of_best? hb) hd hdemands ha)
  · exact h.awaits_of_defers hu hb hs hdefers ha

/-- At a branch point an equation applies what is awaited. -/
theorem applies_of_awaits (h : Confined R A T V s σ) (hb : s.pending.best? R = some c)
    (hr : c.rule R = .guess) (hflex : c.pattern.isRedex R = false)
    (hawaits : Awaits R T u s.pending.equations) : ∃ d ∈ s.pending.equations, Applies R u d.pattern := by
  rcases hawaits with ⟨d, hd, hdemands⟩ | ⟨d, ds, hs, us, b, a, as, hp, -⟩
  · refine ⟨d, hd, ?_⟩
    rcases h.rule_of_demands hd hdemands with ⟨happ, -⟩ | ⟨-, hrule⟩
    · exact happ
    · cases (EquationSet.rule_of_best?_of_guess hb hr d hd).symm.trans hrule
  · obtain rfl := EquationSet.eq_of_best?_of_guess hb hr hs
    rw [hp, Reserved.apply, isRedex_iff.2 ⟨us, b, a, as, rfl⟩] at hflex
    cases hflex

end Confined


/-- A search in which every temporary has a value or is awaited. -/
structure Ongoing (R : Reserved) (A T : Expr → Prop) (V : Var → Prop) (s : Search)
    (σ : EquationSet) : Prop extends Confined R A T V s σ where
  awaited : ∀ u, T u → u ∈ σ.assigned ∨ Awaits R T u s.pending.equations

/-- What has a value keeps one, whatever assignments are added. -/
theorem Completed.assigned {τ : EquationSet} (h : Completed R A T V σ τ) (hu : u ∈ σ.assigned) :
    u ∈ τ.assigned := by
  obtain ⟨S, hS, -⟩ := h
  rw [EquationSet.assigned, hS, List.map_append]
  exact List.mem_append_left _ hu

namespace Ongoing

/-- One step keeps every temporary awaited or assigns it. -/
theorem advance (h : Ongoing R A T V s σ) (hb : s.pending.best? R = some c) (ha : Advance R s c t) :
    ∃ τ, Ongoing R A T V t τ ∧ Completed R A T V σ τ := by
  obtain ⟨τ, hτ, hστ⟩ := h.toConfined.advance (EquationSet.mem_of_best? hb) ha
  refine ⟨τ, ⟨hτ, fun u hu => ?_⟩, hστ⟩
  exact (h.awaited u hu).imp hστ.assigned (h.toConfined.awaits_of_advance hu hb ha)

/-- **The deterministic part keeps every temporary awaited** until it is
assigned. -/
theorem reaches (h : Ongoing R A T V s σ) (hr : Reaches R s t) :
    ∃ τ, Ongoing R A T V t τ ∧ Completed R A T V σ τ := by
  refine hr.invariant (P := fun u => ∃ τ, Ongoing R A T V u τ ∧ Completed R A T V σ τ) ⟨σ, h, .refl σ⟩ ?_
  rintro u c v ⟨τ, hτ, hστ⟩ hb ha
  obtain ⟨υ, hυ, hτυ⟩ := hτ.advance hb ha
  exact ⟨υ, hυ, hστ.trans hτυ⟩

end Ongoing

end Search
end SecondOrder
