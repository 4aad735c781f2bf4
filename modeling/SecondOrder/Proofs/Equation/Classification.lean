/-
# Classification keeps the solutions

What the rule of an equation says about its solutions.  An equation that
clashes has none, one that is trivial stays solved, and applications that
decompose are solved exactly if the pieces are
(`Equation.rule_keeps_solutions`).

The symbol for application must stand nowhere but where something is applied
(`Expr.HeadsOnly`): otherwise the head of an application may turn into it, and
the next assignment may contract what was no redex.  So an application of
anything else stays an application with as many children
(`EquationSet.applyAll_app_iff`), a binding stays one with the same head and as
many variables (`EquationSet.of_applyAll_bind`), and any atom but an unknown
stays as it is.
-/

import SecondOrder.Proofs.Equation.Rule
import SecondOrder.Proofs.Equation.Vocabulary
import SecondOrder.Proofs.EquationSet.Instantiate
import SecondOrder.Proofs.Expr.Contraction

namespace SecondOrder

namespace Expr

variable {R : Reserved} {depth : Nat} {f : Sym} {xs ys : Binders} {a b c e g q r v : Expr} {as bs : List Expr}
  {x y : Var}

/-! ## Where the symbol for application may stand -/

/-- The symbol for application stands nowhere but as the first child of
applications of at least three children. -/
inductive HeadsOnly (R : Reserved) : Expr → Prop
  | var (x : Var) : HeadsOnly R (.var x)
  | sym {f : Sym} (unreserved : f ≠ R.applySym) : HeadsOnly R (.sym f)
  | int (n : Int) : HeadsOnly R (.int n)
  | float (x : FloatLit) : HeadsOnly R (.float x)
  | str (s : String) : HeadsOnly R (.str s)
  | app {f : Expr} {as : List Expr} (head : HeadsOnly R f) (args : ∀ a ∈ as, HeadsOnly R a) :
      HeadsOnly R (.app f as)
  | apply {g a : Expr} {as : List Expr} (args : ∀ b ∈ g :: a :: as, HeadsOnly R b) :
      HeadsOnly R (.app (.sym R.applySym) (g :: a :: as))
  | bind {f : Sym} {xs : Binders} {b : Expr} (head : f ≠ R.applySym) (body : HeadsOnly R b) :
      HeadsOnly R (.bind f xs b)

namespace HeadsOnly

/-- The symbol for application does not stand alone. -/
theorem ne_applySym (he : HeadsOnly R e) : e ≠ .sym R.applySym := by
  rintro rfl
  cases he
  contradiction

/-- Nothing is said of expressions without the symbol. -/
theorem of_not_mem_nodes (he : .sym R.applySym ∉ e.nodes) : HeadsOnly R e := by
  induction e with
  | sym f => exact .sym fun heq => he (heq ▸ List.mem_cons_self)
  | app f as ihf ihas =>
    exact .app (ihf fun h => he (mem_nodes_of_head h)) fun a ha => ihas a ha fun h => he (mem_nodes_of_arg ha h)
  | bind f xs b ih =>
    refine .bind (fun heq => he ?_) (ih fun h => he (mem_nodes_of_body h))
    exact mem_nodes_bind.2 (.inr (.inl (congrArg _ heq.symm)))
  | _ => constructor

/-- To rename a variable moves no symbol. -/
theorem rename (he : HeadsOnly R e) : HeadsOnly R (e.rename x y) := by
  induction he with
  | var z =>
    rw [Expr.rename]
    split <;> exact .var _
  | sym h => exact .sym h
  | int | float | str => constructor
  | app _ _ ihf ihas =>
    rw [Expr.rename, renameAll_eq_map]
    exact .app ihf (List.forall_mem_map.2 ihas)
  | apply _ ihas =>
    rw [Expr.rename, renameAll_eq_map, List.map_cons, List.map_cons]
    refine .apply ?_
    rw [← List.map_cons, ← List.map_cons]
    exact List.forall_mem_map.2 ihas
  | bind hf _ ih => exact .bind hf ih

/-- Where something is applied, the symbol stands in no part but at the
head. -/
theorem of_apply (h : HeadsOnly R (.app (.sym R.applySym) as)) : ∀ a ∈ as, HeadsOnly R a := by
  cases h with
  | app head => exact absurd rfl head.ne_applySym
  | apply args => exact args

/-- The head of an application in which nothing is applied is not the
symbol. -/
theorem head_of_not_isApply {g : Expr} (h : HeadsOnly R (.app g as)) (happly : (Expr.app g as).isApply R = false) :
    HeadsOnly R g := by
  cases h with
  | app head => exact head
  | apply =>
    rw [Equation.isApply_of_ne_nil _ (List.cons_ne_nil _ _)] at happly
    cases happly

/-- The body of a binding has the symbol in such places only. -/
theorem of_bind (h : HeadsOnly R (.bind f xs b)) : HeadsOnly R b := by
  cases h
  assumption

/-- Children that correspond to two or more. -/
theorem apply_of_forall₂ {P : Expr → Expr → Prop} {as' : List Expr} (h : List.Forall₂ P (g :: a :: as) as')
    (args : ∀ b ∈ g :: a :: as, ∀ b', P b b' → HeadsOnly R b') : HeadsOnly R (.app (.sym R.applySym) as') := by
  have hall : ∀ b' ∈ as', HeadsOnly R b' := by
    intro b' hb'
    obtain ⟨b, hb, hbb'⟩ := exists_of_forall₂ h b' hb'
    exact args b hb b' hbb'
  cases h with
  | cons _ h => cases h with
    | cons => exact .apply hall

/-- **Substitution of what has the symbol in its place keeps it there.** -/
theorem subst (he : HeadsOnly R e) (hv : IsName v) (hne : v ≠ .sym R.applySym) (hr : HeadsOnly R r)
    (h : e.subst v r = .ok q) : HeadsOnly R q := by
  induction e using sizedInduct generalizing q with
  | atom e hatom =>
    rw [subst_atom hatom] at h
    cases h
    split
    · exact hr
    · exact he
  | app f as ihf ihas =>
    obtain ⟨f', as', hf, has, rfl⟩ := of_subst_app h
    cases he with
    | app head args =>
      refine .app (ihf head hf) fun a' ha' => ?_
      obtain ⟨a, ha, haa'⟩ := exists_of_forall₂ has a' ha'
      exact ihas a ha (args a ha) haa'
    | apply args =>
      rw [subst_of_ne (.inr ⟨_, rfl⟩) hne.symm hv] at hf
      cases hf
      exact apply_of_forall₂ has fun b hb b' hbb' => ihas b hb (args b hb) hbb'
  | bind f xs b ih =>
    cases he with
    | bind head body =>
      rcases of_subst_bind h with ⟨x, y, c, -, -, -, hc, rfl⟩ | ⟨-, ys, c, d, hclear, hd, rfl⟩
      · exact .bind head (ih b rfl body hc)
      · obtain ⟨hc, -⟩ := of_clearOf (fun _ _ _ _ _ _ hb => hb.rename) body hclear
        exact .bind head (ih c (size_of_clearOf hclear) hc hd)

/-- **So does contraction.** -/
theorem contractFrom (he : HeadsOnly R e) (h : contractFrom R depth e = .ok q) : HeadsOnly R q := by
  induction he generalizing depth q with
  | @app f as head args ihf ihas =>
    obtain ⟨f', as', hf, has, hq⟩ := of_contractFrom_app h
    obtain ⟨-, rfl⟩ := hq.resolve_left fun hq =>
      Bool.false_ne_true ((isRedex_of_ne head.ne_applySym as).symm.trans hq.1)
    refine .app (ihf hf) fun a' ha' => ?_
    obtain ⟨a, ha, haa'⟩ := exists_of_forall₂ has a' ha'
    exact ihas a ha haa'
  | @apply g a as args ihas =>
    obtain ⟨f', as', hf, has, hq⟩ := of_contractFrom_app h
    cases hf
    have happly : HeadsOnly R (.app (.sym R.applySym) as') :=
      apply_of_forall₂ has fun b hb b' hbb' => ihas b hb hbb'
    rcases hq with ⟨hredex, hq⟩ | ⟨-, rfl⟩
    · obtain ⟨us, b, a, bs, heq⟩ := isRedex_iff.1 hredex
      cases heq
      cases has with
      | @cons _ g' _ cs hg has =>
        obtain ⟨b', -, rfl⟩ := of_contractFrom_bind hg
        obtain ⟨hlambda, hargs⟩ := List.forall_mem_cons.1 happly.of_apply
        cases has with
        | cons =>
          refine of_substEach (P := HeadsOnly R) (fun pair hpair p q hp hq => ?_) hlambda.of_bind
            (of_contract_lambda hq).2
          exact hp.subst (.inl ⟨_, rfl⟩) Expr.noConfusion (hargs _ (List.of_mem_zip hpair).2) hq
    · exact happly
  | bind head _ ih =>
    obtain ⟨c, hc, rfl⟩ := of_contractFrom_bind h
    exact .bind head (ih hc)
  | var | sym | int | float | str =>
    cases h
    constructor <;> assumption

end HeadsOnly

/-! ## Shapes of similar expressions -/

/-- Applications are equal up to bound names if their parts are, one by one. -/
theorem alphaEq_app : (app e as).alphaEq (app g bs) = true ↔
    e.alphaEq g = true ∧ List.Forall₂ (fun a b => a.alphaEq b = true) as bs := by
  rw [alphaEq, alphaIn, Bool.and_eq_true, alphaInAll_iff]
  rfl

/-- Applications are similar if their children are. -/
theorem similar_app : (app e as).similar (app g bs) = true ↔
    List.Forall₂ (fun a b => a.similar b = true) (e :: as) (g :: bs) := by
  simp only [similar_iff_alphaEq, alphaEq_app, List.forall₂_cons]

/-- What is similar to an application is one. -/
theorem eq_app_of_similar (h : (app e as).similar b = true) : ∃ g bs, b = app g bs := by
  rw [similar_iff_alphaEq] at h
  cases b with
  | app g bs => exact ⟨g, bs, rfl⟩
  | _ => cases h

/-- What is similar to a binding is a binding with the same head and as many
variables. -/
theorem eq_bind_of_similar (h : (bind f xs e).similar b = true) :
    ∃ ys c, b = bind f ys c ∧ xs.length = ys.length := by
  rw [similar_iff_alphaEq] at h
  cases b with
  | bind g ys c =>
    rw [alphaEq, alphaIn, Bool.and_eq_true, Bool.and_eq_true] at h
    obtain ⟨⟨hf, hlen⟩, -⟩ := h
    exact ⟨ys, c, by rw [eq_of_beq hf], eq_of_beq hlen⟩
  | _ => cases h

/-! ## Equal nodes -/

/-- Lists that are equal as nodes have nodes that are, one by one, if their
members do. -/
theorem forall₂_nodesAll_of_sameAll
    (h : ∀ a ∈ as, ∀ b, a.same b = true → List.Forall₂ (fun n m => n.same m = true) a.nodes b.nodes)
    (hs : sameAll as bs = true) : List.Forall₂ (fun n m => n.same m = true) (nodesAll as) (nodesAll bs) := by
  rw [nodesAll_eq_flatMap, nodesAll_eq_flatMap]
  exact List.rel_flatMap (forall₂_imp_of_mem (sameAll_iff.1 hs) fun a ha b _ => h a ha b) fun _ _ => id

/-- Equal expressions have equal nodes. -/
theorem forall₂_nodes_of_same (h : a.same b = true) :
    List.Forall₂ (fun n m => n.same m = true) a.nodes b.nodes := by
  induction a generalizing b with
  | app f as ihf ihas =>
    cases b with
    | app g bs =>
      have hparts := h
      rw [same, Bool.and_eq_true] at hparts
      exact .cons h (List.rel_append (ihf hparts.1)
        (forall₂_nodesAll_of_sameAll (fun a ha b hab => ihas a ha hab) hparts.2))
    | _ => cases h
  | bind f xs c ih =>
    cases b with
    | bind g ys d =>
      have hparts := h
      rw [same, Bool.and_eq_true, Bool.and_eq_true] at hparts
      obtain rfl := eq_of_beq hparts.1.1
      obtain rfl := eq_of_beq hparts.1.2
      have hslots : List.Forall₂ (fun n m => n.same m = true) (xs.toList.map var) (xs.toList.map var) :=
        List.forall₂_same.2 fun n _ => same_refl n
      exact .cons h (.cons (same_refl _) (List.rel_append hslots (ih hparts.2)))
    | _ => cases h
  | _ => cases b <;> first | exact .cons h .nil | cases h

/-- What equals a concrete expression is concrete. -/
theorem Concrete.of_same (h : a.same b = true) (hb : Concrete R b) : Concrete R a := by
  intro n hn
  obtain ⟨m, hm, hnm⟩ := exists_of_forall₂_left (forall₂_nodes_of_same h) n hn
  obtain ⟨hmarked, hlambda, happly⟩ := hb m hm
  have hne {f : Sym} (hmf : m ≠ sym f) : n ≠ sym f := by
    rintro rfl
    exact hmf ((beq_name_iff (.inr ⟨f, rfl⟩)).1 (same_symm hnm))
  refine ⟨Bool.eq_false_iff.2 fun hn => ?_, hne hlambda, hne happly⟩
  rw [← (beq_name_iff (isName_of_isMarked hn)).1 (same_symm hnm)] at hn
  exact Bool.false_ne_true (hmarked.symm.trans hn)

end Expr

namespace Equation

open SecondOrder.Expr

variable {R : Reserved} {a c : Equation} {S : List Equation} {f p q b e g : Expr}
  {as bs : List Expr} {h : Sym} {xs : Binders}

/-! ## What an assignment does to a shape -/

/-- What an assignment brings about is what it is carried out to. -/
theorem apply_of_brings (h : a.Brings R p q) : a.apply R p = .ok q := by
  obtain ⟨p', depth, hp, hq⟩ := h
  exact bind_eq_ok.2 ⟨p', hp, contractAll_of_ok hq⟩

/-- The equation assigns an unknown a value without the symbol for
application. -/
structure Assigns (R : Reserved) (a : Equation) : Prop where
  unknown : a.pattern.isMarked = true
  value : .sym R.applySym ∉ a.subject.nodes

/-- **Assignments keep the symbol for application at its places,** if their
values are without it. -/
theorem Assigns.headsOnly (ha : a.Assigns R) (hp : HeadsOnly R p) (h : a.apply R p = .ok q) : HeadsOnly R q := by
  obtain ⟨p', depth, hp', hq⟩ := brings_of_apply h
  refine (hp.subst (isName_of_isMarked ha.unknown) (ne_applySym_of_isMarked ha.unknown) ?_ hp').contractFrom hq
  exact .of_not_mem_nodes ha.value

/-- **An assignment is applied to an application by applying it to the
children.** -/
theorem Assigns.apply_app_iff (ha : a.Assigns R) (hf : HeadsOnly R f) : a.apply R (app f as) = .ok q ↔
    ∃ f' as', a.apply R f = .ok f' ∧ List.Forall₂ (fun b b' => a.apply R b = .ok b') as as' ∧ q = app f' as' := by
  have hne (f₁ : Expr) (h : f.subst a.pattern a.subject = .ok f₁) : f₁ ≠ .sym R.applySym := by
    refine ne_of_subst hf.ne_applySym ?_ h
    exact (HeadsOnly.of_not_mem_nodes ha.value).ne_applySym
  constructor
  · intro h
    obtain ⟨f', as', rfl, hf', has'⟩ := Brings.app hne (brings_of_apply h)
    exact ⟨f', as', apply_of_brings hf', has'.imp fun _ _ => apply_of_brings, rfl⟩
  · rintro ⟨f', as', hf', has', rfl⟩
    obtain ⟨f₁, hf₁, hf'⟩ := bind_eq_ok.1 hf'
    obtain ⟨as₁, has₁, has'⟩ := exists_forall₂_between (has'.imp fun _ _ h => bind_eq_ok.1 h)
    refine bind_eq_ok.2 ⟨app f₁ as₁, ?_, ?_⟩
    · rw [subst_app, hf₁, mapM_eq_ok.2 has₁]
      rfl
    · refine contractAll_of_ok (contractFrom_app (isRedex_of_ne (hne f₁ hf₁) as₁)
        (contractFrom_of_ok (contractFrom_of_contractAll hf')) ?_ 0)
      exact has'.imp fun _ _ h => contractFrom_of_ok (contractFrom_of_contractAll h)

/-- A binding stays a binding with the same head and as many variables. -/
theorem of_apply_bind (hq : a.apply R (bind h xs b) = .ok q) :
    ∃ ys c, q = bind h ys c ∧ ys.length = xs.length := by
  obtain ⟨p', depth, hp, hq⟩ := brings_of_apply hq
  rcases of_subst_bind hp with ⟨x, y, c, -, -, -, -, rfl⟩ | ⟨-, ys, c, d, hclear, -, rfl⟩
  · obtain ⟨c', -, rfl⟩ := of_contractFrom_bind hq
    exact ⟨_, _, rfl, Binders.length_rename ..⟩
  · obtain ⟨c', -, rfl⟩ := of_contractFrom_bind hq
    have hlen := (of_clearOf (P := fun _ => True) (fun _ _ _ _ _ _ _ => trivial) trivial hclear).2.1
    exact ⟨_, _, rfl, hlen⟩

/-- An atom that is no unknown stays. -/
theorem Assigns.apply_atom (ha : a.Assigns R) (hp : p.isCompound = false) (hm : p.isMarked = false) :
    a.apply R p = .ok p := by
  have hne : p ≠ a.pattern := by
    rintro rfl
    exact Bool.false_ne_true (hm.symm.trans ha.unknown)
  refine apply_of_brings ⟨p, 0, ?_, contractFrom_atom hp⟩
  rw [subst_atom hp, if_neg (mt (beq_name_iff (isName_of_isMarked ha.unknown)).1 hne)]

/-- A concrete expression stays. -/
theorem Assigns.apply_concrete (ha : a.Assigns R) (hp : Concrete R p) : a.apply R p = .ok p := by
  have huses : Uses R (.inert R fun _ => False) p :=
    (hp.uses (W := fun _ => True) fun _ _ => trivial).inert_of_ground _
  exact apply_of_brings ⟨p, 0, huses.subst_of_inert ha.unknown not_false, huses.contractFrom_of_inert⟩

end Equation

namespace EquationSet

open Equation SecondOrder.Expr

variable {R : Reserved} {c : Equation} {S : List Equation} {f p q b e g : Expr} {as bs : List Expr} {h : Sym}
  {xs : Binders}

/-! ## What assignments do to a shape -/

/-- What each assignment leaves as it is stays. -/
theorem applyAll_of_fixed (h : ∀ a ∈ S, a.apply R p = .ok p) : applyAll R S p = .ok p := by
  induction S with
  | nil => rfl
  | cons a S ih =>
    rw [List.forall_mem_cons] at h
    exact bind_eq_ok.2 ⟨p, h.1, ih h.2⟩

/-- **Assignments are applied to an application by applying them to the
children.** -/
theorem applyAll_app_iff (hS : ∀ a ∈ S, a.Assigns R) (hf : HeadsOnly R f) : applyAll R S (app f as) = .ok q ↔
    ∃ f' as', applyAll R S f = .ok f' ∧ List.Forall₂ (fun b b' => applyAll R S b = .ok b') as as' ∧
      q = app f' as' := by
  induction S generalizing f as with
  | nil =>
    constructor
    · rintro ⟨⟩
      exact ⟨f, as, rfl, List.forall₂_same.2 fun _ _ => rfl, rfl⟩
    · rintro ⟨f', as', hf', has', rfl⟩
      cases hf'
      rw [eq_of_forall₂ has' fun _ _ _ h => (Except.ok.inj h).symm]
      rfl
  | cons a S ih =>
    rw [List.forall_mem_cons] at hS
    constructor
    · intro h
      obtain ⟨p, hp, h⟩ := bind_eq_ok.1 h
      obtain ⟨f₁, as₁, hf₁, has₁, rfl⟩ := (hS.1.apply_app_iff hf).1 hp
      obtain ⟨f', as', hf', has', rfl⟩ := (ih hS.2 (hS.1.headsOnly hf hf₁)).1 h
      exact ⟨f', as', bind_eq_ok.2 ⟨f₁, hf₁, hf'⟩,
        forall₂_trans (fun b b₁ b' h h' => bind_eq_ok.2 ⟨b₁, h, h'⟩) has₁ has', rfl⟩
    · rintro ⟨f', as', hf', has', rfl⟩
      obtain ⟨f₁, hf₁, hf'⟩ := bind_eq_ok.1 hf'
      obtain ⟨as₁, has₁, has'⟩ := exists_forall₂_between (has'.imp fun _ _ h => bind_eq_ok.1 h)
      refine bind_eq_ok.2 ⟨app f₁ as₁, (hS.1.apply_app_iff hf).2 ⟨f₁, as₁, hf₁, has₁, rfl⟩, ?_⟩
      exact (ih hS.2 (hS.1.headsOnly hf hf₁)).2 ⟨f', as', hf', has', rfl⟩

/-- Assignments make of a binding one with the same head and as many variables,
whose names may have made way. -/
theorem of_applyAll_bind (hq : applyAll R S (bind h xs b) = .ok q) :
    ∃ ys c, q = bind h ys c ∧ ys.length = xs.length := by
  induction S generalizing xs b with
  | nil =>
    cases hq
    exact ⟨xs, b, rfl, rfl⟩
  | cons a S ih =>
    obtain ⟨p, hp, hq⟩ := bind_eq_ok.1 hq
    obtain ⟨ys, c, rfl, hys⟩ := of_apply_bind hp
    obtain ⟨zs, d, rfl, hzs⟩ := ih hq
    exact ⟨zs, d, rfl, hzs.trans hys⟩

end EquationSet

namespace Equation

open EquationSet SecondOrder.Expr

variable {R : Reserved} {c : Equation} {S : List Equation}

/-! ## What the rule says -/

/-- The assignments turn the pattern into the subject, up to bound names. -/
def TurnedBy (R : Reserved) (S : List Equation) (c : Equation) : Prop :=
  ∃ q, applyAll R S c.pattern = .ok q ∧ q.similar c.subject = true

/-- **An equation that clashes has no solution.** -/
theorem not_similar_of_clash {q : Expr} (hp : HeadsOnly R c.pattern) (hS : ∀ a ∈ S, a.Assigns R)
    (h : c.rule R = .clash) (hq : applyAll R S c.pattern = .ok q) : q.similar c.subject = false := by
  obtain ⟨p, e⟩ := c
  obtain ⟨hne, hmarked, hdec, hflex⟩ := of_clash h
  have hatom (hatom : p.isCompound = false) : q.similar e = false := by
    cases (applyAll_of_fixed fun a ha => (hS a ha).apply_atom hatom hmarked).symm.trans hq
    rw [similar, alphaEquivalent, hatom, Bool.false_and, Bool.false_and, Bool.or_false]
    exact hne
  cases p with
  | app f as =>
    have head : HeadsOnly R f := hp.head_of_not_isApply (Bool.or_eq_false_iff.1 hflex).1
    obtain ⟨f', as', -, has, rfl⟩ := (applyAll_app_iff hS head).1 hq
    refine Bool.eq_false_iff.2 fun hsimilar => ?_
    obtain ⟨g, bs, rfl⟩ := eq_app_of_similar hsimilar
    have hlen : as.length = bs.length :=
      has.length_eq.trans (List.forall₂_cons.1 (similar_app.1 hsimilar)).2.length_eq
    exact Bool.false_ne_true (hdec.symm.trans (decomposes_app head.ne_applySym hlen))
  | bind f xs b =>
    obtain ⟨ys, c, rfl, hys⟩ := of_applyAll_bind hq
    refine Bool.eq_false_iff.2 fun hsimilar => ?_
    obtain ⟨zs, d, rfl, hzs⟩ := eq_bind_of_similar hsimilar
    exact Bool.false_ne_true (hdec.symm.trans (decomposes_bind (hys.symm.trans hzs)))
  | _ => exact hatom rfl

/-- What holds of all equations between corresponding members holds of them
pair by pair. -/
theorem forall_mem_zipWith_mk {P : Equation → Prop} {ps es : List Expr} (hlen : ps.length = es.length) :
    (∀ d ∈ List.zipWith mk ps es, P d) ↔ List.Forall₂ (fun p e => P ⟨p, e⟩) ps es := by
  induction ps generalizing es with
  | nil =>
    obtain rfl := List.length_eq_zero_iff.1 hlen.symm
    exact ⟨fun _ => .nil, fun _ => List.forall_mem_nil _⟩
  | cons p ps ih =>
    obtain ⟨e, es, rfl⟩ := List.exists_cons_of_length_eq_add_one hlen.symm
    rw [List.zipWith_cons_cons, List.forall_mem_cons, List.forall₂_cons, ih (Nat.succ.inj hlen)]

/-- **Applications that decompose are solved exactly if their pieces are.** -/
theorem turnedBy_app_iff {f g : Expr} {as bs : List Expr} (hf : HeadsOnly R f) (hS : ∀ a ∈ S, a.Assigns R)
    (hlen : as.length = bs.length) :
    TurnedBy R S ⟨.app f as, .app g bs⟩ ↔ ∀ d ∈ pieces ⟨.app f as, .app g bs⟩, TurnedBy R S d := by
  have hpieces : pieces ⟨.app f as, .app g bs⟩ = List.zipWith mk (f :: as) (g :: bs) := rfl
  have hlen' : (f :: as).length = (g :: bs).length := congrArg Nat.succ hlen
  rw [hpieces, forall_mem_zipWith_mk hlen']
  constructor
  · rintro ⟨q, hq, hsimilar⟩
    obtain ⟨f', as', hf', has', rfl⟩ := (applyAll_app_iff hS hf).1 hq
    exact forall₂_trans (fun a a' b ha hb => ⟨a', ha, hb⟩) (.cons hf' has') (similar_app.1 hsimilar)
  · intro h
    obtain ⟨ps, hps, hsimilar⟩ := exists_forall₂_between (P := fun a p => applyAll R S a = .ok p)
      (Q := fun p b => p.similar b = true) h
    cases hps with
    | cons hf' has' => exact ⟨_, (applyAll_app_iff hS hf).2 ⟨_, _, hf', has', rfl⟩, similar_app.2 hsimilar⟩

/-- **The rule of an equation keeps its solutions.**  Where the subject is
concrete and the pattern applies functions in the ordinary way, no assignments
to unknowns turn the pattern of an equation that clashes into its subject, an
equation that is trivial stays solved, and applications that decompose are
solved exactly if all pieces are. -/
theorem rule_keeps_solutions (hp : HeadsOnly R c.pattern) (he : Concrete R c.subject) (hS : ∀ a ∈ S, a.Assigns R) :
    (c.rule R = .clash → ∀ q, applyAll R S c.pattern = .ok q →
      (q == c.subject) = false ∧ q.alphaEquivalent c.subject = false) ∧
    (c.rule R = .trivial → applyAll R S c.pattern = .ok c.pattern ∧ (c.pattern == c.subject) = true) ∧
    ∀ f as g bs, c.pattern = .app f as → c.subject = .app g bs → c.rule R = .decompose →
      ∃ ds, c.decompose R = .ok ds ∧ (TurnedBy R S c ↔ ∀ d ∈ ds, TurnedBy R S d) := by
  refine ⟨fun h q hq => ?clash, fun h => ?trivial, fun f as g bs hf hg h => ?decompose⟩
  case clash =>
    have hnot := not_similar_of_clash hp hS h hq
    rw [similar, Bool.or_eq_false_iff] at hnot
    exact hnot
  case trivial =>
    have hsame := beq_of_trivial h
    exact ⟨applyAll_of_fixed fun a ha => (hS a ha).apply_concrete (he.of_same hsame), hsame⟩
  case decompose =>
    refine ⟨c.pieces, if_pos h, ?_⟩
    obtain ⟨p, e⟩ := c
    subst hf hg
    obtain ⟨happly, hlen⟩ := of_decomposes_app (decomposes_of_rule h)
    exact turnedBy_app_iff (hp.head_of_not_isApply happly) hS hlen

/-- `λu. p(u, b)` for `_f` solves `(q(_f(a), b), q(p(a, b), b))` and its three
pieces. -/
theorem rule_keeps_solutions_decompose :
    let R : Reserved := {}
    let s (name : String) : Expr := .sym ⟨name, "base", false⟩
    let v (name : String) : Expr := .var ⟨name, false⟩
    let p (e : Expr) : Expr := .app (s "p") [e, v "b"]
    let m : Expr := .var ⟨"f", true⟩
    let c : Equation := ⟨.app (s "q") [R.apply m (v "a") [], v "b"], .app (s "q") [p (v "a"), v "b"]⟩
    let S : List Equation := [⟨m, R.lambda ⟨⟨"u", false⟩, []⟩ (p (v "u"))⟩]
    HeadsOnly R c.pattern ∧ Concrete R c.subject ∧ (∀ a ∈ S, a.Assigns R) ∧ c.rule R = .decompose ∧
      TurnedBy R S c ∧ ∃ ds, c.decompose R = .ok ds ∧ ds.length = 3 ∧ ∀ d ∈ ds, TurnedBy R S d := by
  intro R s v p m c S
  have hplain (e : Expr) (he : .sym R.applySym ∉ e.nodes) : HeadsOnly R e := .of_not_mem_nodes he
  have hp : HeadsOnly R c.pattern := by
    refine .app (hplain _ ?head) (List.forall_mem_cons.2
      ⟨.apply fun b hb => hplain b ?unknown, fun b hb => hplain b ?argument⟩)
    case head => simp [s, R, nodes, Reserved.applySym, Reserved.symbol]
    case unknown =>
      simp only [m, v, List.mem_cons, List.not_mem_nil, or_false] at hb
      rcases hb with rfl | rfl <;> simp [nodes]
    case argument =>
      rw [List.mem_singleton.1 hb]
      simp [v, nodes]
  have he : Concrete R c.subject := by
    simp [c, p, s, v, R, Concrete, nodes, nodesAll, isMarked, Reserved.lambdaSym,
      Reserved.applySym, Reserved.symbol]
  have hS : ∀ a ∈ S, a.Assigns R := by
    refine List.forall_mem_singleton.2 ⟨rfl, ?_⟩
    simp [p, s, v, R, Reserved.lambda, nodes, nodesAll, Binders.toList, Reserved.lambdaSym,
      Reserved.applySym, Reserved.symbol]
  have hrule : c.rule R = .decompose := by decide
  have hrefl : c.subject.similar c.subject = true := by
    rw [similar, beq_self_eq_true, Bool.true_or]
  have hturned : TurnedBy R S c := by
    refine ⟨c.subject, bind_eq_ok.2 ⟨_, bind_eq_ok.2 ⟨?_, ?_, ?_⟩, rfl⟩, hrefl⟩
    rotate_left
    · simp only [c, p, s, v, m, R, Reserved.lambda, Reserved.apply]
      cbv
      rfl
    · simp only [c, p, s, v, R, contractAll, contractFrom, contractFromAll, bothDeep,
        isRedex, asApply?, isLambda, Except.map, Except.mapError]
      cbv
  obtain ⟨-, -, hdecompose⟩ := rule_keeps_solutions hp he hS
  obtain ⟨ds, hds, hiff⟩ := hdecompose _ _ _ _ rfl rfl hrule
  refine ⟨hp, he, hS, hrule, hturned, ds, hds, ?_, hiff.1 hturned⟩
  cases (if_pos hrule).symm.trans hds
  rfl

end Equation

end SecondOrder
