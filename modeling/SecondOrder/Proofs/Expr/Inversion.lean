/-
# Taking substitution and contraction apart

Substitution renames a body before it goes into it, so what is proved about it
needs its hypothesis for every body of the same size (`Expr.sizedInduct`).
What a substitution or a contraction that is not refused comes to is told here
node by node, for all expressions; `Expr.subst_spec` and its like say more
about sorted ones.
-/

import SecondOrder.Equation
import SecondOrder.Proofs.Expr.Subst
import SecondOrder.Proofs.Refusal

namespace SecondOrder

namespace Expr

variable {R : Reserved} {f : Sym} {e v r q b g : Expr} {xs : Binders} {as : List Expr} {depth : Nat}

/-- **Induction on expressions**, with the hypothesis for everything of the
size of a body. -/
@[elab_as_elim]
theorem sizedInduct {P : Expr → Prop} (atom : ∀ e, e.isCompound = false → P e)
    (app : ∀ f as, P f → (∀ a ∈ as, P a) → P (.app f as))
    (bind : ∀ f xs b, (∀ c : Expr, c.size = b.size → P c) → P (.bind f xs b)) (e : Expr) : P e := by
  induction hn : e.size using Nat.strongRecOn generalizing e with
  | ind n ih =>
    cases e with
    | app f as =>
      rw [size] at hn
      have hpos := sizeAll_pos as
      refine app f as (ih f.size (by omega) f rfl) fun a ha => ih a.size ?_ a rfl
      have := size_lt_of_mem ha
      omega
    | bind f xs b =>
      rw [size] at hn
      exact bind f xs b fun c hc => ih c.size (by omega) c rfl
    | _ => exact atom _ rfl

/-- The arguments are substituted in from left to right, and the first fault
ends it. -/
theorem substAll_eq_mapM (as : List Expr) : substAll as v r = as.mapM (subst · v r) := by
  induction as with
  | nil => rw [substAll]; rfl
  | cons a as ih => rw [substAll, ih, List.mapM_cons]

/-- A substitution in an application goes to what is applied first and then to
the arguments. -/
theorem subst_app (g : Expr) (as : List Expr) :
    (app g as).subst v r = g.subst v r >>= fun g => as.mapM (subst · v r) >>= fun as =>
      .ok (app g as) := by
  rw [subst, substAll_eq_mapM]
  rfl

/-- The slots of a binding after a renaming. -/
theorem mem_toList_rename {x y z : Var} (h : z ∈ (xs.rename x y).toList) :
    z = y ∨ z ∈ xs.toList ∧ z ≠ x := by
  rw [toList_rename] at h
  exact Var.of_mem_map_renamed h

/-- Giving way keeps what the renaming of a variable to a fresh one keeps.  A
variable that is left in a slot did not have to give way, or is fresh. -/
theorem of_freshen {P : Expr → Prop} {zs : List Var} {ys : Binders} {c : Expr}
    (hP : ∀ x ∈ zs, ∀ (y : Var) (e : Expr), y.marked = false → y.Numbered 'x' → P e →
      P (e.rename x y))
    (hb : P b) (h : freshen f r zs xs b = .ok (ys, c)) :
    P c ∧ ys.length = xs.length ∧ ∀ z ∈ ys.toList,
      z ∈ xs.toList ∧ z ∉ zs ∨ (z.marked = false ∧ z.Numbered 'x') ∧ z ∉ r.vars := by
  induction zs generalizing xs b with
  | nil =>
    cases h
    exact ⟨hb, rfl, fun z hz => .inl ⟨hz, List.not_mem_nil⟩⟩
  | cons x zs ih =>
    rw [List.forall_mem_cons] at hP
    rw [freshen] at h
    split at h
    · have hfresh := numbered_freshVar [bind f xs b, r]
      obtain ⟨hc, hlen, hys⟩ := ih hP.2 (hP.1 _ b rfl hfresh hb) h
      refine ⟨hc, hlen.trans (Binders.length_rename ..), fun z hz => ?_⟩
      rcases hys z hz with ⟨hz, hzs⟩ | hz
      · rcases mem_toList_rename hz with rfl | ⟨hz, hne⟩
        · exact .inr ⟨⟨rfl, hfresh⟩, freshVar_not_mem (List.mem_cons_of_mem _ List.mem_cons_self)⟩
        · refine .inl ⟨hz, fun hmem => ?_⟩
          exact (List.mem_cons.1 hmem).elim hne hzs
      · exact .inr hz
    · cases h

/-- Clearing the way keeps what renaming keeps.  If the way has to be cleared,
no slot is left that would capture. -/
theorem of_clearOf {P : Expr → Prop} {ys : Binders} {c : Expr}
    (hP : ∀ x ∈ xs.toList, ∀ (y : Var) (e : Expr), y.marked = false → y.Numbered 'x' → P e →
      P (e.rename x y))
    (hb : P b) (h : clearOf f v r xs b = .ok (ys, c)) :
    P c ∧ ys.length = xs.length ∧
      (∀ z ∈ ys.toList, z ∈ xs.toList ∨ z.marked = false ∧ z.Numbered 'x') ∧
      (occursFree v b = true → ∀ z ∈ ys.toList, var z ∉ r.names) := by
  rw [clearOf] at h
  split at h
  · obtain ⟨hc, hlen, hys⟩ := of_freshen (fun x hx => hP x (mem_filter_occursFree.1 hx).1) hb h
    refine ⟨hc, hlen, fun z hz => (hys z hz).imp And.left And.left, fun _ z hz hfree => ?_⟩
    rcases hys z hz with ⟨hz, hkept⟩ | ⟨-, hz⟩
    · exact hkept (mem_filter_occursFree.2 ⟨hz, hfree⟩)
    · exact hz (mem_vars_of_mem_names hfree)
  · next hnot =>
    cases h
    exact ⟨hb, rfl, fun z hz => .inl hz, fun hocc => absurd hocc hnot⟩

/-- Substitution in an application is substitution in its children. -/
theorem of_subst_app (h : (app g as).subst v r = .ok q) :
    ∃ g' as', g.subst v r = .ok g' ∧ List.Forall₂ (fun a a' => a.subst v r = .ok a') as as' ∧
      q = app g' as' := by
  rw [subst_app] at h
  obtain ⟨g', hg, h⟩ := bind_eq_ok.1 h
  obtain ⟨as', has, h⟩ := bind_eq_ok.1 h
  cases h
  exact ⟨g', as', hg, mapM_eq_ok.1 has, rfl⟩

/-- Substitution in a binding that binds `v` renames along; any other binding
is cleared first. -/
theorem of_subst_bind (h : (bind f xs b).subst v r = .ok q) :
    (∃ x y c, v = var x ∧ x ∈ xs.toList ∧ r = var y ∧ b.subst v r = .ok c ∧
      q = bind f (xs.rename x y) c) ∨
    (xs.bound? v = none ∧ ∃ ys c d, clearOf f v r xs b = .ok (ys, c) ∧ c.subst v r = .ok d ∧
      q = bind f ys d) := by
  rw [subst.eq_def] at h
  dsimp only at h
  split at h
  · next _ _ x y hx =>
    obtain ⟨rfl, hmem⟩ := Binders.bound?_eq_some.1 hx
    obtain ⟨c, hc, h⟩ := bind_eq_ok.1 h
    cases h
    exact .inl ⟨x, y, c, rfl, hmem, rfl, hc, rfl⟩
  · cases h
  · next _ _ hnone =>
    split at h
    · cases h
    · next ys c hc =>
      obtain ⟨d, hd, h⟩ := bind_eq_ok.1 h
      cases h
      exact .inr ⟨hnone, ys, c, d, hc, hd, rfl⟩

/-- A function stays a function. -/
theorem isLambda_of_subst (he : e.isLambda R = true) (h : e.subst v r = .ok q) :
    q.isLambda R = true := by
  cases e with
  | bind f xs b =>
    rcases of_subst_bind h with ⟨_, _, _, _, _, _, _, rfl⟩ | ⟨_, _, _, _, _, _, rfl⟩ <;> exact he
  | _ => cases he

/-- Substitution makes a symbol only of itself or of the value. -/
theorem ne_of_subst (he : e ≠ sym f) (hr : r ≠ sym f) (h : e.subst v r = .ok q) : q ≠ sym f := by
  cases e with
  | app =>
    obtain ⟨_, _, -, -, rfl⟩ := of_subst_app h
    nofun
  | bind =>
    rcases of_subst_bind h with ⟨_, _, _, -, -, -, -, rfl⟩ | ⟨-, _, _, _, -, -, rfl⟩ <;> nofun
  | _ =>
    rw [subst_atom rfl] at h
    cases h
    split <;> assumption

/-- Exchanging a bound variable changes slots and body of a binding. -/
theorem of_alphaConvert {u w : Var} (h : e.alphaConvert (var u) (var w) = .ok q) :
    ∃ f xs b c, e = bind f xs b ∧ u ∈ xs.toList ∧ b.subst (var u) (var w) = .ok c ∧
      q = bind f (xs.rename u w) c := by
  cases e with
  | bind f xs b =>
    rw [alphaConvert] at h
    split at h
    · next x hx =>
      obtain ⟨hxu, hx⟩ := Binders.bound?_eq_some.1 hx
      cases hxu
      obtain ⟨c, hc, h⟩ := bind_eq_ok.1 h
      cases h
      exact ⟨f, xs, b, c, rfl, hx, hc, rfl⟩
    · cases h
  | _ => cases h

/-- What each of the substitutions keeps, all of them together keep. -/
theorem of_substEach {pairs : List (Var × Expr)} {P : Expr → Prop}
    (hstep : ∀ pair ∈ pairs, ∀ e q, P e → e.subst (var pair.1) pair.2 = .ok q → P q) (he : P e)
    (h : e.substEach pairs = .ok q) : P q := by
  induction pairs generalizing e with
  | nil =>
    cases h
    exact he
  | cons pair pairs ih =>
    rw [List.forall_mem_cons] at hstep
    obtain ⟨e', he', h⟩ := bind_eq_ok.1 h
    exact ih hstep.2 (hstep.1 e e' he he') h

/-- Only an applied function is a redex. -/
theorem isRedex_iff : e.isRedex R = true ↔
    ∃ xs b a as, e = app (sym R.applySym) (R.lambda xs b :: a :: as) := by
  constructor
  · intro h
    rw [isRedex] at h
    split at h
    · next g args hg =>
      rw [asApply?.eq_def] at hg
      split at hg
      · next f' g' a as =>
        split at hg
        · next hf =>
          cases hg
          cases g with
          | bind f xs b =>
            obtain rfl := eq_of_beq h
            exact ⟨xs, b, a, as, hf ▸ rfl⟩
          | _ => cases h
        · cases hg
      · cases hg
    · cases h
  · rintro ⟨xs, b, a, as, rfl⟩
    rw [isRedex, asApply?, if_pos rfl]
    exact beq_self_eq_true _

/-- Nothing else is contracted. -/
theorem contract_of_isRedex_eq_false (h : e.isRedex R = false) : e.contract R = .ok e := by
  rw [isRedex] at h
  rw [contract]
  cases hg : e.asApply? R with
  | none => rfl
  | some g =>
    rw [hg] at h
    exact if_neg (Bool.eq_false_iff.1 h)

/-- A function that has as many parameters as it is given arguments is reduced
by the substitutions alone; both checks are passed. -/
theorem betaReduce_lambda {us : Binders} (hlen : us.length = as.length) :
    (R.lambda us b).betaReduce R as = b.substEach (us.toList.zip as) := by
  rw [Reserved.lambda, betaReduce, if_neg fun hne => hne rfl, if_neg (not_not.2 hlen)]

/-- A redex with as many arguments as parameters is contracted by putting them
in their place. -/
theorem contract_lambda {a : Expr} {us : Binders} (hlen : us.length = as.length + 1) :
    (app (sym R.applySym) (R.lambda us b :: a :: as)).contract R = b.substEach (us.toList.zip (a :: as)) := by
  have hlam : (R.lambda us b).isLambda R = true := beq_self_eq_true R.lambdaSym
  rw [contract, asApply?, if_pos rfl]
  dsimp only
  rw [if_pos hlam, betaReduce_lambda hlen]

/-- What is contracted has as many arguments as parameters. -/
theorem of_contract_lambda {a : Expr} {us : Binders}
    (h : (app (sym R.applySym) (R.lambda us b :: a :: as)).contract R = .ok q) :
    us.length = as.length + 1 ∧ b.substEach (us.toList.zip (a :: as)) = .ok q := by
  have hlam : (R.lambda us b).isLambda R = true := beq_self_eq_true R.lambdaSym
  rw [contract, asApply?, if_pos rfl] at h
  dsimp only at h
  rw [if_pos hlam, Reserved.lambda, betaReduce, if_neg fun hne => hne rfl] at h
  split at h
  · cases h
  · next hlen => exact ⟨Decidable.not_not.1 hlen, h⟩

/-- Two results side by side are there if each is there. -/
theorem of_bothDeep_ok {α β : Type} {x : Except DeepFault α} {y : Except DeepFault β} {p : α × β}
    (h : bothDeep x y = .ok p) : x = .ok p.1 ∧ y = .ok p.2 := by
  cases x <;> cases y <;> cases h
  exact ⟨rfl, rfl⟩

/-- The arguments are contracted one by one, at the same depth. -/
theorem of_contractFromAll {bs : List Expr} (h : contractFromAll R depth as = .ok bs) :
    List.Forall₂ (fun a b => contractFrom R depth a = .ok b) as bs := by
  induction as generalizing bs with
  | nil =>
    cases h
    exact .nil
  | cons a as ih =>
    rw [contractFromAll] at h
    cases hb : bothDeep (contractFrom R depth a) (contractFromAll R depth as) with
    | error =>
      rw [hb] at h
      cases h
    | ok p =>
      rw [hb] at h
      cases h
      obtain ⟨ha, has⟩ := of_bothDeep_ok hb
      exact .cons ha (ih has)

/-- The children of an application are contracted first, then the application
itself if it was a redex before. -/
theorem of_contractFrom_app (h : contractFrom R depth (app g as) = .ok q) :
    ∃ g' as', contractFrom R (depth + 1) g = .ok g' ∧
      List.Forall₂ (fun a a' => contractFrom R (depth + 1) a = .ok a') as as' ∧
      ((app g as).isRedex R = true ∧ (app g' as').contract R = .ok q ∨
        (app g as).isRedex R = false ∧ q = app g' as') := by
  rw [contractFrom] at h
  split at h
  · cases h
  · next g' as' hb =>
    obtain ⟨hg, has⟩ := of_bothDeep_ok hb
    refine ⟨g', as', hg, of_contractFromAll has, ?_⟩
    split at h
    · next hredex =>
      cases hc : (app g' as').contract R with
      | error =>
        rw [hc] at h
        cases h
      | ok p =>
        rw [hc] at h
        cases h
        exact .inl ⟨hredex, rfl⟩
    · next hredex =>
      cases h
      exact .inr ⟨Bool.eq_false_iff.2 hredex, rfl⟩

/-- A binding is contracted in its body. -/
theorem of_contractFrom_bind (h : contractFrom R depth (bind f xs b) = .ok q) :
    ∃ c, contractFrom R (depth + 1) b = .ok c ∧ q = bind f xs c := by
  rw [contractFrom] at h
  cases hc : contractFrom R (depth + 1) b with
  | error =>
    rw [hc] at h
    cases h
  | ok c =>
    rw [hc] at h
    cases h
    exact ⟨c, rfl, rfl⟩

/-- In what has no children there is nothing to contract. -/
theorem contractFrom_atom (he : e.isCompound = false) : contractFrom R depth e = .ok e := by
  cases e with
  | app | bind => cases he
  | _ => rfl

/-- The contraction of an expression is that from depth zero. -/
theorem contractFrom_of_contractAll (h : e.contractAll R = .ok q) : contractFrom R 0 e = .ok q := by
  rw [contractAll] at h
  cases hc : contractFrom R 0 e with
  | error =>
    rw [hc] at h
    cases h
  | ok q' =>
    rw [hc] at h
    cases h
    rfl

end Expr

namespace Equation

open SecondOrder.Expr

variable {R : Reserved} {c : Equation} {p q g a b f : Expr} {as : List Expr} {h : Sym} {xs : Binders}

/-- Substituting and then contracting at some depth, the assignment makes `q`
of `p`. -/
def Brings (R : Reserved) (c : Equation) (p q : Expr) : Prop :=
  ∃ p' depth, p.subst c.pattern c.subject = .ok p' ∧ contractFrom R depth p' = .ok q

/-- To apply an assignment is to substitute and then to contract. -/
theorem brings_of_apply (h : c.apply R p = .ok q) : c.Brings R p q := by
  obtain ⟨p', hp, h⟩ := bind_eq_ok.1 h
  exact ⟨p', 0, hp, contractFrom_of_contractAll h⟩

/-- Lists that are substituted and contracted member by member. -/
theorem forall₂_brings {depth : Nat} {bs cs : List Expr}
    (hbs : List.Forall₂ (fun a b => a.subst c.pattern c.subject = .ok b) as bs)
    (hcs : List.Forall₂ (fun b c => contractFrom R depth b = .ok c) bs cs) :
    List.Forall₂ (c.Brings R) as cs := by
  induction hbs generalizing cs with
  | nil =>
    cases hcs
    exact .nil
  | cons hb _ ih =>
    cases hcs with
    | cons hc hcs => exact .cons ⟨_, depth, hb, hc⟩ (ih hcs)

/-- What is applied may become a function, which is then applied. -/
theorem Brings.apply (hm : c.pattern.isMarked = true) (h : c.Brings R (R.apply g a as) q) :
    ∃ g₁ depth g' a' as', g.subst c.pattern c.subject = .ok g₁ ∧
      contractFrom R depth g₁ = .ok g' ∧ List.Forall₂ (c.Brings R) (a :: as) (a' :: as') ∧
      (g₁.isLambda R = true ∧ (R.apply g' a' as').contract R = .ok q ∨
        g₁.isLambda R = false ∧ q = R.apply g' a' as') := by
  obtain ⟨p', depth, hp, hq⟩ := h
  obtain ⟨f₁, as₁, hf, has, rfl⟩ := of_subst_app hp
  rw [subst_applySym hm] at hf
  cases hf
  obtain ⟨f', as', hf, has', hredex⟩ := of_contractFrom_app hq
  cases hf
  cases has with
  | @cons _ g₁ _ bs hg has => cases has with
    | @cons _ a₁ _ bs ha has => cases has' with
      | @cons _ g' _ cs hg' has' => cases has' with
        | @cons _ a' _ cs ha' has' =>
          refine ⟨g₁, _, g', a', cs, hg, hg', .cons ⟨_, _, ha, ha'⟩ (forall₂_brings has has'), ?_⟩
          have hisRedex : (app (sym R.applySym) (g₁ :: a₁ :: bs)).isRedex R = g₁.isLambda R := by
            rw [isRedex, asApply?, if_pos rfl]
          rwa [hisRedex] at hredex

/-- An unknown becomes its value, if nothing contracts in the value. -/
theorem Brings.eq_subject (hm : c.pattern.isMarked = true)
    (hstays : ∀ depth, contractFrom R depth c.subject = .ok c.subject) (h : c.Brings R c.pattern q) :
    q = c.subject := by
  obtain ⟨p', depth, hp, hq⟩ := h
  rw [subst_self (isName_of_isMarked hm)] at hp
  cases hp
  exact Except.ok.inj (hq.symm.trans (hstays depth))

/-- Where the unknown is applied, its value is applied. -/
theorem Brings.apply_self (hm : c.pattern.isMarked = true)
    (hstays : ∀ depth, contractFrom R depth c.subject = .ok c.subject)
    (h : c.Brings R (R.apply c.pattern a as) q) :
    ∃ a' as', List.Forall₂ (c.Brings R) (a :: as) (a' :: as') ∧
      (c.subject.isLambda R = true ∧ (R.apply c.subject a' as').contract R = .ok q ∨
        c.subject.isLambda R = false ∧ q = R.apply c.subject a' as') := by
  obtain ⟨g₁, depth, g', a', as', hg, hg', has, hq⟩ := h.apply hm
  obtain rfl : g' = c.subject := Brings.eq_subject hm hstays ⟨g₁, depth, hg, hg'⟩
  rw [subst_self (isName_of_isMarked hm)] at hg
  cases hg
  exact ⟨a', as', has, hq⟩

/-- An application of anything but the symbol for application is no redex. -/
theorem Brings.app (hf : ∀ f₁, f.subst c.pattern c.subject = .ok f₁ → f₁ ≠ .sym R.applySym)
    (h : c.Brings R (.app f as) q) :
    ∃ f' as', q = .app f' as' ∧ c.Brings R f f' ∧ List.Forall₂ (c.Brings R) as as' := by
  obtain ⟨p', depth, hp, hq⟩ := h
  obtain ⟨f₁, as₁, hf₁, has₁, rfl⟩ := of_subst_app hp
  obtain ⟨f', as', hf', has', hredex⟩ := of_contractFrom_app hq
  refine ⟨f', as', (hredex.resolve_left fun hredex => ?_).2, ⟨f₁, _, hf₁, hf'⟩, forall₂_brings has₁ has'⟩
  obtain ⟨_, _, _, _, heq⟩ := isRedex_iff.1 hredex.1
  cases heq
  exact hf _ hf₁ rfl

/-- A binding of ordinary variables is cleared first. -/
theorem Brings.bind (hm : c.pattern.isMarked = true) (hxs : ∀ x ∈ xs.toList, x.marked = false)
    (hq : c.Brings R (.bind h xs b) q) :
    ∃ ys b₁ b', q = .bind h ys b' ∧ clearOf h c.pattern c.subject xs b = .ok (ys, b₁) ∧
      c.Brings R b₁ b' := by
  obtain ⟨p', depth, hp, hq⟩ := hq
  rcases of_subst_bind hp with ⟨x, y, d, hx, hmem, -⟩ | ⟨-, ys, b₁, d, hb₁, hd, rfl⟩
  · rw [hx] at hm
    exact absurd ((hxs x hmem).symm.trans hm) Bool.false_ne_true
  · obtain ⟨b', hb', rfl⟩ := of_contractFrom_bind hq
    exact ⟨ys, b₁, b', rfl, hb₁, d, _, hd, hb'⟩

end Equation

end SecondOrder
