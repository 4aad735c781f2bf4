/-
# Contraction keeps the value

To contract all functions that are applied in an expression does not change
what it means (`Expr.sameValue_contractFrom`).  Arguments take the place of
parameters as `Expr.Separate` has it, so a function that is carried out means
what its value gives for the meanings of the arguments.

Where functions are not carried out in the result, what it means is the result
itself.  Where they are, because it will be contracted once more, nothing may
be left to be done: what was no redex must not have become one
(`Expr.Thorough`).
-/

import SecondOrder.Proofs.Equation.Apply
import SecondOrder.Proofs.Expr.Evaluation

namespace SecondOrder
namespace Expr

variable {R : Reserved} {carry unknowns : Bool} {ρ ρ' : Env} {S : List Var} {st : List Meaning} {depth : Nat}
  {e b c g q r v a : Expr} {as as' : List Expr} {f : Sym} {xs ys us : Binders} {x y : Var}

/-! ## Contraction in good order -/

/-- When `e` is contracted, the function of `us` with the body `b` is carried
out for `as`: what has become of a redex, before it is contracted itself. -/
def Reduces (R : Reserved) (e : Expr) (us : Binders) (b : Expr) (as : List Expr) : Prop :=
  ∃ c a cs, R.apply (R.lambda us c) a cs ∈ e.nodes ∧ c.contractAll R = .ok b ∧
    List.Forall₂ (fun a a' => a.contractAll R = .ok a') (a :: cs) as

/-- Every contraction is in good order: parameters are separate. -/
def Orderly (R : Reserved) (e : Expr) : Prop :=
  ∀ us b as, Reduces R e us b as → Separate us b as

/-- Contraction leaves nothing to be contracted: no argument that is active
comes to a place where it is called, and no redex that is called turns into
something active. -/
structure Thorough (R : Reserved) (e : Expr) : Prop where
  args : ∀ us b as, Reduces R e us b as →
    ∀ pair ∈ us.toList.zip as, CalledIn R (.var pair.1) b → ¬Active R pair.2
  redexes : ∀ g, CalledIn R g e → g.isRedex R = true → ∀ g', g.contractAll R = .ok g' → ¬Active R g'

/-- What is carried out inside a part is carried out in the whole. -/
theorem Reduces.of_nodes (h : Reduces R a us b as) (hsub : ∀ n ∈ a.nodes, n ∈ e.nodes) : Reduces R e us b as := by
  obtain ⟨c, d, cs, hmem, h⟩ := h
  exact ⟨c, d, cs, hsub _ hmem, h⟩

/-- A part of an orderly expression is orderly. -/
theorem Orderly.of_nodes (h : Orderly R e) (hsub : ∀ n ∈ a.nodes, n ∈ e.nodes) : Orderly R a :=
  fun us b as hred => h us b as (hred.of_nodes hsub)

/-- A part of a thorough expression is thorough. -/
theorem Thorough.of_nodes (h : Thorough R e) (hsub : ∀ n ∈ a.nodes, n ∈ e.nodes) : Thorough R a :=
  ⟨fun us b as hred => h.args us b as (hred.of_nodes hsub), fun g hg => h.redexes g (hg.of_nodes hsub)⟩

/-- A function is only carried out where there is a redex. -/
theorem Reduces.exists_redex (h : Reduces R e us b as) : ∃ n ∈ e.nodes, n.isRedex R = true := by
  obtain ⟨c, a, cs, hmem, -⟩ := h
  exact ⟨_, hmem, isRedex_iff.2 ⟨us, c, a, cs, rfl⟩⟩

/-- Nothing can go wrong where there is no redex. -/
theorem orderly_of_not_isRedex (h : ∀ n ∈ e.nodes, n.isRedex R = false) : Orderly R e := by
  intro us b as hred
  obtain ⟨n, hn, hredex⟩ := hred.exists_redex
  cases (h n hn).symm.trans hredex

/-- Nor is anything left to be done there. -/
theorem thorough_of_not_isRedex (h : ∀ n ∈ e.nodes, n.isRedex R = false) : Thorough R e := by
  refine ⟨fun us b as hred => ?_, fun g hg hredex => ?_⟩
  · obtain ⟨n, hn, hredex⟩ := hred.exists_redex
    cases (h n hn).symm.trans hredex
  · cases (h g hg.mem_nodes).symm.trans hredex

/-- The depth counts only if there is a fault. -/
theorem contractFrom_of_ok (h : contractFrom R depth e = .ok q) (depth' : Nat) :
    contractFrom R depth' e = .ok q := by
  induction e generalizing depth depth' q with
  | app f as ihf ihas =>
    obtain ⟨f', as', hf, has, hq⟩ := of_contractFrom_app h
    have hall : List.Forall₂ (fun a a' => ∀ depth, contractFrom R depth a = .ok a') as as' :=
      forall₂_imp_of_mem has fun a ha _ _ => ihas a ha
    rw [contractFrom, ihf hf, contractFromAll_ok hall]
    dsimp only [bothDeep]
    rcases hq with ⟨hredex, hq⟩ | ⟨hredex, rfl⟩
    · rw [if_pos hredex, hq]
      rfl
    · rw [if_neg (Bool.eq_false_iff.1 hredex)]
  | bind f xs b ih =>
    obtain ⟨c, hc, rfl⟩ := of_contractFrom_bind h
    rw [contractFrom, ih hc]
    rfl
  | _ => exact h

/-- Contraction from any depth gives what contraction as a whole gives. -/
theorem contractAll_of_ok (h : contractFrom R depth e = .ok q) : e.contractAll R = .ok q := by
  rw [contractAll, contractFrom_of_ok h]
  rfl

/-- An expression without redexes is left as it is. -/
theorem contractAll_of_not_isRedex (h : ∀ n ∈ e.nodes, n.isRedex R = false) : e.contractAll R = .ok e :=
  contractAll_of_ok (contractFrom_of_not_isRedex h 0)

/-- A redex is contracted after the function and the arguments. -/
theorem reduces_of_redex (hredex : e.isRedex R = true) (h : contractFrom R depth e = .ok q) :
    ∃ us b b' as bs, e = app (sym R.applySym) (R.lambda us b :: as) ∧
      List.Forall₂ (fun a a' => contractFrom R (depth + 1) a = .ok a') (R.lambda us b :: as)
        (R.lambda us b' :: bs) ∧
      Reduces R e us b' bs ∧ (R.lambda us b').betaReduce R bs = .ok q := by
  obtain ⟨us, b, a, as, rfl⟩ := isRedex_iff.1 hredex
  obtain ⟨_, _, hf, has, hq⟩ := of_contractFrom_app h
  obtain ⟨-, hq⟩ := hq.resolve_right fun h => by cases hredex.symm.trans h.1
  cases hf
  cases has with
  | @cons _ _ _ as' hg has =>
    obtain ⟨b', hb, rfl⟩ := of_contractFrom_bind hg
    have hred : Reduces R _ us b' as' :=
      ⟨b, a, as, self_mem_nodes _, contractAll_of_ok hb, has.imp fun _ _ h => contractAll_of_ok h⟩
    refine ⟨us, b, b', a :: as, as', rfl, .cons hg has, hred, ?_⟩
    obtain ⟨hlen, hq⟩ : us.length = as'.length ∧ b'.substEach (us.toList.zip as') = .ok q := by
      cases has with
      | cons ha has => exact of_contract_lambda hq
    exact (betaReduce_lambda hlen).trans hq

/-! ## Slots -/

/-- A slot is among the nodes, as a variable. -/
theorem var_mem_nodes_of_mem_slots (h : x ∈ e.slots) : var x ∈ e.nodes := by
  induction e with
  | app f as ihf ihas =>
    rw [mem_nodes_app]
    rcases mem_slots_app.1 h with h | ⟨a, ha, h⟩
    · exact .inr (.inl (ihf h))
    · exact .inr (.inr ⟨a, ha, ihas a ha h⟩)
  | bind f xs b ih =>
    rw [mem_nodes_bind]
    rcases mem_slots_bind.1 h with h | h
    · exact .inr (.inr (.inl ⟨x, h, rfl⟩))
    · exact .inr (.inr (.inr (ih h)))
  | _ => cases h

/-- A substitution brings marked variables into slots only with its value, if
no slot holds the name that is replaced. -/
theorem mem_slots_of_subst (hv : IsName v) (hslot : ∀ x ∈ e.slots, v ≠ var x) (h : e.subst v r = .ok q)
    (hx : x ∈ q.slots) (hm : x.marked = true) : x ∈ e.slots ∨ x ∈ r.slots := by
  induction e using sizedInduct generalizing q with
  | atom e he =>
    rw [subst_atom he] at h
    cases h
    split at hx
    · exact .inr hx
    · exact .inl hx
  | app g as ihg ihas =>
    obtain ⟨g', as', hg, has, rfl⟩ := of_subst_app h
    rcases mem_slots_app.1 hx with hx | ⟨a', ha', hx⟩
    · refine (ihg (fun x hx => hslot x ?_) hg hx).imp_left fun hx => ?_
      all_goals exact mem_slots_app.2 (.inl hx)
    · obtain ⟨a, ha, haa'⟩ := exists_of_forall₂ has a' ha'
      refine (ihas a ha (fun x hx => hslot x ?_) haa' hx).imp_left fun hx => ?_
      all_goals exact mem_slots_app.2 (.inr ⟨a, ha, hx⟩)
  | bind f xs b ih =>
    rcases of_subst_bind h with ⟨x, y, c, rfl, hx, -⟩ | ⟨-, ys, c, d, hc, hd, rfl⟩
    · exact absurd rfl (hslot x (mem_slots_bind.2 (.inl hx)))
    · let Kept (e : Expr) : Prop := x ∈ e.slots → x ∈ (bind f xs b).slots
      have hkept := of_clearOf (P := Kept) (fun u hu y e hy _ he hx => ?_)
        (fun hx => mem_slots_bind.2 (.inr hx)) hc
      · rcases mem_slots_bind.1 hx with hx | hx
        · refine .inl (mem_slots_bind.2 (.inl ?_))
          exact (hkept.2.2.1 x hx).resolve_right fun h => by cases hm.symm.trans h.1
        · have hslot' := (cleared_of_clearOf hv hc).slots hslot
          exact (ih c (size_of_clearOf hc) (fun x hx => hslot' x (mem_slots_bind.2 (.inr hx))) hd hx).imp_left
            hkept.1
      · -- the new name is not marked
        rw [slots_rename] at hx
        obtain ⟨z, hz, hzx⟩ := List.mem_map.1 hx
        rw [Var.renamed] at hzx
        split at hzx
        · cases (hzx ▸ hm).symm.trans hy
        · exact he (hzx ▸ hz)

/-- The arguments can bring a marked slot in only as one of their own: every
name that a binding gives way to is an ordinary one. -/
theorem Ready.mem_slots_of_substEach {W : Var → Prop} {N : Prop} {pairs : List (Var × Expr)}
    (h : Ready (pairs.map Prod.fst) W N e) (hW : ∀ pair ∈ pairs, ∀ x, var x ∈ pair.2.names → W x)
    (hN : N → ∀ p ∈ (pairs.map Prod.fst).tail, p.marked = true ∨ ¬p.Numbered 'x')
    (hlater : pairs.Pairwise fun pair pair' => pair'.1 ∉ pair.2.vars) (hq : e.substEach pairs = .ok q)
    (hx : x ∈ q.slots) (hm : x.marked = true) : x ∈ e.slots ∨ ∃ pair ∈ pairs, x ∈ pair.2.slots := by
  induction pairs generalizing e with
  | nil =>
    cases hq
    exact .inl hx
  | cons pair pairs ih =>
    obtain ⟨v, a⟩ := pair
    rw [List.forall_mem_cons] at hW
    rw [List.pairwise_cons] at hlater
    obtain ⟨d, hd, hready⟩ := Ready.subst h hW.1 hN (by simpa using hlater.1)
    have hslot : ∀ x ∈ e.slots, var v ≠ var x := fun x hx heq =>
      h.not_mem_slots List.mem_cons_self (Expr.var.inj heq ▸ hx)
    rw [Expr.substEach, hd] at hq
    rcases ih hready hW.2 (fun hn p hp => hN hn p (List.mem_of_mem_tail hp)) hlater.2 hq with hx | ⟨pair, hp, hx⟩
    · refine (mem_slots_of_subst (.inl ⟨v, rfl⟩) hslot hd hx hm).imp_right fun hx => ?_
      exact ⟨_, List.mem_cons_self, hx⟩
    · exact .inr ⟨pair, List.mem_cons_of_mem _ hp, hx⟩

/-- Nor does the contraction of a function of separate parameters. -/
theorem Separate.mem_slots (h : Separate us b as) (hq : (R.lambda us b).betaReduce R as = .ok q)
    (hx : x ∈ q.slots) (hm : x.marked = true) : x ∈ b.slots ∨ ∃ a ∈ as, x ∈ a.slots := by
  rw [betaReduce_lambda h.length] at hq
  refine (h.ready.mem_slots_of_substEach (fun _ hp _ => exists_mem_freeVars_of_mem_zip hp) id h.later hq
    hx hm).imp_right ?_
  exact fun ⟨pair, hpair, hx⟩ => ⟨pair.2, (List.of_mem_zip hpair).2, hx⟩

/-- **Contraction in good order brings no marked variable into a slot.** -/
theorem mem_slots_of_contractFrom (horder : Orderly R e) (h : contractFrom R depth e = .ok q)
    (hx : x ∈ q.slots) (hm : x.marked = true) : x ∈ e.slots := by
  induction e generalizing depth q with
  | app f as ihf ihas =>
    cases hredex : (app f as).isRedex R with
    | true =>
      obtain ⟨us, b, b', as, bs, heq, has, hred, hq⟩ := reduces_of_redex hredex h
      cases heq
      have hchild (a' : Expr) (ha' : a' ∈ R.lambda us b' :: bs) (hx : x ∈ a'.slots) :
          x ∈ (app (sym R.applySym) (R.lambda us b :: as)).slots := by
        obtain ⟨a, ha, haa'⟩ := exists_of_forall₂ has a' ha'
        exact mem_slots_app.2 (.inr ⟨a, ha, ihas a ha (horder.of_nodes fun _ => mem_nodes_of_arg ha) haa' hx⟩)
      rcases (horder us b' bs hred).mem_slots hq hx hm with hx | ⟨a, ha, hx⟩
      · exact hchild _ List.mem_cons_self (mem_slots_bind.2 (.inr hx))
      · exact hchild a (List.mem_cons_of_mem _ ha) hx
    | false =>
      obtain ⟨f', as', hf, has, hq⟩ := of_contractFrom_app h
      obtain ⟨-, rfl⟩ := hq.resolve_left fun h => by cases hredex.symm.trans h.1
      rcases mem_slots_app.1 hx with hx | ⟨a', ha', hx⟩
      · exact mem_slots_app.2 (.inl (ihf (horder.of_nodes fun _ => mem_nodes_of_head) hf hx))
      · obtain ⟨a, ha, haa'⟩ := exists_of_forall₂ has a' ha'
        exact mem_slots_app.2 (.inr ⟨a, ha, ihas a ha (horder.of_nodes fun _ => mem_nodes_of_arg ha) haa' hx⟩)
  | bind f xs b ih =>
    obtain ⟨c, hc, rfl⟩ := of_contractFrom_bind h
    rcases mem_slots_bind.1 hx with hx | hx
    · exact mem_slots_bind.2 (.inl hx)
    · exact mem_slots_bind.2 (.inr (ih (horder.of_nodes fun _ => mem_nodes_of_body) hc hx))
  | _ =>
    cases h
    exact hx

/-! ## Values -/

/-- **A function that is carried out** means what its body means when the
arguments are the meanings of its slots, if none that is active comes to a
place where it is called. -/
theorem meaning_reduct (h : Separate us b as) (hq : (R.lambda us b).betaReduce R as = .ok q)
    (hS : S.length = st.length) (hρ : carry = true → ρ.Literal R true)
    (hinert : carry = true → ∀ pair ∈ us.toList.zip as, CalledIn R (var pair.1) b → ¬Active R pair.2) :
    ((q.namelessIn S).eval R carry ρ st).meaning =
      ((b.namelessIn (us.toList.reverse ++ S)).eval R carry ρ
        ((as.map fun a => ((a.namelessIn S).eval R carry ρ st).meaning).reverse ++ st)).meaning := by
  obtain ⟨_, hq', hform⟩ := h.betaReduce (R := R)
  cases hq.symm.trans hq'
  have hlen : us.toList.length = as.length := h.length
  have hclosed : ∀ pair ∈ assigned (us.toList.zip as), ∀ st',
      pair.2.eval R carry (ρ.enter R S st) st' = pair.2.eval R carry (ρ.enter R S st) [] := by
    intro pair hpair st'
    obtain ⟨⟨u, a⟩, -, rfl⟩ := List.mem_map.1 hpair
    exact eval_nameless a st'
  rw [eval_enter hS, hform, Nameless.eval_replace hclosed, eval_enter (by simp [hlen, hS])]
  refine Eq.symm (eval_congr (S := []) (fun hcarry => (hρ hcarry).enter) fun n _ hn => ?_).1
  by_cases hu : ∃ u ∈ us.toList, n = var u
  · obtain ⟨u, hu, rfl⟩ := hu
    obtain ⟨i, hi, rfl⟩ := List.getElem_of_mem hu
    have hia : i < as.length := hlen ▸ hi
    have hlookup : (assigned (us.toList.zip as)).lookup (var us.toList[i]) = some as[i].nameless := by
      rw [assigned_zip, lookup_zip h.distinct (by simp [hlen]) (List.getElem?_eq_getElem hi),
        List.getElem?_map, List.getElem?_eq_getElem hia]
      rfl
    rw [AgreeOn, Env.assign, hlookup, Env.enter_reverse h.distinct (by simp [hlen]) hi, List.getElem_map,
      eval_enter hS]
    refine ⟨rfl, fun hcarry hcalled => ?_⟩
    have hpair : (us.toList[i], as[i]) ∈ us.toList.zip as :=
      List.mem_iff_getElem.2 ⟨i, by rw [List.length_zip]; exact lt_min hi hia, List.getElem_zip⟩
    exact (eval_eq_plain_of_not_active (hρ hcarry).enter (hinert hcarry _ hpair hcalled)).symm
  · have hu : ∀ u ∈ us.toList, n ≠ var u := fun u hmem heq => hu ⟨u, hmem, heq⟩
    have hlookup : (assigned (us.toList.zip as)).lookup n = none := by
      rw [assigned_zip]
      exact lookup_zip_eq_none hu
    refine .of_eq ?_
    rw [Env.assign, hlookup, Env.enter_append (by simp [hlen]) (by simpa using hu)]

/-- An application that is no redex means an application, where no unknown has
a value. -/
theorem meaning_app (hρ : ρ.Literal R false) (hredex : (app g as).isRedex R = false) :
    (((app g as).namelessIn S).eval R true ρ st).meaning = Sense.apply false
      ((g.namelessIn S).eval R true ρ st) (as.map fun a => (a.namelessIn S).eval R true ρ st) := by
  rw [namelessIn, namelessAllIn_eq_map, Nameless.eval_app, List.map_map]
  cases hcalls : ((g.namelessIn S).eval R true ρ st).calls with
  | false =>
    simp only [Sense.plain, Sense.apply, hcalls, Bool.and_false]
    rfl
  | true =>
    obtain rfl := (caller_of_calls hρ hcalls).resolve_right fun h => Bool.false_ne_true h.1
    rcases as with _ | ⟨g, _ | ⟨a, as⟩⟩
    · simp [Sense.plain, Sense.apply, hcalls]
    · simp [Sense.plain, Sense.apply, hcalls]
    · rw [isRedex, asApply?, if_pos rfl] at hredex
      have hcall : ((g.namelessIn S).eval R true ρ st).call =
          Meaning.applied R ((g.namelessIn S).eval R true ρ st).meaning := by
        by_cases hg : g = sym R.applySym
        · subst hg
          rw [namelessIn, Nameless.eval, hρ.applySym]
          rfl
        · exact congrArg Sense.call (eval_eq_plain hρ hredex hg fun h => absurd h Bool.false_ne_true)
      have hhead : (((sym R.applySym).namelessIn S).eval R true ρ st).meaning = _ :=
        congrArg Sense.meaning hρ.applySym
      funext n
      simp [Sense.plain, Sense.apply, hcalls, hcall, hhead, Meaning.applied, Function.comp_def]

/-- `q` comes to what `e` comes to when functions are carried out: where
unknowns may have values if functions are carried out in `q`, and where nothing
has one if they are not. -/
def SameValue (R : Reserved) (carry : Bool) (e q : Expr) : Prop :=
  ∀ (ρ : Env) (S : List Var) (st : List Meaning), S.length = st.length → ρ.Literal R carry →
    ((q.namelessIn S).eval R carry ρ st).meaning = ((e.namelessIn S).eval R true ρ st).meaning ∧
      (e.isApp = false → (q.namelessIn S).eval R carry ρ st = (e.namelessIn S).eval R true ρ st)

/-- What has no children comes to the same whether functions are carried out or
not. -/
theorem sameValue_atom (he : e.isCompound = false) : SameValue R carry e e := by
  have heval (ρ : Env) (S : List Var) (st : List Meaning) :
      (e.namelessIn S).eval R carry ρ st = (e.namelessIn S).eval R true ρ st := by
    cases e with
    | var x => by_cases hx : x ∈ S <;> simp [namelessIn, place, hx, Nameless.eval]
    | app | bind => cases he
    | _ => rfl
  exact fun ρ S st _ _ => ⟨congrArg _ (heval ρ S st), fun _ => heval ρ S st⟩

/-- A binding comes to what its body comes to, for all meanings of its
slots. -/
theorem SameValue.bind (h : SameValue R carry b c) : SameValue R carry (bind f xs b) (bind f xs c) := by
  intro ρ S st hS hρ
  have heval : ((Expr.bind f xs c).namelessIn S).eval R carry ρ st =
      ((Expr.bind f xs b).namelessIn S).eval R true ρ st := by
    refine Nameless.eval_bind_congr fun ds hds => ?_
    have hlen : xs.toList.length = ds.length := hds.symm
    exact (h ρ (xs.toList.reverse ++ S) (ds.reverse ++ st) (by simp [hlen, hS]) hρ).1
  exact ⟨congrArg _ heval, fun _ => heval⟩

/-- An application that has not become active is as plain as before. -/
theorem SameValue.eval_eq (h : SameValue R true e q) (hactive : e.isApp = true → ¬Active R q)
    (hS : S.length = st.length) (hρ : ρ.Literal R true) :
    (q.namelessIn S).eval R true ρ st = (e.namelessIn S).eval R true ρ st := by
  obtain ⟨hmeaning, heq⟩ := h ρ S st hS hρ
  cases he : e.isApp with
  | false => exact heq he
  | true =>
    rw [eval_eq_plain_of_not_active hρ (hactive he), hmeaning]
    cases e with
    | app => rfl
    | _ => cases he

/-- The values of corresponding expressions have the same meanings. -/
theorem forall₂_meaning (h : List.Forall₂ (SameValue R carry) as as') (hS : S.length = st.length)
    (hρ : ρ.Literal R carry) : List.Forall₂ (fun a a' => a.meaning = a'.meaning)
      (as'.map fun a => (a.namelessIn S).eval R carry ρ st)
      (as.map fun a => (a.namelessIn S).eval R true ρ st) := by
  rw [List.forall₂_map_left_iff, List.forall₂_map_right_iff]
  exact h.flip.imp fun a' a ha => (ha ρ S st hS hρ).1

/-- An application that is no redex stays one.  If functions are carried out in
it, neither the head nor what it calls may become active. -/
theorem SameValue.app {g' : Expr} (hg : SameValue R carry g g') (has : List.Forall₂ (SameValue R carry) as as')
    (hredex : (app g as).isRedex R = false) (hhead : carry = true → g.isApp = true → ¬Active R g')
    (hnext : carry = true → Caller R g →
      ∀ a ∈ as.head?, ∀ a' ∈ as'.head?, a.isApp = true → ¬Active R a') :
    SameValue R carry (app g as) (app g' as') := by
  intro ρ S st hS hρ
  refine ⟨?_, fun h => by cases h⟩
  have hmeaning := (hg ρ S st hS hρ).1
  have hargs := forall₂_meaning has hS hρ
  cases carry with
  | false =>
    rw [meaning_app hρ hredex, namelessIn, namelessAllIn_eq_map, Nameless.eval_app, List.map_map]
    have heq : Sense.apply false _ _ = Sense.apply false _ _ := Sense.apply_congr hmeaning hargs
      (fun h => absurd h Bool.false_ne_true) fun h => absurd h Bool.false_ne_true
    exact heq
  | true =>
    have hvalue := hg.eval_eq (hhead rfl) hS hρ
    simp only [namelessIn, namelessAllIn_eq_map, Nameless.eval_app, List.map_map]
    refine Sense.apply_congr hmeaning hargs (fun _ => congrArg _ hvalue) fun _ hcalls u' hu' u hu => ?_
    have hcaller : Caller R g := (caller_of_calls hρ (hvalue ▸ hcalls)).imp_right And.right
    cases has with
    | nil => cases hu
    | cons ha _ =>
      cases hu
      cases hu'
      exact congrArg _ (ha.eval_eq (hnext rfl hcaller _ rfl _ rfl) hS hρ)

/-- A redex that is contracted after its function and its arguments. -/
theorem SameValue.redex {b' : Expr} {bs : List Expr}
    (has : List.Forall₂ (SameValue R carry) (R.lambda us b :: as) (R.lambda us b' :: bs))
    (hsep : Separate us b' bs) (hq : (R.lambda us b').betaReduce R bs = .ok q)
    (hinert : carry = true → ∀ pair ∈ us.toList.zip bs, CalledIn R (.var pair.1) b' → ¬Active R pair.2) :
    SameValue R carry (.app (.sym R.applySym) (R.lambda us b :: as)) q := by
  intro ρ S st hS hρ
  refine ⟨?_, fun h => by cases h⟩
  have hlen : bs.length = us.length := hsep.length.symm
  cases has with
  | cons hlam has =>
    have hds : bs.map (fun a => ((a.namelessIn S).eval R carry ρ st).meaning) =
        as.map fun a => ((a.namelessIn S).eval R true ρ st).meaning :=
      map_eq_of_forall₂ (has.imp fun a a' ha => (ha ρ S st hS hρ).1)
    have hcall : (((R.lambda us b').namelessIn S).eval R carry ρ st).call =
        (((R.lambda us b).namelessIn S).eval R true ρ st).call := congrArg _ ((hlam ρ S st hS hρ).2 rfl)
    obtain ⟨a, as, rfl⟩ : ∃ a as', as = a :: as' := by
      refine List.exists_cons_of_ne_nil ?_
      rintro rfl
      rw [List.forall₂_nil_left_iff] at has
      rw [has] at hlen
      cases hlen
    have hredex :
        (((Expr.app (.sym R.applySym) (R.lambda us b :: a :: as)).namelessIn S).eval R true ρ st).meaning =
        (((R.lambda us b).namelessIn S).eval R true ρ st).call
          ((a :: as).map fun a => ((a.namelessIn S).eval R true ρ st).meaning) := by
      simp [namelessIn, namelessAllIn_eq_map, Nameless.eval_app, Nameless.eval, hρ.applySym, Sense.plain,
        Sense.apply, Function.comp_def]
    rw [meaning_reduct hsep hq hS (fun hcarry => hcarry ▸ hρ) hinert, hredex, ← hcall, ← hds]
    exact (if_pos ⟨rfl, by simpa using hlen⟩).symm

/-- **Contraction keeps the value,** if it is done in good order and, where
functions are carried out in the result, leaves nothing to be done. -/
theorem sameValue_contractFrom (horder : Orderly R e) (hthorough : carry = true → Thorough R e)
    (h : contractFrom R depth e = .ok q) : SameValue R carry e q := by
  induction e generalizing depth q with
  | app f as ihf ihas =>
    have hparts {a : Expr} (hsub : ∀ n ∈ a.nodes, n ∈ (app f as).nodes) :
        Orderly R a ∧ (carry = true → Thorough R a) :=
      ⟨horder.of_nodes hsub, fun hcarry => (hthorough hcarry).of_nodes hsub⟩
    have hargs {as' : List Expr} {depth : Nat}
        (h : List.Forall₂ (fun a a' => contractFrom R depth a = .ok a') as as') :
        List.Forall₂ (SameValue R carry) as as' :=
      forall₂_imp_of_mem h fun a ha _ _ =>
        have hpart := hparts fun _ => mem_nodes_of_arg ha
        ihas a ha hpart.1 hpart.2
    cases hredex : (app f as).isRedex R with
    | true =>
      obtain ⟨us, b, b', as, bs, heq, has, hred, hq⟩ := reduces_of_redex hredex h
      cases heq
      exact SameValue.redex (hargs has) (horder us b' bs hred) hq fun hcarry =>
        (hthorough hcarry).args us b' bs hred
    | false =>
      obtain ⟨f', as', hf, has, hq⟩ := of_contractFrom_app h
      obtain ⟨-, rfl⟩ := hq.resolve_left fun h => by cases hredex.symm.trans h.1
      have hpart := hparts fun _ => mem_nodes_of_head
      -- what is no redex stays an application
      have hactive {g g' : Expr} (hcalled : CalledIn R g (app f as)) (h : contractFrom R (depth + 1) g = .ok g')
          (hcarry : carry = true) (happ : g.isApp = true) : ¬Active R g' := by
        cases hg : g.isRedex R with
        | true => exact (hthorough hcarry).redexes g hcalled hg _ (contractAll_of_ok h)
        | false =>
          cases g with
          | app g bs =>
            obtain ⟨g', bs', -, -, hg'⟩ := of_contractFrom_app h
            obtain ⟨-, rfl⟩ := hg'.resolve_left fun h => by cases hg.symm.trans h.1
            simp [Active, Caller, isLambda, isMarked]
          | _ => cases happ
      refine SameValue.app (ihf hpart.1 hpart.2 hf) (hargs has) hredex
        (hactive ⟨f, as, self_mem_nodes _, .inl rfl⟩ hf) fun hcarry hcaller a ha a' ha' => ?_
      have haa' : contractFrom R (depth + 1) a = .ok a' := by
        cases has with
        | nil => cases ha
        | cons hcontract _ =>
          cases ha
          cases ha'
          exact hcontract
      exact hactive ⟨f, as, self_mem_nodes _, .inr ⟨hcaller, ha⟩⟩ haa' hcarry
  | bind f xs b ih =>
    obtain ⟨c, hc, rfl⟩ := of_contractFrom_bind h
    have hsub (n : Expr) (hn : n ∈ b.nodes) : n ∈ (Expr.bind f xs b).nodes := mem_nodes_of_body hn
    exact (ih (horder.of_nodes hsub) (fun hcarry => (hthorough hcarry).of_nodes hsub) hc).bind
  | _ =>
    cases h
    exact sameValue_atom rfl

end Expr
end SecondOrder
