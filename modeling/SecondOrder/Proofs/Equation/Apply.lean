/-
# What an assignment means

To apply an assignment `m ↦ r` to a sorted pattern is to evaluate the pattern
where `m` stands for `r`: `Equation.apply_spec`, for an unknown that is not
applied and for one that stands for a function.  In the second case every
application of `m` turns into a redex, which is contracted at once; nothing is
refused and nothing captured as long as the parameters occur nowhere else.

Sorted expressions themselves have no redex (`Expr.contractFrom_of_sorted`).
-/

import SecondOrder.Equation
import SecondOrder.Proofs.Expr.Uses

namespace SecondOrder

/-- The valuation under which the unknown of an assignment means what its value
means. -/
def Valuation.assign (R : Reserved) (ρ : Valuation) (c : Equation) : Valuation where
  val e := if e == c.pattern then Expr.den R ρ c.subject else ρ.val e
  fn e := if e == c.pattern then Expr.call R ρ c.subject (Expr.den R ρ c.subject) else ρ.fn e

namespace Expr

variable {R : Reserved} {arity : Arity} {ρ : Valuation} {e : Expr}

/-- Arguments that can be contracted at any depth are contracted together. -/
theorem contractFromAll_ok {as bs : List Expr}
    (h : List.Forall₂ (fun a b => ∀ depth, contractFrom R depth a = .ok b) as bs) (depth : Nat) :
    contractFromAll R depth as = .ok bs := by
  induction h with
  | nil => rfl
  | cons first _ ih => rw [contractFromAll, first depth, ih]; rfl

/-- An application that applies no function stays. -/
theorem contractFrom_app {f g : Expr} {as bs : List Expr} (hred : (app f as).isRedex R = false)
    (hf : ∀ depth, contractFrom R depth f = .ok g)
    (has : List.Forall₂ (fun a b => ∀ depth, contractFrom R depth a = .ok b) as bs) (depth : Nat) :
    contractFrom R depth (app f as) = .ok (app g bs) := by
  rw [contractFrom, hf, contractFromAll_ok has]
  dsimp only [bothDeep]
  rw [if_neg (Bool.eq_false_iff.1 hred)]

/-- **A function applied to as many arguments as it takes is carried out.** -/
theorem contractFrom_redex {us : Binders} {b : Expr} {as bs : List Expr}
    (hvalue : ∀ depth, contractFrom R depth (R.lambda us b) = .ok (R.lambda us b))
    (has : List.Forall₂ (fun a b => ∀ depth, contractFrom R depth a = .ok b) as bs)
    (nonempty : as ≠ []) (hlen : us.length = bs.length) (depth : Nat) :
    contractFrom R depth (app (sym R.applySym) (R.lambda us b :: as)) =
      (b.substEach (us.toList.zip bs)).mapError fun fault => (depth, fault) := by
  cases has with
  | nil => exact absurd rfl nonempty
  | @cons a c as bs first rest =>
    have hredex : (app (sym R.applySym) (R.lambda us b :: a :: as)).isRedex R = true :=
      isRedex_iff.2 ⟨us, b, a, as, rfl⟩
    rw [contractFrom, contractFromAll_ok (.cons hvalue (.cons first rest))]
    dsimp only [bothDeep, contractFrom]
    rw [if_pos hredex, contract_lambda hlen]

/-- An application of anything but the symbol of application is no redex. -/
theorem isRedex_of_ne {f : Expr} (hf : f ≠ sym R.applySym) (as : List Expr) :
    (app f as).isRedex R = false := by
  cases f with
  | sym g =>
    match as with
    | [] => rfl
    | [_] => rfl
    | a :: b :: as => rw [isRedex, asApply?, if_neg fun h => hf (congrArg sym h)]
  | _ => rfl

/-- An unknown has no inner application. -/
theorem contractFrom_of_isMarked {m : Expr} (hm : m.isMarked = true) (depth : Nat) :
    contractFrom R depth m = .ok m := by
  rcases isName_of_isMarked hm with ⟨x, rfl⟩ | ⟨f, rfl⟩ <;> rfl

/-- An unknown that is applied waits for its value, and is no redex so far. -/
theorem isRedex_of_isMarked {m : Expr} (hm : m.isMarked = true) (as : List Expr) :
    (app (sym R.applySym) (m :: as)).isRedex R = false := by
  cases as with
  | nil => rfl
  | cons a as =>
    rw [isRedex, asApply?, if_pos rfl]
    cases m <;> first | rfl | cases hm

/-- **Nothing is contracted where there is no redex.** -/
theorem contractFrom_of_not_isRedex (h : ∀ n ∈ e.nodes, n.isRedex R = false) (depth : Nat) :
    contractFrom R depth e = .ok e := by
  induction e generalizing depth with
  | app f as ihf ihas =>
    refine contractFrom_app (h _ (self_mem_nodes _)) (ihf fun n hn => h n (mem_nodes_of_head hn)) ?_ depth
    exact List.forall₂_same.2 fun a ha => ihas a ha fun n hn => h n (mem_nodes_of_arg ha hn)
  | bind f xs b ih =>
    rw [contractFrom, ih fun n hn => h n (mem_nodes_of_body hn)]
    rfl
  | _ => rfl

/-- **Nothing is contracted in a sorted expression.** -/
theorem contractFrom_of_sorted (he : Sorted R arity e) (depth : Nat) :
    contractFrom R depth e = .ok e := by
  have hself {as : List Expr} (h : ∀ a ∈ as, ∀ depth, contractFrom R depth a = .ok a) :
      List.Forall₂ (fun a b => ∀ depth, contractFrom R depth a = .ok b) as as :=
    List.forall₂_same.2 h
  induction he generalizing depth with
  | app head args ihf ihas => exact contractFrom_app (isRedex_of_ne head.ne_applySym _) ihf (hself ihas) depth
  | apply unknown nonempty takes args ihas =>
    refine contractFrom_app (isRedex_of_isMarked unknown _) (fun _ => rfl) (hself ?_) depth
    exact List.forall_mem_cons.2 ⟨contractFrom_of_isMarked unknown, ihas⟩
  | bind slots distinct body ih => rw [contractFrom, ih]; rfl
  | _ => rfl

/-- **Substitution for parameters one after another is evaluation with the
arguments entered.**  `V` tells the variables that may occur in the arguments
and in the result; no parameter is among them. -/
theorem substEach_spec {V : Var → Prop} {us : List Var} {bs : List Expr} {b : Expr}
    (hb : Sorted R arity b) (hlen : us.length = bs.length) (hplain : ∀ u ∈ us, u.marked = false)
    (hnodup : us.Nodup) (hus : ∀ u ∈ us, u ∉ b.slots ∧ ¬V u) (hbody : ∀ z ∈ b.vars, z ∈ us ∨ V z)
    (hargs : ∀ a ∈ bs, Sorted R arity a ∧ ∀ z ∈ a.vars, V z)
    (hfresh : (∃ a ∈ b :: bs, a.slots ≠ []) → ∀ z : Var, z.Numbered 'x' → V z) :
    ∃ q, b.substEach (us.zip bs) = .ok q ∧ Sorted R arity q ∧
      (∀ ρ, den R ρ q = den R (ρ.enter us (bs.map (den R ρ))) b) ∧ (∀ z ∈ q.vars, V z) ∧
      (q.slots ≠ [] → ∃ a ∈ b :: bs, a.slots ≠ []) ∧
      (∀ z ∈ q.slots, (∃ a ∈ b :: bs, z ∈ a.slots) ∨ z.Numbered 'x') ∧
      ∀ n ∈ q.names, n.isMarked = true → ∃ a ∈ b :: bs, n ∈ a.names := by
  induction us generalizing b bs with
  | nil =>
    obtain rfl := List.length_eq_zero_iff.1 hlen.symm
    exact ⟨b, rfl, hb, fun _ => rfl, fun z hz => (hbody z hz).resolve_left nofun,
      fun h => ⟨b, List.mem_cons_self, h⟩, fun z hz => .inl ⟨b, List.mem_cons_self, hz⟩,
      fun n hn _ => ⟨b, List.mem_cons_self, hn⟩⟩
  | cons u us ih =>
    obtain ⟨a, bs, rfl⟩ : ∃ a as, bs = a :: as := List.exists_cons_of_length_eq_add_one hlen.symm
    rw [List.forall_mem_cons] at hplain hus hargs
    obtain ⟨huus, hnodup⟩ := List.nodup_cons.1 hnodup
    -- The first argument is put in, and what comes out takes the others.
    obtain ⟨c, hc, hsub⟩ := subst_spec (v := .var u) (.inr ⟨u, rfl, hplain.1⟩) hargs.1.1 hb
      fun x hx h => hus.1.1 (Expr.var.inj h ▸ hx)
    have hslot {z : Var} (hz : z ∈ c.slots) : ∃ d ∈ [b, a], d.slots ≠ [] := by
      rcases hsub.names.slots z hz with h | h | ⟨⟨x, h⟩, -⟩
      · exact ⟨b, List.mem_cons_self, List.ne_nil_of_mem h⟩
      · exact ⟨a, List.mem_cons_of_mem _ List.mem_cons_self, List.ne_nil_of_mem h⟩
      · exact ⟨b, List.mem_cons_self, List.ne_nil_of_mem h⟩
    have hparts {P : Expr → Prop} (h : ∃ d ∈ [b, a], P d) : ∃ d ∈ b :: a :: bs, P d := by
      obtain ⟨d, hd, hP⟩ := h
      exact ⟨d, List.mem_append_left bs hd, hP⟩
    have hlater {P : Expr → Prop} (hP : P c → ∃ d ∈ b :: a :: bs, P d) (h : ∃ d ∈ c :: bs, P d) :
        ∃ d ∈ b :: a :: bs, P d := by
      obtain ⟨d, hd, h⟩ := h
      rcases List.mem_cons.1 hd with rfl | hd
      · exact hP h
      · exact ⟨d, List.mem_cons_of_mem _ (List.mem_cons_of_mem _ hd), h⟩
    have hslots : c.slots ≠ [] → ∃ d ∈ b :: a :: bs, d.slots ≠ [] := fun h =>
      have ⟨_, hz⟩ := List.exists_mem_of_ne_nil _ h
      hparts (hslot hz)
    -- A slot that has made way took a numbered name, which is no later parameter.
    have hapart : ∀ w ∈ us, w ∉ c.slots ∧ ¬V w := by
      refine fun w hw => ⟨fun hwc => ?_, (hus.2 w hw).2⟩
      rcases hsub.names.slots w hwc with h | h | ⟨⟨x, hx⟩, h⟩
      · exact (hus.2 w hw).1 h
      · exact (hus.2 w hw).2 (hargs.1.2 w (mem_vars_of_mem_slots h))
      · exact (hus.2 w hw).2 (hfresh ⟨b, List.mem_cons_self, List.ne_nil_of_mem hx⟩ w h)
    have hmore : ∀ z ∈ c.vars, z ∈ us ∨ V z := by
      intro z hz
      rcases hsub.names.vars z hz with ⟨hz, hne⟩ | hz | ⟨⟨x, hx⟩, h⟩
      · refine (hbody z hz).imp_left fun h => (List.mem_cons.1 h).resolve_left ?_
        rintro rfl
        exact hne rfl
      · exact .inr (hargs.1.2 z hz)
      · exact .inr (hfresh ⟨b, List.mem_cons_self, List.ne_nil_of_mem hx⟩ z h)
    obtain ⟨q, hq, hsorted, hden, hvars, hflat, hqslots, hunknowns⟩ := ih hsub.sorted
      (Nat.succ.inj hlen) hplain.2 hnodup hapart hmore hargs.2 fun h => hfresh (hlater hslots h)
    refine ⟨q, ?_, hsorted, fun ρ => ?_, hvars, fun h => hlater hslots (hflat h), fun z hz => ?_,
      fun n hn hm => hlater (fun hnc => ?_) (hunknowns n hn hm)⟩
    · rw [List.zip_cons_cons, substEach, hc]
      exact hq
    · have ha : den R (ρ.enter us (bs.map (den R ρ))) a = den R ρ a :=
        den_enter_of_not_mem hargs.1.1 (fun y hy hya =>
          (hus.2 y hy).2 (hargs.1.2 y (mem_vars_of_mem_names hya))) _
      rw [hden, hsub.den, ha, ← Valuation.update_enter (.inl ⟨u, rfl⟩)
        (fun x hx h => huus (Expr.var.inj h ▸ hx)), List.map_cons, Valuation.enter]
    · rcases hqslots z hz with ⟨d, hd, hzd⟩ | hz
      · rcases List.mem_cons.1 hd with rfl | hd
        · rcases hsub.names.slots z hzd with h | h | ⟨-, h⟩
          · exact .inl ⟨b, List.mem_cons_self, h⟩
          · exact .inl ⟨a, List.mem_cons_of_mem _ List.mem_cons_self, h⟩
          · exact .inr h
        · exact .inl ⟨d, List.mem_cons_of_mem _ (List.mem_cons_of_mem _ hd), hzd⟩
      · exact .inr hz
    · rcases hsub.names.unknowns n hnc hm with hn | hn
      · exact ⟨b, List.mem_cons_self, hn.1⟩
      · exact ⟨a, List.mem_cons_of_mem _ List.mem_cons_self, hn⟩

end Expr

namespace Valuation

variable {R : Reserved} {ρ : Valuation} {c : Equation} {n : Expr}

/-- After an assignment the unknown means its value. -/
theorem assign_val_self (ρ : Valuation) (c : Equation) :
    (ρ.assign R c).val c.pattern = c.subject.den R ρ := if_pos (Expr.same_refl _)

/-- After an assignment the unknown, applied, gives what its value gives. -/
theorem assign_fn_self (ρ : Valuation) (c : Equation) :
    (ρ.assign R c).fn c.pattern = c.subject.call R ρ (c.subject.den R ρ) :=
  if_pos (Expr.same_refl _)

/-- No other name means anything else after an assignment. -/
theorem assign_val_of_ne (hc : c.pattern.IsName) (h : n ≠ c.pattern) :
    (ρ.assign R c).val n = ρ.val n := if_neg (mt (Expr.beq_name_iff hc).1 h)

/-- No other name gives anything else when it is applied. -/
theorem assign_fn_of_ne (hc : c.pattern.IsName) (h : n ≠ c.pattern) :
    (ρ.assign R c).fn n = ρ.fn n := if_neg (mt (Expr.beq_name_iff hc).1 h)

end Valuation

namespace Equation

open SecondOrder.Expr

variable {R : Reserved} {arity : Arity} {ρ ρ' : Valuation} {c : Equation} {p q : Expr}

/-- The equation gives an unknown a value of its sort.  No binding inside a
function binds one of its parameters again. -/
structure Proper (R : Reserved) (arity : Arity) (c : Equation) : Prop where
  unknown : c.pattern.isMarked = true
  value : Sorted R arity c.subject
  function : ∀ k, arity c.pattern = some k →
    ∃ us b, c.subject = R.lambda us b ∧ us.length = k ∧ ∀ u ∈ us.toList, u ∉ b.slots

/-- `q` is `p` with the assignment `c` carried out. -/
structure Applied (R : Reserved) (arity : Arity) (c : Equation) (p q : Expr) : Prop where
  sorted : Sorted R arity q
  den : ∀ ρ, den R ρ q = den R (ρ.assign R c) p
  unknowns : ∀ n ∈ q.names, n.isMarked = true →
    n ∈ p.names ∧ n ≠ c.pattern ∨ n ∈ c.subject.names

/-- `q` is what substitution and contraction make of `p`, at any depth. -/
def Carries (R : Reserved) (c : Equation) (p q : Expr) : Prop :=
  ∃ p', p.subst c.pattern c.subject = .ok p' ∧ ∀ depth, contractFrom R depth p' = .ok q

/-- What substitution and contraction make of a pattern at any depth is what
the assignment makes of it. -/
theorem Carries.apply (h : Carries R c p q) : c.apply R p = .ok q := by
  obtain ⟨p', hp, hq⟩ := h
  have hall : contractAll R p' = .ok q := by
    rw [contractAll, hq]
    rfl
  rw [Equation.apply, hp]
  exact hall

/-- In a sorted expression no unknown stands in a slot. -/
theorem not_isMarked_of_mem_slots {e : Expr} (he : Sorted R arity e) {x : Var} (hx : x ∈ e.slots) :
    x.marked = false := by
  induction he with
  | app head args ihf ihas =>
    rcases mem_slots_app.1 hx with hx | ⟨a, ha, hx⟩
    · exact ihf hx
    · exact ihas a ha hx
  | apply unknown nonempty takes args ihas =>
    obtain ⟨a, ha, hxa⟩ := (mem_slots_apply unknown).1 hx
    exact ihas a ha hxa
  | bind slots distinct body ih => exact (mem_slots_bind.1 hx).elim (slots x) ih
  | _ => cases hx

/-- So the slots of a sorted pattern do not hold the unknown to which a value
is given, and no binding has to take it. -/
theorem ne_var_of_mem_slots {m : Expr} (hm : m.isMarked = true) (hp : Sorted R arity p) :
    ∀ x ∈ p.slots, m ≠ .var x := by
  rintro x hx rfl
  exact Bool.false_ne_true ((not_isMarked_of_mem_slots hp hx).symm.trans hm)

/-- An unknown that does not occur may be assigned anything. -/
theorem Applied.of_not_mem (hc : c.pattern.isMarked = true) (hp : Sorted R arity p)
    (hfree : c.pattern ∉ p.names) : Applied R arity c p p where
  sorted := hp
  den ρ := by
    have hname := isName_of_isMarked hc
    have hne {n : Expr} (hn : n ∈ p.names) : n ≠ c.pattern := fun h => hfree (h ▸ hn)
    exact den_congr hp fun n hn => ⟨fun _ => (Valuation.assign_val_of_ne hname (hne hn)).symm,
      fun _ => (Valuation.assign_fn_of_ne hname (hne hn)).symm⟩
  unknowns n hn _ := .inl ⟨hn, fun h => hfree (h ▸ hn)⟩

/-- A pattern without the unknown is carried over as it is: nothing is put in,
and no redex stood in a sorted pattern before. -/
theorem Carries.of_not_mem (hc : c.pattern.isMarked = true) (hp : Sorted R arity p)
    (hfree : c.pattern ∉ p.freeNames) : Carries R c p p :=
  ⟨p, subst_of_not_mem (isName_of_isMarked hc) (ne_var_of_mem_slots hc hp) hfree,
    contractFrom_of_sorted hp⟩

/-- **Giving an unknown that is not applied its value.** -/
theorem apply_plain (hc : Proper R arity c) (hplain : arity c.pattern = none)
    (hp : Sorted R arity p) :
    ∃ q, Carries R c p q ∧ Applied R arity c p q ∧ NamesFrom p c.pattern c.subject q := by
  obtain ⟨q, hq, hsub⟩ := subst_spec (.inl ⟨hc.unknown, hplain⟩) hc.value hp
    (ne_var_of_mem_slots hc.unknown hp)
  refine ⟨q, ⟨q, hq, contractFrom_of_sorted hsub.sorted⟩, ⟨hsub.sorted, fun ρ => ?_,
    hsub.names.unknowns⟩, hsub.names⟩
  rw [hsub.den]
  have hname := isName_of_isMarked hc.unknown
  refine den_congr hp fun n _ => ⟨fun _ => rfl, fun hfn => ?_⟩
  refine (Valuation.assign_fn_of_ne (ρ := ρ) hname ?_).symm
  rintro rfl
  exact hfn.2 hplain

/-- A function that takes as many arguments as there are means its body with
the arguments entered for the parameters. -/
theorem call_lambda {us : Binders} {b : Expr} {d : Meaning} {ds : List Meaning}
    (h : us.length = ds.length) : call R ρ (R.lambda us b) d ds = den R (ρ.enter us.toList ds) b := by
  rw [Reserved.lambda, call, if_pos ⟨rfl, h⟩]

/-- What a function gives depends on its free names alone. -/
theorem call_lambda_congr {us : Binders} {b : Expr} (hr : Sorted R arity (R.lambda us b))
    (h : ∀ n ∈ (R.lambda us b).names, Agree arity ρ ρ' n) (d : Meaning) :
    call R ρ (R.lambda us b) d = call R ρ' (R.lambda us b) d := by
  funext ds
  rw [Reserved.lambda, call, call]
  split
  · next hds =>
    cases hr with
    | bind slots distinct body => exact den_congr body (Agree.enter hds.2 slots h)
  · rfl

/-- Entering variables that the value does not hold leaves it as it was. -/
theorem den_enter_assign (hc : Proper R arity c) (hp : Sorted R arity p) {ys : List Var}
    {ds : List Meaning} (hlen : ys.length = ds.length) (slots : ∀ y ∈ ys, y.marked = false)
    (hcapture : c.pattern ∈ p.names → ∀ y ∈ ys, var y ∉ c.subject.names) :
    den R ((ρ.enter ys ds).assign R c) p = den R ((ρ.assign R c).enter ys ds) p := by
  have hname := isName_of_isMarked hc.unknown
  have hval (h : c.pattern ∈ p.names) : den R (ρ.enter ys ds) c.subject = den R ρ c.subject :=
    den_enter_of_not_mem hc.value (hcapture h) ds
  have hys : ∀ y ∈ ys, c.pattern ≠ .var y := by
    intro y hy h
    have hm := hc.unknown
    rw [h] at hm
    exact Bool.false_ne_true ((slots y hy).symm.trans hm)
  refine den_congr hp fun n hn => ⟨fun _ => ?_, fun hfn => ?_⟩
  · by_cases h : n = c.pattern
    · rw [h, Valuation.assign_val_self, Valuation.enter_val_of_not_mem hys,
        Valuation.assign_val_self, hval (h ▸ hn)]
    · rw [Valuation.assign_val_of_ne hname h]
      exact Valuation.enter_val_congr hlen fun _ => (Valuation.assign_val_of_ne hname h).symm
  · rw [Valuation.enter_fn]
    by_cases h : n = c.pattern
    · obtain ⟨k, hk⟩ := Option.ne_none_iff_exists'.1 hfn.2
      obtain ⟨us, b, hr, -, -⟩ := hc.function k (h ▸ hk)
      rw [h, Valuation.assign_fn_self, Valuation.assign_fn_self, hval (h ▸ hn), hr]
      have hcap := hcapture (h ▸ hn)
      rw [hr] at hcap
      refine call_lambda_congr (hr ▸ hc.value) (fun m hm => ⟨fun _ => ?_, fun _ => ?_⟩) _
      · exact Valuation.enter_val_of_not_mem (fun y hy hmy => hcap y hy (hmy ▸ hm)) ds
      · rw [Valuation.enter_fn]
    · rw [Valuation.assign_fn_of_ne hname h, Valuation.assign_fn_of_ne hname h, Valuation.enter_fn]

/-- `V` tells variables apart from the parameters `us` of a function with body
`b`. -/
structure Apart (us : Binders) (b : Expr) (V : Var → Prop) : Prop where
  params : ∀ u ∈ us.toList, u ∉ b.slots ∧ ¬V u
  body : ∀ z ∈ b.vars, z ∈ us.toList ∨ V z

/-- `q` is `p` with an assignment carried out, in variables of `V`, where `b`
is the body of the function that was assigned. -/
structure Carried (R : Reserved) (arity : Arity) (c : Equation) (b : Expr) (V : Var → Prop)
    (p q : Expr) : Prop extends Applied R arity c p q where
  carries : Carries R c p q
  vars : ∀ z ∈ q.vars, V z
  slots : ∀ z ∈ q.slots, z ∈ p.slots ∨ z ∈ b.slots ∨ z.Numbered 'x'
  flat : q.slots ≠ [] → p.slots ≠ [] ∨ b.slots ≠ []

section Function

variable {us : Binders} {b : Expr} {V : Var → Prop} {as bs : List Expr}

/-- What can be carried out on each argument can be carried out on all of them,
in the two passes that `apply` makes: all arguments are substituted in before
any is contracted. -/
theorem carries_all (h : List.Forall₂ (Carries R c) as bs) :
    ∃ as', substAll as c.pattern c.subject = .ok as' ∧
      List.Forall₂ (fun a b => ∀ depth, contractFrom R depth a = .ok b) as' bs := by
  induction h with
  | nil => exact ⟨[], by rw [substAll], .nil⟩
  | cons first _ ih =>
    obtain ⟨a', ha, hb⟩ := first
    obtain ⟨as', has, hbs⟩ := ih
    refine ⟨a' :: as', ?_, .cons hb hbs⟩
    rw [substAll, ha, has]
    rfl

/-- The new arguments mean what the old ones mean after the assignment. -/
theorem map_den_of_applied (h : List.Forall₂ (Applied R arity c) as bs) :
    bs.map (den R ρ) = as.map (den R (ρ.assign R c)) :=
  map_eq_of_forall₂ (h.imp fun _ _ h => h.den ρ)

/-- The new arguments are sorted. -/
theorem sorted_of_applied (h : List.Forall₂ (Applied R arity c) as bs) :
    ∀ a ∈ bs, Sorted R arity a := fun a ha =>
  have ⟨_, _, h⟩ := exists_of_forall₂ h a ha
  h.sorted

/-- An application has a slot in it if one of its parts has. -/
theorem slots_app_ne_nil {f : Expr} :
    (app f as).slots ≠ [] ↔ f.slots ≠ [] ∨ ∃ a ∈ as, a.slots ≠ [] := by
  simp only [ne_eq, List.eq_nil_iff_forall_not_mem, not_forall, not_not, mem_slots_app]
  constructor
  · rintro ⟨x, hx | ⟨a, ha, hx⟩⟩
    · exact .inl ⟨x, hx⟩
    · exact .inr ⟨a, ha, x, hx⟩
  · rintro (⟨x, hx⟩ | ⟨a, ha, x, hx⟩)
    · exact ⟨x, .inl hx⟩
    · exact ⟨x, .inr ⟨a, ha, hx⟩⟩

/-- An application whose head is no application symbol is carried out part by
part.  No redex comes about at its root. -/
theorem Carried.app {f g : Expr} (head : Sorted R arity f) (hf : Carried R arity c b V f g)
    (has : List.Forall₂ (Carried R arity c b V) as bs) :
    Carried R arity c b V (.app f as) (.app g bs) where
  sorted := .app hf.sorted (sorted_of_applied (has.imp fun _ _ h => h.toApplied))
  den ρ := by
    rw [den_app hf.sorted.ne_applySym, den_app head.ne_applySym, hf.den]
    funext n
    have h := congrArg (List.map (· n))
      (map_den_of_applied (ρ := ρ) (has.imp fun _ _ h => h.toApplied))
    rw [List.map_map, List.map_map] at h
    exact congrArg _ h
  unknowns n hn hm := by
    rcases mem_names_app.1 hn with hn | ⟨a', ha', hn⟩
    · exact (hf.unknowns n hn hm).imp_left fun h => ⟨mem_names_app.2 (.inl h.1), h.2⟩
    · obtain ⟨a, ha, h⟩ := exists_of_forall₂ has a' ha'
      exact (h.unknowns n hn hm).imp_left fun h => ⟨mem_names_app.2 (.inr ⟨a, ha, h.1⟩), h.2⟩
  carries := by
    obtain ⟨f', hf', hg⟩ := hf.carries
    obtain ⟨as', has', hbs⟩ := carries_all (has.imp fun _ _ h => h.carries)
    refine ⟨.app f' as', ?_, contractFrom_app (isRedex_of_ne ?_ _) hg hbs⟩
    · rw [subst, hf', has']
      rfl
    · rintro rfl
      exact hf.sorted.ne_applySym (Except.ok.inj (hg 0)).symm
  vars z hz := by
    rcases mem_vars_app.1 hz with hz | ⟨a', ha', hz⟩
    · exact hf.vars z hz
    · obtain ⟨a, -, h⟩ := exists_of_forall₂ has a' ha'
      exact h.vars z hz
  slots z hz := by
    rcases mem_slots_app.1 hz with hz | ⟨a', ha', hz⟩
    · exact (hf.slots z hz).imp_left fun h => mem_slots_app.2 (.inl h)
    · obtain ⟨a, ha, h⟩ := exists_of_forall₂ has a' ha'
      exact (h.slots z hz).imp_left fun h => mem_slots_app.2 (.inr ⟨a, ha, h⟩)
  flat h := by
    rcases slots_app_ne_nil.1 h with h | ⟨a', ha', h⟩
    · exact (hf.flat h).imp_left fun h => slots_app_ne_nil.2 (.inl h)
    · obtain ⟨a, ha, hcar⟩ := exists_of_forall₂ has a' ha'
      exact (hcar.flat h).imp_left fun h => slots_app_ne_nil.2 (.inr ⟨a, ha, h⟩)

/-- The application of another unknown stays one. -/
theorem Carried.apply {m : Expr} (hc : c.pattern.isMarked = true) (hm : m ≠ c.pattern)
    (unknown : m.isMarked = true) (nonempty : as ≠ []) (takes : arity m = some as.length)
    (has : List.Forall₂ (Carried R arity c b V) as bs) (hvars : ∀ z ∈ m.vars, V z) :
    Carried R arity c b V (.app (.sym R.applySym) (m :: as)) (.app (.sym R.applySym) (m :: bs)) where
  sorted := by
    exact .apply unknown (ne_nil_of_forall₂ has nonempty) (takes.trans (congrArg some has.length_eq))
      (sorted_of_applied (has.imp fun _ _ h => h.toApplied))
  den ρ := by
    rw [den_apply unknown nonempty, den_apply unknown (ne_nil_of_forall₂ has nonempty),
      map_den_of_applied (has.imp fun _ _ h => h.toApplied),
      Valuation.assign_fn_of_ne (isName_of_isMarked hc) hm]
  unknowns n hn hmarked := by
    rcases (mem_names_apply unknown).1 hn with rfl | rfl | ⟨a', ha', hna⟩
    · cases hmarked
    · exact .inl ⟨(mem_names_apply unknown).2 (.inr (.inl rfl)), hm⟩
    · obtain ⟨a, ha, h⟩ := exists_of_forall₂ has a' ha'
      refine (h.unknowns n hna hmarked).imp_left fun h => ⟨?_, h.2⟩
      exact (mem_names_apply unknown).2 (.inr (.inr ⟨a, ha, h.1⟩))
  carries := by
    obtain ⟨as', has', hbs⟩ := carries_all (has.imp fun _ _ h => h.carries)
    have hpattern := isName_of_isMarked hc
    refine ⟨.app (.sym R.applySym) (m :: as'), ?_, ?_⟩
    · rw [subst, subst_applySym hc, substAll, subst_of_ne (isName_of_isMarked unknown) hm hpattern, has']
      rfl
    · exact contractFrom_app (isRedex_of_isMarked unknown _) (fun _ => rfl)
        (.cons (contractFrom_of_isMarked unknown) hbs)
  vars z hz := by
    rcases mem_vars_app.1 hz with hz | ⟨a', ha', hza⟩
    · cases hz
    · rcases List.mem_cons.1 ha' with rfl | ha'
      · exact hvars z hza
      · obtain ⟨a, -, h⟩ := exists_of_forall₂ has a' ha'
        exact h.vars z hza
  slots z hz := by
    obtain ⟨a', ha', hza⟩ := (mem_slots_apply unknown).1 hz
    obtain ⟨a, ha, h⟩ := exists_of_forall₂ has a' ha'
    exact (h.slots z hza).imp_left fun h => (mem_slots_apply unknown).2 ⟨a, ha, h⟩
  flat h := by
    rcases slots_app_ne_nil.1 h with h | ⟨a', ha', hslots⟩
    · exact absurd rfl h
    · rcases List.mem_cons.1 ha' with rfl | ha'
      · exact absurd (slots_of_isMarked unknown) hslots
      · obtain ⟨a, ha, hcar⟩ := exists_of_forall₂ has a' ha'
        refine (hcar.flat hslots).imp_left fun h => slots_app_ne_nil.2 (.inr ⟨a, ?_, h⟩)
        exact List.mem_cons_of_mem _ ha

/-- The application of the unknown itself is carried out. -/
theorem Carried.reduce (hc : Proper R arity c) (hr : c.subject = R.lambda us b)
    (hV : Apart us b V) (nonempty : as ≠ []) (hlen : us.length = as.length)
    (has : List.Forall₂ (Carried R arity c b V) as bs)
    (hfresh : (∃ a ∈ as, a.slots ≠ []) ∨ b.slots ≠ [] → ∀ z : Var, z.Numbered 'x' → V z) :
    ∃ q, Carried R arity c b V (.app (.sym R.applySym) (c.pattern :: as)) q := by
  obtain ⟨as', has', hbs⟩ := carries_all (has.imp fun _ _ h => h.carries)
  have hvalue := hc.value
  rw [hr] at hvalue
  obtain ⟨uslots, distinct, body⟩ := sorted_bind.1 hvalue
  have hlen' : us.toList.length = bs.length := hlen.trans has.length_eq
  have hslots (h : ∃ a ∈ b :: bs, a.slots ≠ []) : (∃ a ∈ as, a.slots ≠ []) ∨ b.slots ≠ [] := by
    obtain ⟨a', ha', h⟩ := h
    rcases List.mem_cons.1 ha' with rfl | ha'
    · exact .inr h
    · obtain ⟨a, ha, hcar⟩ := exists_of_forall₂ has a' ha'
      exact (hcar.flat h).imp_left fun h => ⟨a, ha, h⟩
  have hvalue (a' : Expr) (ha' : a' ∈ bs) : Sorted R arity a' ∧ ∀ z ∈ a'.vars, V z := by
    obtain ⟨_, _, h⟩ := exists_of_forall₂ has a' ha'
    exact ⟨h.sorted, h.vars⟩
  obtain ⟨q, hq, hsorted, hden, hvars, hflat, hqslots, hunknowns⟩ := substEach_spec (V := V) body hlen'
    uslots distinct hV.params hV.body hvalue (fun h => hfresh (hslots h))
  refine ⟨q, ⟨hsorted, fun ρ => ?_, fun n hn hm => ?_⟩, ?_, hvars, fun z hz => ?_, fun h => ?_⟩
  · rw [hden, map_den_of_applied (has.imp fun _ _ h => h.toApplied), den_apply hc.unknown nonempty,
      Valuation.assign_fn_self, hr, call_lambda]
    rw [List.length_map]
    exact hlen
  · obtain ⟨a', ha', hn⟩ := hunknowns n hn hm
    rcases List.mem_cons.1 ha' with rfl | ha'
    · refine .inr ?_
      rw [hr]
      exact (mem_names_bind_iff uslots hm).2 hn
    · obtain ⟨a, ha, h⟩ := exists_of_forall₂ has a' ha'
      refine (h.unknowns n hn hm).imp_left fun h => ⟨?_, h.2⟩
      exact (mem_names_apply hc.unknown).2 (.inr (.inr ⟨a, ha, h.1⟩))
  · have hself : c.pattern.subst c.pattern c.subject = .ok c.subject :=
      subst_self (isName_of_isMarked hc.unknown)
    refine ⟨.app (.sym R.applySym) (c.subject :: as'), ?_, fun depth => ?_⟩
    · rw [subst, subst_applySym hc.unknown, substAll, hself, has']
      rfl
    · have hstays := contractFrom_of_sorted hc.value
      rw [hr] at hstays ⊢
      have hne : as' ≠ [] := List.ne_nil_of_length_pos
        (hbs.length_eq ▸ has.length_eq ▸ List.length_pos_of_ne_nil nonempty)
      rw [contractFrom_redex hstays hbs hne hlen', hq]
      rfl
  · rcases hqslots z hz with ⟨a', ha', hz⟩ | hz
    · rcases List.mem_cons.1 ha' with rfl | ha'
      · exact .inr (.inl hz)
      · obtain ⟨a, ha, h⟩ := exists_of_forall₂ has a' ha'
        exact (h.slots z hz).imp_left fun h => (mem_slots_apply hc.unknown).2 ⟨a, ha, h⟩
    · exact .inr (.inr hz)
  · refine (hslots (hflat h)).imp_left fun hslots => ?_
    obtain ⟨a, ha, h⟩ := hslots
    exact slots_app_ne_nil.2 (.inr ⟨a, List.mem_cons_of_mem _ ha, h⟩)

/-- A binding cleared for the value. -/
theorem Carried.bind {f : Sym} {xs ys : Binders} {e e' d : Expr} (hc : Proper R arity c)
    (hp : Sorted R arity (.bind f xs e))
    (hclear : clearOf f c.pattern c.subject xs e = .ok (ys, e')) (hreb : Rebound R arity f xs e ys e')
    (hcapture : c.pattern ∈ e'.names → ∀ y ∈ ys.toList, .var y ∉ c.subject.names)
    (hys : ∀ y ∈ ys.toList, V y)
    (hslots : ∀ z ∈ (Expr.bind f ys e').slots, z ∈ (Expr.bind f xs e).slots ∨ z.Numbered 'x')
    (hd : Carried R arity c b V e' d) : Carried R arity c b V (.bind f xs e) (.bind f ys d) := by
  obtain ⟨slots, distinct, body⟩ := sorted_bind.1 hreb.sorted
  have hplain := (sorted_bind.1 hp).1
  refine ⟨⟨.bind slots distinct hd.sorted, fun ρ => ?_, fun n hn hm => ?_⟩, ?_, fun z hz => ?_,
    fun z hz => ?_, fun _ => .inl ?_⟩
  · have hlevels (n : Nat) : ys.toList.length = (Meaning.levels n ys.length).length :=
      (Meaning.length_levels ..).symm
    rw [Expr.den, Expr.den]
    funext n
    rw [hd.den, den_enter_assign hc body (hlevels n) slots hcapture, hreb.den _ _ (hreb.length ▸ hlevels n),
      hreb.length]
  · rw [mem_names_bind_iff slots hm] at hn
    refine (hd.unknowns n hn hm).imp_left fun h => ⟨?_, h.2⟩
    exact (mem_names_bind_iff hplain hm).2 ((hreb.unknowns n hm).1 h.1)
  · obtain ⟨d', hd', hcontract⟩ := hd.carries
    refine ⟨.bind f ys d', ?_, fun depth => ?_⟩
    · have hbound : xs.bound? c.pattern = none := by
        refine bound?_eq_none fun x hx h => ?_
        have hm := hc.unknown
        rw [h] at hm
        exact Bool.false_ne_true ((hplain x hx).symm.trans hm)
      rw [subst_bind hbound hclear, hd']
      rfl
    · rw [contractFrom, hcontract]
      rfl
  · exact (mem_vars_bind.1 hz).elim (hys z) (hd.vars z)
  · rcases mem_slots_bind.1 hz with hz | hz
    · exact (hslots z (mem_slots_bind.2 (.inl hz))).imp_right .inr
    · rcases hd.slots z hz with hz | hz
      · exact (hslots z (mem_slots_bind.2 (.inr hz))).imp_right .inr
      · exact .inr hz
  · exact List.ne_nil_of_mem (mem_slots_bind.2 (.inl List.mem_cons_self) : xs.first ∈ _)

/-- What `Carried` asks of a pattern. -/
def Within (V : Var → Prop) (b p : Expr) : Prop :=
  (∀ z ∈ p.vars, V z) ∧ (p.slots ≠ [] ∨ b.slots ≠ [] → ∀ z : Var, z.Numbered 'x' → V z)

/-- What is asked of a pattern holds of its parts, since they bring in no
variable and no slot of their own. -/
theorem Within.part {e : Expr} (h : Within V b p) (hvars : ∀ z ∈ e.vars, z ∈ p.vars)
    (hslots : ∀ z ∈ e.slots, z ∈ p.slots) : Within V b e := by
  refine ⟨fun z hz => h.1 z (hvars z hz), fun he => h.2 (he.imp_left fun he => ?_)⟩
  obtain ⟨z, hz⟩ := List.exists_mem_of_ne_nil _ he
  exact List.ne_nil_of_mem (hslots z hz)

/-- **Giving an unknown function its value.**  Every application of it becomes
a redex and is carried out; the parameters of the function do not show in the
result. -/
theorem apply_function (hc : Proper R arity c) (hr : c.subject = R.lambda us b)
    (hk : arity c.pattern = some us.length) (hV : Apart us b V) (hp : Sorted R arity p)
    (hwithin : Within V b p) : ∃ q, Carried R arity c b V p q := by
  -- On the size: a binding makes way first, and then has another body than it was built from.
  induction hn : p.size using Nat.strongRecOn generalizing p with
  | ind n ih =>
    have hstay (hfree : c.pattern ∉ p.freeNames) : ∃ q, Carried R arity c b V p q :=
      ⟨p, .of_not_mem hc.unknown hp (mt mem_freeNames_of_mem_names hfree),
        .of_not_mem hc.unknown hp hfree, hwithin.1, fun _ => .inl, .inl⟩
    have hplain {m : Expr} (h : m.isMarked = true → arity m = none) : c.pattern ≠ m := by
      rintro rfl
      cases hk.symm.trans (h hc.unknown)
    have hargs {as : List Expr} (hsize : ∀ a ∈ as, a.size < n) (hsorted : ∀ a ∈ as, Sorted R arity a)
        (hvars : ∀ a ∈ as, ∀ z ∈ a.vars, z ∈ p.vars) (hslots : ∀ a ∈ as, ∀ z ∈ a.slots, z ∈ p.slots) :
        ∃ bs, List.Forall₂ (Carried R arity c b V) as bs :=
      exists_forall₂ fun a ha =>
        ih a.size (hsize a ha) (hsorted a ha) (hwithin.part (hvars a ha) (hslots a ha)) rfl
    cases hp with
    | @var x plain =>
      exact hstay fun h => hplain (m := .var x) plain (List.mem_singleton.1 h)
    | @sym f _ plain =>
      exact hstay fun h => hplain (m := .sym f) plain (List.mem_singleton.1 h)
    | int | float | str => exact hstay List.not_mem_nil
    | @app f as head args =>
      rw [size] at hn
      have hpos := sizeAll_pos as
      obtain ⟨g, hf⟩ := ih f.size (by omega) head (hwithin.part
        (fun z hz => mem_vars_app.2 (.inl hz)) fun z hz => mem_slots_app.2 (.inl hz)) rfl
      obtain ⟨bs, has⟩ := hargs
        (fun a ha => by have := size_lt_of_mem ha; have := size_pos f; omega) args
        (fun a ha z hz => mem_vars_app.2 (.inr ⟨a, ha, hz⟩))
        (fun a ha z hz => mem_slots_app.2 (.inr ⟨a, ha, hz⟩))
      exact ⟨_, .app head hf has⟩
    | @apply m as unknown nonempty takes args =>
      rw [size, sizeAll] at hn
      have hpos := size_pos m
      obtain ⟨bs, has⟩ := hargs (fun a ha => by have := size_lt_of_mem ha; omega) args
        (fun a ha z hz => mem_vars_app.2 (.inr ⟨a, List.mem_cons_of_mem _ ha, hz⟩))
        (fun a ha z hz => mem_slots_app.2 (.inr ⟨a, List.mem_cons_of_mem _ ha, hz⟩))
      by_cases hm : m = c.pattern
      · subst hm
        refine Carried.reduce hc hr hV nonempty (Option.some.inj (hk.symm.trans takes)) has fun h => ?_
        refine hwithin.2 (h.imp_left fun h => ?_)
        obtain ⟨a, ha, hslots⟩ := h
        exact slots_app_ne_nil.2 (.inr ⟨a, List.mem_cons_of_mem _ ha, hslots⟩)
      · refine ⟨_, .apply hc.unknown hm unknown nonempty takes has fun z hz => hwithin.1 z ?_⟩
        exact mem_vars_app.2 (.inr ⟨m, List.mem_cons_self, hz⟩)
    | @bind f xs e slots distinct body =>
      have hbind : Sorted R arity (.bind f xs e) := .bind slots distinct body
      obtain ⟨ys, e', hclear, hreb, hvars, hslots, hcapture, hstays⟩ :=
        clearOf_spec (r := c.subject) (isName_of_isMarked hc.unknown) hbind
      have hX : ∀ z : Var, z.Numbered 'x' → V z :=
        hwithin.2 (.inl (List.ne_nil_of_mem (mem_slots_bind.2 (.inl List.mem_cons_self) : xs.first ∈ _)))
      have hV' (z : Var) (hz : z ∈ (Expr.bind f ys e').vars) : V z :=
        (hvars z hz).elim (hwithin.1 z) (hX z)
      have hbody : Sorted R arity e' := (sorted_bind.1 hreb.sorted).2.2
      obtain ⟨d, hd⟩ := ih e'.size (by rw [hreb.size, ← hn, size]; omega) hbody
        ⟨fun z hz => hV' z (mem_vars_bind.2 (.inr hz)), fun _ => hX⟩ rfl
      refine ⟨_, .bind hc hbind hclear hreb (fun h => hcapture ((hreb.unknowns _ hc.unknown).1 h))
        (fun y hy => hV' y (mem_vars_bind.2 (.inl hy))) hslots hd⟩

end Function

/-- The variable is a parameter of the function that an unknown is assigned. -/
def IsParam (R : Reserved) (arity : Arity) (c : Equation) (u : Var) : Prop :=
  arity c.pattern ≠ none ∧ ∃ us b, c.subject = R.lambda us b ∧ u ∈ us.toList

/-- Neither the pattern nor the value, but for the function itself, has a
binding. -/
structure Flat (R : Reserved) (arity : Arity) (c : Equation) (p : Expr) : Prop where
  pattern : p.slots = []
  plain : arity c.pattern = none → c.subject.slots = []
  function : arity c.pattern ≠ none → ∀ us b, c.subject = R.lambda us b → b.slots = []

/-- The value, but for the function itself, has no binding. -/
structure Bare (R : Reserved) (arity : Arity) (c : Equation) : Prop where
  plain : arity c.pattern = none → c.subject.slots = []
  function : arity c.pattern ≠ none → ∀ us b, c.subject = R.lambda us b → b.slots = []

/-- A value without bindings and a pattern without bindings are all that `Flat`
asks for. -/
theorem Bare.flat (h : Bare R arity c) {p : Expr} (hp : p.slots = []) : Flat R arity c p :=
  ⟨hp, h.plain, h.function⟩

/-- Whether a value is bare depends on the number of arguments that the
assigned unknown takes, and on no other unknown. -/
theorem Bare.congr {arity' : Arity} (h : Bare R arity c) (hc : arity' c.pattern = arity c.pattern) :
    Bare R arity' c := ⟨fun hk => h.plain (hc ▸ hk), fun hk => h.function (hc ▸ hk)⟩

/-- **Carrying out an assignment** is not refused and is evaluation where the
unknown means its value, as long as no parameter occurs in the pattern or could
be taken for a fresh variable. -/
theorem carries_spec (hc : Proper R arity c) (hp : Sorted R arity p)
    (hparam : ∀ u, IsParam R arity c u → u ∉ p.vars)
    (hstem : ¬Flat R arity c p → ∀ u, IsParam R arity c u → ¬u.Numbered 'x') :
    ∃ q, Carries R c p q ∧ Applied R arity c p q ∧
      (∀ z ∈ q.vars, z ∈ p.vars ∨ z ∈ c.subject.vars ∨ ¬Flat R arity c p ∧ z.Numbered 'x') ∧
      (∀ z ∈ q.slots, z ∈ p.slots ∨ z ∈ c.subject.slots ∨ z.Numbered 'x') ∧
      (Flat R arity c p → q.slots = []) := by
  cases hk : arity c.pattern with
  | none =>
    obtain ⟨q, hq, happ, hnames⟩ := apply_plain hc hk hp
    refine ⟨q, hq, happ, fun z hz => ?_, fun z hz => ?_, fun hflat => ?_⟩
    · rcases hnames.vars z hz with h | h | ⟨⟨x, hx⟩, h⟩
      · exact .inl h.1
      · exact .inr (.inl h)
      · refine .inr (.inr ⟨fun hflat => ?_, h⟩)
        rw [hflat.pattern] at hx
        cases hx
    · exact (hnames.slots z hz).imp_right (Or.imp_right And.right)
    · refine List.eq_nil_iff_forall_not_mem.2 fun z hz => ?_
      have hslots := hnames.slots z hz
      rw [hflat.pattern, hflat.plain hk] at hslots
      rcases hslots with h | h | ⟨⟨x, h⟩, -⟩ <;> cases h
  | some k =>
    obtain ⟨us, b, hr, rfl, hslots⟩ := hc.function k hk
    have hfn : arity c.pattern ≠ none := by rw [hk]; nofun
    have hus (u : Var) (hu : u ∈ us.toList) : IsParam R arity c u := ⟨hfn, us, b, hr, hu⟩
    let V (z : Var) : Prop :=
      z ∉ us.toList ∧ (z ∈ p.vars ∨ z ∈ c.subject.vars ∨ ¬Flat R arity c p ∧ z.Numbered 'x')
    have hV : Apart us b V := by
      refine ⟨fun u hu => ⟨hslots u hu, fun h => h.1 hu⟩, fun z hz => ?_⟩
      by_cases hzus : z ∈ us.toList
      · exact .inl hzus
      · refine .inr ⟨hzus, .inr (.inl ?_)⟩
        rw [hr]
        exact mem_vars_bind.2 (.inr hz)
    have hflat : p.slots ≠ [] ∨ b.slots ≠ [] → ¬Flat R arity c p := by
      rintro (h | h) hflat
      · exact h hflat.pattern
      · exact h (hflat.function hfn us b hr)
    have hwithin : Within V b p := by
      refine ⟨fun z hz => ⟨fun h => hparam z (hus z h) hz, .inl hz⟩, fun h z hz => ⟨fun hu => ?_, ?_⟩⟩
      · exact hstem (hflat h) z (hus z hu) hz
      · exact .inr (.inr ⟨hflat h, hz⟩)
    obtain ⟨q, hq⟩ := apply_function hc hr hk hV hp hwithin
    refine ⟨q, hq.carries, hq.toApplied, fun z hz => (hq.vars z hz).2, fun z hz => ?_, fun h => ?_⟩
    · refine (hq.slots z hz).imp_right (Or.imp_left fun hz => ?_)
      rw [hr]
      exact mem_slots_bind.2 (.inr hz)
    exact Classical.byContradiction fun hne => hflat (hq.flat hne) h

end Equation
end SecondOrder
