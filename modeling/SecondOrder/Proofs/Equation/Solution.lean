/-
# What a solution means

A list of assignments changes a valuation: the unknowns that it assigns mean
what their values mean (`Valuation.under`).  It solves an equation if the
pattern then means what the subject means, whatever the other names mean
(`Equation.Solved`).

If no value holds an unknown, the assignments can be looked up one by one
(`under_val`, `under_fn`), and applying them in order to the pattern of an
equation that they solve makes the pattern similar to the subject
(`applyAll_similar`).
-/

import SecondOrder.EquationSet.Instantiate
import SecondOrder.Proofs.Equation.Apply
import SecondOrder.Proofs.Expr.Alpha

namespace SecondOrder

/-- The valuation under which the unknowns that `S` assigns mean what their
values mean. -/
def Valuation.under (R : Reserved) (ρ : Valuation) : List Equation → Valuation
  | [] => ρ
  | c :: S => (under R ρ S).assign R c

/-- The pattern means in `V ρ` what the subject means in `ρ`. -/
def Equation.SolvedIn (R : Reserved) (V : Valuation → Valuation) (c : Equation) : Prop :=
  ∀ ρ : Valuation, c.pattern.den R (V ρ) = c.subject.den R ρ

/-- The assignments make the pattern mean what the subject means. -/
abbrev Equation.Solved (R : Reserved) (S : List Equation) (c : Equation) : Prop :=
  c.SolvedIn R (Valuation.under R · S)

namespace Expr

variable {R : Reserved} {arity : Arity} {ρ ρ' : Valuation} {e r n : Expr}

/-- An unknown that occurs is not a function of no arguments. -/
theorem Sorted.ne_zero (he : Sorted R arity e) (hn : n ∈ e.names) (hm : n.isMarked = true) :
    arity n ≠ some 0 := by
  induction he with
  | @var x plain =>
    obtain rfl := List.mem_singleton.1 hn
    rw [plain hm]
    nofun
  | @sym f _ plain =>
    obtain rfl := List.mem_singleton.1 hn
    rw [plain hm]
    nofun
  | app head args ihf ihas =>
    rcases mem_names_app.1 hn with hn | ⟨a, ha, hn⟩
    · exact ihf hn
    · exact ihas a ha hn
  | @apply m as unknown nonempty takes args ihas =>
    rcases (mem_names_apply unknown).1 hn with rfl | rfl | ⟨a, ha, hna⟩
    · cases hm
    · rw [takes]
      exact fun h => nonempty (List.length_eq_zero_iff.1 (Option.some.inj h))
    · exact ihas a ha hna
  | bind slots distinct body ih =>
    exact ih ((mem_names_bind_iff slots hm).1 hn)
  | _ => cases hn

/-- No unknown is free in a ground expression. -/
theorem not_isMarked_of_mem_names (hr : Ground R r) (hn : n ∈ r.names) :
    n.isMarked = false :=
  Bool.eq_false_iff.2 fun hm => (hr fun _ => some 0).ne_zero hn hm rfl

/-- A sorted expression without unknowns is ground. -/
theorem ground_of_sorted (he : Sorted R arity e) (h : ∀ n ∈ e.names, n.isMarked = false) :
    Ground R e := fun _ =>
  he.congr fun n hn hm => absurd ((h n hn).symm.trans hm) Bool.false_ne_true

/-- What a ground expression means does not depend on the unknowns. -/
theorem den_ground (hr : Ground R r) (h : ∀ n ∈ r.names, ρ.val n = ρ'.val n) :
    den R ρ r = den R ρ' r :=
  den_congr (hr fun _ => none) fun n hn => ⟨fun _ => h n hn, fun hfn => absurd rfl hfn.2⟩

/-- What it gives when it is applied does not either. -/
theorem call_ground (hr : Ground R r) (h : ∀ n ∈ r.names, ρ.val n = ρ'.val n) (d : Meaning) :
    call R ρ r d = call R ρ' r d := by
  funext ds
  cases r with
  | bind f us b =>
    rw [call, call]
    split
    · next hds =>
      have hlen : us.toList.length = ds.length := hds.2
      refine congrArg (fun d : Meaning => d) (den_ground (ground_of_bind hr) fun n hn => ?_)
      exact Valuation.enter_val_congr hlen fun hfree => h n (mem_names_bind.2 ⟨hn, hfree⟩)
    · rfl
  | var x =>
    rw [call, call, not_isMarked_of_ground hr] <;> simp
  | sym f =>
    rw [call, call, not_isMarked_of_ground hr] <;> simp
  | _ => rfl

end Expr

/-- Every equation gives an unknown a value without unknowns. -/
def GroundValues (R : Reserved) (S : List Equation) : Prop :=
  ∀ c ∈ S, c.pattern.isMarked = true ∧ Expr.Ground R c.subject

namespace Valuation

open SecondOrder.Expr

variable {R : Reserved} {ρ : Valuation} {S : List Equation}

/-- Assignments are to unknowns, so all other names keep their meaning. -/
theorem under_val_of_not_isMarked (h : ∀ c ∈ S, c.pattern.isMarked = true) {n : Expr}
    (hn : n.isMarked = false) : (ρ.under R S).val n = ρ.val n := by
  induction S with
  | nil => rfl
  | cons c S ih =>
    rw [List.forall_mem_cons] at h
    rw [under, assign_val_of_ne (isName_of_isMarked h.1), ih h.2]
    rintro rfl
    exact Bool.false_ne_true (hn.symm.trans h.1)

/-- A ground expression means the same whatever is assigned. -/
theorem den_under (h : ∀ c ∈ S, c.pattern.isMarked = true) {r : Expr} (hr : Ground R r) :
    r.den R (ρ.under R S) = r.den R ρ :=
  den_ground hr fun _ hn => under_val_of_not_isMarked h (not_isMarked_of_mem_names hr hn)

/-- **The value of an unknown is that of the first assignment to it.** -/
theorem under_val (h : GroundValues R S) (n : Expr) :
    (ρ.under R S).val n = match S.find? (n == ·.pattern) with
      | some c => c.subject.den R ρ
      | none => ρ.val n := by
  induction S with
  | nil => rfl
  | cons c S ih =>
    obtain ⟨hc, hS⟩ := List.forall_mem_cons.1 h
    rw [under, assign, List.find?_cons]
    dsimp only
    cases hn : n == c.pattern with
    | false => exact ih hS
    | true => exact den_under (fun d hd => (hS d hd).1) hc.2

/-- As an operation an unknown is what its value does with arguments, if it has
one. -/
theorem under_fn (h : GroundValues R S) (n : Expr) :
    (ρ.under R S).fn n = match S.find? (n == ·.pattern) with
      | some c => c.subject.call R ρ (c.subject.den R ρ)
      | none => ρ.fn n := by
  induction S with
  | nil => rfl
  | cons c S ih =>
    obtain ⟨hc, hS⟩ := List.forall_mem_cons.1 h
    rw [under, assign, List.find?_cons]
    dsimp only
    cases hn : n == c.pattern with
    | false => exact ih hS
    | true =>
      have hmarked (d : Equation) (hd : d ∈ S) := (hS d hd).1
      dsimp only
      rw [if_pos rfl, den_under hmarked hc.2]
      refine call_ground hc.2 (fun n hn => ?_) _
      exact under_val_of_not_isMarked hmarked (not_isMarked_of_mem_names hc.2 hn)

/-- What is looked up is an assignment to that unknown. -/
theorem mem_of_find?_pattern (h : GroundValues R S) {n : Expr} {c : Equation}
    (hc : S.find? (n == ·.pattern) = some c) : c ∈ S ∧ n = c.pattern := by
  have hmem := List.mem_of_find?_eq_some hc
  have hbeq : (n == c.pattern) = true := by
    have := List.find?_some hc
    exact this
  exact ⟨hmem, (beq_name_iff (isName_of_isMarked (h c hmem).1)).1 hbeq⟩

/-- Variables that no value of an unknown in `p` holds may be entered before or
after. -/
theorem den_enter_under {arity : Arity} (h : GroundValues R S) {p : Expr} (hp : Sorted R arity p)
    {ys : List Var} {ds : List Meaning} (hlen : ys.length = ds.length)
    (slots : ∀ y ∈ ys, y.marked = false)
    (hcapture : ∀ c ∈ S, c.pattern ∈ p.names → ∀ y ∈ ys, var y ∉ c.subject.names) :
    p.den R ((ρ.enter ys ds).under R S) = p.den R ((ρ.under R S).enter ys ds) := by
  have hval {c : Equation} (hmem : c ∈ S) (hp : c.pattern ∈ p.names) (n : Expr)
      (hn : n ∈ c.subject.names) : (ρ.enter ys ds).val n = ρ.val n :=
    enter_val_of_not_mem (fun y hy he => hcapture c hmem hp y hy (he ▸ hn)) ds
  refine den_congr hp fun n hn => ⟨fun _ => ?_, fun _ => ?_⟩
  · cases hc : S.find? (n == ·.pattern) with
    | none =>
      rw [under_val h, hc]
      refine enter_val_congr hlen fun _ => ?_
      rw [under_val h, hc]
    | some c =>
      obtain ⟨hmem, hnc⟩ := mem_of_find?_pattern h hc
      have hne : ∀ y ∈ ys, n ≠ .var y := by
        intro y hy he
        have hm := (h c hmem).1
        rw [← hnc, he] at hm
        exact Bool.false_ne_true ((slots y hy).symm.trans hm)
      rw [under_val h, hc]
      dsimp only
      rw [enter_val_of_not_mem hne, under_val h, hc]
      exact den_ground (h c hmem).2 (hval hmem (hnc ▸ hn))
  · rw [under_fn h, enter_fn, enter_fn, under_fn h]
    cases hc : S.find? (n == ·.pattern) with
    | none => rfl
    | some c =>
      obtain ⟨hmem, hnc⟩ := mem_of_find?_pattern h hc
      have hnames := hval hmem (hnc ▸ hn)
      dsimp only
      rw [den_ground (h c hmem).2 hnames]
      exact call_ground (h c hmem).2 hnames _

end Valuation

namespace Equation

open SecondOrder.Expr

variable {R : Reserved} {arity : Arity} {S : List Equation} {c d : Equation}

/-- Of two equations that are the same both are solved or neither is. -/
theorem SolvedIn.congr {V : Valuation → Valuation} (hc : Sorted R arity c.pattern ∧ Ground R c.subject)
    (hd : Sorted R arity d.pattern ∧ Ground R d.subject) (h : (c == d) = true) :
    SolvedIn R V c ↔ SolvedIn R V d := by
  have h : (c.pattern.similar d.pattern && c.subject.similar d.subject) = true := h
  rw [Bool.and_eq_true] at h
  have hp := (similar_iff hc.1 hd.1).1 h.1
  have he := (similar_iff (hc.2 arity) (hd.2 arity)).1 h.2
  exact forall_congr' fun ρ => by rw [hp, he]

/-- An assignment carried out need not be assigned again. -/
theorem Applied.solved {p : Expr} (h : Applied R arity c d.pattern p) :
    Solved R S ⟨p, d.subject⟩ ↔ Solved R (c :: S) d := by
  refine forall_congr' fun ρ => ?_
  dsimp only
  rw [h.den]
  rfl

end Equation

namespace EquationSet

open SecondOrder.Expr Equation

variable {R : Reserved} {arity : Arity} {S : List Equation} {c : Equation}

/-- **Applying assignments in order** is evaluation under all of them, as long
as the parameters of every function occur neither in the pattern nor in the
values before. -/
theorem applyAll_spec {p : Expr} (hS : ∀ c ∈ S, Proper R arity c) (hp : Sorted R arity p)
    (hparam : ∀ c ∈ S, ∀ u, IsParam R arity c u → u ∉ p.vars ∧ ¬u.Numbered 'x')
    (hapart : S.Pairwise fun c d => ∀ u, IsParam R arity d u → u ∉ c.subject.vars) :
    ∃ q, applyAll R S p = .ok q ∧ Sorted R arity q ∧
      ∀ ρ : Valuation, q.den R ρ = p.den R (ρ.under R S) := by
  induction S generalizing p with
  | nil => exact ⟨p, rfl, hp, fun _ => rfl⟩
  | cons c S ih =>
    rw [List.forall_mem_cons] at hS hparam
    rw [List.pairwise_cons] at hapart
    obtain ⟨p', hcarries, happ, hvars, -, -⟩ := carries_spec hS.1 hp (fun u hu => (hparam.1 u hu).1)
      fun _ u hu => (hparam.1 u hu).2
    have hrest (d : Equation) (hd : d ∈ S) (u : Var) (hu : IsParam R arity d u) :
        u ∉ p'.vars ∧ ¬u.Numbered 'x' := by
      have hfresh := hparam.2 d hd u hu
      refine ⟨fun hup => ?_, hfresh.2⟩
      rcases hvars u hup with h | h | h
      · exact hfresh.1 h
      · exact hapart.1 d hd u hu h
      · exact hfresh.2 h.2
    obtain ⟨q, hq, hsorted, hden⟩ := ih hS.2 happ.sorted hrest hapart.2
    refine ⟨q, ?_, hsorted, fun ρ => (hden ρ).trans (happ.den _)⟩
    rw [applyAll, List.foldlM_cons, hcarries.apply]
    exact hq

/-- **Assignments that solve an equation make its pattern similar to its
subject.** -/
theorem applyAll_similar (hS : ∀ c ∈ S, Proper R arity c) (hp : Sorted R arity c.pattern)
    (he : Ground R c.subject)
    (hparam : ∀ d ∈ S, ∀ u, IsParam R arity d u → u ∉ c.pattern.vars ∧ ¬u.Numbered 'x')
    (hapart : S.Pairwise fun c d => ∀ u, IsParam R arity d u → u ∉ c.subject.vars)
    (hsolved : c.Solved R S) : ∃ q, applyAll R S c.pattern = .ok q ∧ q.similar c.subject = true := by
  obtain ⟨q, hq, hsorted, hden⟩ := applyAll_spec hS hp hparam hapart
  exact ⟨q, hq, (similar_iff hsorted (he arity)).2 fun ρ => (hden ρ).trans (hsolved ρ)⟩

end EquationSet
end SecondOrder
