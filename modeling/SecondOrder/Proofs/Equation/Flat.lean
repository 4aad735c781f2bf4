/-
# Without bindings

An expression without bindings is similar only to itself
(`Expr.similar_eq_beq`), and values without bindings make of a pattern without
bindings an expression without bindings, in whatever order they are applied
(`EquationSet.applyAll_flat`): no variable is ever renamed, so that only the
parameters of the functions have to be apart.
-/

import SecondOrder.Proofs.Expr.Template

namespace SecondOrder

namespace Expr

variable {R : Reserved} {arity : Arity} {a b : Expr}

/-- An application has no bindings if its parts have none. -/
theorem slots_app_eq_nil {f : Expr} {as : List Expr} :
    (app f as).slots = [] ↔ f.slots = [] ∧ ∀ a ∈ as, a.slots = [] := by
  simp only [List.eq_nil_iff_forall_not_mem, mem_slots_app, not_or, not_exists, not_and]
  exact ⟨fun h => ⟨fun x => (h x).1, fun a ha x => (h x).2 a ha⟩,
    fun h x => ⟨h.1 x, fun a ha => h.2 a ha x⟩⟩

/-- Every binding has a slot. -/
theorem slots_bind_ne_nil {f : Sym} {xs : Binders} {e : Expr} : (bind f xs e).slots ≠ [] :=
  List.ne_nil_of_mem (mem_slots_bind.2 (.inl List.mem_cons_self) : xs.first ∈ _)

/-- Arguments without bindings are compared as nodes, if that is known of each
argument. -/
theorem alphaInAll_eq_sameAll {as bs : List Expr} (h : ∀ a ∈ as, ∀ b, alphaIn [] a b = a.same b) :
    alphaInAll [] as bs = sameAll as bs := by
  induction as generalizing bs with
  | nil => cases bs <;> rfl
  | cons a as ih =>
    cases bs with
    | nil => rfl
    | cons b bs =>
      rw [alphaInAll, sameAll, h a List.mem_cons_self, ih fun a ha => h a (List.mem_cons_of_mem _ ha)]

/-- Without bindings there are no bound names. -/
theorem alphaIn_eq_same (ha : a.slots = []) (b : Expr) : alphaIn [] a b = a.same b := by
  induction a generalizing b with
  | app f as ihf ihas =>
    obtain ⟨hf, has⟩ := slots_app_eq_nil.1 ha
    cases b with
    | app g bs => rw [alphaIn, same, ihf hf, alphaInAll_eq_sameAll fun a ha => ihas a ha (has a ha)]
    | _ => rfl
  | bind => exact absurd ha slots_bind_ne_nil
  | _ => cases b <;> rfl

/-- **Without bindings to be similar is to be equal.** -/
theorem similar_eq_beq (ha : a.slots = []) (b : Expr) : a.similar b = (a == b) := by
  rw [similar, alphaEquivalent, alphaEq, alphaIn_eq_same ha, beq_eq_same]
  cases a.same b <;> simp

/-- Arguments that are equal nodes have the same variables, if that is known of
each argument. -/
theorem varsAll_eq_of_sameAll {as bs : List Expr} (h : ∀ a ∈ as, ∀ b, a.same b = true → a.vars = b.vars)
    (hsame : sameAll as bs = true) : varsAll as = varsAll bs := by
  have hmap : bs.map vars = as.map vars :=
    map_eq_of_forall₂ (forall₂_imp_of_mem (sameAll_iff.1 hsame) fun a ha b _ hab => (h a ha b hab).symm)
  rw [varsAll_eq_flatMap, varsAll_eq_flatMap, List.flatMap_def, List.flatMap_def, hmap]

/-- Equal nodes have the same variables. -/
theorem vars_eq_of_same (h : a.same b = true) : a.vars = b.vars := by
  induction a generalizing b with
  | app f as ihf ihas =>
    cases b <;> simp only [same, Bool.and_eq_true, Bool.false_eq_true] at h
    rw [vars, vars, ihf h.1, varsAll_eq_of_sameAll (fun a ha b => ihas a ha) h.2]
  | bind f xs e ih =>
    cases b <;> simp only [same, Bool.and_eq_true, beq_iff_eq, Bool.false_eq_true] at h
    rw [vars, vars, h.1.2, ih h.2]
  | var x => cases b <;> simp_all [same, vars]
  | _ => cases b <;> first | rfl | cases h

/-- The slots in the term of an expression without bindings are those that were
entered. -/
theorem below_den (ha : Ground R a) (hflat : a.slots = []) (us : List Var) (n : Nat) :
    (a.den R ((Valuation.free R).enter us (Meaning.levels 0 us.length)) n).Below us.length := by
  induction a with
  | var x =>
    by_cases hx : x ∈ us
    · obtain ⟨i, hi, hval⟩ := mem_levels
        (enter_val_of_mem (φ := Valuation.free R) hx (Meaning.length_levels 0 us.length).symm)
      rw [den, hval]
      intro j hj
      cases List.mem_singleton.1 hj
      rwa [Nat.zero_add] at hi
    · rw [den, Valuation.enter_val_of_not_mem fun y hy h => hx (by rwa [var.inj h])]
      intro i hi
      cases List.mem_singleton.1 hi
  | sym f =>
    rw [den, Valuation.enter_val_sym]
    intro i hi
    split at hi <;> cases List.mem_singleton.1 hi
  | app f as ihf ihas =>
    obtain ⟨hf, has⟩ := ground_of_app ha
    obtain ⟨hfslots, hslots⟩ := slots_app_eq_nil.1 hflat
    rw [den_app (hf fun _ => none).ne_applySym, Term.below_app]
    refine ⟨ihf hf hfslots, fun t ht => ?_⟩
    obtain ⟨a, hmem, rfl⟩ := List.mem_map.1 ht
    exact ihas a hmem (has a hmem) (hslots a hmem)
  | bind => exact absurd hflat slots_bind_ne_nil
  | _ =>
    intro i hi
    cases List.mem_singleton.1 hi

end Expr

namespace EquationSet

open SecondOrder.Expr Equation

variable {R : Reserved} {arity : Arity} {S : List Equation} {p : Expr}

/-- **Assignments without bindings** can be applied in order to a pattern
without bindings, if the parameters of every function occur neither in the
pattern nor in the values before. -/
theorem applyAll_flat (hS : ∀ c ∈ S, Proper R arity c ∧ Ground R c.subject ∧ Bare R arity c)
    (hp : Sorted R arity p) (hflat : p.slots = [])
    (hparam : ∀ c ∈ S, ∀ u, IsParam R arity c u → u ∉ p.vars)
    (hapart : S.Pairwise fun c d => ∀ u, IsParam R arity d u → u ∉ c.subject.vars) :
    ∃ q, applyAll R S p = .ok q ∧ Sorted R arity q ∧ q.slots = [] ∧
      (∀ ρ : Valuation, q.den R ρ = p.den R (ρ.under R S)) ∧
      (∀ z ∈ q.vars, z ∈ p.vars ∨ ∃ c ∈ S, z ∈ c.subject.vars) ∧
      ∀ n ∈ q.names, n.isMarked = true → n ∈ p.names ∧ ∀ c ∈ S, n ≠ c.pattern := by
  induction S generalizing p with
  | nil => exact ⟨p, rfl, hp, hflat, fun _ => rfl, fun _ => .inl, fun n hn _ => ⟨hn, nofun⟩⟩
  | cons c S ih =>
    rw [List.forall_mem_cons] at hS hparam
    rw [List.pairwise_cons] at hapart
    obtain ⟨⟨hproper, hground, hbare⟩, hS⟩ := hS
    have hplain := hbare.flat hflat
    obtain ⟨p', hcarries, happ, hvars, -, hslots⟩ :=
      carries_spec hproper hp hparam.1 fun h => absurd hplain h
    have hvars' (z : Var) (hz : z ∈ p'.vars) : z ∈ p.vars ∨ z ∈ c.subject.vars :=
      (hvars z hz).imp_right fun h => h.resolve_right fun h => h.1 hplain
    obtain ⟨q, hq, hsorted, hqslots, hden, hqvars, hnames⟩ := ih hS happ.sorted (hslots hplain)
      (fun d hd u hu hup => (hvars' u hup).elim (hparam.2 d hd u hu) (hapart.1 d hd u hu)) hapart.2
    refine ⟨q, ?_, hsorted, hqslots, fun ρ => (hden ρ).trans (happ.den _), fun z hz => ?_,
      fun n hn hm => ?_⟩
    · rw [applyAll, List.foldlM_cons, hcarries.apply]
      exact hq
    · rcases hqvars z hz with hz | ⟨d, hd, hz⟩
      · exact (hvars' z hz).imp_right fun hz => ⟨c, List.mem_cons_self, hz⟩
      · exact .inr ⟨d, List.mem_cons_of_mem _ hd, hz⟩
    · obtain ⟨hn, hne⟩ := hnames n hn hm
      rcases happ.unknowns n hn hm with hn | hn
      · exact ⟨hn.1, List.forall_mem_cons.2 ⟨hn.2, hne⟩⟩
      · exact absurd ((not_isMarked_of_mem_names hground hn).symm.trans hm) Bool.false_ne_true

end EquationSet

/-- A sorted equation without bindings. -/
structure Equation.Slotless (R : Reserved) (arity : Arity) (c : Equation) : Prop where
  sorted : Expr.Sorted R arity c.pattern
  ground : Expr.Ground R c.subject
  pattern : c.pattern.slots = []
  subject : c.subject.slots = []

/-- Of two equations without bindings that are the same each has the variables
of the other. -/
theorem Equation.Slotless.vars_eq {R : Reserved} {arity : Arity} {c d : Equation}
    (hc : c.Slotless R arity) (h : (c == d) = true) : c.pattern.vars = d.pattern.vars := by
  have h : (c.pattern.similar d.pattern && c.subject.similar d.subject) = true := h
  rw [Bool.and_eq_true, Expr.similar_eq_beq hc.pattern] at h
  exact Expr.vars_eq_of_same h.1

end SecondOrder
