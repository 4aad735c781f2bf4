/-
# What a search returns, exactly

`Exact` says that a list holds the solutions of some equations and nothing
else: each of them solves the equations, and whatever else solves them agrees
with exactly one of them on all that it assigns.  Two such lists hold the same
solutions, if the same values solve the equations (`Exact.same`).  For a
solution is itself a guide, once it is told a new variable for what it leaves
open, and no solution found can name that variable.

What a search returns is exact, whatever solution it started with
(`Represents.exact`).
-/

import SecondOrder.Proofs.Search.Completeness

namespace SecondOrder

namespace Expr

variable {R : Reserved} {arity : Arity} {ρ : Valuation} {a b : Expr}

/-- Ground expressions with the same term are similar. -/
theorem similar_of_den (ha : Ground R a) (hb : Ground R b)
    (h : a.den R (.free R) 0 = b.den R (.free R) 0) : a.similar b = true := by
  refine (similar_iff (ha fun _ => none) (hb fun _ => none)).2 fun ρ => funext fun n => ?_
  rw [den_eq_fill_nil ha, den_eq_fill_nil hb, h]

/-- The variables of the term of a ground expression are those that occur free
in it. -/
theorem var_mem_nodes_den (he : Ground R a) {z : Var} :
    .var z ∈ (a.den R (.free R) 0).nodes ↔ .var z ∈ a.names := by
  have hshows : Shows (.var z) := .inr ⟨z, rfl⟩
  have h := leaf_mem_nodes_den (he fun _ => none) hshows (Shown.free (R := R) hshows) 0
  rwa [and_true] at h

end Expr

namespace Valuation

variable {R : Reserved} {ρ : Valuation} {Θ : Expr → Term} {S S' : List Equation}

/-- Assignments in two stages are read from the later stage on. -/
theorem under_append : ρ.under R (S ++ S') = (ρ.under R S').under R S := by
  induction S with
  | nil => rfl
  | cons c S ih => rw [List.cons_append, under, under, ih]

/-- Assignments that meet a guide change nothing where it tells the values. -/
theorem under_guide (hS : GroundValues R S) (h : ∀ c ∈ S, c.Meets R Θ) :
    (ρ.guide R Θ).under R S = ρ.guide R Θ := by
  induction S with
  | nil => rfl
  | cons c S ih =>
    obtain ⟨hc, hS⟩ := List.forall_mem_cons.1 hS
    obtain ⟨hmeets, h⟩ := List.forall_mem_cons.1 h
    rw [under, ih hS h, hmeets.fits hc.1 hc.2]

end Valuation

namespace Search

open SecondOrder.Expr Equation

variable {R : Reserved} {arity : Arity} {V : Var → Prop} {Θ : Expr → Term} {s t : Search}
  {σ τ τ' : EquationSet} {c d : Equation} {cs cs' S : List Equation} {sols sols' : List EquationSet}
  {w : Var} {n : Nat}

/-- The assignments `S` solve the equations `cs`, each of another unknown. -/
structure Solves (R : Reserved) (arity : Arity) (cs S : List Equation) : Prop where
  ground : GroundValues R S
  distinct : (S.map Equation.pattern).Nodup
  solved : ∀ c ∈ cs, c.Solved R S
  /-- A function is assigned a function that names no variable bound in it. -/
  function : ∀ c ∈ S, ∀ k, arity c.pattern = some k →
    ∃ t, c.subject.den R (.free R) 0 = .bind R.lambdaSym k t ∧ t.Below k

/-- They are a solution if their values name only what the subjects name. -/
structure Solution (R : Reserved) (arity : Arity) (cs S : List Equation) : Prop
    extends Solves R arity cs S where
  free : ∀ c ∈ S, ∀ z : Var, .var z ∈ c.subject.names → ∃ d ∈ cs, .var z ∈ d.subject.names

/-- The list `sols` holds the solutions of `cs`: each is one, and what solves
`cs` by values that name only the variables `V` agrees with exactly one. -/
structure Exact (R : Reserved) (arity : Arity) (V : Var → Prop) (cs : List Equation)
    (sols : List EquationSet) : Prop where
  solution : ∀ τ ∈ sols, Solution R arity cs τ.equations
  follows : ∀ Θ, Admits R arity V Θ → (∀ c ∈ cs, c.SolvedBy R Θ) →
    ∃! τ, τ ∈ sols ∧ ∀ d ∈ τ.equations, d.Meets R Θ

/-- The terms of the values that `S` assigns, with `w` for those that it does
not. -/
def termOf (R : Reserved) (arity : Arity) (S : List Equation) (w : Var) (m : Expr) : Term :=
  match S.find? (m == ·.pattern) with
  | some c => c.subject.den R (.free R) 0
  | none => match arity m with
    | some k => .bind R.lambdaSym k (.var w)
    | none => .var w

namespace Solves

variable (h : Solves R arity cs S)

include h

/-- Each assignment meets the guide that is made of all. -/
theorem meets_termOf (hc : c ∈ S) : c.Meets R (termOf R arity S w) := by
  rw [Meets, termOf, Valuation.find?_pattern h.distinct hc (h.ground c hc).1]

/-- There is a guide that what solves equations meets. -/
theorem admits_termOf (hw : V w) (hV : ∀ c ∈ S, ∀ z : Var, .var z ∈ c.subject.names → V z) :
    Admits R arity V (termOf R arity S w) := by
  refine ⟨fun m hm k hk => ?_, fun m hm z hz => ?_⟩
  · rw [termOf]
    cases hfind : S.find? (m == ·.pattern) with
    | some c =>
      obtain ⟨hc, rfl⟩ := Valuation.mem_of_find?_pattern h.ground hfind
      exact h.function c hc k hk
    | none =>
      dsimp only
      rw [hk]
      refine ⟨_, rfl, fun i hi => ?_⟩
      cases List.mem_singleton.1 hi
  · rw [termOf] at hz
    cases hfind : S.find? (m == ·.pattern) with
    | some c =>
      rw [hfind] at hz
      obtain ⟨hc, -⟩ := Valuation.mem_of_find?_pattern h.ground hfind
      exact hV c hc z ((var_mem_nodes_den (h.ground c hc).2).1 hz)
    | none =>
      rw [hfind] at hz
      dsimp only at hz
      cases hk : arity m with
      | none =>
        rw [hk] at hz
        cases List.mem_singleton.1 hz
        exact hw
      | some k =>
        rw [hk] at hz
        rcases Term.mem_nodes_bind.1 hz with hz | hz
        · cases hz
        · cases List.mem_singleton.1 hz
          exact hw

/-- A guide that it meets solves the equations. -/
theorem solvedBy (hcs : ∀ c ∈ cs, Ground R c.subject) (hmeets : ∀ c ∈ S, c.Meets R Θ) :
    ∀ c ∈ cs, c.SolvedBy R Θ := by
  intro c hc ρ
  have hsolved := h.solved c hc (ρ.guide R Θ)
  dsimp only at hsolved
  rw [Valuation.under_guide h.ground hmeets] at hsolved
  exact hsolved.trans (den_guide (hcs c hc))

/-- A solution that agrees with it, and names `w` nowhere, assigns only what it
assigns. -/
theorem mem_of_meets {cs' S' : List Equation} (h' : Solution R arity cs' S')
    (hw : ∀ c ∈ cs', .var w ∉ c.subject.names) (hd : d ∈ S')
    (hmeets : d.Meets R (termOf R arity S w)) :
    ∃ c ∈ S, c.pattern = d.pattern ∧ c.subject.den R (.free R) 0 = d.subject.den R (.free R) 0 := by
  rw [Meets, termOf] at hmeets
  cases hfind : S.find? (d.pattern == ·.pattern) with
  | some c =>
    rw [hfind] at hmeets
    obtain ⟨hc, heq⟩ := Valuation.mem_of_find?_pattern h.ground hfind
    exact ⟨c, hc, heq.symm, hmeets.symm⟩
  | none =>
    rw [hfind] at hmeets
    dsimp only at hmeets
    have hnode : Term.var w ∈ (d.subject.den R (.free R) 0).nodes := by
      rw [hmeets]
      cases arity d.pattern with
      | none => exact List.mem_singleton.2 rfl
      | some k => exact Term.mem_nodes_bind.2 (.inr (List.mem_singleton.2 rfl))
    obtain ⟨c, hc, hfree⟩ := h'.free d hd w ((var_mem_nodes_den (h'.ground d hd).2).1 hnode)
    exact absurd hfree (hw c hc)

end Solves

/-- Sets that assign similar values to the same unknowns are the same. -/
theorem beq_of_mem (hτ : GroundValues R τ.equations) (hτ' : GroundValues R τ'.equations)
    (h : ∀ c ∈ τ.equations, ∃ d ∈ τ'.equations, d.pattern = c.pattern ∧
      d.subject.den R (.free R) 0 = c.subject.den R (.free R) 0)
    (h' : ∀ d ∈ τ'.equations, ∃ c ∈ τ.equations, c.pattern = d.pattern ∧
      c.subject.den R (.free R) 0 = d.subject.den R (.free R) 0) : (τ == τ') = true := by
  have hcontains {τ τ' : EquationSet} (hτ : GroundValues R τ.equations)
      (hτ' : GroundValues R τ'.equations)
      (h : ∀ c ∈ τ.equations, ∃ d ∈ τ'.equations, d.pattern = c.pattern ∧
        d.subject.den R (.free R) 0 = c.subject.den R (.free R) 0) :
      τ.equations.all τ'.contains = true := by
    refine List.all_eq_true.2 fun c hc => List.any_eq_true.2 ?_
    obtain ⟨d, hd, hpattern, hden⟩ := h c hc
    refine ⟨d, hd, Bool.and_eq_true_iff.2 ⟨?_, similar_of_den (hτ' d hd).2 (hτ c hc).2 hden⟩⟩
    rw [hpattern, similar, beq_self_eq_true]
    rfl
  exact Bool.and_eq_true_iff.2 ⟨hcontains hτ hτ' h, hcontains hτ' hτ h'⟩

/-- What agrees with assignments that solve equations is contained in them. -/
theorem Solves.meets_iff {cs' : List Equation} (h : Solves R arity cs σ.equations)
    (h' : Solution R arity cs' S) (hw : ∀ c ∈ cs', .var w ∉ c.subject.names) (hd : d ∈ S) :
    d.Meets R (termOf R arity σ.equations w) ↔ σ.contains d = true := by
  constructor
  · intro hmeets
    obtain ⟨c, hc, hpattern, hden⟩ := h.mem_of_meets h' hw hd hmeets
    refine List.any_eq_true.2 ⟨c, hc, Bool.and_eq_true_iff.2 ⟨?_, ?_⟩⟩
    · rw [hpattern, similar, beq_self_eq_true]
      rfl
    · exact similar_of_den (h.ground c hc).2 (h'.ground d hd).2 hden
  · intro hcontains
    obtain ⟨c, hc, hcd⟩ := List.any_eq_true.1 hcontains
    have hcd : (c.pattern.similar d.pattern && c.subject.similar d.subject) = true := hcd
    rw [Bool.and_eq_true] at hcd
    have hmeets := h.meets_termOf (w := w) hc
    have hden := (similar_iff ((h.ground c hc).2 arity) ((h'.ground d hd).2 arity)).1 hcd.2
    rw [Meets] at hmeets ⊢
    rw [← eq_of_similar_of_isMarked (h'.ground d hd).1 hcd.1, ← hmeets]
    exact (congrFun (hden _) 0).symm

/-- **Exact lists hold the same solutions,** if the same values solve the
equations. -/
theorem Exact.same (h : Exact R arity V cs sols) (h' : Exact R arity V cs' sols')
    (hcs : ∀ c ∈ cs, Ground R c.subject ∧ .var w ∉ c.subject.names ∧
      ∀ z : Var, .var z ∈ c.subject.names → V z)
    (hcs' : ∀ c ∈ cs', Ground R c.subject ∧ .var w ∉ c.subject.names ∧
      ∀ z : Var, .var z ∈ c.subject.names → V z)
    (hw : V w) (hiff : ∀ Θ, (∀ c ∈ cs, c.SolvedBy R Θ) ↔ ∀ c ∈ cs', c.SolvedBy R Θ) (hτ : τ ∈ sols) :
    ∃ τ' ∈ sols', (τ == τ') = true := by
  have hnames {cs S : List Equation} (h : Solution R arity cs S)
      (hcs : ∀ c ∈ cs, Ground R c.subject ∧ .var w ∉ c.subject.names ∧
        ∀ z : Var, .var z ∈ c.subject.names → V z) :
      ∀ c ∈ S, ∀ z : Var, .var z ∈ c.subject.names → V z := fun c hc z hz =>
    have ⟨d, hd, hz⟩ := h.free c hc z hz
    (hcs d hd).2.2 z hz
  -- follow `τ` to a solution `τ'` of the other list, and that one back to `τ''`
  have hsol := h.solution τ hτ
  have hadmits := hsol.admits_termOf hw (hnames hsol hcs)
  have hsolves := hsol.solvedBy (Θ := termOf R arity τ.equations w) (fun c hc => (hcs c hc).1)
    fun c hc => hsol.meets_termOf hc
  obtain ⟨τ', ⟨hτ', hmeets'⟩, -⟩ := h'.follows _ hadmits ((hiff _).1 hsolves)
  have hsol' := h'.solution τ' hτ'
  have hwithin' (d : Equation) (hd : d ∈ τ'.equations) :=
    hsol.mem_of_meets hsol' (fun c hc => (hcs' c hc).2.1) hd (hmeets' d hd)
  obtain ⟨τ'', ⟨hτ'', hmeets''⟩, -⟩ := h.follows _ (hsol'.admits_termOf hw (hnames hsol' hcs'))
    ((hiff _).2 (hsol'.solvedBy (fun c hc => (hcs' c hc).1) fun c hc => hsol'.meets_termOf hc))
  have hwithin'' (d : Equation) (hd : d ∈ τ''.equations) :=
    hsol'.mem_of_meets (h.solution τ'' hτ'') (fun c hc => (hcs c hc).2.1) hd (hmeets'' d hd)
  -- since `τ''` agrees with `τ`, too, it is the only solution that does
  obtain rfl : τ'' = τ := by
    refine (h.follows _ hadmits hsolves).unique ⟨hτ'', fun d hd => ?_⟩
      ⟨hτ, fun c hc => hsol.meets_termOf hc⟩
    obtain ⟨d', hd', hpattern', hden'⟩ := hwithin'' d hd
    obtain ⟨c, hc, hpattern, hden⟩ := hwithin' d' hd'
    have hmeets := hsol.meets_termOf (w := w) hc
    rw [Meets] at hmeets ⊢
    rw [← hden', ← hden, hmeets, hpattern, hpattern']
  exact ⟨τ', hτ', beq_of_mem hsol.ground hsol'.ground hwithin'' hwithin'⟩

/-- The search stands for the equations `cs`, of which `σ` solves a part: what
completes `σ` solves them, and values that solve them and agree with `σ` solve
what is pending. -/
structure Represents (R : Reserved) (arity : Arity) (V : Var → Prop) (cs : List Equation)
    (s : Search) (σ : EquationSet) : Prop where
  opened : Open R arity s.begun σ
  spares : s.begun.Spares V
  values : GroundValues R σ.equations
  sound : ∀ S, Finishes R arity s.begun S → Solution R arity cs (σ.equations ++ S)
  complete : ∀ Θ, Admits R arity V Θ → (∀ c ∈ cs, c.SolvedBy R Θ) →
    (∀ d ∈ σ.equations, d.Meets R Θ) → ∀ d ∈ s.begun.pending.equations, d.SolvedBy R Θ

namespace Represents

variable (h : Represents R arity V cs s σ)

include h

/-- What solves the equations and agrees with the solution that the search
started with guides it. -/
theorem guided (hadmits : Admits R arity V Θ) (hsolved : ∀ c ∈ cs, c.SolvedBy R Θ)
    (hmeets : ∀ d ∈ σ.equations, d.Meets R Θ) : Guided R arity V Θ s.begun σ :=
  ⟨hadmits, h.complete Θ hadmits hsolved hmeets, fun d hd _ _ hz =>
    hadmits.names_of_meets (hmeets d hd) (h.values d hd).1 (h.values d hd).2 hz, h.spares⟩

variable (hsolve : s.solve R n = some ⟨t, .ok ()⟩)

include hsolve

/-- What the search returns solves the equations and goes on from where the
search was. -/
theorem solution (hτ : τ ∈ t.solutions) :
    Solution R arity cs τ.equations ∧ ∃ S, τ.equations = σ.equations ++ S := by
  obtain ⟨S, heqs, hS⟩ := h.opened.completes_of_solve hsolve τ hτ
  exact ⟨heqs ▸ h.sound S hS, S, heqs⟩

/-- What agrees with the solution that the search started with is found. -/
theorem follows (hadmits : Admits R arity V Θ) (hsolved : ∀ c ∈ cs, c.SolvedBy R Θ)
    (hmeets : ∀ d ∈ σ.equations, d.Meets R Θ) :
    ∃! τ, τ ∈ t.solutions ∧ ∀ d ∈ τ.equations, d.Meets R Θ := by
  have hiff (τ : EquationSet) (hτ : τ ∈ t.solutions) :
      Follows R Θ σ τ ↔ ∀ d ∈ τ.equations, d.Meets R Θ := by
    constructor
    · rintro ⟨S, heqs, hS⟩ d hd
      rw [heqs] at hd
      exact (List.mem_append.1 hd).elim (hmeets d) (hS d)
    · intro hall
      obtain ⟨S, heqs⟩ := (h.solution hsolve hτ).2
      exact ⟨S, heqs, fun d hd => hall d (heqs ▸ List.mem_append_right _ hd)⟩
  obtain ⟨τ, ⟨hτ, hfollows⟩, hunique⟩ :=
    (h.guided hadmits hsolved hmeets).follows h.opened hsolve
  refine ⟨τ, ⟨hτ, (hiff τ hτ).1 hfollows⟩, ?_⟩
  rintro τ' ⟨hτ', hall⟩
  exact hunique τ' ⟨hτ', (hiff τ' hτ').2 hall⟩

/-- **What a search returns is exact,** if it has assigned nothing that is not
forced. -/
theorem exact (hforced : ∀ Θ, Admits R arity V Θ → (∀ c ∈ cs, c.SolvedBy R Θ) →
      ∀ d ∈ σ.equations, d.Meets R Θ) : Exact R arity V cs t.solutions where
  solution _ hτ := (h.solution hsolve hτ).1
  follows Θ hadmits hsolved := h.follows hsolve hadmits hsolved (hforced Θ hadmits hsolved)

end Represents

/-- **The search for sorted equations stands for them.** -/
theorem represents_ofPairs {limit : Option Int}
    (hcs : ∀ c ∈ cs, Sorted R arity c.pattern ∧ Ground R c.subject)
    (h : ofPairs R limit (cs.map operands) = .ok s) (hspares : s.begun.Spares V) :
    Represents R arity V cs s {} := by
  obtain ⟨ho, -, hpending, hgrows⟩ := open_ofPairs hcs h
  rw [← hpending] at hgrows
  have hmem : ∀ d ∈ s.begun.pending.equations, d ∈ cs := by
    obtain ⟨ds, hds, heqs, -⟩ := hgrows.equations
    rw [heqs]
    exact fun d hd => hds.subset hd
  refine ⟨ho, hspares, nofun, fun S hS => ⟨⟨hS.ground, hS.distinct, fun c hc => ?_, hS.function⟩,
    fun c hc z hz => ?_⟩, fun Θ _ hsolved _ d hd => hsolved d (hmem d hd)⟩
  · obtain ⟨d, hd, hdc⟩ := hgrows.covers c hc
    exact (SolvedIn.congr (ho.patterns d hd) (hcs c hc) hdc).1 (hS.solved d hd)
  · obtain ⟨d, hd, -, hz⟩ := hS.free c hc z hz
    exact ⟨d, hmem d hd, hz⟩

end Search

end SecondOrder
