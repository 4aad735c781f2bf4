/-
# The order of the calls

Equations may be added before a search is solved, between solutions and
afterwards.  `Live` is what holds of a search between the calls, `Outcome` what
holds of one that has been solved; every history of calls keeps one of them
(`History.standing`).  So in the end the order of the equations, their
repetition and the calls between do not matter (`History.same_solutions`).

The one thing that has to be asked is that what is added names no parameter of
a function in hand (`Search.Clear`).  Parameters are minted apart from all
variables that the search has seen, but they are not renamed afterwards: a `v0`
that comes with a new equation is taken for the parameter, and solutions are
lost (`lost_by_clash`).
-/

import SecondOrder.Proofs.Search.Resumption

namespace SecondOrder

namespace Search

open SecondOrder.Expr Equation

variable {R : Reserved} {arity : Arity} {Θ : Expr → Term} {s t : Search} {σ τ : EquationSet}
  {c d : Equation} {cs cs' : List Equation} {n : Nat}

/-- The pattern names no parameter of a function in hand. -/
def Clear (R : Reserved) (arity : Arity) (s : Search) (c : Equation) : Prop :=
  ∀ σ ∈ s.solutions, ∀ d ∈ σ.equations, ∀ u, IsParam R arity d u → u ∉ c.pattern.vars

/-- What a search for `cs` that has been solved is like. -/
structure Outcome (R : Reserved) (arity : Arity) (cs : List Equation) (t : Search) : Prop where
  exact : Exact R arity (fun _ => True) cs t.solutions
  kept : ∀ τ ∈ t.solutions, Kept R arity t.pending.nextFresh τ.equations
  decided : t.solvable = some (!t.solutions.isEmpty)
  rest : t.solutions ≠ [] → t.pending.equations = [] ∧ t.pending.exclusions = [] ∧ t.limit = none

/-- What a search for `cs` that is to be solved is like.  A single solution has
been applied to what is pending; of several each can be. -/
structure Live (R : Reserved) (arity : Arity) (cs : List Equation) (s : Search) : Prop where
  limit : s.limit = none
  pending : s.pending.Slotless R arity
  below : ∀ d ∈ s.pending.equations, d.Below s.pending.nextFresh
  held : ∀ σ ∈ s.begun.solutions, Held R arity cs s.pending σ.equations
  apart : ∀ σ, s.begun.solutions = [σ] →
    ∀ c ∈ σ.equations, ∀ d ∈ s.pending.equations, c.pattern ∉ d.pattern.names
  clear : 1 < s.solutions.length → ∀ e ∈ s.pending.equations, s.Clear R arity e
  follows : ∀ Θ, Admits R arity (fun _ => True) Θ → (∀ c ∈ cs, c.SolvedBy R Θ) →
    ∃! σ, σ ∈ s.begun.solutions ∧ ∀ d ∈ σ.equations, d.Meets R Θ

/-- A search with a solution has begun. -/
theorem solutions_begun (h : s.solutions ≠ []) : s.begun.solutions = s.solutions := by
  rw [begun_of_ne_nil h]

/-- Forks that return are solved in turn. -/
theorem exists_parts {P : EquationSet → Search → Prop} {σs : List EquationSet}
    (h : ∀ σ ∈ σs, ∃ f n t, s.fork R σ = .ok f ∧ f.solve R n = some ⟨t, .ok ()⟩ ∧ P σ t) :
    ∃ n fs parts, σs.mapM (s.fork R) = .ok fs ∧ solveEach (solve R n) fs = some (.ok parts) ∧
      List.Forall₂ (fun σ t => P σ t ∧ ∃ f, s.fork R σ = .ok f ∧ f.solve R n = some ⟨t, .ok ()⟩)
        σs parts := by
  induction σs with
  | nil => exact ⟨0, [], [], rfl, rfl, .nil⟩
  | cons σ σs ih =>
    obtain ⟨⟨f, n, t, hf, hsolve, hP⟩, hrest⟩ := List.forall_mem_cons.1 h
    obtain ⟨m, fs, parts, hfs, heach, hall⟩ := ih hrest
    have hsolve' := solve_mono (Nat.le_max_left n m) hsolve
    refine ⟨max n m, f :: fs, t :: parts, mapM_eq_ok.2 (.cons hf (mapM_eq_ok.1 hfs)), ?_,
      .cons ⟨hP, f, hf, hsolve'⟩ (hall.imp fun σ t => ?_)⟩
    · rw [solveEach, hsolve']
      dsimp only
      rw [solveEach_mono (fun f r => solve_mono (Nat.le_max_right n m)) heach]
      rfl
    · rintro ⟨hP, f, hf, hsolve⟩
      exact ⟨hP, f, hf, solve_mono (Nat.le_max_right n m) hsolve⟩

namespace Live

variable (h : Live R arity cs s) (hcs : ∀ c ∈ cs, c.Slotless R arity)

include h hcs

/-- **A search with one solution, or none, is solved.** -/
theorem solve_single (hone : s.solutions.length ≤ 1) : ∃ n t,
    s.solve R n = some ⟨t, .ok ()⟩ ∧ Outcome R arity cs t := by
  obtain ⟨σ, hσ⟩ := List.length_eq_one_iff.1 (length_begun hone)
  have hmem : σ ∈ s.begun.solutions := hσ ▸ List.mem_singleton.2 rfl
  have hpending := s.pending_begun
  have hheld := h.held σ hmem
  have hrepresents := hheld.represents hcs rfl hσ hpending h.pending h.below (h.apart σ hσ)
  obtain ⟨n, t, hsolve, hcontinues⟩ := hrepresents.continues hcs (hpending.symm ▸ h.pending)
    (hpending.symm ▸ hheld.toKept) h.limit
  refine ⟨n, t, hsolve, ⟨fun τ hτ => (hcontinues.solution τ hτ).1, fun Θ hadmits hsolved => ?_⟩,
    hcontinues.kept, solvable_of_solve hsolve, fun hne => ⟨?_, hcontinues.rest hne⟩⟩
  · obtain ⟨σ', ⟨hσ', hmeets⟩, -⟩ := h.follows Θ hadmits hsolved
    rw [hσ] at hσ'
    obtain rfl := List.mem_singleton.1 hσ'
    exact hcontinues.follows Θ hadmits hsolved hmeets
  · refine ((settled_solve hsolve).complete ?_).1
    rw [solvable_of_solve hsolve]
    cases hsol : t.solutions with
    | nil => exact absurd hsol hne
    | cons => rfl

/-- **A search with several solutions is solved** by going on from each of
them. -/
theorem solve_several (hmany : 1 < s.solutions.length) :
    ∃ n t, s.solve R n = some ⟨t, .ok ()⟩ ∧ Outcome R arity cs t := by
  have hne : s.solutions ≠ [] := List.length_pos_iff.1 (Nat.lt_of_succ_lt hmany)
  have hheld := h.held
  have hfollows := h.follows
  rw [solutions_begun hne] at hheld hfollows
  obtain ⟨n, fs, parts, hfs, heach, hparts⟩ := exists_parts (P := Continues R arity cs) fun σ hσ =>
    (hheld σ hσ).fork hcs h.pending h.below (fun d hd u hu e he => h.clear hmany e he σ hσ d hd u hu) h.limit
  have hof (τ : EquationSet) (hτ : τ ∈ parts.flatMap Search.solutions) :
      ∃ t ∈ parts, τ ∈ t.solutions ∧ ∃ σ ∈ s.solutions, Continues R arity cs σ t ∧
        ∃ f, s.fork R σ = .ok f ∧ f.solve R n = some ⟨t, .ok ()⟩ := by
    obtain ⟨t, ht, hτ⟩ := List.mem_flatMap.1 hτ
    obtain ⟨σ, hσ, hcontinues, hf⟩ := exists_of_forall₂ hparts t ht
    exact ⟨t, ht, hτ, σ, hσ, hcontinues, hf⟩
  refine ⟨n + 1, s.settle (parts.flatMap Search.solutions) parts, ?_,
    ⟨fun τ hτ => ?_, fun Θ hadmits hsolved => ?_⟩, fun τ hτ => ?_, rfl,
    fun _ => ⟨rfl, h.pending.exclusions, h.limit⟩⟩
  · rw [solve, if_pos hmany, forks_eq, hfs]
    dsimp only
    rw [heach]
    rfl
  · obtain ⟨t, -, hτ, σ, -, hcontinues, -⟩ := hof τ hτ
    exact (hcontinues.solution τ hτ).1
  · -- only the fork of the solution that follows the guide has one that does
    obtain ⟨σ, ⟨hσ, hmeets⟩, hunique⟩ := hfollows Θ hadmits hsolved
    obtain ⟨t, ht, hcontinues, f, hf, hsolve⟩ := exists_of_forall₂_left hparts σ hσ
    obtain ⟨τ, ⟨hτ, hτmeets⟩, hτunique⟩ := hcontinues.follows Θ hadmits hsolved hmeets
    refine ⟨τ, ⟨List.mem_flatMap.2 ⟨t, ht, hτ⟩, hτmeets⟩, ?_⟩
    rintro τ' ⟨hτ', hmeets'⟩
    obtain ⟨t', -, hτ', σ', hσ', hcontinues', f', hf', hsolve'⟩ := hof τ' hτ'
    obtain ⟨-, S, heqs⟩ := hcontinues'.solution τ' hτ'
    obtain rfl := hunique σ' ⟨hσ', fun d hd => hmeets' d (heqs ▸ List.mem_append_left _ hd)⟩
    cases hf.symm.trans hf'
    cases hsolve.symm.trans hsolve'
    exact hτunique τ' ⟨hτ', hmeets'⟩
  · obtain ⟨t, ht, hτ, σ, -, hcontinues, -⟩ := hof τ hτ
    exact (hcontinues.kept τ hτ).mono ((le_settle s _ parts).2 t ht)

/-- **A search between the calls can be solved.** -/
theorem solve : ∃ n t, s.solve R n = some ⟨t, .ok ()⟩ ∧ Outcome R arity cs t :=
  (Nat.lt_or_ge 1 s.solutions.length).elim (h.solve_several hcs) (h.solve_single hcs)

omit hcs

/-- What says the same as an equation, for the solutions in hand, may be added
for it. -/
theorem added {c' : Equation} (hc' : c'.Slotless R arity)
    (halike : ∀ σ ∈ s.begun.solutions, Alike R σ.equations c c')
    (hapart : ∀ σ, s.begun.solutions = [σ] → ∀ d ∈ σ.equations, d.pattern ∉ c'.pattern.names)
    (hclear : 1 < s.solutions.length → s.Clear R arity c')
    (hpending : t.pending = s.pending.add [c']) (hsolutions : t.solutions = s.solutions)
    (hlimit : t.limit = s.limit) : Live R arity (cs ++ [c]) t := by
  have hgrows := EquationSet.grows_add s.pending [c']
  obtain ⟨ds, hds, heqs, hbelow⟩ := hgrows.equations
  have hmem (d : Equation) (hd : d ∈ t.pending.equations) : d ∈ s.pending.equations ∨ d = c' := by
    rw [hpending, heqs] at hd
    exact (List.mem_append.1 hd).imp_right fun hd => List.mem_singleton.1 (hds.subset hd)
  have hslotless : t.pending.Slotless R arity :=
    hpending ▸ h.pending.add fun d hd => List.mem_singleton.1 hd ▸ hc'
  have hbegun : t.begun.solutions = s.begun.solutions := by
    rw [begun, begun, hsolutions]
    split <;> first | rfl | exact hsolutions
  refine ⟨hlimit.trans h.limit, hslotless, fun d hd => ?_, fun σ hσ => ?_, fun σ hσ d hd e he => ?_,
    fun hmany e he => ?_, fun Θ hadmits hsolved => ?_⟩
  · rw [hpending, heqs] at hd
    rw [hpending]
    exact (List.mem_append.1 hd).elim (fun hd => (h.below d hd).mono hgrows.counter) (hbelow d)
  · rw [hbegun] at hσ
    rw [hpending] at hslotless ⊢
    exact (h.held σ hσ).add hslotless hc' (halike σ hσ)
  · rw [hbegun] at hσ
    rcases hmem e he with he | rfl
    · exact h.apart σ hσ d hd e he
    · exact hapart σ hσ d hd
  · rw [hsolutions] at hmany
    rw [Clear, hsolutions]
    rcases hmem e he with he | rfl
    · exact h.clear hmany e he
    · exact hclear hmany
  · rw [hbegun]
    exact h.follows Θ hadmits fun d hd => hsolved d (List.mem_append_left _ hd)

/-- **An equation can be added** that names no parameter in hand. -/
theorem add (hc : c.Slotless R arity) (hclear : s.Clear R arity c) :
    ∃ t, s.add R c = .ok t ∧ Live R arity (cs ++ [c]) t ∧
      (s.solvable = none ∨ s.solutions ≠ [] → t.solvable = none) := by
  have hrefl (σ : EquationSet) : Alike R σ.equations c c := fun _ => ⟨rfl, rfl⟩
  rw [Search.add]
  split
  · next hnil =>
    have hbegun : s.begun.solutions = [{}] := by rw [begun, hnil]
    refine ⟨_, rfl, h.added hc (fun σ _ => hrefl σ) (fun σ hσ d hd => ?_) (fun _ => hclear) rfl rfl rfl, ?_⟩
    · cases hbegun.symm.trans hσ
      cases hd
    · exact fun hor => hor.elim id fun hne => absurd hnil hne
  · next σ hσ =>
    have hbegun : s.begun.solutions = [σ] := by rw [solutions_begun (hσ ▸ List.cons_ne_nil _ _), hσ]
    obtain ⟨p, hp, hslotless, hden, -, hapart⟩ :=
      (h.held σ (hbegun ▸ List.mem_singleton.2 rfl)).applyAll hc (hclear σ (hσ ▸ List.mem_singleton.2 rfl))
    rw [hp]
    refine ⟨_, rfl, h.added hslotless (fun σ' hσ' => ?_) (fun σ' hσ' => ?_) (fun hmany => ?_) rfl rfl rfl,
      fun _ => rfl⟩
    · rw [hbegun] at hσ'
      rw [List.mem_singleton.1 hσ']
      exact fun ρ => ⟨hden ρ, rfl⟩
    · cases hbegun.symm.trans hσ'
      exact hapart
    · rw [hσ] at hmany
      exact absurd hmany (Nat.lt_irrefl 1)
  · next hnil hone =>
    refine ⟨_, rfl, h.added hc (fun σ _ => hrefl σ) (fun σ hσ => ?_) (fun _ => hclear) rfl rfl rfl, fun _ => rfl⟩
    rw [solutions_begun hnil] at hσ
    exact absurd hσ (hone σ)

end Live

/-- A search that has been solved, with a solution, can go on. -/
theorem Outcome.live (h : Outcome R arity cs s) (hne : s.solutions ≠ []) : Live R arity cs s := by
  obtain ⟨hnil, hexclusions, hlimit⟩ := h.rest hne
  have hnone {d : Equation} (hd : d ∈ s.pending.equations) : False := by
    rw [hnil] at hd
    cases hd
  refine ⟨hlimit, ⟨fun d hd => (hnone hd).elim, hexclusions⟩, fun d hd => (hnone hd).elim, fun σ hσ => ?_,
    fun σ _ c _ d hd => (hnone hd).elim, fun _ e he => (hnone he).elim, ?_⟩
  · rw [solutions_begun hne] at hσ
    have hsol := h.exact.solution σ hσ
    exact ⟨h.kept σ hσ, hsol.free, fun c hc => .inl (hsol.solved c hc), fun d hd => (hnone hd).elim⟩
  · rw [solutions_begun hne]
    exact h.exact.follows

/-- A search that has been refuted stays refuted. -/
theorem Outcome.refuted (h : Outcome R arity cs s) (hnil : s.solutions = []) (c : Equation)
    (P : EquationSet) : Outcome R arity (cs ++ [c]) { s with pending := P } := by
  have hnone {σ : EquationSet} (hσ : σ ∈ s.solutions) : False := by
    rw [hnil] at hσ
    cases hσ
  refine ⟨⟨fun τ hτ => (hnone hτ).elim, fun Θ hadmits hsolved => ?_⟩, fun τ hτ => (hnone hτ).elim, h.decided,
    fun hne => absurd hnil hne⟩
  obtain ⟨σ, ⟨hσ, -⟩, -⟩ :=
    h.exact.follows Θ hadmits fun d hd => hsolved d (List.mem_append_left _ hd)
  exact (hnone hσ).elim

/-- A search with its equations is solved, or can be. -/
def Standing (R : Reserved) (arity : Arity) (cs : List Equation) (s : Search) : Prop :=
  s.solvable = none ∧ Live R arity cs s ∨ Outcome R arity cs s

namespace Standing

/-- A search that is made from pairs without bindings is standing. -/
theorem ofPairs (hcs : ∀ c ∈ cs, c.Slotless R arity)
    (h : ofPairs R none (cs.map operands) = .ok s) : Standing R arity cs s := by
  obtain ⟨ho, hopen, hpending, hgrows⟩ :=
    open_ofPairs (fun c hc => ⟨(hcs c hc).sorted, (hcs c hc).ground⟩) h
  rw [ofPairs_operands] at h
  cases h
  have hslotless : (EquationSet.addEach {} cs).Slotless R arity := .addEach ⟨nofun, rfl⟩ hcs
  refine .inl ⟨rfl, rfl, hslotless, ho.below, fun σ hσ => ?_, fun σ hσ => ?_, nofun, fun Θ _ _ => ?_⟩
  · obtain rfl : σ = {} := List.mem_singleton.1 hσ
    refine ⟨.nil, nofun, fun c hc => .inr ?_, fun d hd => ⟨d, ?_, fun _ => ⟨rfl, rfl⟩⟩⟩
    · obtain ⟨d, hd, hdc⟩ := hgrows.covers c hc
      exact ⟨d, hd, alike_of_beq (hcs c hc) (hslotless.equations d hd) hdc⟩
    · obtain ⟨ds, hds, heqs, -⟩ := hgrows.equations
      exact hds.subset (heqs ▸ hd : d ∈ [] ++ ds)
  · cases hσ
    nofun
  · exact ⟨{}, ⟨List.mem_singleton.2 rfl, nofun⟩, fun σ hσ => List.mem_singleton.1 hσ.1⟩

/-- To add such a pair is not refused, and the search stands with one equation
more. -/
theorem add (h : Standing R arity cs s) (hc : c.Slotless R arity) (hclear : s.Clear R arity c) :
    ∃ t, s.add R c = .ok t ∧ Standing R arity (cs ++ [c]) t := by
  rcases h with ⟨hopen, hlive⟩ | h
  · obtain ⟨t, ht, hlive, hsolvable⟩ := hlive.add hc hclear
    exact ⟨t, ht, .inl ⟨hsolvable (.inl hopen), hlive⟩⟩
  · by_cases hnil : s.solutions = []
    · exact ⟨_, by rw [Search.add, hnil]; rfl, .inr (h.refuted hnil c (s.pending.add [c]))⟩
    · obtain ⟨t, ht, hlive, hsolvable⟩ := (h.live hnil).add hc hclear
      exact ⟨t, ht, .inl ⟨hsolvable (.inr hnil), hlive⟩⟩

/-- **A search is solved,** unless it has been. -/
theorem solved (h : Standing R arity cs s) (hcs : ∀ c ∈ cs, c.Slotless R arity) :
    ∃ n t, s.solved R n = some ⟨t, .ok ()⟩ ∧ Outcome R arity cs t := by
  rcases h with ⟨hopen, hlive⟩ | h
  · obtain ⟨n, t, hsolve, houtcome⟩ := hlive.solve hcs
    exact ⟨n, t, by rw [Search.solved, hopen]; exact hsolve, houtcome⟩
  · exact ⟨0, s, by rw [Search.solved, h.decided], h⟩

end Standing

/-- However much fuel solving gets, it gives one result. -/
theorem solved_unique {m : Nat} {r r' : Attempt Search Unit} (h : s.solved R m = some r)
    (h' : s.solved R n = some r') : r = r' := by
  cases hs : s.solvable with
  | none =>
    rw [Search.solved, hs] at h h'
    exact solve_unique h h'
  | some =>
    rw [Search.solved, hs] at h h'
    exact Option.some.inj (h.symm.trans h')

/-- The calls that may have led to a search, with the equations that it was
given. -/
inductive History (R : Reserved) (arity : Arity) : List Equation → Search → Prop
  | ofPairs {cs : List Equation} {s : Search} (hcs : ∀ c ∈ cs, c.Slotless R arity)
      (h : ofPairs R none (cs.map operands) = .ok s) : History R arity cs s
  | add {cs : List Equation} {s t : Search} {c : Equation} (hs : History R arity cs s)
      (hc : c.Slotless R arity) (hclear : s.Clear R arity c) (h : s.add R c = .ok t) :
      History R arity (cs ++ [c]) t
  | solved {cs : List Equation} {s t : Search} {n : Nat} (hs : History R arity cs s)
      (h : s.solved R n = some ⟨t, .ok ()⟩) : History R arity cs t

/-- **Every history leads to a search that is solved, or can be.** -/
theorem History.standing (h : History R arity cs s) :
    (∀ c ∈ cs, c.Slotless R arity) ∧ Standing R arity cs s := by
  induction h with
  | ofPairs hcs h => exact ⟨hcs, .ofPairs hcs h⟩
  | add _ hc hclear h ih =>
    obtain ⟨t, ht, hstanding⟩ := ih.2.add hc hclear
    cases h.symm.trans ht
    exact ⟨List.forall_mem_append.2 ⟨ih.1, List.forall_mem_singleton.2 hc⟩, hstanding⟩
  | solved _ h ih =>
    obtain ⟨n, t, ht, houtcome⟩ := ih.2.solved ih.1
    cases solved_unique h ht
    exact ⟨ih.1, .inr houtcome⟩

/-- **The order of the calls does not matter:** whatever was added before,
between and after solutions, in whatever order and how often, two searches for
the same equations return the same solutions.  And every equation that names no
parameter in hand can be added. -/
theorem History.same_solutions {s' : Search} (h : History R arity cs s) (h' : History R arity cs' s')
    (hmem : ∀ c, c ∈ cs ↔ c ∈ cs') :
    (∀ c, c.Slotless R arity → s.Clear R arity c → ∃ t, s.add R c = .ok t) ∧
    ∃ n t n' t', s.solved R n = some ⟨t, .ok ()⟩ ∧ s'.solved R n' = some ⟨t', .ok ()⟩ ∧
      (∀ τ ∈ t.solutions, ∃ τ' ∈ t'.solutions, (τ == τ') = true) ∧
        ∀ τ' ∈ t'.solutions, ∃ τ ∈ t.solutions, (τ' == τ) = true := by
  obtain ⟨hcs, hstanding⟩ := h.standing
  obtain ⟨hcs', hstanding'⟩ := h'.standing
  refine ⟨fun c hc hclear => (hstanding.add hc hclear).imp fun _ => And.left, ?_⟩
  obtain ⟨n, t, ht, houtcome⟩ := hstanding.solved hcs
  obtain ⟨n', t', ht', houtcome'⟩ := hstanding'.solved hcs'
  let w := freshVar (cs.map Equation.subject)
  have hw (c : Equation) (hc : c ∈ cs) :
      Ground R c.subject ∧ .var w ∉ c.subject.names ∧ ∀ z : Var, .var z ∈ c.subject.names → True :=
    ⟨(hcs c hc).ground, fun hfree => freshVar_not_mem (List.mem_map_of_mem hc)
      (mem_vars_of_mem_names hfree), fun _ _ => trivial⟩
  have hw' (c : Equation) (hc : c ∈ cs') := hw c ((hmem c).2 hc)
  have hiff (Θ : Expr → Term) : (∀ c ∈ cs, c.SolvedBy R Θ) ↔ ∀ c ∈ cs', c.SolvedBy R Θ :=
    forall_congr' fun c => imp_congr_left (hmem c)
  exact ⟨n, t, n', t', ht, ht', fun τ => houtcome.exact.same houtcome'.exact hw hw' trivial hiff,
    fun τ' => houtcome'.exact.same houtcome.exact hw' hw trivial fun Θ => (hiff Θ).symm⟩

/-- `_f(b)` should equal `b`. -/
def appliedAgain : Equation :=
  let b : Expr := .var ⟨"b", false⟩
  ⟨.app (.sym (Reserved.applySym {})) [.var ⟨"f", true⟩, b], b⟩

/-- `History.same_solutions` where `appliedAgain` is added to the two solutions
of `applied`, and where both are there from the start. -/
theorem same_solutions_applied : ∃ s t u s' v v' n n',
    ofPairs {} none ([applied].map operands) = .ok s ∧ s.solved {} 4 = some ⟨t, .ok ()⟩ ∧
      t.solutions.length = 2 ∧ t.add {} appliedAgain = .ok u ∧ u.solved {} n = some ⟨v, .ok ()⟩ ∧
      ofPairs {} none ([applied, appliedAgain].map operands) = .ok s' ∧
      s'.solved {} n' = some ⟨v', .ok ()⟩ ∧ ∀ τ ∈ v.solutions, ∃ τ' ∈ v'.solutions, (τ == τ') = true := by
  have hsolutions : ∀ σ ∈ solvedApplied.solutions, ∃ e,
      σ.equations = [⟨.var ⟨"f", true⟩, Reserved.lambda {} ⟨⟨"v0", false⟩, []⟩ e⟩] :=
    List.forall_mem_cons.2 ⟨⟨_, rfl⟩, List.forall_mem_singleton.2 ⟨_, rfl⟩⟩
  have hclear : solvedApplied.Clear {} unary appliedAgain := by
    rintro σ hσ d hd u ⟨-, us, e, hvalue, hu⟩
    obtain ⟨e', heqs⟩ := hsolutions σ hσ
    rw [heqs] at hd
    rw [List.mem_singleton.1 hd] at hvalue
    cases hvalue
    rw [List.mem_singleton.1 hu]
    decide
  have hs := ofPairs_operands {} none [applied]
  have hs' := ofPairs_operands {} none [applied, appliedAgain]
  have happlied : applied.Slotless {} unary := slotless_unary rfl
  have hagain : appliedAgain.Slotless {} unary := slotless_unary rfl
  have hhistory : History {} unary [applied] solvedApplied :=
    .solved (.ofPairs (List.forall_mem_singleton.2 happlied) hs) solved_applied
  have hhistory' : History {} unary [applied, appliedAgain] _ :=
    .ofPairs (List.forall_mem_cons.2 ⟨happlied, List.forall_mem_singleton.2 hagain⟩) hs'
  obtain ⟨u, hu⟩ := (hhistory.same_solutions hhistory fun _ => Iff.rfl).1 appliedAgain hagain hclear
  obtain ⟨-, n, v, n', v', hv, hv', hsame, -⟩ :=
    (hhistory.add hagain hclear hu).same_solutions hhistory' fun _ => Iff.rfl
  exact ⟨_, solvedApplied, u, _, v, v', n, n', hs, solved_applied, rfl, hu, hv, hs', hv', hsame⟩

/-- `_f(x, y)` should equal `x`. -/
def firstArgument (x y : String) : Equation :=
  ⟨.app (.sym (Reserved.applySym {})) [.var ⟨"f", true⟩, .var ⟨x, false⟩, .var ⟨y, false⟩],
    .var ⟨x, false⟩⟩

/-- **Solutions are lost** where what is added names a parameter in hand.  That
`_f(a, b)` equals `a` has the solution `λ[v0, v1. v0]`; when `_f(v1, v0)` is
added, `v1` and `v0` take the places of `v0` and `v1` one after the other, and
nothing is left.  In the other order the parameters are `v2` and `v3`, and one
solution is. -/
theorem lost_by_clash : ∃ s t u v s' t' u' v',
    ofPairs {} none ([firstArgument "a" "b"].map operands) = .ok s ∧
      s.solved {} 6 = some ⟨t, .ok ()⟩ ∧ t.add {} (firstArgument "v1" "v0") = .ok u ∧
      u.solved {} 6 = some ⟨v, .ok ()⟩ ∧ v.solutions = [] ∧
    ofPairs {} none ([firstArgument "v1" "v0"].map operands) = .ok s' ∧
      s'.solved {} 6 = some ⟨t', .ok ()⟩ ∧ t'.add {} (firstArgument "a" "b") = .ok u' ∧
      u'.solved {} 6 = some ⟨v', .ok ()⟩ ∧ v'.solutions.length = 1 := by
  have hstep (x y : String) (h : EquationSet.best? {} (.add {} [firstArgument x y]) =
      some (firstArgument x y)) (hr : (firstArgument x y).rule {} = .guess) :
      Search.step {} { pending := .add {} [firstArgument x y], solutions := [{}] } =
        .stop ⟨{ pending := .add {} [firstArgument x y], solutions := [{}] },
          .ok (some (firstArgument x y))⟩ :=
    step_of_flex h hr rfl
  refine ⟨{ pending := .add {} [firstArgument "a" "b"] }, ?_, ?_, ?_,
    { pending := .add {} [firstArgument "v1" "v0"] }, ?_, ?_, ?_, ofPairs_operands {} none _, ?_, ?_, ?_, ?_,
    ofPairs_operands {} none _, ?_, ?_, ?_, ?_⟩
  rotate_left 6
  · change Search.solve {} 6 _ = _
    rw [solve, if_neg (by cbv), run, begun, steps, hstep "a" "b" (by cbv) (by cbv)]
    cbv
    rfl
  · cbv
    rfl
  · cbv
    rfl
  · cbv
  · change Search.solve {} 6 _ = _
    rw [solve, if_neg (by cbv), run, begun, steps, hstep "v1" "v0" (by cbv) (by cbv)]
    cbv
    rfl
  · cbv
    rfl
  · cbv
    rfl
  · cbv

end Search

end SecondOrder
