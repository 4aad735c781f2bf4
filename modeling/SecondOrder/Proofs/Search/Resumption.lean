/-
# Searches that go on

Equations may be added after a search has returned, and solving goes on from
the solutions in hand: a single solution is applied to what is added at once,
and each of several in a search of its own.  This module says what has to hold
of a solution in hand for that, and what solving comes to then.

`Kept` assignments can be applied in order to any pattern that names none of
their parameters (`Kept.applyAll`), and so can those that a search adds to them
(`Kept.append`), since its counter stays above all that they name
(`Open.below_of_solve`).  `Held` says besides that the assignments are a part
of a solution of all equations so far, and that what is pending says the same
as the equations that are not solved yet (`Alike`).  To add an equation keeps
this (`Held.add`), and it makes the search stand for the equations
(`Held.represents`).  So solving returns and goes on from the solution in hand
to all those of the equations (`Represents.continues`), also where it goes on
in a fork (`Held.fork`).
-/

import SecondOrder.Proofs.Search.Slotless
import SecondOrder.Proofs.Search.Solving

namespace SecondOrder

namespace Valuation

open SecondOrder.Expr

variable {R : Reserved} {arity : Arity} {ρ : Valuation} {S : List Equation} {p : Expr}

/-- Assignments to unknowns that do not occur change nothing. -/
theorem den_under_of_not_mem (hS : ∀ c ∈ S, c.pattern.isMarked = true) (hp : Sorted R arity p)
    (h : ∀ c ∈ S, c.pattern ∉ p.names) : p.den R (ρ.under R S) = p.den R ρ := by
  induction S with
  | nil => rfl
  | cons c S ih =>
    rw [List.forall_mem_cons] at hS h
    rw [under, ← (Equation.Applied.of_not_mem hS.1 hp h.1).den, ih hS.2 h.2]

end Valuation

namespace Search

open SecondOrder.Expr Equation

variable {R : Reserved} {arity : Arity} {V : Var → Prop} {Θ : Expr → Term} {s t u : Search}
  {σ τ : EquationSet} {P Q : EquationSet} {c c' d : Equation} {cs cs' S S' : List Equation}
  {M N n : Nat}

/-- The variables of a solution that has been cleaned up are below the same
counter. -/
theorem Branched.below {g : Guess} {m b : Expr} {k N : Nat} {xs : Binders} {ts : List Expr}
    (h : Branched R arity s σ c g m k N xs b ts t)
    {τ₀ : EquationSet} (hτ₀ : Completes R (arity.extend ts (k + 1)) t (σ.copy.add [⟨m, R.lambda xs b⟩]) τ₀)
    (happly : Cleanup.applyAll R (Branch.cleanups ⟨t, ts⟩ s) τ₀ = .ok (some τ))
    (hbelow : ∀ d ∈ τ₀.equations, d.Below M) : ∀ d ∈ τ.equations, d.Below M := by
  obtain ⟨S, heqs, hS⟩ := h.of_completes hτ₀
  obtain ⟨τ', b', S', heqs', hsub, -, -, hb, ⟨hnone, -⟩ | ⟨hkept, -⟩⟩ := h.cleanup hS heqs
  · cases hnone.symm.trans happly
  · cases hkept.symm.trans happly
    rw [heqs, List.forall_mem_append, List.forall_mem_cons] at hbelow
    obtain ⟨hσ, hguess, hrest⟩ := hbelow
    rw [heqs', List.forall_mem_append, List.forall_mem_cons]
    refine ⟨hσ, ⟨hguess.1, fun z hz => ?_⟩, fun d hd => hrest d (hsub.subset hd)⟩
    rcases mem_vars_bind.1 hz with hz | hz
    · exact hguess.2 z (mem_vars_bind.2 (.inl hz))
    · rcases hb.vars z hz with hz | hz | ⟨d, hd, -, -, hz⟩
      · exact hguess.2 z (mem_vars_bind.2 (.inr hz))
      · exact hz.below M
      · exact (hrest d hd).2 z hz

/-- **The counter of a search is above what its solutions name.** -/
theorem Open.below_of_solve (ho : Open R arity s.begun σ) (h : s.solve R n = some ⟨t, .ok ()⟩) :
    ∀ τ ∈ t.solutions, ∀ d ∈ τ.equations, d.Below t.pending.nextFresh := by
  induction n generalizing arity s σ t with
  | zero => cases h
  | succ n ih =>
    obtain ⟨u, σ', new, -, ho', -, -, hcloses⟩ := ho.closes h
    cases hcloses with
    | complete =>
      intro τ hτ
      have hτ : τ ∈ u.solutions := hτ
      rw [ho'.solutions] at hτ
      obtain rfl := List.mem_singleton.1 hτ
      exact fun d hd => (ho'.made d hd).2.2
    | refuted hnil =>
      rw [hnil]
      exact List.forall_mem_nil _
    | @branched c m k found parts hc hr hhead hexplored =>
      intro τ hτ
      obtain ⟨g, hg, br, t, hbr, hsolve, τ₀, hτ₀, happly⟩ := hexplored.mem_iff.1 hτ
      obtain ⟨t', hpart, hsolve'⟩ := hexplored.exists_part hg hbr
      cases hsolve.symm.trans hsolve'
      rcases ho'.branched hc hr hhead hg with hnone | ⟨N, xs, b, ts, t₁, hsome, hbranched⟩
      · cases hnone.symm.trans hbr
      · cases hsome.symm.trans hbr
        have hopen := hbranched.assigned.opened
        have hopen' := hopen.begun.symm ▸ hopen
        have hcompletes := hopen'.completes_of_solve hsolve τ₀ hτ₀
        rw [hopen.begun] at hcompletes
        have hbelow := hbranched.below hcompletes happly (ih (s := t₁) hopen' hsolve τ₀ hτ₀)
        exact fun d hd => (hbelow d hd).mono ((le_settle _ found parts).2 t hpart)

/-- Assignments that can be applied in order to a pattern without bindings: the
parameters of a function occur in no value before. -/
structure Kept (R : Reserved) (arity : Arity) (N : Nat) (S : List Equation) : Prop where
  values : ∀ d ∈ S, Proper R arity d ∧ Ground R d.subject ∧ Bare R arity d
  below : ∀ d ∈ S, d.Below N
  distinct : (S.map Equation.pattern).Nodup
  function : ∀ d ∈ S, ∀ k, arity d.pattern = some k →
    ∃ t, d.subject.den R (.free R) 0 = .bind R.lambdaSym k t ∧ t.Below k
  params : S.Pairwise fun c d => ∀ u, IsParam R arity d u → u ∉ c.subject.vars

namespace Kept

/-- No assignments are needed to begin with. -/
theorem nil : Kept R arity N [] := ⟨nofun, nofun, List.nodup_nil, nofun, .nil⟩

/-- All values are ground and belong to unknowns. -/
theorem ground (h : Kept R arity N S) : GroundValues R S := fun d hd =>
  ⟨(h.values d hd).1.unknown, (h.values d hd).2.1⟩

/-- A later counter is past what an earlier one was past. -/
theorem mono (h : Kept R arity M S) (hle : M ≤ N) : Kept R arity N S :=
  { h with below := fun d hd => (h.below d hd).mono hle }

/-- What finishes a search can be applied after what it started with. -/
theorem append (h : Kept R arity s.pending.nextFresh S) (hS : Finishes R arity s S')
    (hs : s.pending.Slotless R arity) (hdistinct : ((S ++ S').map Equation.pattern).Nodup)
    (hbelow : ∀ d ∈ S ++ S', d.Below N) : Kept R arity N (S ++ S') where
  values := List.forall_mem_append.2 ⟨h.values, fun d hd => ⟨(hS.values d hd).1, (hS.values d hd).2,
    hS.bare (fun e he => (hs.equations e he).subject) d hd⟩⟩
  below := hbelow
  distinct := hdistinct
  function := List.forall_mem_append.2 ⟨h.function, hS.function⟩
  params := List.pairwise_append.2 ⟨h.params, hS.apart.imp And.right, fun c hc d hd u hu hmem =>
    hS.params d hd u hu ((h.below c hc).2 u hmem)⟩

/-- Applied to a pattern that names no parameter. -/
theorem applyAll (h : Kept R arity N S) (hc : c.Slotless R arity)
    (hclear : ∀ d ∈ S, ∀ u, IsParam R arity d u → u ∉ c.pattern.vars) :
    ∃ p, EquationSet.applyAll R S c.pattern = .ok p ∧ Slotless R arity ⟨p, c.subject⟩ ∧
      (∀ ρ : Valuation, p.den R (ρ.under R S) = c.pattern.den R (ρ.under R S)) ∧
      (c.Below N → Equation.Below N ⟨p, c.subject⟩) ∧ ∀ d ∈ S, d.pattern ∉ p.names := by
  obtain ⟨p, hp, hsorted, hslots, hden, hvars, hnames⟩ :=
    EquationSet.applyAll_flat h.values hc.sorted hc.pattern hclear h.params
  have hapart (d : Equation) (hd : d ∈ S) : d.pattern ∉ p.names := fun hmem =>
    (hnames _ hmem (h.ground d hd).1).2 d hd rfl
  refine ⟨p, hp, ⟨hsorted, hc.ground, hslots, hc.subject⟩, fun ρ => ?_, fun hbelow => ⟨fun z hz => ?_, hbelow.2⟩,
    hapart⟩
  · rw [Valuation.den_under_of_not_mem (fun d hd => (h.ground d hd).1) hsorted hapart, hden]
  · rcases hvars z hz with hz | ⟨d, hd, hz⟩
    · exact hbelow.1 z hz
    · exact (h.below d hd).2 z hz

end Kept

/-- Both equations say the same of what `S` assigns. -/
def Alike (R : Reserved) (S : List Equation) (c d : Equation) : Prop := ∀ ρ : Valuation,
  d.pattern.den R (ρ.under R S) = c.pattern.den R (ρ.under R S) ∧ d.subject.den R ρ = c.subject.den R ρ

/-- Equations that are the same are alike. -/
theorem alike_of_beq (hc : c.Slotless R arity) (hd : d.Slotless R arity) (h : (d == c) = true) :
    Alike R S c d := by
  have h : (d.pattern.similar c.pattern && d.subject.similar c.subject) = true := h
  rw [Bool.and_eq_true] at h
  exact fun ρ => ⟨(similar_iff hd.sorted hc.sorted).1 h.1 _,
    (similar_iff (hd.ground arity) (hc.ground arity)).1 h.2 ρ⟩

/-- The assignments `S` are a part of a solution of `cs`, and the pending
equations `P` say what is left. -/
structure Held (R : Reserved) (arity : Arity) (cs : List Equation) (P : EquationSet)
    (S : List Equation) : Prop extends Kept R arity P.nextFresh S where
  free : ∀ d ∈ S, ∀ z : Var, .var z ∈ d.subject.names → ∃ c ∈ cs, .var z ∈ c.subject.names
  covers : ∀ c ∈ cs, c.Solved R S ∨ ∃ d ∈ P.equations, Alike R S c d
  origin : ∀ d ∈ P.equations, ∃ c ∈ cs, Alike R S c d

namespace Held

variable (h : Held R arity cs P S)

include h

/-- **What is added is left, too,** if it is alike. -/
theorem add (hP : (P.add [c']).Slotless R arity) (hc' : c'.Slotless R arity) (halike : Alike R S c c') :
    Held R arity (cs ++ [c]) (P.add [c']) S := by
  have hgrows := EquationSet.grows_add P [c']
  obtain ⟨ds, hds, heqs, -⟩ := hgrows.equations
  refine ⟨h.toKept.mono hgrows.counter, fun d hd z hz => ?_, ?_, fun d hd => ?_⟩
  · obtain ⟨e, he, hz⟩ := h.free d hd z hz
    exact ⟨e, List.mem_append_left _ he, hz⟩
  · rw [List.forall_mem_append, List.forall_mem_singleton]
    refine ⟨fun e he => (h.covers e he).imp_right ?_, .inr ?_⟩
    · rintro ⟨d, hd, hed⟩
      exact ⟨d, heqs ▸ List.mem_append_left _ hd, hed⟩
    · obtain ⟨d, hd, hdc⟩ := hgrows.covers c' (List.mem_singleton.2 rfl)
      refine ⟨d, hd, fun ρ => ?_⟩
      obtain ⟨hpattern, hsubject⟩ := alike_of_beq (S := S) hc' (hP.equations d hd) hdc ρ
      exact ⟨hpattern.trans (halike ρ).1, hsubject.trans (halike ρ).2⟩
  · rw [heqs] at hd
    rcases List.mem_append.1 hd with hd | hd
    · obtain ⟨e, he, hed⟩ := h.origin d hd
      exact ⟨e, List.mem_append_left _ he, hed⟩
    · rw [List.mem_singleton.1 (hds.subset hd)]
      exact ⟨c, List.mem_append_right _ (List.mem_singleton.2 rfl), halike⟩

/-- **The search stands for the equations,** if what it has assigned occurs no
more. -/
theorem represents (hcs : ∀ c ∈ cs, c.Slotless R arity) {σ : EquationSet} (hσ : σ.equations = S)
    (hsolutions : s.begun.solutions = [σ]) (hP : s.begun.pending = P) (hs : P.Slotless R arity)
    (hbelow : ∀ d ∈ P.equations, d.Below P.nextFresh)
    (hapart : ∀ c ∈ S, ∀ d ∈ P.equations, c.pattern ∉ d.pattern.names) :
    Represents R arity (fun _ => True) cs s σ := by
  subst hP hσ
  have hpatterns (d : Equation) (hd : d ∈ s.begun.pending.equations) :=
    And.intro (hs.equations d hd).sorted (hs.equations d hd).ground
  have hmarked (d : Equation) (hd : d ∈ σ.equations) := (h.ground d hd).1
  refine ⟨⟨hsolutions, hpatterns, hbelow, fun x hx => ?_, fun d hd => ?_, h.distinct, hapart⟩,
    spares_of_slotless hs _, h.ground, fun S hS => ⟨⟨?_, ?_, ?_, ?_⟩, ?_⟩, fun Θ _ hsolved hmeets d hd ρ => ?_⟩
  · rw [hs.exclusions] at hx
    cases hx
  · exact ⟨hmarked d hd, (h.values d hd).1.value, h.below d hd⟩
  · exact List.forall_mem_append.2 ⟨h.ground, hS.ground⟩
  · rw [List.map_append]
    refine List.nodup_append.2 ⟨h.distinct, hS.distinct, fun p hp q hq heq => ?_⟩
    obtain ⟨c, hc, rfl⟩ := List.mem_map.1 hp
    obtain ⟨d, hd, rfl⟩ := List.mem_map.1 hq
    obtain ⟨e, he, hfree⟩ := hS.occurs d hd
    exact hapart c hc e he (heq ▸ hfree)
  · intro c hc ρ
    dsimp only
    rw [Valuation.under_append]
    rcases h.covers c hc with hsolved | ⟨d, hd, halike⟩
    · exact (hsolved _).trans (Valuation.den_under (fun d hd => (hS.ground d hd).1) (hcs c hc).ground)
    · have hd' := hS.solved d hd ρ
      dsimp only at hd'
      rw [← (halike _).1, Valuation.den_under_of_not_mem hmarked (hpatterns d hd).1
        fun c hc => hapart c hc d hd, hd', (halike ρ).2]
  · exact List.forall_mem_append.2 ⟨h.function, hS.function⟩
  · refine List.forall_mem_append.2 ⟨h.free, fun c hc z hz => ?_⟩
    obtain ⟨d, hd, -, hz⟩ := hS.free c hc z hz
    obtain ⟨e, he, halike⟩ := h.origin d hd
    exact ⟨e, he, mem_names_of_den_eq ((hpatterns d hd).2 arity) ((hcs e he).ground arity) (.inr ⟨z, rfl⟩)
      (congrFun (halike (.free R)).2 0) hz⟩
  · obtain ⟨c, hc, halike⟩ := h.origin d hd
    have hguide := Valuation.under_guide (ρ := ρ) h.ground hmeets
    obtain ⟨hpattern, -⟩ := halike (ρ.guide R Θ)
    rw [hguide] at hpattern
    dsimp only
    rw [hpattern, hsolved c hc ρ, (halike ρ).2]

end Held

/-- What is alike twice is alike. -/
theorem Alike.trans {e : Equation} (h : Alike R S c d) (h' : Alike R S d e) : Alike R S c e :=
  fun ρ => ⟨(h' ρ).1.trans (h ρ).1, (h' ρ).2.trans (h ρ).2⟩

/-- A guided search keeps the variables `V` out of its exclusions, and its
limit. -/
theorem Guided.after (hg : Guided R arity V Θ s.begun σ) (ho : Open R arity s.begun σ)
    (h : s.solve R n = some ⟨t, .ok ()⟩) :
    t.limit = s.limit ∧ ∀ x ∈ t.pending.exclusions, ¬V x.outer := by
  cases n with
  | zero => cases h
  | succ n =>
    cases course_of_solve h with
    | forked many => exact absurd many ho.length_le
    | decided _ ran =>
      obtain ⟨u, hu, hstop⟩ := reaches_of_steps ran
      obtain ⟨σ', new, ho', -, hg', -⟩ := hg.reaches ho hu
      rcases hg'.ended ho' hstop with hlast | ⟨c, -, -, hlast⟩
      · cases hlast
        exact ⟨(limit_of_reaches hu : u.limit = s.limit), hg'.spares.outers⟩
      · cases hlast
    | branched _ ran =>
      have hu := (stands_of_run ran).reached
      obtain ⟨σ', new, -, -, hg', -⟩ := hg.reaches ho hu
      exact ⟨(limit_of_reaches hu : _ = s.limit), hg'.spares.outers⟩

/-- A search that has been solved is known to be solvable or not. -/
theorem solvable_of_solve (h : s.solve R n = some ⟨t, .ok ()⟩) :
    t.solvable = some (!t.solutions.isEmpty) := by
  cases n with
  | zero => cases h
  | succ n =>
    cases course_of_solve h with
    | forked => rfl
    | decided few ran =>
      rcases run_decided few ran with ⟨hv, hσ⟩ | ⟨hv, -, σ, hσ⟩ <;> rw [hv, hσ] <;> rfl
    | branched => rfl

/-- What is returned goes on from `σ` to the solutions of `cs`. -/
structure Continues (R : Reserved) (arity : Arity) (cs : List Equation) (σ : EquationSet)
    (t : Search) : Prop where
  solution : ∀ τ ∈ t.solutions, Solution R arity cs τ.equations ∧ ∃ S, τ.equations = σ.equations ++ S
  kept : ∀ τ ∈ t.solutions, Kept R arity t.pending.nextFresh τ.equations
  follows : ∀ Θ, Admits R arity (fun _ => True) Θ → (∀ c ∈ cs, c.SolvedBy R Θ) →
    (∀ d ∈ σ.equations, d.Meets R Θ) → ∃! τ, τ ∈ t.solutions ∧ ∀ d ∈ τ.equations, d.Meets R Θ
  rest : t.solutions ≠ [] → t.pending.exclusions = [] ∧ t.limit = none

/-- **A search goes on from where it is,** and returns. -/
theorem Represents.continues (h : Represents R arity (fun _ => True) cs s σ)
    (hcs : ∀ c ∈ cs, c.Slotless R arity) (hs : s.begun.pending.Slotless R arity)
    (hkept : Kept R arity s.begun.pending.nextFresh σ.equations) (hlimit : s.limit = none) :
    ∃ n t, s.solve R n = some ⟨t, .ok ()⟩ ∧ Continues R arity cs σ t := by
  obtain ⟨n, t, hsolve⟩ := h.opened.exists_solve hlimit
  refine ⟨n, t, hsolve, fun τ => h.solution hsolve, fun τ hτ => ?_, fun Θ => h.follows hsolve, fun hne => ?_⟩
  · obtain ⟨S, heqs, hS⟩ := h.opened.completes_of_solve hsolve τ hτ
    have hbelow := h.opened.below_of_solve hsolve τ hτ
    rw [heqs] at hbelow ⊢
    exact hkept.append hS hs (heqs ▸ (h.solution hsolve hτ).1.distinct) hbelow
  · obtain ⟨τ, hτ⟩ := List.exists_mem_of_ne_nil _ hne
    obtain ⟨hsol, S, heqs⟩ := h.solution hsolve hτ
    have hmeets (d : Equation) (hd : d ∈ τ.equations) := hsol.meets_termOf (w := ⟨"", false⟩) hd
    have hg := h.guided (hsol.admits_termOf (w := ⟨"", false⟩) trivial fun _ _ _ _ => trivial)
      (hsol.solvedBy (fun c hc => (hcs c hc).ground) hmeets)
      fun d hd => hmeets d (heqs ▸ List.mem_append_left _ hd)
    obtain ⟨hlimit', houters⟩ := hg.after h.opened hsolve
    exact ⟨List.eq_nil_iff_forall_not_mem.2 fun x hx => houters x hx trivial, hlimit'.trans hlimit⟩

/-- **A fork goes on from its solution.** -/
theorem Held.fork (h : Held R arity cs s.pending σ.equations) (hcs : ∀ c ∈ cs, c.Slotless R arity)
    (hs : s.pending.Slotless R arity) (hbelow : ∀ d ∈ s.pending.equations, d.Below s.pending.nextFresh)
    (hclear : ∀ d ∈ σ.equations, ∀ u, IsParam R arity d u → ∀ e ∈ s.pending.equations, u ∉ e.pattern.vars)
    (hlimit : s.limit = none) :
    ∃ f n t, s.fork R σ = .ok f ∧ f.solve R n = some ⟨t, .ok ()⟩ ∧ Continues R arity cs σ t := by
  have hcopy := EquationSet.grows_copy s.pending
  have hσ : σ.copy.equations = σ.equations :=
    EquationSet.equations_ofList (distinct_of_nodup h.distinct fun d hd => (h.ground d hd).1)
  have happly (c : Equation) (hc : c ∈ s.pending.copy.equations) : ∃ e : Equation,
      (EquationSet.applyAll R σ.equations c.pattern = .ok e.pattern ∧ e.subject = c.subject) ∧
        e.Slotless R arity ∧ Alike R σ.equations c e ∧ e.Below s.pending.nextFresh ∧
          ∀ d ∈ σ.equations, d.pattern ∉ e.pattern.names := by
    have hc := hcopy.1.subset hc
    obtain ⟨p, hp, hslotless, hden, hp', hapart⟩ :=
      h.applyAll (hs.equations c hc) fun d hd u hu => hclear d hd u hu c hc
    exact ⟨⟨p, c.subject⟩, ⟨hp, rfl⟩, hslotless, fun ρ => ⟨hden ρ, rfl⟩, hp' (hbelow c hc), hapart⟩
  obtain ⟨es, hes⟩ := exists_forall₂ happly
  let P : EquationSet := { s.pending.copy with equations := es }
  let f : Search := { s.clone with solutions := [σ.copy], solvable := none, pending := P }
  have hfork : s.fork R σ = .ok f := by
    have hinstantiate : σ.instantiate R s.clone.pending = ⟨P, .ok ()⟩ := by
      have hes' := EquationSet.instantiateEach_of_applyAll (hes.imp fun _ _ h => h.1)
      rw [EquationSet.instantiate]
      change (⟨_, _⟩ : Attempt EquationSet Unit) = _
      rw [clone, hes']
    rw [Search.fork, instantiate, hinstantiate]
    rfl
  -- What is assigned and what is left stand for the equations as they did before the fork.
  have hheld : Held R arity cs P σ.equations := by
    refine ⟨h.toKept, h.free, fun c hc => (h.covers c hc).imp_right ?_, fun e he => ?_⟩
    · rintro ⟨d, hd, hcd⟩
      obtain ⟨d', hd', hdd⟩ := hcopy.2 d hd
      obtain ⟨e, he, -, -, hde, -⟩ := exists_of_forall₂_left hes d' hd'
      exact ⟨e, he, (hcd.trans (alike_of_beq (hs.equations d hd) (hs.equations d' (hcopy.1.subset hd'))
        hdd)).trans hde⟩
    · obtain ⟨d, hd, -, -, hde, -⟩ := exists_of_forall₂ hes e he
      obtain ⟨c, hc, hcd⟩ := h.origin d (hcopy.1.subset hd)
      exact ⟨c, hc, hcd.trans hde⟩
  have hof (e : Equation) (he : e ∈ es) : e.Slotless R arity ∧ e.Below s.pending.nextFresh ∧
      ∀ d ∈ σ.equations, d.pattern ∉ e.pattern.names := by
    obtain ⟨_, _, _, hslotless, _, hbelow, hapart⟩ := exists_of_forall₂ hes e he
    exact ⟨hslotless, hbelow, hapart⟩
  have hslotless : P.Slotless R arity := ⟨fun e he => (hof e he).1, hs.exclusions⟩
  have hrepresents : Represents R arity (fun _ => True) cs f σ.copy :=
    (hσ.symm ▸ hheld).represents hcs rfl rfl rfl hslotless (fun e he => (hof e he).2.1)
      fun d hd e he => (hof e he).2.2 d (hσ ▸ hd)
  obtain ⟨n, t, hsolve, hcontinues⟩ := hrepresents.continues hcs hslotless (hσ.symm ▸ hheld.toKept) hlimit
  refine ⟨f, n, t, hfork, hsolve, ?_⟩
  exact ⟨hσ ▸ hcontinues.solution, hcontinues.kept, hσ ▸ hcontinues.follows, hcontinues.rest⟩

end Search

end SecondOrder
