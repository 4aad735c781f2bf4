/-
# To add equations refines the solutions

A solution extends another one if it gives every unknown that has a value there
the same value (`EquationSet.Extends`).  When equations are added to a search
that has been solved, and it is solved again, every solution then extends one
of those before, and they come in the order of the solutions that they extend
(`Calls.refined`).

One solution is built on where it is; of several each is built on in a fork of
its own, whose patterns it has been applied to.  Either way assignments only
join it at the end.  Those that later temporaries are substituted away from are
not among the ones that were there before.
-/

import SecondOrder.Proofs.Search.Answers

namespace SecondOrder

namespace EquationSet

/-- Whatever has a value in `σ` has the same value in `τ`. -/
def Extends (τ σ : EquationSet) : Prop := ∀ m v, σ.lookup? m = some v → τ.lookup? m = some v

/-- Assignments that join a set at its end extend it. -/
theorem extends_of_prefix {σ τ : EquationSet} (h : σ.equations <+: τ.equations) : τ.Extends σ := by
  obtain ⟨S, hS⟩ := h
  intro m v hv
  obtain ⟨c, hc, rfl⟩ := Option.map_eq_some_iff.1 hv
  refine Option.map_eq_some_iff.2 ⟨c, ?_, rfl⟩
  rw [find?, ← hS, List.find?_append, show List.find? _ σ.equations = some c from hc]
  rfl

end EquationSet

namespace Search

open Equation EquationSet

variable {R : Reserved} {cs ds : List Equation} {s t u : Search} {n : Nat}

/-- The solutions `τs` come in groups, one for each of the solutions `σs` and
in their order, and what is in a group extends the solution that it is for. -/
def Refines (τs σs : List EquationSet) : Prop :=
  ∃ groups : List (List EquationSet), τs = groups.flatten ∧
    List.Forall₂ (fun σ group => ∀ τ ∈ group, τ.Extends σ) σs groups

/-- Every list of solutions refines itself, in groups of one. -/
theorem Refines.refl (σs : List EquationSet) : Refines σs σs := by
  refine ⟨σs.map fun σ => [σ], (List.flatMap_singleton' σs).symm, ?_⟩
  rw [List.forall₂_map_right_iff, List.forall₂_same]
  exact fun σ _ τ hτ => List.mem_singleton.1 hτ ▸ fun _ _ => id

/-- An equation is determined by its two operands. -/
theorem operands_injective : Function.Injective operands := by
  rintro ⟨p, e⟩ ⟨q, f⟩ h
  obtain ⟨hp, he⟩ := Prod.mk.inj h
  rw [Equation.mk.injEq]
  exact ⟨Operand.expr.inj hp, Operand.expr.inj he⟩

/-- **To solve a search refines its solutions.** -/
theorem Orderly.refines (h : Orderly R cs s) (hne : s.solutions ≠ [])
    (hs : s.solve R n = some ⟨t, .ok ()⟩) : Refines t.solutions s.solutions := by
  have hextends {A T : Expr → Prop} {V : Var → Prop} {σ : EquationSet} {τs : List EquationSet}
      (hsep : Separate R A T V σ τs) : ∀ τ ∈ τs, τ.Extends σ := by
    intro τ hτ
    obtain ⟨S, hS, -⟩ := (hsep.1 τ hτ).completed
    exact extends_of_prefix (hS ▸ List.prefix_append ..)
  have hsingle (hfew : s.solutions.length ≤ 1) : Refines t.solutions s.solutions := by
    have hlen := Nat.le_antisymm hfew (List.length_pos_iff.2 hne)
    obtain ⟨σ, hσ⟩ := List.length_eq_one_iff.1 hlen
    refine ⟨[t.solutions], (List.flatten_singleton ..).symm, hσ ▸ .cons ?_ .nil⟩
    exact hextends ((h.ongoing hσ).solve hs)
  cases n with
  | zero => cases hs
  | succ n =>
    cases course_of_solve hs with
    | @forked _ parts _ forks solved =>
      have hparts := h.of_forks (fun σ hσ => hσ) (mapM_eq_ok.1 (forks_eq R s ▸ forks)) solved
      refine ⟨parts.map Search.solutions, List.flatMap_def .., ?_⟩
      exact List.forall₂_map_right_iff.2 (hparts.imp fun _ _ => hextends)
    | decided few | branched few => exact hsingle few

/-- To add an equation leaves the solutions as they are; if there is none, it
leaves it known that there is none. -/
theorem frame_add {c : Equation} (h : s.add R c = .ok t) :
    t.solutions = s.solutions ∧ (s.solutions = [] → t.solvable = s.solvable) := by
  cases added_of_add h with
  | unsolved => exact ⟨rfl, fun _ => rfl⟩
  | single one => exact ⟨rfl, fun hnil => absurd (one.symm.trans hnil) (List.cons_ne_nil _ _)⟩
  | several many => exact ⟨rfl, fun hnil => absurd hnil (List.ne_nil_of_length_pos (Nat.zero_lt_of_lt many))⟩

/-- The same for a list of pairs, also if one of them is refused. -/
theorem frame_addAll {pairs : List (Operand × Operand)} {r : Except Fault Unit}
    (h : s.addAll R pairs = ⟨t, r⟩) :
    t.solutions = s.solutions ∧ (s.solutions = [] → t.solvable = s.solvable) := by
  refine of_addAll (P := fun t => t.solutions = s.solutions ∧ (s.solutions = [] → t.solvable = s.solvable))
    ?_ ⟨rfl, fun _ => rfl⟩ h
  rintro t u c ⟨ht, hopen⟩ hu
  obtain ⟨hsolutions, hsolvable⟩ := frame_add hu
  exact ⟨hsolutions.trans ht, fun hnil => (hsolvable (ht.trans hnil)).trans (hopen hnil)⟩

namespace Calls

/-- **To add equations only refines the solutions.**  Take a search that has
been solved and any further equations without unknowns and reserved symbols in
their subjects.  Whenever it is solved again, every solution extends one of
those before, and they come in the order of the solutions that they extend. -/
theorem refined {v : Bool} (h : Calls R cs s) (hcs : ∀ c ∈ cs, c.subject.Concrete R)
    (hv : s.solvable = some v) (hds : ∀ c ∈ ds, c.subject.Concrete R)
    (hadd : s.addAll R (ds.map operands) = ⟨u, .ok ()⟩) (ht : u.solved R n = some ⟨t, .ok ()⟩) :
    Refines t.solutions s.solutions := by
  obtain ⟨hsolutions, hsolvable⟩ := frame_addAll hadd
  rw [← hsolutions]
  rw [Search.solved] at ht
  split at ht
  · next hopen =>
    obtain ⟨ds', hds', hu⟩ := h.addAll hadd
    obtain rfl : ds = ds' := List.map_injective_iff.2 operands_injective hds'
    refine (hu.orderly (List.forall_mem_append.2 ⟨hcs, hds⟩)).refines (fun hnil => ?_) ht
    cases (hopen.symm.trans (hsolvable (hsolutions ▸ hnil))).trans hv
  · cases ht
    exact .refl _

/-- `Calls.refined` at the search for `applied`, which had two solutions when
`elementary` was added. -/
theorem refined_applied : ∃ s t u v,
    Calls {} [applied] s ∧ s.solved {} 4 = some ⟨t, .ok ()⟩ ∧ t.solvable = some true ∧
      t.solutions.length = 2 ∧ t.addAll {} ([elementary].map operands) = ⟨u, .ok ()⟩ ∧
      u.solved {} 4 = some ⟨v, .ok ()⟩ ∧ v.solutions.length = 2 ∧ Refines v.solutions t.solutions := by
  have hs : Calls {} [applied] { pending := .add {} [applied] } := .add (.new none) rfl
  have h : ∃ u v, solvedApplied.addAll {} ([elementary].map operands) = ⟨u, .ok ()⟩ ∧
      u.solved {} 4 = some ⟨v, .ok ()⟩ ∧ v.solutions.length = 2 := by
    refine ⟨?_, ?_, ?_, ?_, ?_⟩
    rotate_left 2
    · cbv
      rfl
    · cbv
      rfl
    · cbv
  obtain ⟨u, v, hu, hv, htwo⟩ := h
  have helementary : ∀ c ∈ [elementary], c.subject.Concrete {} := by
    intro c hc e he
    rw [List.mem_singleton.1 hc] at he
    rw [List.mem_singleton.1 he]
    exact ⟨rfl, fun h => (by cases h), fun h => by cases h⟩
  exact ⟨_, solvedApplied, u, v, hs, solved_applied, rfl, rfl, hu, hv, htwo,
    (hs.solved solved_applied).refined concrete_applied rfl helementary hu hv⟩

end Calls

end Search
end SecondOrder
