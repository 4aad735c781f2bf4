/-
# Solving

`Search.solve` finds all solutions.  It runs the deterministic part of a search
and, at an equation to branch on, solves the branch of every guess in turn and
collects the solutions of the branches.  A search that already has several
solutions tries each of them in a copy of its own (`forks`).

A refused search keeps what its deterministic part has changed; the copies that
were being searched are lost.  Nothing bounds a search in general, so `solve`
has a bound on the nesting of branch points and on the length of deterministic
parts, its argument `fuel`; `none` says that it was too small, and any other
answer does not depend on it (`solve_mono`).
-/

import SecondOrder.Search.Branch

namespace SecondOrder
namespace Search

/-- A copy of the search for each of its solutions, with that solution applied
to the pending patterns. -/
def forks (R : Reserved) (s : Search) : Except Fault (List Search) :=
  s.solutions.mapM fun σ =>
    let fork := { s.clone with solutions := [σ.copy], solvable := none }.instantiate R σ
    fork.result.map fun _ => fork.state

/-- The search ended with the given solutions, its pending equations treated in
the searches `parts`. -/
def settle (s : Search) (solutions : List EquationSet) (parts : List Search) : Search :=
  { s with
    solutions
    solvable := some (!solutions.isEmpty)
    pending := { s.pending.clear with
      nextFresh := parts.foldl (fun n t => max n t.pending.nextFresh) s.pending.nextFresh } }

/-- Solves searches in order, as long as none is refused. -/
def solveEach (solve : Search → Option (Attempt Search Unit)) :
    List Search → Option (Except Fault (List Search))
  | [] => some (.ok [])
  | s :: rest => match solve s with
    | none => none
    | some ⟨_, .error fault⟩ => some (.error fault)
    | some ⟨s, .ok ()⟩ => (solveEach solve rest).map fun r => r.map (s :: ·)

/-- Opens and solves the branches of `s` for the guesses in order, as long as
none is refused: the solutions without temporaries, and the branches as they
have ended. -/
def explore (R : Reserved) (solve : Search → Option (Attempt Search Unit)) (s : Search)
    (c : Equation) : List Guess → Option (Except Fault (List EquationSet × List Search))
  | [] => some (.ok ([], []))
  | g :: rest => match s.branch? R c g with
    | .error fault => some (.error fault)
    | .ok none => explore R solve s c rest
    | .ok (some b) => match solve b.search with
      | none => none
      | some ⟨_, .error fault⟩ => some (.error fault)
      | some ⟨t, .ok ()⟩ => match t.solutions.mapM (Cleanup.applyAll R (b.cleanups s)) with
        | .error fault => some (.error fault)
        | .ok found => (explore R solve s c rest).map fun r =>
            r.map fun (solutions, parts) => (found.reduceOption ++ solutions, t :: parts)

/-- Solves a search, whether or not it has been solved before. -/
def solve (R : Reserved) : Nat → Search → Option (Attempt Search Unit)
  | 0, _ => none
  | fuel + 1, s =>
    if 1 < s.solutions.length then
      match s.forks R with
      | .error fault => some ⟨s, .error fault⟩
      | .ok forks => (solveEach (solve R fuel) forks).map fun
        | .error fault => ⟨s, .error fault⟩
        | .ok parts => ⟨s.settle (parts.flatMap Search.solutions) parts, .ok ()⟩
    else
      match s.run R fuel with
      | none => none
      | some ⟨s, .error fault⟩ => some ⟨s, .error fault⟩
      | some ⟨s, .ok none⟩ => some ⟨s, .ok ()⟩
      | some ⟨s, .ok (some c)⟩ => match s.guesses c with
        | .error fault => some ⟨s, .error fault⟩
        | .ok guesses => (explore R (solve R fuel) s c guesses).map fun
          | .error fault => ⟨s, .error fault⟩
          | .ok (solutions, parts) => ⟨s.settle solutions parts, .ok ()⟩

/-- Solves a search unless its solvability is known. -/
def solved (R : Reserved) (fuel : Nat) (s : Search) : Option (Attempt Search Unit) :=
  match s.solvable with
  | none => s.solve R fuel
  | some _ => some ⟨s, .ok ()⟩

section Fuel

variable {R : Reserved} {f g : Search → Option (Attempt Search Unit)}

/-- A solver that returns at least what another one returns does so for several
searches, too. -/
theorem solveEach_mono (hfg : ∀ s r, f s = some r → g s = some r) {ss : List Search}
    {r : Except Fault (List Search)} (h : solveEach f ss = some r) : solveEach g ss = some r := by
  induction ss generalizing r with
  | nil => exact h
  | cons s ss ih =>
    rw [solveEach] at h
    split at h
    · cases h
    · next hs => rw [solveEach, hfg _ _ hs]; exact h
    · next hs =>
      obtain ⟨q, hq, rfl⟩ := Option.map_eq_some_iff.1 h
      rw [solveEach, hfg _ _ hs]
      exact Option.map_eq_some_iff.2 ⟨q, ih hq, rfl⟩

/-- The same for the branches of a search, tried in the same order and ended by
the same fault. -/
theorem explore_mono (hfg : ∀ s r, f s = some r → g s = some r) {s : Search} {c : Equation}
    {gs : List Guess} {r : Except Fault (List EquationSet × List Search)}
    (h : explore R f s c gs = some r) : explore R g s c gs = some r := by
  induction gs generalizing r with
  | nil => exact h
  | cons k gs ih =>
    rw [explore] at h ⊢
    split at h
    · exact h
    · exact ih h
    · split at h
      · cases h
      · next ht => rw [hfg _ _ ht]; exact h
      · next ht =>
        rw [hfg _ _ ht]
        dsimp only
        split at h
        · exact h
        · obtain ⟨q, hq, rfl⟩ := Option.map_eq_some_iff.1 h
          exact Option.map_eq_some_iff.2 ⟨q, ih hq, rfl⟩

/-- One more unit of fuel keeps the answer: it is spent at the innermost
branches, which have not run out of theirs. -/
theorem solve_succ {fuel : Nat} {s : Search} {r : Attempt Search Unit}
    (h : solve R fuel s = some r) : solve R (fuel + 1) s = some r := by
  induction fuel generalizing s r with
  | zero => cases h
  | succ fuel ih =>
    rw [solve] at h ⊢
    split at h
    · next hs =>
      rw [if_pos hs]
      split at h
      · exact h
      · obtain ⟨q, hq, rfl⟩ := Option.map_eq_some_iff.1 h
        exact Option.map_eq_some_iff.2 ⟨q, solveEach_mono (fun _ _ => ih) hq, rfl⟩
    · next hs =>
      rw [if_neg hs]
      split at h
      · cases h
      · next hrun => rw [run_mono (Nat.le_succ _) hrun]; exact h
      · next hrun => rw [run_mono (Nat.le_succ _) hrun]; exact h
      · next hrun =>
        rw [run_mono (Nat.le_succ _) hrun]
        dsimp only
        split at h
        · exact h
        · obtain ⟨q, hq, rfl⟩ := Option.map_eq_some_iff.1 h
          exact Option.map_eq_some_iff.2 ⟨q, explore_mono (fun _ _ => ih) hq, rfl⟩

/-- **More fuel keeps the answer of a search.** -/
theorem solve_mono {m n : Nat} {s : Search} {r : Attempt Search Unit} (hmn : m ≤ n)
    (h : solve R m s = some r) : solve R n s = some r := by
  induction hmn with
  | refl => exact h
  | step _ ih => exact solve_succ ih

end Fuel

end Search
end SecondOrder
