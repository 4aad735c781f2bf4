/-
# The stream yields what solving finds

`Search.solve` recurses into the branches of a search and cleans up the
solutions of each branch on the way back.  A `Stream` keeps the branches on a
stack and carries the cleanups along, to apply them all once a solution is
complete.  `toList_of_solve` relates the two: a search on top of the stack
contributes its solutions, cleaned up by what is written beside it, and then
the stream goes on with the rest of the stack.

`Search.Attained` are the searches that a caller can bring about without
meeting a fault; in each of them nothing is pending once a solution is known
(`Attained.settled`).  There the stream of a search yields the solutions that
solving a copy of it finds, in the same order (`toList_stream`).
-/

import Mathlib
import SecondOrder.Search.Stream
import SecondOrder.Proofs.Search.Course

namespace SecondOrder

namespace Stream

variable {R : Reserved} {m n : Nat}

/-- With more fuel the stream yields the same solution next. -/
theorem next?_succ {t : Stream} {r : Except Fault (Option (EquationSet × Stream))}
    (h : next? R n t = some r) : next? R (n + 1) t = some r := by
  induction n generalizing t r with
  | zero => cases h
  | succ n ih =>
    obtain ⟨stack⟩ := t
    cases stack with
    | nil => exact h
    | cons top rest =>
      obtain ⟨s, ks⟩ := top
      rw [next?] at h ⊢
      split at h
      · cases h
      · next hrun => rw [Search.run_mono (Nat.le_succ _) hrun]; exact h
      · next hrun =>
        rw [Search.run_mono (Nat.le_succ _) hrun]
        dsimp only
        split at h
        · split at h
          · exact h
          · exact ih h
          · exact h
        · exact ih h
      · next hrun =>
        rw [Search.run_mono (Nat.le_succ _) hrun]
        dsimp only
        split at h
        · exact h
        · exact ih h

/-- With more fuel the stream yields the same solutions in all. -/
theorem toList_succ {t : Stream} {r : Except Fault (List EquationSet)}
    (h : toList R n t = some r) : toList R (n + 1) t = some r := by
  induction n generalizing t r with
  | zero => cases h
  | succ n ih =>
    rw [toList] at h ⊢
    split at h
    · cases h
    · next hn => rw [next?_succ hn]; exact h
    · next hn => rw [next?_succ hn]; exact h
    · next hn =>
      rw [next?_succ hn]
      obtain ⟨q, hq, rfl⟩ := Option.map_eq_some_iff.1 h
      exact Option.map_eq_some_iff.2 ⟨q, ih hq, rfl⟩

/-- **More fuel keeps what a stream yields.** -/
theorem toList_mono {t : Stream} {r : Except Fault (List EquationSet)} (hmn : m ≤ n)
    (h : toList R m t = some r) : toList R n t = some r := by
  induction hmn with
  | refl => exact h
  | step _ ih => exact toList_succ ih

/-- A stream yields what another one yields when its next solution is the
other's, at the cost of a step. -/
theorem toList_of_next? {t t' : Stream} {r : Except Fault (List EquationSet)}
    (hnext : ∀ n, m ≤ n → next? R (n + 1) t = next? R n t') (h : toList R n t' = some r) :
    ∃ n', toList R n' t = some r := by
  obtain ⟨k, hk⟩ : ∃ k, n ≤ k + 1 ∧ m ≤ k := ⟨max n m, by omega, by omega⟩
  have h := toList_mono hk.1 h
  refine ⟨k + 2, ?_⟩
  rw [toList] at h ⊢
  rw [hnext k hk.2]
  split at h
  · cases h
  · exact h
  · exact h
  · obtain ⟨q, hq, rfl⟩ := Option.map_eq_some_iff.1 h
    exact Option.map_eq_some_iff.2 ⟨q, toList_succ hq, rfl⟩

/-- The empty stream yields nothing. -/
theorem toList_nil : toList R 2 ⟨[]⟩ = some (.ok []) := rfl

/-- The stream yields the solutions `σs` and then is the stream `u`. -/
inductive Yields (R : Reserved) : Stream → List EquationSet → Stream → Prop
  | nil (t : Stream) : Yields R t [] t
  | cons {n : Nat} {t t' u : Stream} {σ : EquationSet} {σs : List EquationSet}
      (first : t.next? R n = some (.ok (some (σ, t')))) (rest : Yields R t' σs u) :
      Yields R t (σ :: σs) u

/-- A stream that is listed to its end yields the list. -/
theorem yields_of_toList {t : Stream} {σs : List EquationSet}
    (h : t.toList R n = some (.ok σs)) : ∃ u, Yields R t σs u := by
  induction n generalizing t σs with
  | zero => cases h
  | succ n ih =>
    rw [toList] at h
    split at h
    · cases h
    · cases h
    · cases h
      exact ⟨t, .nil t⟩
    · next hnext =>
      obtain ⟨q, hq, hmap⟩ := Option.map_eq_some_iff.1 h
      cases q with
      | error => cases hmap
      | ok τs =>
        cases hmap
        obtain ⟨u, hu⟩ := ih hq
        exact ⟨u, .cons hnext hu⟩

end Stream

/-- The cleanups `ks` turn the solutions `σs` into `τs`, dropping some. -/
inductive Kept (R : Reserved) (ks : List Cleanup) : List EquationSet → List EquationSet → Prop
  | nil : Kept R ks [] []
  | keep {σ τ : EquationSet} {σs τs : List EquationSet}
      (first : Cleanup.applyAll R ks σ = .ok (some τ)) (rest : Kept R ks σs τs) :
      Kept R ks (σ :: σs) (τ :: τs)
  | drop {σ : EquationSet} {σs τs : List EquationSet}
      (first : Cleanup.applyAll R ks σ = .ok none) (rest : Kept R ks σs τs) :
      Kept R ks (σ :: σs) τs

namespace Kept

variable {R : Reserved} {ks ls : List Cleanup} {σs τs υs ρs : List EquationSet}

/-- The cleanups that are carried out on all solutions at once keep what they
return something for. -/
theorem of_mapM {found : List (Option EquationSet)}
    (h : σs.mapM (Cleanup.applyAll R ks) = .ok found) : Kept R ks σs found.reduceOption := by
  have hfound := mapM_eq_ok.1 h
  clear h
  induction hfound with
  | nil => exact .nil
  | @cons σ τ _ _ first _ ih =>
    cases τ with
    | none => exact .drop first ih
    | some τ => exact .keep first ih

/-- Without cleanups every solution is kept as it is. -/
theorem refl (R : Reserved) (σs : List EquationSet) : Kept R [] σs σs := by
  induction σs with
  | nil => exact .nil
  | cons σ σs ih => exact .keep rfl ih

/-- What is kept of two lists of solutions is what is kept of the first and
then of the second. -/
theorem of_append (h : Kept R ks (σs ++ τs) υs) :
    ∃ ρs πs, υs = ρs ++ πs ∧ Kept R ks σs ρs ∧ Kept R ks τs πs := by
  induction σs generalizing υs with
  | nil => exact ⟨[], υs, rfl, .nil, h⟩
  | cons σ σs ih =>
    cases h with
    | keep first rest =>
      obtain ⟨ρs, πs, rfl, hρ, hπ⟩ := ih rest
      exact ⟨_ :: ρs, πs, rfl, .keep first hρ, hπ⟩
    | drop first rest =>
      obtain ⟨ρs, πs, rfl, hρ, hπ⟩ := ih rest
      exact ⟨ρs, πs, rfl, .drop first hρ, hπ⟩

/-- Cleanups are carried out one after another, and what one of them drops is
dropped for good. -/
theorem applyAll_append {σ : EquationSet} {r : Option EquationSet}
    (h : Cleanup.applyAll R ks σ = .ok r) :
    Cleanup.applyAll R (ks ++ ls) σ = r.elim (.ok none) (Cleanup.applyAll R ls) := by
  induction ks generalizing σ with
  | nil => cases h; rfl
  | cons k ks ih =>
    rw [Cleanup.applyAll] at h
    rw [List.cons_append, Cleanup.applyAll]
    cases hk : k.apply R σ with
    | error fault => rw [hk] at h; cases h
    | ok τ =>
      rw [hk] at h
      cases τ with
      | none => cases h; rfl
      | some τ => exact ih h

/-- **Cleaning up in two goes is cleaning up once.** -/
theorem trans (h : Kept R ks σs τs) (h' : Kept R ls τs υs) : Kept R (ks ++ ls) σs υs := by
  induction h generalizing υs with
  | nil => cases h'; exact .nil
  | keep first _ ih =>
    cases h' with
    | keep first' rest' => exact .keep ((applyAll_append first).trans first') (ih rest')
    | drop first' rest' => exact .drop ((applyAll_append first).trans first') (ih rest')
  | drop first _ ih => exact .drop (applyAll_append first) (ih h')

end Kept

namespace Search

variable {R : Reserved} {s t : Search} {c : Equation} {n m : Nat}

/-- How the deterministic part of a search ends that decides it: refuted, or
with nothing pending and its solution complete. -/
theorem run_decided (hone : s.solutions.length ≤ 1) (h : s.run R n = some ⟨t, .ok none⟩) :
    t.solvable = some false ∧ t.solutions = [] ∨
      t.solvable = some true ∧ t.pending.equations = [] ∧ ∃ σ, t.solutions = [σ] := by
  obtain ⟨u, hu, hstop⟩ := reaches_of_steps h
  have hlen := hu.frame.2.2.2.trans (length_begun hone)
  rcases halt_of_step hstop with ⟨hnone, hl⟩ | ⟨c, -, hl⟩
  · cases hl
    exact .inr ⟨rfl, hnone, List.length_eq_one_iff.1 hlen⟩
  · cases hl with
    | clash => exact .inl ⟨rfl, rfl⟩
    | excluded _ assigned =>
      obtain ⟨σ, rest, ds, -, -, -, rfl⟩ := assign_ok assigned
      exact .inl ⟨rfl, rfl⟩

end Search

namespace Stream

variable {R : Reserved} {n m : Nat} {rest : List (Search × List Cleanup)} {ys : List EquationSet}

/-- A decided search contributes its solution, if it has one that the cleanups
keep. -/
theorem toList_of_decided {s t : Search} {ks : List Cleanup} {found : List EquationSet}
    (hone : s.solutions.length ≤ 1) (hrun : s.run R n = some ⟨t, .ok none⟩)
    (hkept : Kept R ks t.solutions found) (hrest : toList R m ⟨rest⟩ = some (.ok ys)) :
    ∃ m', toList R m' ⟨(s, ks) :: rest⟩ = some (.ok (found ++ ys)) := by
  have hrun {k : Nat} (hk : n ≤ k) := Search.run_mono hk hrun
  rcases Search.run_decided hone (hrun (Nat.le_refl n)) with ⟨hv, hσ⟩ | ⟨hv, -, σ, hσ⟩
  · rw [hσ] at hkept
    cases hkept
    refine toList_of_next? (m := n) (fun k hk => ?_) hrest
    simp only [next?, hrun hk, hv]
  · rw [hσ] at hkept
    cases hkept with
    | drop first none =>
      cases none
      refine toList_of_next? (m := n) (fun k hk => ?_) hrest
      simp only [next?, hrun hk, hv, hσ, first]
    | keep first none =>
      cases none
      refine ⟨max n m + 2, ?_⟩
      have hlater := toList_mono (n := max n m + 1) (by omega) hrest
      rw [toList]
      simp only [next?, hrun (Nat.le_max_left n m), hv, hσ, first]
      rw [hlater]
      rfl

/-- The branches of a search, one after another on the stack, contribute what
exploring them finds. -/
theorem toList_of_explore {s : Search} {c : Equation} {gs : List Guess} {ks : List Cleanup}
    {solutions found : List EquationSet} {parts : List Search}
    {solve : Search → Option (Attempt Search Unit)}
    (hsolve : ∀ {m : Nat} {b t : Search} {ks : List Cleanup}
      {rest : List (Search × List Cleanup)} {found ys : List EquationSet},
      b.solutions.length ≤ 1 → solve b = some ⟨t, .ok ()⟩ → Kept R ks t.solutions found →
      toList R m ⟨rest⟩ = some (.ok ys) →
      ∃ m', toList R m' ⟨(b, ks) :: rest⟩ = some (.ok (found ++ ys)))
    (hone : s.solutions.length ≤ 1) (h : s.Explores R solve c gs solutions parts)
    (hkept : Kept R ks solutions found) (hrest : toList R m ⟨rest⟩ = some (.ok ys)) :
    ∃ bs m', gs.mapM (s.branch? R c) = .ok bs ∧
      toList R m' ⟨(bs.reduceOption.map fun b => (b.search, b.cleanups s ++ ks)) ++ rest⟩ =
        some (.ok (found ++ ys)) := by
  induction h generalizing found with
  | nil =>
    cases hkept
    exact ⟨[], m, rfl, hrest⟩
  | skip refused _ ih =>
    obtain ⟨bs, m', hbs, hm'⟩ := ih hkept
    refine ⟨none :: bs, m', ?_, hm'⟩
    rw [List.mapM_cons, refused, hbs]
    rfl
  | @take g gs b t cleaned _ _ opened solved cleans _ ih =>
    obtain ⟨ρs, πs, rfl, hρ, hπ⟩ := hkept.of_append
    obtain ⟨bs, m', hbs, hm'⟩ := ih hπ
    have hlen := Nat.le_trans (Nat.le_of_eq (Search.length_branch? opened)) hone
    obtain ⟨m'', hm''⟩ := hsolve hlen solved ((Kept.of_mapM cleans).trans hρ) hm'
    refine ⟨some b :: bs, m'', ?_, ?_⟩
    · rw [List.mapM_cons, opened, hbs]
      rfl
    · rw [List.append_assoc]
      exact hm''

/-- **A search on top of the stack contributes the solutions that solving it
finds,** as far as the cleanups written beside it keep them. -/
theorem toList_of_solve {s t : Search} {ks : List Cleanup} {found : List EquationSet}
    (hone : s.solutions.length ≤ 1) (hsolve : s.solve R n = some ⟨t, .ok ()⟩)
    (hkept : Kept R ks t.solutions found) (hrest : toList R m ⟨rest⟩ = some (.ok ys)) :
    ∃ m', toList R m' ⟨(s, ks) :: rest⟩ = some (.ok (found ++ ys)) := by
  induction n generalizing s t ks found m rest ys with
  | zero => cases hsolve
  | succ n ih =>
    cases Search.course_of_solve hsolve with
    | forked many => exact absurd many (Nat.not_lt.2 hone)
    | decided _ ran => exact toList_of_decided hone ran hkept hrest
    | @branched s₁ c _ _ _ _ ran guesses explored =>
      have hone₁ := (Search.stands_of_run ran).length hone
      obtain ⟨bs, m', hbs, hm'⟩ := toList_of_explore ih (Nat.le_of_eq hone₁) explored hkept hrest
      have hbranches : s₁.branches R c ks =
          .ok (bs.reduceOption.map fun b => (b.search, b.cleanups s₁ ++ ks)) := by
        rw [Search.branches, guesses]
        dsimp only [bind, Except.bind]
        rw [hbs]
        rfl
      refine toList_of_next? (m := n) (fun k hk => ?_) hm'
      simp only [next?, Search.run_mono hk ran, hbranches]

end Stream

namespace EquationSet

variable {R : Reserved}

/-- A set without equations is left as it is, whatever the solution: there is
nothing in it to replace. -/
theorem instantiate_of_nil {s t : EquationSet} (h : t.equations = []) :
    s.instantiate R t = ⟨t, .ok ()⟩ := by
  have hnil (as : List Equation) : instantiateEach R as [] = ⟨[], .ok ()⟩ := by
    induction as with
    | nil => rfl
    | cons a as ih => exact ih
  obtain ⟨cs, next, xs⟩ := t
  obtain rfl : cs = [] := h
  simp only [instantiate, hnil]

end EquationSet

namespace Search

variable {R : Reserved} {s t : Search} {n : Nat}

/-- The searches that calls of a search can lead to which meet no fault. -/
inductive Attained (R : Reserved) : Search → Prop
  | ofPairs {limit : Option Int} {pairs : List (Operand × Operand)} {s : Search}
      (h : ofPairs R limit pairs = .ok s) : Attained R s
  | add {s t : Search} {c : Equation} (hs : Attained R s) (h : s.add R c = .ok t) : Attained R t
  | addAll {s t : Search} {pairs : List (Operand × Operand)} (hs : Attained R s)
      (h : s.addAll R pairs = ⟨t, .ok ()⟩) : Attained R t
  | solve {n : Nat} {s t : Search} (hs : Attained R s) (h : s.solve R n = some ⟨t, .ok ()⟩) :
      Attained R t
  | solved {n : Nat} {s t : Search} (hs : Attained R s) (h : s.solved R n = some ⟨t, .ok ()⟩) :
      Attained R t
  | clone {s : Search} (hs : Attained R s) : Attained R s.clone

/-- A search known to be unsolvable has no solution, and one known to be
solvable has some and nothing pending. -/
structure Settled (s : Search) : Prop where
  refuted : s.solvable = some false → s.solutions = []
  complete : s.solvable = some true → s.pending.equations = [] ∧ s.solutions ≠ []

/-- About a search without a verdict nothing is claimed. -/
theorem Settled.of_open (h : s.solvable = none) : s.Settled :=
  ⟨fun hf => (Option.some_ne_none _ (hf.symm.trans h)).elim,
    fun ht => (Option.some_ne_none _ (ht.symm.trans h)).elim⟩

/-- The verdict that a search gets from its branches is about the solutions
that it gets from them, and it is left with nothing pending. -/
theorem settled_settle (s : Search) (solutions : List EquationSet) (parts : List Search) :
    (s.settle solutions parts).Settled := by
  refine ⟨fun h => ?_, fun h => ⟨rfl, fun hnil => ?_⟩⟩
  · have hempty : (!solutions.isEmpty) = false := Option.some.inj h
    rw [Bool.not_eq_false'] at hempty
    exact List.isEmpty_iff.1 hempty
  · obtain rfl : solutions = [] := hnil
    cases h

/-- A pair keeps the verdict only if it is refused entry for want of solutions;
otherwise the search is open again. -/
theorem Settled.add {c : Equation} (hs : s.Settled) (h : s.add R c = .ok t) : t.Settled := by
  cases added_of_add h with
  | unsolved empty => exact ⟨fun _ => empty, fun ht => absurd empty (hs.complete ht).2⟩
  | single | several => exact .of_open rfl

/-- The same for a list of pairs, also if one of them is refused. -/
theorem Settled.addAll {pairs : List (Operand × Operand)} {r : Except Fault Unit} (hs : s.Settled)
    (h : s.addAll R pairs = ⟨t, r⟩) : t.Settled := of_addAll Settled.add hs h

/-- **Solving settles a search.** -/
theorem settled_solve (h : s.solve R n = some ⟨t, .ok ()⟩) : t.Settled := by
  cases n with
  | zero => cases h
  | succ n =>
    cases course_of_solve h with
    | forked => exact settled_settle ..
    | decided few ran =>
      rcases run_decided few ran with ⟨hv, hσ⟩ | ⟨hv, hnone, σ, hσ⟩
      · exact ⟨fun _ => hσ, fun ht => by rw [hv] at ht; cases ht⟩
      · exact ⟨fun hf => by (rw [hv] at hf; cases hf), fun _ => ⟨hnone, by rw [hσ]; exact List.cons_ne_nil _ _⟩⟩
    | branched => exact settled_settle ..

/-- A copy has copies of the solutions, so it has some exactly if the original
does. -/
theorem Settled.clone (hs : s.Settled) : s.clone.Settled := by
  refine ⟨fun h => ?_, fun h => ⟨?_, fun hnil => ?_⟩⟩
  · rw [Search.clone, hs.refuted h]
    rfl
  · rw [Search.clone, EquationSet.copy, (hs.complete h).1]
    rfl
  · exact (hs.complete h).2 (List.map_eq_nil_iff.1 hnil)

/-- **Every search that calls without a fault lead to is settled.** -/
theorem Attained.settled (h : Attained R s) : s.Settled := by
  induction h with
  | ofPairs h => exact (Settled.of_open rfl).addAll (addAll_of_ofPairs h)
  | add _ h ih => exact ih.add h
  | addAll _ h ih => exact ih.addAll h
  | solve _ h => exact settled_solve h
  | solved _ h ih =>
    rcases solve_of_solved h with h | rfl
    · exact settled_solve h
    · exact ih
  | clone _ ih => exact ih.clone

/-- A search with nothing pending is over. -/
theorem step_of_nil (hnone : s.pending.equations = []) :
    s.step R = .stop ⟨{ s with solvable := some true }, .ok none⟩ := by
  have hbest : s.pending.best? R = none := by
    rw [EquationSet.best?, List.findSome?_eq_none_iff]
    intro rule _
    rw [EquationSet.find?, hnone]
    rfl
  rw [step, hbest]

/-- The forks of a search, one after another on the stack, contribute what
solving each of them finds. -/
theorem toList_of_forks {fs parts : List Search} (hone : ∀ f ∈ fs, f.solutions.length = 1)
    (h : List.Forall₂ (fun f t => f.solve R n = some ⟨t, .ok ()⟩) fs parts) :
    ∃ m, Stream.toList R m ⟨fs.map (·, [])⟩ = some (.ok (parts.flatMap solutions)) := by
  induction h with
  | nil => exact ⟨2, Stream.toList_nil⟩
  | cons first _ ih =>
    rw [List.forall_mem_cons] at hone
    obtain ⟨m, hm⟩ := ih hone.2
    exact Stream.toList_of_solve (Nat.le_of_eq hone.1) first (Kept.refl R _) hm

/-- **A stream yields what solving the search finds,** also from several
solutions. -/
theorem toList_stream_of_solve (hopen : s.solvable ≠ some false)
    (h : s.clone.solve R n = some ⟨t, .ok ()⟩) :
    ∃ str m, s.stream R = .ok str ∧ str.toList R m = some (.ok t.solutions) := by
  have hfew (few : s.clone.solutions.length ≤ 1) :
      ∃ str m, s.stream R = .ok str ∧ str.toList R m = some (.ok t.solutions) := by
    obtain ⟨m, hm⟩ := Stream.toList_of_solve few h (Kept.refl R t.solutions) Stream.toList_nil
    rw [List.append_nil] at hm
    exact ⟨_, m, by rw [stream, if_neg hopen]; exact if_neg (Nat.not_lt.2 few), hm⟩
  cases n with
  | zero => cases h
  | succ n =>
    cases course_of_solve h with
    | forked many forks solved =>
      obtain ⟨m, hm⟩ := toList_of_forks (length_forks forks) solved
      refine ⟨_, m, ?_, hm⟩
      rw [stream, if_neg hopen]
      dsimp only
      rw [if_pos many, forks]
      rfl
    | decided few => exact hfew few
    | branched few => exact hfew few

/-- A search that has its solutions and nothing pending. -/
theorem solve_of_nil_of_singleton {σ : EquationSet} (hnone : s.pending.equations = [])
    (hσ : s.solutions = [σ]) : s.solve R 2 = some ⟨{ s with solvable := some true }, .ok ()⟩ := by
  have hne : s.solutions ≠ [] := by rw [hσ]; nofun
  have hone : s.solutions.length = 1 := by rw [hσ]; rfl
  rw [solve, if_neg (by omega), run_of_step_stop hne (by decide) (step_of_nil hnone)]

/-- A copy has nothing pending if the original has not. -/
theorem equations_clone_of_nil (hnone : s.pending.equations = []) : s.clone.pending.equations = [] := by
  rw [clone, EquationSet.copy, hnone]
  rfl

/-- **Solving a search with nothing pending finds the solutions that it has,**
or copies of them if there are several. -/
theorem solve_of_nil (hnone : s.pending.equations = []) (hσ : s.solutions ≠ []) :
    ∃ t, s.solve R 3 = some ⟨t, .ok ()⟩ ∧ t.solvable = some true ∧
      (t.solutions = s.solutions ∨ t.solutions = s.solutions.map EquationSet.copy) := by
  by_cases hmany : 1 < s.solutions.length
  · let fork (σ : EquationSet) : Search := { s.clone with solutions := [σ.copy], solvable := none }
    have hforks : s.forks R = .ok (s.solutions.map fork) := by
      refine mapM_eq_ok.2 (List.forall₂_map_right_iff.2 (List.forall₂_same.2 fun σ _ => ?_))
      rw [instantiate, EquationSet.instantiate_of_nil (equations_clone_of_nil hnone)]
      rfl
    have heach (σs : List EquationSet) : solveEach (solve R 2) (σs.map fork) =
        some (.ok (σs.map fun σ => { fork σ with solvable := some true })) := by
      induction σs with
      | nil => rfl
      | cons σ σs ih =>
        rw [List.map_cons, solveEach,
          solve_of_nil_of_singleton (s := fork σ) (equations_clone_of_nil hnone) rfl]
        dsimp only
        rw [ih]
        rfl
    have hcopies : ((s.solutions.map fun σ => { fork σ with solvable := some true }).flatMap
        Search.solutions) = s.solutions.map EquationSet.copy := by
      rw [List.flatMap_map, ← List.map_eq_flatMap]
    refine ⟨_, by rw [solve, if_pos hmany, hforks]; dsimp only; rw [heach]; rfl, ?_, .inr hcopies⟩
    rw [settle, hcopies]
    obtain ⟨σ, σs, hs⟩ := List.exists_cons_of_ne_nil hσ
    rw [hs]
    rfl
  · have hlen := List.length_pos_iff.2 hσ
    obtain ⟨σ, hone⟩ := List.length_eq_one_iff.1 (by omega : s.solutions.length = 1)
    exact ⟨_, solve_mono (by decide) (solve_of_nil_of_singleton hnone hone), rfl, .inl rfl⟩

/-- Solving a copy of a search with nothing pending finds the solutions that it
has. -/
theorem solve_clone_of_nil (hnone : s.pending.equations = []) (hσ : s.solutions ≠ []) :
    ∃ t, s.clone.solve R 3 = some ⟨t, .ok ()⟩ ∧ t.solutions = s.clone.solutions := by
  obtain ⟨t, ht, -, hsolutions⟩ := solve_of_nil (R := R) (equations_clone_of_nil hnone)
    fun h => hσ (List.map_eq_nil_iff.1 h)
  refine ⟨t, ht, hsolutions.elim id fun h => h.trans ?_⟩
  rw [clone, List.map_map]
  exact List.map_congr_left fun σ _ => σ.copy_copy

/-- **The stream of a search yields what solving a copy of it finds,** in the
same order, and meets no fault.  The search may be any that calls have led to
without one, be it open, solved, or solved and then added to; that some fuel is
enough for the whole stream is part of the result. -/
theorem toList_stream (hs : Attained R s) (h : s.clone.solved R n = some ⟨t, .ok ()⟩) :
    ∃ str m, s.stream R = .ok str ∧ str.toList R m = some (.ok t.solutions) := by
  have hsettled := hs.settled
  rw [solved] at h
  split at h
  · next hopen =>
    exact toList_stream_of_solve (fun hf => Option.some_ne_none _ (hf.symm.trans hopen)) h
  · next b hb =>
    cases h
    cases b with
    | false =>
      have hfalse : s.solvable = some false := hb
      refine ⟨⟨[]⟩, 2, by rw [stream, if_pos hfalse]; rfl, ?_⟩
      rw [clone, hsettled.refuted hb]
      rfl
    | true =>
      obtain ⟨hnone, hσ⟩ := hsettled.complete hb
      obtain ⟨u, hu, hsolutions⟩ := solve_clone_of_nil (R := R) hnone hσ
      rw [← hsolutions]
      refine toList_stream_of_solve (fun hf => ?_) hu
      cases hf.symm.trans hb

/-- `_f(a)` should equal `a`. -/
def applied : Equation :=
  let a : Expr := .var ⟨"a", false⟩
  ⟨.app (.sym (Reserved.applySym {})) [.var ⟨"f", true⟩, a], a⟩

/-- The search for `applied` when it has been solved, by the constant function
and by the identity. -/
def solvedApplied : Search :=
  let solution (value : String) : EquationSet :=
    ⟨[⟨.var ⟨"f", true⟩, Reserved.lambda {} ⟨⟨"v0", false⟩, []⟩ (.var ⟨value, false⟩)⟩], 1, []⟩
  { pending := { nextFresh := 1 }, solutions := [solution "a", solution "v0"], solvable := some true }

/-- Solving finds both solutions: `f` may ignore its argument or return it. -/
theorem solved_applied :
    Search.solved {} 4 { pending := .add {} [applied] } = some ⟨solvedApplied, .ok ()⟩ := by
  let s : Search := { pending := .add {} [applied] }
  have hstep : s.begun.step {} = .stop ⟨s.begun, .ok (some applied)⟩ :=
    step_of_flex (by cbv) (by cbv) (by cbv)
  change s.solve {} 4 = _
  rw [solve, if_neg (by cbv), run, steps, hstep]
  cbv

/-- `toList_stream` at the search for `applied`. -/
theorem toList_stream_applied : ∃ s t str m,
    Attained {} s ∧ s.clone.solved {} 4 = some ⟨t, .ok ()⟩ ∧ t.solutions.length = 2 ∧
      s.stream {} = .ok str ∧ str.toList {} m = some (.ok t.solutions) := by
  let s : Search := { pending := .add {} [applied] }
  have hs : ofPairs {} none [(.expr applied.pattern, .expr applied.subject)] = .ok s := by cbv
  have hclone : s.clone = s := by cbv
  have ht : s.clone.solved {} 4 = some ⟨solvedApplied, .ok ()⟩ := hclone ▸ solved_applied
  obtain ⟨str, m, hstr, hm⟩ := toList_stream (.ofPairs hs) ht
  exact ⟨s, solvedApplied, str, m, .ofPairs hs, ht, rfl, hstr, hm⟩

end Search

end SecondOrder
