/-
# What solving does

`Search.solve` runs a search and goes on with branches for the equation that
stops the run, or solves a fork for each of several solutions.  As for a step
(`Advance`, `Halt`), what comes out of that is said once.  `Stands` is where a
run ends that does not decide the search, `Explores` what the branches of its
guesses find, and `Course` lists the ways in which solving ends
(`course_of_solve`).

Exploring finds the solutions of the branches that their cleanups keep
(`Explores.mem_iff`), and meets a fault at one of the guesses
(`exists_of_explore_error`).  A stream goes through its stack in the ways that
`Stream.Draws` lists.  `Added` says what a search is with an equation added,
and `Cleanup.substituteAway_eq_ok` what is left of a solution without a
temporary.
-/

import Mathlib.Data.List.ReduceOption
import SecondOrder.Search.Stream
import SecondOrder.Proofs.Search.Advance

namespace SecondOrder

namespace Search

variable {R : Reserved} {s t : Search} {σ : EquationSet} {c : Equation} {n : Nat} {fault : Fault}
  {solve : Search → Option (Attempt Search Unit)}

/-! ## Branches -/

/-- A branch goes on with the solution under construction. -/
theorem length_branch? {g : Guess} {b : Branch} (h : s.branch? R c g = .ok (some b)) :
    b.search.solutions.length = s.solutions.length := by
  obtain ⟨m, k, value, P, -, -, assigned⟩ := branch?_some h
  obtain ⟨σ, rest, ds, hσ, -, -, hb⟩ := assign_ok assigned
  change s.solutions.map EquationSet.copy = σ :: rest at hσ
  have hlen := congrArg List.length hσ
  rw [List.length_map] at hlen
  rw [hb]
  exact hlen.symm

/-- The branches of guesses, explored one after another without a fault. -/
inductive Explores (R : Reserved) (solve : Search → Option (Attempt Search Unit)) (s : Search) (c : Equation) :
    List Guess → List EquationSet → List Search → Prop
  | nil : Explores R solve s c [] [] []
  | skip {g : Guess} {gs : List Guess} {found : List EquationSet} {parts : List Search}
      (refused : s.branch? R c g = .ok none) (rest : Explores R solve s c gs found parts) :
      Explores R solve s c (g :: gs) found parts
  | take {g : Guess} {gs : List Guess} {b : Branch} {t : Search} {cleaned : List (Option EquationSet)}
      {found : List EquationSet} {parts : List Search} (opened : s.branch? R c g = .ok (some b))
      (solved : solve b.search = some ⟨t, .ok ()⟩)
      (cleans : t.solutions.mapM (Cleanup.applyAll R (b.cleanups s)) = .ok cleaned)
      (rest : Explores R solve s c gs found parts) :
      Explores R solve s c (g :: gs) (cleaned.reduceOption ++ found) (t :: parts)

/-- **Exploring goes through the guesses in one of two ways.** -/
theorem explores_of_explore {gs : List Guess} {found : List EquationSet} {parts : List Search}
    (h : explore R solve s c gs = some (.ok (found, parts))) : Explores R solve s c gs found parts := by
  induction gs generalizing found parts with
  | nil =>
    cases h
    exact .nil
  | cons g gs ih =>
    rw [explore] at h
    split at h
    · cases h
    · next hb => exact .skip hb (ih h)
    · next b hb =>
      split at h
      · cases h
      · cases h
      · next t ht =>
        split at h
        · cases h
        · next cleaned hcleaned =>
          obtain ⟨q, hq, hmap⟩ := Option.map_eq_some_iff.1 h
          cases q with
          | error => cases hmap
          | ok q =>
            cases hmap
            exact .take hb ht hcleaned (ih hq)

/-- The solution `τ` comes from the branch of the guess `g`. -/
def FoundBy (R : Reserved) (solve : Search → Option (Attempt Search Unit)) (s : Search) (c : Equation)
    (g : Guess) (τ : EquationSet) : Prop :=
  ∃ b t, s.branch? R c g = .ok (some b) ∧ solve b.search = some ⟨t, .ok ()⟩ ∧
    ∃ τ₀ ∈ t.solutions, Cleanup.applyAll R (b.cleanups s) τ₀ = .ok (some τ)

namespace Explores

variable {g : Guess} {gs : List Guess} {b : Branch} {τ : EquationSet}
  {found : List EquationSet} {parts : List Search}

/-- **What exploring finds** are the solutions of the branches, as far as the
cleanups keep them. -/
theorem mem_iff (h : Explores R solve s c gs found parts) : τ ∈ found ↔ ∃ g ∈ gs, FoundBy R solve s c g τ := by
  induction h with
  | nil => simp
  | skip refused _ ih =>
    rw [ih, List.exists_mem_cons_iff, or_iff_right]
    rintro ⟨b, t, opened, -⟩
    cases refused.symm.trans opened
  | @take g gs b t cleaned _ _ opened solved cleans _ ih =>
    rw [List.mem_append, ih, List.reduceOption_mem_iff, List.exists_mem_cons_iff]
    refine or_congr_left ⟨fun hτ => ⟨b, t, opened, solved, exists_of_mapM_eq_ok cleans _ hτ⟩, ?_⟩
    rintro ⟨b', t', opened', solved', τ₀, hτ₀, happly⟩
    cases opened.symm.trans opened'
    cases solved.symm.trans solved'
    obtain ⟨r, hr, happly'⟩ := exists_of_forall₂_left (mapM_eq_ok.1 cleans) τ₀ hτ₀
    cases happly.symm.trans happly'
    exact hr

/-- Every branch has been solved, and is one of the parts. -/
theorem exists_part (h : Explores R solve s c gs found parts) (hg : g ∈ gs)
    (hb : s.branch? R c g = .ok (some b)) : ∃ t ∈ parts, solve b.search = some ⟨t, .ok ()⟩ := by
  induction h with
  | nil => cases hg
  | skip refused _ ih =>
    rcases List.mem_cons.1 hg with rfl | hg
    · cases hb.symm.trans refused
    · exact ih hg
  | take opened solved _ _ ih =>
    rcases List.mem_cons.1 hg with rfl | hg
    · cases hb.symm.trans opened
      exact ⟨_, List.mem_cons_self, solved⟩
    · exact (ih hg).imp fun t ht => ⟨List.mem_cons_of_mem _ ht.1, ht.2⟩

end Explores

/-- Exploring meets a fault when it opens a branch, solves it or cleans a
solution of it up. -/
theorem exists_of_explore_error {gs : List Guess} (h : explore R solve s c gs = some (.error fault)) :
    ∃ g ∈ gs, s.branch? R c g = .error fault ∨ ∃ b t, s.branch? R c g = .ok (some b) ∧
      (solve b.search = some ⟨t, .error fault⟩ ∨ solve b.search = some ⟨t, .ok ()⟩ ∧
        t.solutions.mapM (Cleanup.applyAll R (b.cleanups s)) = .error fault) := by
  induction gs with
  | nil => cases h
  | cons g gs ih =>
    rw [List.exists_mem_cons_iff]
    rw [explore] at h
    split at h
    · next hb =>
      cases h
      exact .inl (.inl hb)
    · exact .inr (ih h)
    · next b hb =>
      split at h
      · cases h
      · next t _ ht =>
        cases h
        exact .inl (.inr ⟨b, t, hb, .inl ht⟩)
      · next t ht =>
        split at h
        · next hclean =>
          cases h
          exact .inl (.inr ⟨b, t, hb, .inr ⟨ht, hclean⟩⟩)
        · obtain ⟨q, hq, hmap⟩ := Option.map_eq_some_iff.1 h
          cases q with
          | error =>
            cases hmap
            exact .inr (ih hq)
          | ok => cases hmap

/-! ## Runs -/

/-- A run of `s` has come to `t`, which stands at the equation `c` to branch
on. -/
structure Stands (R : Reserved) (s t : Search) (c : Equation) : Prop where
  reached : Reaches R s.begun t
  stops : t.step R = .stop ⟨t, .ok (some c)⟩
  best : t.pending.best? R = some c
  rule : c.rule R = .guess
  flex : c.pattern.isRedex R = false

/-- **A run that does not decide a search stands at an equation to branch
on.** -/
theorem stands_of_run (h : s.run R n = some ⟨t, .ok (some c)⟩) : Stands R s t c := by
  obtain ⟨u, hu, hstop⟩ := reaches_of_steps h
  rcases halt_of_step hstop with ⟨-, hlast⟩ | ⟨d, hb, hl⟩
  · cases hlast
  · cases hl with
    | branch rule flex => exact ⟨hu, hstop, hb, rule, flex⟩

/-- A search with at most one solution begins with exactly one. -/
theorem length_begun (h : s.solutions.length ≤ 1) : s.begun.solutions.length = 1 := by
  rw [begun]
  split
  · rfl
  · next hne =>
    have := List.length_pos_iff.2 hne
    omega

namespace Stands

variable (h : Stands R s t c)

include h

/-- The equation to branch on is pending. -/
theorem mem : c ∈ t.pending.equations := EquationSet.mem_of_best? h.best

/-- There is one solution under construction. -/
theorem length (few : s.solutions.length ≤ 1) : t.solutions.length = 1 :=
  h.reached.frame.2.2.2.trans (length_begun few)

end Stands

/-! ## Forks -/

/-- The search that goes on from one of several solutions. -/
def fork (R : Reserved) (s : Search) (σ : EquationSet) : Except Fault Search :=
  let fork := { s.clone with solutions := [σ.copy], solvable := none }.instantiate R σ
  fork.result.map fun _ => fork.state

/-- There is a fork for each solution, in order, and the first fault ends the
forking. -/
theorem forks_eq (R : Reserved) (s : Search) : s.forks R = s.solutions.mapM (s.fork R) := rfl

/-- What a fork is. -/
theorem fork_ok {f : Search} (h : s.fork R σ = .ok f) :
    { s.clone with solutions := [σ.copy], solvable := none }.instantiate R σ = ⟨f, .ok ()⟩ := by
  rw [fork] at h
  rcases hI : { s.clone with solutions := [σ.copy], solvable := none }.instantiate R σ with ⟨v, fault | _⟩ <;>
    rw [hI] at h <;> cases h
  exact hI

/-- A fork goes on from a copy of its own solution alone. -/
theorem solutions_fork {f : Search} (h : s.fork R σ = .ok f) : f.solutions = [σ.copy] :=
  congrArg (fun a : Attempt Search Unit => a.state.solutions) (fork_ok h).symm

/-- It takes the counter over, so forks mint the same variables. -/
theorem nextFresh_fork {f : Search} (h : s.fork R σ = .ok f) : f.pending.nextFresh = s.pending.nextFresh :=
  congrArg (fun a : Attempt Search Unit => a.state.pending.nextFresh) (fork_ok h).symm

/-- In a fork all assignments of its solution have been applied to the pending
patterns. -/
theorem applyAll_of_fork {f : Search} (h : s.fork R σ = .ok f) : List.Forall₂ (fun c d =>
      EquationSet.applyAll R σ.equations c.pattern = .ok d.pattern ∧ d.subject = c.subject)
    s.pending.copy.equations f.pending.equations := by
  have hf := fork_ok h
  rw [Search.instantiate] at hf
  rcases hI : σ.instantiate R s.pending.copy with ⟨P, fault | _⟩
  · rw [show s.clone.pending = s.pending.copy from rfl, hI] at hf
    cases hf
  · rw [show s.clone.pending = s.pending.copy from rfl, hI] at hf
    cases hf
    exact EquationSet.applyAll_of_instantiate hI

/-- A fork has one solution. -/
theorem length_forks {fs : List Search} (h : s.forks R = .ok fs) : ∀ f ∈ fs, f.solutions.length = 1 := by
  intro f hf
  obtain ⟨σ, -, hfork⟩ := exists_of_mapM_eq_ok (forks_eq R s ▸ h) f hf
  rw [solutions_fork hfork]
  rfl

/-! ## Solving -/

/-- Searches that are solved one after another without a fault are all
solved. -/
theorem forall₂_of_solveEach {fs parts : List Search} (h : solveEach solve fs = some (.ok parts)) :
    List.Forall₂ (fun f t => solve f = some ⟨t, .ok ()⟩) fs parts := by
  induction fs generalizing parts with
  | nil =>
    cases h
    exact .nil
  | cons f fs ih =>
    rw [solveEach] at h
    split at h
    · cases h
    · cases h
    · next t ht =>
      obtain ⟨q, hq, hmap⟩ := Option.map_eq_some_iff.1 h
      cases q with
      | error => cases hmap
      | ok q =>
        cases hmap
        exact .cons ht (ih hq)

/-- The fault that ends the solving of several searches is one that solving one
of them ends with. -/
theorem exists_of_solveEach_error {fs : List Search} (h : solveEach solve fs = some (.error fault)) :
    ∃ f ∈ fs, ∃ t, solve f = some ⟨t, .error fault⟩ := by
  induction fs with
  | nil => cases h
  | cons f fs ih =>
    rw [List.exists_mem_cons_iff]
    rw [solveEach] at h
    split at h
    · cases h
    · next t _ ht =>
      cases h
      exact .inl ⟨t, ht⟩
    · obtain ⟨q, hq, hmap⟩ := Option.map_eq_some_iff.1 h
      cases q with
      | error =>
        cases hmap
        exact .inr (ih hq)
      | ok => cases hmap

/-- What solving `s` comes to: with several solutions by forks, otherwise by a
run and, if that does not decide it, by branches. -/
inductive Course (R : Reserved) (n : Nat) (s : Search) : Attempt Search Unit → Prop
  | forkFault {fault : Fault} (many : 1 < s.solutions.length) (forks : s.forks R = .error fault) :
      Course R n s ⟨s, .error fault⟩
  | partFault {fs : List Search} {fault : Fault} (many : 1 < s.solutions.length)
      (forks : s.forks R = .ok fs) (refused : solveEach (Search.solve R n) fs = some (.error fault)) :
      Course R n s ⟨s, .error fault⟩
  | forked {fs parts : List Search} (many : 1 < s.solutions.length) (forks : s.forks R = .ok fs)
      (solved : List.Forall₂ (fun f t => f.solve R n = some ⟨t, .ok ()⟩) fs parts) :
      Course R n s ⟨s.settle (parts.flatMap solutions) parts, .ok ()⟩
  | runFault {t : Search} {fault : Fault} (few : s.solutions.length ≤ 1)
      (ran : s.run R n = some ⟨t, .error fault⟩) : Course R n s ⟨t, .error fault⟩
  | decided {t : Search} (few : s.solutions.length ≤ 1) (ran : s.run R n = some ⟨t, .ok none⟩) :
      Course R n s ⟨t, .ok ()⟩
  | guessFault {t : Search} {c : Equation} {fault : Fault} (few : s.solutions.length ≤ 1)
      (ran : s.run R n = some ⟨t, .ok (some c)⟩) (guesses : t.guesses c = .error fault) :
      Course R n s ⟨t, .error fault⟩
  | branchFault {t : Search} {c : Equation} {gs : List Guess} {fault : Fault} (few : s.solutions.length ≤ 1)
      (ran : s.run R n = some ⟨t, .ok (some c)⟩) (guesses : t.guesses c = .ok gs)
      (refused : explore R (Search.solve R n) t c gs = some (.error fault)) : Course R n s ⟨t, .error fault⟩
  | branched {t : Search} {c : Equation} {gs : List Guess} {found : List EquationSet} {parts : List Search}
      (few : s.solutions.length ≤ 1) (ran : s.run R n = some ⟨t, .ok (some c)⟩) (guesses : t.guesses c = .ok gs)
      (explored : Explores R (Search.solve R n) t c gs found parts) :
      Course R n s ⟨t.settle found parts, .ok ()⟩

/-- **Solving ends in one of eight ways.** -/
theorem course_of_solve {r : Attempt Search Unit} (h : s.solve R (n + 1) = some r) : Course R n s r := by
  rw [Search.solve] at h
  split at h
  · next many =>
    split at h
    · next hforks =>
      cases h
      exact .forkFault many hforks
    · next fs hforks =>
      obtain ⟨q, hq, rfl⟩ := Option.map_eq_some_iff.1 h
      cases q with
      | error => exact .partFault many hforks hq
      | ok => exact .forked many hforks (forall₂_of_solveEach hq)
  · next hfew =>
    have few := Nat.not_lt.1 hfew
    split at h
    · cases h
    · next hrun =>
      cases h
      exact .runFault few hrun
    · next hrun =>
      cases h
      exact .decided few hrun
    · next t c hrun =>
      split at h
      · next hgs =>
        cases h
        exact .guessFault few hrun hgs
      · next gs hgs =>
        obtain ⟨q, hq, rfl⟩ := Option.map_eq_some_iff.1 h
        cases q with
        | error => exact .branchFault few hrun hgs hq
        | ok => exact .branched few hrun hgs (explores_of_explore hq)

/-- A search is solved, or has been before. -/
theorem solve_of_solved {r : Except Fault Unit} (h : s.solved R n = some ⟨t, r⟩) :
    s.solve R n = some ⟨t, r⟩ ∨ t = s := by
  rw [solved] at h
  split at h
  · exact .inl h
  · cases h
    exact .inr rfl

/-! ## Streams -/

/-- What branching puts on the stack is the branch of a guess. -/
theorem mem_branches {ks : List Cleanup} {es : List (Search × List Cleanup)} {e : Search × List Cleanup}
    (h : s.branches R c ks = .ok es) (he : e ∈ es) :
    ∃ gs g b, s.guesses c = .ok gs ∧ g ∈ gs ∧ s.branch? R c g = .ok (some b) ∧
      e = (b.search, b.cleanups s ++ ks) := by
  obtain ⟨gs, hgs, h⟩ := bind_eq_ok.1 h
  obtain ⟨bs, hbs, h⟩ := bind_eq_ok.1 h
  cases h
  obtain ⟨b, hb, rfl⟩ := List.mem_map.1 he
  obtain ⟨g, hg, hb⟩ := exists_of_mapM_eq_ok hbs _ (List.reduceOption_mem_iff.1 hb)
  exact ⟨gs, g, b, hgs, hg, hb, rfl⟩

/-- A stream starts with a copy of the search, or with the forks of one. -/
theorem mem_stream {str : Stream} (h : s.stream R = .ok str) {e : Search × List Cleanup} (he : e ∈ str.stack) :
    e.2 = [] ∧ (s.solutions.length ≤ 1 ∧ e.1 = s.clone ∨ ∃ fs, s.clone.forks R = .ok fs ∧ e.1 ∈ fs) := by
  have hlen : s.clone.solutions.length = s.solutions.length := List.length_map _
  rw [stream] at h
  split at h
  · cases h
    cases he
  · dsimp only at h
    split at h
    · obtain ⟨fs, hfs, h⟩ := bind_eq_ok.1 h
      cases h
      obtain ⟨f, hf, rfl⟩ := List.mem_map.1 he
      exact ⟨rfl, .inr ⟨fs, hfs, hf⟩⟩
    · next hfew =>
      cases h
      obtain rfl := List.mem_singleton.1 he
      exact ⟨rfl, .inl ⟨hlen ▸ Nat.not_lt.1 hfew, rfl⟩⟩

/-! ## Adding equations -/

/-- What a search is with an equation added: a single solution has been applied
to its pattern. -/
inductive Added (R : Reserved) (s : Search) (c : Equation) : Search → Prop
  | unsolved (empty : s.solutions = []) : Added R s c { s with pending := s.pending.add [c] }
  | single {σ : EquationSet} {p : Expr} (one : s.solutions = [σ])
      (applied : EquationSet.applyAll R σ.equations c.pattern = .ok p) :
      Added R s c { s with solvable := none, pending := s.pending.add [⟨p, c.subject⟩] }
  | several (many : 1 < s.solutions.length) :
      Added R s c { s with solvable := none, pending := s.pending.add [c] }

/-- To add an equation is to do one of the three things. -/
theorem added_of_add (h : s.add R c = .ok t) : Added R s c t := by
  rw [add] at h
  split at h
  · next hnone =>
    cases h
    exact .unsolved hnone
  · next σ hone =>
    obtain ⟨p, hp, h⟩ := bind_eq_ok.1 h
    cases h
    exact .single hone hp
  · next hnone hone =>
    cases h
    refine .several (Nat.lt_of_not_le fun hfew => ?_)
    have hlen := Nat.le_antisymm hfew (List.length_pos_iff.2 hnone)
    obtain ⟨σ, hσ⟩ := List.length_eq_one_iff.1 hlen
    exact hone σ hσ

/-- The equation that becomes pending has the subject of the one added. -/
theorem Added.frame (h : Added R s c t) : t.depth = s.depth ∧ t.limit = s.limit ∧
    t.solutions = s.solutions ∧ ∃ p, t.pending = s.pending.add [⟨p, c.subject⟩] := by
  cases h with
  | unsolved | several => exact ⟨rfl, rfl, rfl, c.pattern, rfl⟩
  | @single _ p => exact ⟨rfl, rfl, rfl, p, rfl⟩

/-- What adding one equation keeps, adding the equations of several pairs
keeps. -/
theorem of_addAll {P : Search → Prop} (hP : ∀ {s t : Search} {c : Equation}, P s → s.add R c = .ok t → P t)
    {pairs : List (Operand × Operand)} {r : Except Fault Unit} (hs : P s) (h : s.addAll R pairs = ⟨t, r⟩) :
    P t := by
  induction pairs generalizing s with
  | nil =>
    cases h
    exact hs
  | cons pair pairs ih =>
    rw [addAll] at h
    split at h
    · cases h
      exact hs
    · next u hu =>
      obtain ⟨c, -, hu⟩ := bind_eq_ok.1 hu
      exact ih (hP hs hu) h

end Search

namespace Cleanup

variable {R : Reserved} {σ τ : EquationSet} {t : Expr}

/-- To substitute a temporary away takes its assignment out and carries it out
in the values of the others. -/
theorem substituteAway_eq_ok : substituteAway R σ t = .ok τ ↔
    (σ.find? fun c => c.pattern == t) = none ∧ τ = σ ∨
      ∃ a ds, (σ.find? fun c => c.pattern == t) = some a ∧
        List.Forall₂ (fun c d => d.pattern = c.pattern ∧ a.apply R c.subject = .ok d.subject)
          (σ.remove [a]).equations ds ∧
        τ = { σ.remove [a] with equations := ds } := by
  rw [substituteAway]
  cases σ.find? fun c => c.pattern == t with
  | none =>
    constructor
    · intro h
      cases h
      exact .inl ⟨rfl, rfl⟩
    · rintro (⟨-, rfl⟩ | ⟨a, ds, ha, -⟩)
      · rfl
      · cases ha
  | some a =>
    have hone (c d : Equation) : (do return { c with subject := ← a.apply R c.subject } :
        Except Fault Equation) = .ok d ↔ d.pattern = c.pattern ∧ a.apply R c.subject = .ok d.subject := by
      rw [bind_eq_ok]
      constructor
      · rintro ⟨e, he, hd⟩
        cases hd
        exact ⟨rfl, he⟩
      · rintro ⟨hpattern, he⟩
        cases d
        cases hpattern
        exact ⟨_, he, rfl⟩
    dsimp only
    rw [bind_eq_ok]
    constructor
    · rintro ⟨ds, hds, h⟩
      cases h
      exact .inr ⟨a, ds, rfl, (mapM_eq_ok.1 hds).imp fun c d => (hone c d).1, rfl⟩
    · rintro (⟨ha, -⟩ | ⟨a', ds, ha, hds, rfl⟩)
      · cases ha
      · cases ha
        exact ⟨ds, mapM_eq_ok.2 (hds.imp fun c d => (hone c d).2), rfl⟩

end Cleanup

namespace Stream

variable {R : Reserved} {n : Nat}

/-- How a stream comes to its next solution: the first search is run, and what
that does not decide is branched on. -/
inductive Draws (R : Reserved) : List (Search × List Cleanup) → Except Fault (Option (EquationSet × Stream)) → Prop
  | finished : Draws R [] (.ok none)
  | runFault {n : Nat} {s t : Search} {ks : List Cleanup} {rest : List (Search × List Cleanup)} {fault : Fault}
      (ran : s.run R n = some ⟨t, .error fault⟩) : Draws R ((s, ks) :: rest) (.error fault)
  | cleanFault {n : Nat} {s t : Search} {ks : List Cleanup} {rest : List (Search × List Cleanup)} {fault : Fault}
      {σ : EquationSet} {σs : List EquationSet} (ran : s.run R n = some ⟨t, .ok none⟩)
      (solutions : t.solutions = σ :: σs) (solvable : t.solvable = some true)
      (cleans : Cleanup.applyAll R ks σ = .error fault) : Draws R ((s, ks) :: rest) (.error fault)
  | found {n : Nat} {s t : Search} {ks : List Cleanup} {rest : List (Search × List Cleanup)}
      {σ τ : EquationSet} {σs : List EquationSet} (ran : s.run R n = some ⟨t, .ok none⟩)
      (solutions : t.solutions = σ :: σs) (cleans : Cleanup.applyAll R ks σ = .ok (some τ)) :
      Draws R ((s, ks) :: rest) (.ok (some (τ, ⟨rest⟩)))
  | fruitless {n : Nat} {s t : Search} {ks : List Cleanup} {rest : List (Search × List Cleanup)}
      {r : Except Fault (Option (EquationSet × Stream))} (ran : s.run R n = some ⟨t, .ok none⟩)
      (later : Draws R rest r) : Draws R ((s, ks) :: rest) r
  | branchFault {n : Nat} {s t : Search} {c : Equation} {ks : List Cleanup} {rest : List (Search × List Cleanup)}
      {fault : Fault} (ran : s.run R n = some ⟨t, .ok (some c)⟩) (refused : t.branches R c ks = .error fault) :
      Draws R ((s, ks) :: rest) (.error fault)
  | branched {n : Nat} {s t : Search} {c : Equation} {ks : List Cleanup} {rest es : List (Search × List Cleanup)}
      {r : Except Fault (Option (EquationSet × Stream))} (ran : s.run R n = some ⟨t, .ok (some c)⟩)
      (opened : t.branches R c ks = .ok es) (later : Draws R (es ++ rest) r) : Draws R ((s, ks) :: rest) r

/-- **The next solution is found in one of these ways.** -/
theorem draws_of_next? {stack : List (Search × List Cleanup)} {r : Except Fault (Option (EquationSet × Stream))}
    (h : next? R n ⟨stack⟩ = some r) : Draws R stack r := by
  induction n generalizing stack with
  | zero => cases h
  | succ n ih =>
    obtain _ | ⟨⟨s, ks⟩, rest⟩ := stack
    · cases h
      exact .finished
    · rw [next?] at h
      split at h
      · cases h
      · next hrun =>
        cases h
        exact .runFault hrun
      · next hrun =>
        split at h
        · next hsolvable hsolutions =>
          split at h
          · next hclean =>
            cases h
            exact .cleanFault hrun hsolutions hsolvable hclean
          · exact .fruitless hrun (ih h)
          · next hclean =>
            cases h
            exact .found hrun hsolutions hclean
        · exact .fruitless hrun (ih h)
      · next hrun =>
        split at h
        · next hbranches =>
          cases h
          exact .branchFault hrun hbranches
        · next hbranches => exact .branched hrun hbranches (ih h)

end Stream
end SecondOrder
