/-
# What refuses a search

Only a branch point is refused with the fault of a limit, and only where there
is one (`Search.guesses`).  Everything else that a search does is refused for
what its expressions are: `Unlimited` follows the operations from substitution
up to `Search.solve` and says of each that its faults are of another kind
(`Search.unlimited_solve`).
-/

import SecondOrder.Proofs.Expr.Faults
import SecondOrder.Proofs.Search.Course

namespace SecondOrder

/-- Not refused because of a limit. -/
def Unlimited {α : Type} (x : Except Fault α) : Prop :=
  ∀ fault, x = .error fault → fault.kind ≠ .searchLimit

namespace Unlimited

variable {R : Reserved} {α β : Type} {x : Except Fault α} {f : α → Except Fault β}

/-- What is not refused at all is not refused because of a limit. -/
theorem ok (a : α) : Unlimited (.ok a : Except Fault α) := FaultsIn.ok (K := (· ≠ .searchLimit)) a

/-- A fault of another kind is not one of a limit. -/
theorem error {fault : Fault} (h : fault.kind ≠ .searchLimit) : Unlimited (.error fault : Except Fault α) :=
  FaultsIn.error (K := (· ≠ .searchLimit)) h

/-- Two computations in sequence are refused because of a limit only if one of
them is. -/
theorem bind (hx : Unlimited x) (hf : ∀ a, Unlimited (f a)) : Unlimited (x >>= f) :=
  FaultsIn.bind (K := (· ≠ .searchLimit)) hx hf

/-- A computation for every member of a list is refused because of a limit only
if one of them is. -/
theorem mapM {as : List α} (hf : ∀ a ∈ as, Unlimited (f a)) : Unlimited (as.mapM f) :=
  FaultsIn.mapM (K := (· ≠ .searchLimit)) hf

/-- So it is with steps that are carried out one after another on one state. -/
theorem foldlM {g : β → α → Except Fault β} (hg : ∀ b a, Unlimited (g b a)) (as : List α)
    (b : β) : Unlimited (as.foldlM g b) := FaultsIn.foldlM (K := (· ≠ .searchLimit)) hg as b

end Unlimited

namespace Expr

variable {R : Reserved}

/-- A substitution is refused for what is bound, by a slot that cannot take the
value or a binding that cannot give way. -/
theorem unlimited_subst (e v r : Expr) : Unlimited (e.subst v r) :=
  faultsIn_subst (K := (· ≠ .searchLimit)) nofun nofun e v r

/-- A conversion is refused for operands of the wrong class, for a variable
that is not bound, and as the substitution in the body is. -/
theorem unlimited_alphaConvert (e x y : Expr) : Unlimited (e.alphaConvert x y) := by
  unfold alphaConvert
  split
  · split
    · refine .bind (unlimited_subst _ _ _) fun c => ?_
      split
      · exact .ok _
      · exact .error (by simp [Fault.kind])
    · exact .error (by simp [Fault.kind])
  · exact .error (by simp [Fault.kind])

/-- A redex is refused for the number of its arguments, or as the substitution
of one of them is. -/
theorem unlimited_contract (e : Expr) : Unlimited (e.contract R) :=
  faultsIn_contract (K := (· ≠ .searchLimit)) nofun nofun nofun e

/-- Contracting all redexes is refused as one of them is. -/
theorem unlimited_contractAll (e : Expr) : Unlimited (e.contractAll R) :=
  faultsIn_contractAll (K := (· ≠ .searchLimit)) nofun nofun nofun e

end Expr

namespace Equation

variable {R : Reserved} {c : Equation}

/-- An assignment that is carried out substitutes and contracts. -/
theorem unlimited_apply (c : Equation) (target : Expr) : Unlimited (c.apply R target) :=
  .bind (Expr.unlimited_subst _ _ _) fun _ => Expr.unlimited_contractAll _

/-- A slot is renamed by two conversions, one in each side. -/
theorem unlimited_renameSlot (c : Equation) (i : Nat) (x : Var) : Unlimited (c.renameSlot i x) := by
  unfold renameSlot
  split
  · split
    · exact .bind (Expr.unlimited_alphaConvert _ _ _) fun _ =>
        .bind (Expr.unlimited_alphaConvert _ _ _) fun _ => .ok _
    · exact .error (by simp [Fault.kind])
  · exact .ok _

/-- Slots are renamed one after another, with whatever the set mints for
them. -/
theorem unlimited_renameSlots (s : EquationSet) (c : Equation) (places : List Nat) :
    Unlimited (renameSlots s c places).result := by
  induction places generalizing s c with
  | nil => exact .ok c
  | cons i places ih =>
    rw [renameSlots]
    split
    · next fault h =>
      rintro _ ⟨⟩
      exact unlimited_renameSlot c i _ _ h
    · exact ih _ _

/-- To align two bindings is to rename their ordinary slots. -/
theorem unlimited_align (s : EquationSet) (c : Equation) : Unlimited (c.align s).result := by
  rw [align]
  split
  · exact .ok c
  · have h := unlimited_renameSlots s c c.ordinarySlots
    split
    · exact .ok _
    · next fault hr =>
      rintro _ ⟨⟩
      rw [hr] at h
      exact h _ rfl

end Equation


namespace EquationSet

variable {R : Reserved}

/-- An assignment is carried out on one pattern after another, up to the first
that refuses it. -/
theorem unlimited_instantiatePatterns (a : Equation) (cs : List Equation) :
    Unlimited (instantiatePatterns R a cs).result := by
  induction cs with
  | nil => exact .ok ()
  | cons c cs ih =>
    rw [instantiatePatterns]
    split
    · next fault h =>
      rintro _ ⟨⟩
      exact a.unlimited_apply c.pattern _ h
    · exact ih

/-- Assignments are carried out one after another on all patterns. -/
theorem unlimited_instantiateEach (as cs : List Equation) :
    Unlimited (instantiateEach R as cs).result := by
  induction as generalizing cs with
  | nil => exact .ok ()
  | cons a as ih =>
    have h := unlimited_instantiatePatterns (R := R) a cs
    rw [instantiateEach]
    split
    · exact ih _
    · next fault hr =>
      rintro _ ⟨⟩
      rw [hr] at h
      exact h _ rfl

end EquationSet

namespace Cleanup

variable {R : Reserved}

/-- A temporary is substituted away by carrying out its assignment on the other
values. -/
theorem unlimited_substituteAway (σ : EquationSet) (t : Expr) :
    Unlimited (substituteAway R σ t) := by
  rw [substituteAway]
  split
  · exact .ok σ
  · next a _ =>
    refine .bind (.mapM fun c _ => ?_) fun cs => .ok _
    exact .bind (a.unlimited_apply c.subject) fun e => .ok _

/-- Cleanups are substitutions and checks; a check drops a solution and does
not refuse it. -/
theorem unlimited_applyAll (ks : List Cleanup) (σ : EquationSet) : Unlimited (applyAll R ks σ) := by
  induction ks generalizing σ with
  | nil => exact .ok _
  | cons k ks ih =>
    refine .bind (.bind (.foldlM unlimited_substituteAway _ _) fun σ => .ok _) fun τ => ?_
    cases τ with
    | none => exact .ok none
    | some τ => exact ih τ

end Cleanup

namespace Search

variable {R : Reserved} {s t : Search} {c : Equation} {g : Guess} {n : Nat} {fault : Fault}

/-- To give an unknown its value instantiates the pending patterns. -/
theorem unlimited_assign (s : Search) (c : Equation) : Unlimited (s.assign R c).result := by
  intro fault h
  cases ha : s.assign R c with
  | mk t r =>
    rw [ha] at h
    obtain rfl : r = .error fault := h
    obtain ⟨ds, -, hI | hI⟩ := assign_error ha
    · have := EquationSet.unlimited_instantiatePatterns (R := R) c s.pending.equations
      rw [hI] at this
      exact this _ rfl
    · rw [assign, instantiate_singleton, hI.2] at ha
      dsimp only at ha
      rw [hI.1] at ha
      cases ha
      simp [Fault.kind]

/-- A guess is built from checked parts.  What may be refused there is a shape,
never a depth. -/
theorem unlimited_guessed (P : EquationSet) (k : Nat) (e : Expr) (g : Guess) :
    Unlimited (guessed R P k e g) := by
  cases g with
  | imitation =>
    refine .bind ?_ fun value => .ok _
    unfold Reserved.imitationFn
    split
    · split
      · exact .ok _
      · exact .error (by simp [Fault.kind])
    · exact .error (by simp [Fault.kind])
    · exact .ok _
    all_goals
      exact .error (by simp [Fault.kind])
  | _ => exact .ok _

/-- To open a branch is to guess and to assign.  The limit has been asked
before, for all guesses at once (`unlimited_guesses`). -/
theorem unlimited_branch? (s : Search) (c : Equation) (g : Guess) : Unlimited (s.branch? R c g) := by
  unfold branch?
  split
  · exact .ok none
  · next h k _ =>
    refine .bind (unlimited_guessed _ _ _ _) fun made => ?_
    have ha := unlimited_assign (R := R) { s.deeper with pending := made.2.2 } ⟨h, made.1⟩
    dsimp only
    split
    · next hr =>
      rintro _ ⟨⟩
      rw [hr] at ha
      exact ha _ rfl
    · exact .ok _
    · exact .ok _

/-- A fork instantiates the pending patterns by a solution. -/
theorem unlimited_forks (s : Search) : Unlimited (s.forks R) := by
  refine .mapM fun σ _ => ?_
  have hI := EquationSet.unlimited_instantiateEach (R := R) σ.equations s.clone.pending.equations
  exact hI.bind fun _ => .ok _

/-- The deterministic part of a search is steps, none of which looks at the
limit. -/
theorem unlimited_run {r : Attempt Search (Option Equation)} (h : s.run R n = some r) :
    Unlimited r.result := by
  obtain ⟨u, -, hstop⟩ := reaches_of_steps h
  rcases halt_of_step hstop with ⟨-, rfl⟩ | ⟨c, -, hl⟩
  · exact .ok none
  · cases hl with
    | assignFault _ assigned =>
      have ha := unlimited_assign (R := R) (u.drop c) c
      rw [assigned] at ha
      rintro _ ⟨⟩
      exact ha _ rfl
    | alignFault _ aligned =>
      have ha := Equation.unlimited_align (u.drop c).pending c
      rw [aligned] at ha
      rintro _ ⟨⟩
      exact ha _ rfl
    | contractFault _ _ contracted =>
      rintro _ ⟨⟩
      exact Expr.unlimited_contract _ _ contracted
    | _ => exact .ok _

/-- **The guesses are not refused** where the limit leaves room for one more
branch point below. -/
theorem unlimited_guesses (hl : ∀ l : Int, s.limit = some l → (s.depth : Int) + 1 ≤ l) :
    Unlimited (s.guesses c) := by
  rw [guesses]
  split
  · exact .ok []
  · split
    · next l hlimit =>
      rw [if_neg (Int.not_lt.2 (hl l hlimit))]
      exact .ok _
    · exact .ok _

/-- A branch is one deeper, under the same limit. -/
theorem frame_branch? {b : Branch} (h : s.branch? R c g = .ok (some b)) :
    b.search.depth = s.depth + 1 ∧ b.search.limit = s.limit := by
  obtain ⟨_, _, value, P, -, -, assigned⟩ := branch?_some h
  obtain ⟨σ, rest, ds, -, -, -, hb⟩ := assign_ok assigned
  rw [hb]
  exact ⟨rfl, rfl⟩

/-- A fork is as deep as the search it is a copy of, and under the same
limit. -/
theorem frame_forks {fs : List Search} (h : s.forks R = .ok fs) :
    ∀ f ∈ fs, f.depth = s.depth ∧ f.limit = s.limit := by
  intro f hf
  obtain ⟨σ, -, hσ⟩ := exists_of_mapM_eq_ok (forks_eq R s ▸ h) f hf
  have hframe (g : Search → Option Int × Nat) := congrArg (fun a : Attempt Search Unit => g a.state) (fork_ok hσ)
  obtain ⟨hlimit, hdepth⟩ := Prod.mk.inj (hframe fun f => (f.limit, f.depth))
  exact ⟨hdepth.symm, hlimit.symm⟩

/-- The deterministic part of a search changes neither its depth nor its
limit. -/
theorem frame_run {r : Except Fault (Option Equation)} (h : s.run R n = some ⟨t, r⟩) :
    t.depth = s.depth ∧ t.limit = s.limit := by
  obtain ⟨u, hu, hstop⟩ := reaches_of_steps h
  have hbegun : s.begun.depth = s.depth ∧ s.begun.limit = s.limit := by
    rw [begun]
    split <;> exact ⟨rfl, rfl⟩
  rw [← hbegun.1, ← hbegun.2, ← hu.frame.2.1, ← hu.frame.2.2.1]
  rcases halt_of_step hstop with ⟨-, hlast⟩ | ⟨c, -, hl⟩
  · cases hlast
    exact ⟨rfl, rfl⟩
  · cases hl with
    | excluded rule assigned =>
      obtain ⟨σ, rest, ds, -, -, -, rfl⟩ := assign_ok assigned
      exact ⟨rfl, rfl⟩
    | assignFault rule assigned =>
      obtain ⟨ds, rfl, -⟩ := assign_error assigned
      exact ⟨rfl, rfl⟩
    | _ => exact ⟨rfl, rfl⟩

/-- Solving keeps depth and limit, whether or not it meets a fault. -/
theorem frame_solve {r : Except Fault Unit} (h : s.solve R n = some ⟨t, r⟩) :
    t.depth = s.depth ∧ t.limit = s.limit := by
  cases n with
  | zero => cases h
  | succ n =>
    cases course_of_solve h with
    | forkFault | partFault | forked => exact ⟨rfl, rfl⟩
    | runFault _ ran | decided _ ran | guessFault _ ran | branchFault _ ran => exact frame_run ran
    | branched _ ran =>
      obtain ⟨hdepth, hlimit⟩ := frame_run ran
      exact ⟨hdepth, hlimit⟩

/-- Exploring is refused because of a limit only where a branch is. -/
theorem unlimited_explore {solve : Search → Option (Attempt Search Unit)} {gs : List Guess}
    (hb : ∀ g ∈ gs, ∀ b t, s.branch? R c g = .ok (some b) → solve b.search = some t → Unlimited t.result)
    (h : explore R solve s c gs = some (.error fault)) : fault.kind ≠ .searchLimit := by
  obtain ⟨g, hg, hbranch | ⟨b, t, hbranch, hsolve | ⟨-, hclean⟩⟩⟩ := exists_of_explore_error h
  · exact unlimited_branch? s c g _ hbranch
  · exact hb g hg b _ hbranch hsolve _ rfl
  · exact Unlimited.mapM (fun σ _ => Cleanup.unlimited_applyAll _ σ) _ hclean

/-- A search with at most one solution is refused because of a limit only where
its run ends at a branch point. -/
theorem unlimited_of_run {r : Attempt Search Unit} (hfew : s.solutions.length ≤ 1)
    (hnext : ∀ u c, s.run R n = some ⟨u, .ok (some c)⟩ → Unlimited (u.guesses c) ∧
      ∀ gs fault, u.guesses c = .ok gs → explore R (solve R n) u c gs = some (.error fault) →
        fault.kind ≠ .searchLimit)
    (h : solve R (n + 1) s = some r) : Unlimited r.result := by
  cases course_of_solve h with
  | forkFault many | partFault many | forked many => exact absurd many (Nat.not_lt.2 hfew)
  | runFault _ ran => exact .error (unlimited_run ran _ rfl)
  | decided => exact .ok ()
  | guessFault _ ran guesses => exact .error ((hnext _ _ ran).1 _ guesses)
  | branchFault _ ran guesses refused => exact .error ((hnext _ _ ran).2 _ _ guesses refused)
  | branched => exact .ok ()

/-- **Without a limit nothing is refused because of one.** -/
theorem unlimited_solve {r : Attempt Search Unit} (hl : s.limit = none)
    (h : solve R n s = some r) : Unlimited r.result := by
  induction n generalizing s r with
  | zero => cases h
  | succ n ih =>
    by_cases hfew : s.solutions.length ≤ 1
    · refine unlimited_of_run hfew (fun u c hrun => ?_) h
      have hu : u.limit = none := (frame_run hrun).2.trans hl
      refine ⟨unlimited_guesses (by simp [hu]), fun gs q _ => unlimited_explore fun g _ b t hb ht => ?_⟩
      exact ih ((frame_branch? hb).2.trans hu) ht
    · cases course_of_solve h with
      | forkFault _ forks => exact .error (unlimited_forks s _ forks)
      | partFault _ forks refused =>
        obtain ⟨f, hf, t, ht⟩ := exists_of_solveEach_error refused
        exact .error (ih ((frame_forks forks f hf).2.trans hl) ht _ rfl)
      | forked => exact .ok ()
      | runFault few | decided few | guessFault few | branchFault few | branched few => exact absurd few hfew

end Search
end SecondOrder
