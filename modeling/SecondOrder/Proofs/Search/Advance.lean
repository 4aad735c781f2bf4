/-
# What a step does

`Search.step` looks for the equation to treat and hands it to `Search.treat`.
Everything proved about the deterministic part of a search goes through two
statements of what comes out of that: `Advance` lists the ways in which a step
goes on, one for each rule (`advance_of_step`), and `Halt` the ways in which it
ends (`halt_of_step`).  `Reaches` is any number of steps that go on.

A step that goes on keeps the depth, the limit, what is known about solvability
and the number of solutions (`Reaches.frame`).
-/

import SecondOrder.Search.Solve
import SecondOrder.Proofs.EquationSet.Contents
import SecondOrder.Proofs.EquationSet.Instantiate
import SecondOrder.Proofs.Refusal

namespace SecondOrder

namespace Search

variable {R : Reserved} {s t u : Search} {c : Equation}

/-- A step of `s` that treats the equation `c` and goes on with another
search. -/
inductive Advance (R : Reserved) (s : Search) (c : Equation) : Search → Prop
  | trivial (rule : c.rule R = .trivial) : Advance R s c (s.drop c)
  | assign {t : Search} (rule : c.rule R = .assign)
      (assigned : (s.drop c).assign R c = ⟨t, .ok true⟩) : Advance R s c t
  | align {P : EquationSet} {d : Equation} (rule : c.rule R = .decompose)
      (aligned : c.align (s.drop c).pending = ⟨P, .ok d⟩) (done : d.rule R ≠ .decompose) :
      Advance R s c { s with pending := P }
  | decompose {P : EquationSet} {d : Equation} (rule : c.rule R = .decompose)
      (aligned : c.align (s.drop c).pending = ⟨P, .ok d⟩) (again : d.rule R = .decompose) :
      Advance R s c { s with pending := P.add d.pieces }
  | contract {p : Expr} (rule : c.rule R = .guess) (redex : c.pattern.isRedex R = true)
      (contracted : c.pattern.contract R = .ok p) :
      Advance R s c { s with pending := (s.drop c).pending.add [⟨p, c.subject⟩] }

/-- A step of `s` that treats the equation `c` and ends the deterministic
part. -/
inductive Halt (R : Reserved) (s : Search) (c : Equation) :
    Attempt Search (Option Equation) → Prop
  | clash (rule : c.rule R = .clash) : Halt R s c ⟨s.refuted, .ok none⟩
  | excluded {t : Search} (rule : c.rule R = .assign)
      (assigned : (s.drop c).assign R c = ⟨t, .ok false⟩) : Halt R s c ⟨t, .ok none⟩
  | branch (rule : c.rule R = .guess) (flex : c.pattern.isRedex R = false) :
      Halt R s c ⟨s, .ok (some c)⟩
  | assignFault {t : Search} {fault : Fault} (rule : c.rule R = .assign)
      (assigned : (s.drop c).assign R c = ⟨t, .error fault⟩) : Halt R s c ⟨t, .error fault⟩
  | alignFault {P : EquationSet} {fault : Fault} (rule : c.rule R = .decompose)
      (aligned : c.align (s.drop c).pending = ⟨P, .error fault⟩) :
      Halt R s c ⟨{ s with pending := P }, .error fault⟩
  | contractFault {fault : Fault} (rule : c.rule R = .guess) (redex : c.pattern.isRedex R = true)
      (contracted : c.pattern.contract R = .error fault) : Halt R s c ⟨s.drop c, .error fault⟩

/-- A treatment that goes on does what its rule says. -/
theorem advance_of_treat (h : s.treat R c = .next t) : Advance R s c t := by
  rw [treat] at h
  split at h
  · cases h
  · next hr => cases h; exact .trivial hr
  · next hr =>
    split at h <;> cases h
    next ha => exact .assign hr ha
  · next hr =>
    split at h <;> cases h
    next ha =>
      split
      · next hd => exact .decompose hr ha hd
      · next hd => exact .align hr ha hd
  · next hr =>
    split at h
    · next hx =>
      split at h <;> cases h
      next hp => exact .contract hr hx hp
    · cases h

/-- A treatment that stops does so for one of the reasons. -/
theorem halt_of_treat {last : Attempt Search (Option Equation)}
    (h : s.treat R c = .stop last) : Halt R s c last := by
  rw [treat] at h
  split at h
  · next hr => cases h; exact .clash hr
  · cases h
  · next hr =>
    split at h <;> cases h
    · next ha => exact .excluded hr ha
    · next ha => exact .assignFault hr ha
  · next hr =>
    split at h <;> cases h
    next ha => exact .alignFault hr ha
  · next hr =>
    split at h
    · next hx =>
      split at h <;> cases h
      next hp => exact .contractFault hr hx hp
    · next hx => cases h; exact .branch hr (Bool.eq_false_iff.2 hx)

/-- **A step goes on in one of five ways.** -/
theorem advance_of_step (h : s.step R = .next t) :
    ∃ c, s.pending.best? R = some c ∧ Advance R s c t := by
  rw [step] at h
  split at h
  · cases h
  · next c hc => exact ⟨c, hc, advance_of_treat h⟩

/-- **A step ends with nothing pending or in one of six ways.** -/
theorem halt_of_step {last : Attempt Search (Option Equation)} (h : s.step R = .stop last) :
    s.pending.equations = [] ∧ last = ⟨{ s with solvable := some true }, .ok none⟩ ∨
      ∃ c, s.pending.best? R = some c ∧ Halt R s c last := by
  rw [step] at h
  split at h
  · next hb =>
    cases h
    exact .inl ⟨EquationSet.equations_eq_nil_of_best? hb, rfl⟩
  · next c hc => exact .inr ⟨c, hc, halt_of_treat h⟩

/-- A search whose next equation applies an unknown stops there. -/
theorem step_of_flex (hb : s.pending.best? R = some c) (hr : c.rule R = .guess)
    (hf : c.pattern.isRedex R = false) : s.step R = .stop ⟨s, .ok (some c)⟩ := by
  rw [step, hb]
  dsimp only
  rw [treat, hr]
  dsimp only
  rw [if_neg (Bool.eq_false_iff.1 hf)]

/-- An assignment is applied to the pending patterns alone. -/
theorem instantiate_singleton (s : Search) (c : Equation) :
    s.instantiate R (EquationSet.ofList [c]) =
      ⟨{ s with pending := { s.pending with
          equations := (EquationSet.instantiatePatterns R c s.pending.equations).state } },
        (EquationSet.instantiatePatterns R c s.pending.equations).result⟩ := by
  rw [instantiate, EquationSet.instantiate, EquationSet.equations_ofList_singleton,
    EquationSet.instantiateEach]
  rcases EquationSet.instantiatePatterns R c s.pending.equations with ⟨ds, _ | _⟩ <;> rfl

/-- What an assignment leaves that meets no fault. -/
theorem assign_ok {b : Bool} (h : s.assign R c = ⟨t, .ok b⟩) :
    ∃ σ rest ds, s.solutions = σ :: rest ∧
      EquationSet.instantiatePatterns R c s.pending.equations = ⟨ds, .ok ()⟩ ∧
      b = s.accepts (σ.add [c]) ∧
      t = bif b then { s with
            pending := { s.pending with equations := ds }, solutions := σ.add [c] :: rest }
          else { s with
            pending := { s.pending with equations := ds }, solutions := []
            solvable := some false } := by
  rw [assign, instantiate_singleton] at h
  rcases hI : EquationSet.instantiatePatterns R c s.pending.equations with ⟨ds, fault | _⟩
  · rw [hI] at h
    cases h
  · rw [hI] at h
    dsimp only at h
    split at h
    · cases h
    · next σ rest hσ =>
      refine ⟨σ, rest, ds, hσ, rfl, ?_⟩
      split at h
      · next hb =>
        cases h
        exact ⟨hb.symm, rfl⟩
      · next hb =>
        cases h
        exact ⟨(Bool.eq_false_iff.2 hb).symm, rfl⟩

/-- What an assignment leaves that meets a fault. -/
theorem assign_error {fault : Fault} (h : s.assign R c = ⟨t, .error fault⟩) :
    ∃ ds, t = { s with pending := { s.pending with equations := ds } } ∧
      (EquationSet.instantiatePatterns R c s.pending.equations = ⟨ds, .error fault⟩ ∨
        s.solutions = [] ∧ EquationSet.instantiatePatterns R c s.pending.equations = ⟨ds, .ok ()⟩) := by
  rw [assign, instantiate_singleton] at h
  rcases hI : EquationSet.instantiatePatterns R c s.pending.equations with ⟨ds, fault | _⟩
  · rw [hI] at h
    cases h
    exact ⟨ds, rfl, .inl rfl⟩
  · rw [hI] at h
    dsimp only at h
    split at h
    · next hσ =>
      cases h
      exact ⟨ds, rfl, .inr ⟨hσ, rfl⟩⟩
    · split at h <;> cases h

/-- How a branch is opened: the guess is made in a copy of the search, and the
unknown function is assigned it. -/
theorem branch?_some {g : Guess} {b : Branch} (h : s.branch? R c g = .ok (some b)) :
    ∃ m k value P, c.unknownHead? = some (m, k) ∧
      guessed R s.deeper.pending k c.subject g = .ok (value, b.temporaries, P) ∧
      { s.deeper with pending := P }.assign R ⟨m, value⟩ = ⟨b.search, .ok true⟩ := by
  rw [branch?] at h
  split at h
  · cases h
  · next m k hk =>
    dsimp only at h
    cases hg : guessed R s.deeper.pending k c.subject g with
    | error fault => rw [hg] at h; cases h
    | ok made =>
      obtain ⟨value, temporaries, P⟩ := made
      rw [hg] at h
      dsimp only [bind, Except.bind] at h
      split at h
      · cases h
      · next assigned =>
        cases h
        exact ⟨m, k, value, P, hk, hg, assigned⟩
      · cases h

/-- What there is to guess. -/
theorem guesses_spec {gs : List Guess} (h : s.guesses c = .ok gs) :
    c.unknownHead? = none ∧ gs = [] ∨
      ∃ m k, c.unknownHead? = some (m, k) ∧ gs = Guess.all (k + 1) c.subject := by
  rw [guesses] at h
  split at h
  · next hu => exact .inl ⟨hu, (Except.ok.inj h).symm⟩
  · next m k hu =>
    refine .inr ⟨m, k, hu, ?_⟩
    split at h
    · split at h
      · cases h
      · exact (Except.ok.inj h).symm
    · exact (Except.ok.inj h).symm

/-- What every step that goes on keeps: whether there is a solution stays open,
and no solution joins those under construction. -/
theorem Advance.frame (h : Advance R s c t) :
    t.solvable = s.solvable ∧ t.depth = s.depth ∧ t.limit = s.limit ∧
      t.solutions.length = s.solutions.length := by
  cases h with
  | assign _ assigned =>
    obtain ⟨σ, rest, ds, hσ, -, hb, rfl⟩ := assign_ok assigned
    refine ⟨rfl, rfl, rfl, ?_⟩
    change s.solutions = σ :: rest at hσ
    rw [hσ]
    rfl
  | _ => exact ⟨rfl, rfl, rfl, rfl⟩

/-- A search with solutions has begun already. -/
theorem begun_of_ne_nil (h : s.solutions ≠ []) : s.begun = s := by
  rw [begun]
  split
  · contradiction
  · rfl

/-- To begin a search changes nothing that is pending. -/
theorem pending_begun (s : Search) : s.begun.pending = s.pending := by
  rw [begun]
  split <;> rfl

/-- A run of a search whose first step ends is that step. -/
theorem run_of_step_stop {n : Nat} (hσ : s.solutions ≠ []) (hn : n ≠ 0)
    {last : Attempt Search (Option Equation)} (h : s.step R = .stop last) :
    s.run R n = some last := by
  obtain ⟨n, rfl⟩ := Nat.exists_eq_succ_of_ne_zero hn
  rw [run, begun_of_ne_nil hσ, steps, h]

/-- Any number of steps that go on. -/
inductive Reaches (R : Reserved) : Search → Search → Prop
  | refl (s : Search) : Reaches R s s
  | step {s t u : Search} (first : s.step R = .next t) (rest : Reaches R t u) : Reaches R s u

/-- **A run is steps that go on and one that ends.** -/
theorem reaches_of_steps {n : Nat} {last : Attempt Search (Option Equation)}
    (h : steps R n s = some last) : ∃ u, Reaches R s u ∧ u.step R = .stop last := by
  induction n generalizing s with
  | zero => cases h
  | succ n ih =>
    rw [steps] at h
    split at h
    · next hs =>
      obtain ⟨u, hu, hlast⟩ := ih h
      exact ⟨u, .step hs hu, hlast⟩
    · next hs =>
      cases h
      exact ⟨s, .refl s, hs⟩

/-- **What every step keeps, any number of steps keeps.** -/
theorem Reaches.invariant {P : Search → Prop} (hr : Reaches R s t) (hs : P s)
    (keeps : ∀ u c v, P u → u.pending.best? R = some c → Advance R u c v → P v) : P t := by
  induction hr with
  | refl => exact hs
  | step first _ ih =>
    obtain ⟨c, hb, ha⟩ := advance_of_step first
    exact ih (keeps _ c _ hs hb ha)

/-- The deterministic part leaves the verdict, the depth, the limit and the
number of solutions as they are. -/
theorem Reaches.frame (h : Reaches R s t) :
    t.solvable = s.solvable ∧ t.depth = s.depth ∧ t.limit = s.limit ∧
      t.solutions.length = s.solutions.length := by
  induction h with
  | refl => exact ⟨rfl, rfl, rfl, rfl⟩
  | step hs _ ih =>
    obtain ⟨c, -, ha⟩ := advance_of_step hs
    obtain ⟨h₁, h₂, h₃, h₄⟩ := ha.frame
    exact ⟨ih.1.trans h₁, ih.2.1.trans h₂, ih.2.2.1.trans h₃, ih.2.2.2.trans h₄⟩

/-- What a run comes to does not depend on the fuel, -/
theorem run_unique {m n : Nat} {last last' : Attempt Search (Option Equation)}
    (h : s.run R m = some last) (h' : s.run R n = some last') : last = last' :=
  Option.some.inj ((run_mono (Nat.le_max_left m n) h).symm.trans (run_mono (Nat.le_max_right m n) h'))

/-- and neither does what a search returns. -/
theorem solve_unique {m n : Nat} {r r' : Attempt Search Unit} (h : s.solve R m = some r)
    (h' : s.solve R n = some r') : r = r' :=
  Option.some.inj ((solve_mono (Nat.le_max_left m n) h).symm.trans (solve_mono (Nat.le_max_right m n) h'))

/-- An equation that clashes comes first. -/
theorem step_of_clash {d : Equation} (hd : d ∈ s.pending.equations) (hr : d.rule R = .clash) :
    s.step R = .stop ⟨s.refuted, .ok none⟩ := by
  rw [step]
  split
  · next hnone =>
    rw [EquationSet.equations_eq_nil_of_best? hnone] at hd
    cases hd
  · next c hc => rw [treat, EquationSet.rule_of_best?_of_clash hd hr hc]

/-- **An equation that clashes refutes a search,** whatever else is pending. -/
theorem solve_of_clash {d : Equation} {n : Nat} (hone : ¬1 < s.solutions.length)
    (hd : d ∈ s.pending.equations) (hr : d.rule R = .clash) (hn : 2 ≤ n) :
    s.solve R n = some ⟨s.begun.refuted, .ok ()⟩ := by
  obtain ⟨n, rfl⟩ := Nat.exists_eq_add_of_le' hn
  rw [solve, if_neg hone, run, steps, step_of_clash (pending_begun s ▸ hd) hr]

end Search
end SecondOrder
