/-
# Calling a refused search again

A call that a fault stops leaves the search as it was when the fault arose,
with its solvability still open, so that the next call goes on from there.
Whether that is safe depends on where the fault arose.

While the search is branching, in the branches of an equation or in the forks
of several solutions, it works on copies: the state that is left is the one
before the interrupted step, and every later call meets the same fault again.
The rules of the deterministic part take the equation they treat off the
pending ones first; a fault in one of them loses that equation.  `solved_error`
says that nothing else happens, and `solved_after_fault` shows a search whose
second call answers with a solution of the equations that were left.
-/

import Mathlib
import SecondOrder.Proofs.Equation.Align
import SecondOrder.Proofs.Search.Course

namespace SecondOrder

namespace Search

variable {R : Reserved} {s t u : Search} {c : Equation} {fault : Fault} {n : Nat}

/-- The search stands at a branch point: it has several solutions to continue,
or an unknown function to guess. -/
def Branching (R : Reserved) (s : Search) : Prop :=
  1 < s.solutions.length ∨ ∃ c, s.step R = .stop ⟨s, .ok (some c)⟩

/-- To drop an equation takes the first one like it off. -/
theorem equations_drop (s : Search) (c : Equation) :
    (s.drop c).pending.equations = EquationSet.eraseFirst c s.pending.equations := rfl

/-- Taking an equation off the pending ones makes them one fewer. -/
theorem length_eraseFirst (h : s.pending.best? R = some c) :
    (EquationSet.eraseFirst c s.pending.equations).length + 1 = s.pending.size := by
  have hc := EquationSet.mem_of_best? h
  have hpos := List.length_pos_of_mem hc
  have hlen := List.length_eraseP_of_mem (p := (· == c)) hc (Equation.beq_refl c)
  rw [EquationSet.eraseFirst, hlen, EquationSet.size]
  omega

/-- **A rule that meets a fault has lost the equation it treated,** and nothing
else: the other pending equations keep their subjects, and the solution under
construction is as it was. -/
theorem Halt.lost (h : Halt R s c ⟨t, .error fault⟩) :
    t.solvable = s.solvable ∧ t.solutions = s.solutions ∧
      t.pending.equations.map Equation.subject =
        (EquationSet.eraseFirst c s.pending.equations).map Equation.subject := by
  cases h with
  | assignFault rule assigned =>
    obtain ⟨ds, rfl, hds⟩ := assign_error assigned
    have hI := EquationSet.map_subject_instantiatePatterns R c (s.drop c).pending.equations
    have hstate : (EquationSet.instantiatePatterns R c (s.drop c).pending.equations).state = ds := by
      rcases hds with h | ⟨-, h⟩ <;> rw [h]
    rw [hstate, equations_drop] at hI
    exact ⟨rfl, rfl, hI⟩
  | alignFault rule aligned =>
    exact ⟨rfl, rfl, congrArg _ (Equation.equations_of_align aligned)⟩
  | contractFault => exact ⟨rfl, rfl, rfl⟩

/-- **A call that is refused while branching changes nothing,** so that the
next one is refused with the same fault. -/
theorem solve_error_cases (h : s.solve R n = some ⟨t, .error fault⟩) :
    ∃ u, Reaches R s.begun u ∧
      ((u.Branching R ∧ t = u ∧ t.solve R n = some ⟨t, .error fault⟩) ∨
        ¬u.Branching R ∧ ∃ c, u.pending.best? R = some c ∧ Halt R u c ⟨t, .error fault⟩) := by
  cases n with
  | zero => cases h
  | succ n =>
    cases course_of_solve h with
    | forkFault many | partFault many =>
      refine ⟨s, ?_, .inl ⟨.inl many, rfl, h⟩⟩
      rw [begun_of_ne_nil (List.ne_nil_of_length_pos (by omega))]
      exact .refl s
    | runFault few ran =>
      obtain ⟨u, hu, hstop⟩ := reaches_of_steps ran
      have hlen := hu.frame.2.2.2.trans (length_begun few)
      rcases halt_of_step hstop with ⟨-, hl⟩ | ⟨c, hc, hl⟩
      · cases hl
      · refine ⟨u, hu, .inr ⟨?_, c, hc, hl⟩⟩
        rintro (hmany | ⟨d, hd⟩)
        · omega
        · cases hstop.symm.trans hd
    | guessFault few ran | branchFault few ran =>
      have hstands := stands_of_run ran
      have hlen := hstands.length few
      have hn : n ≠ 0 := by
        rintro rfl
        cases ran
      refine ⟨t, hstands.reached, .inl ⟨.inr ⟨_, hstands.stops⟩, rfl, ?_⟩⟩
      rw [← h, solve, solve, if_neg (by omega), if_neg (by omega), ran,
        run_of_step_stop (List.ne_nil_of_length_pos (by omega)) hn hstands.stops]

/-- **A call that meets a fault keeps every equation exactly if it met it while
branching.**  `u` is the search as the interrupted step found it.  If `u`
stands at a branch point it is left as it was, and every later call meets the
same fault.  If not, the equation that was being treated is gone, while the
others keep their subjects and the solution under construction stays as it
was. -/
theorem solved_error (h : s.solved R n = some ⟨t, .error fault⟩) :
    ∃ u, Reaches R s.begun u ∧ t.solvable = none ∧ t.solutions = u.solutions ∧
      (t.pending.size = u.pending.size ↔ u.Branching R) ∧
      (u.Branching R → t = u ∧ t.solved R n = some ⟨t, .error fault⟩ ∧
        ∀ m r, t.solved R m = some r → r = ⟨t, .error fault⟩) ∧
      (¬u.Branching R → ∃ c, u.pending.best? R = some c ∧
        t.pending.equations.map Equation.subject =
          (EquationSet.eraseFirst c u.pending.equations).map Equation.subject) := by
  rw [solved] at h
  split at h
  · next hopen =>
    obtain ⟨u, hu, hcases⟩ := solve_error_cases h
    have hb : s.begun.solvable = none := by
      rw [begun]
      split <;> exact hopen
    have hu₀ : u.solvable = none := hu.frame.1.trans hb
    rcases hcases with ⟨hbr, rfl, hagain⟩ | ⟨hbr, c, hc, hhalt⟩
    · refine ⟨t, hu, hu₀, rfl, ⟨fun _ => hbr, fun _ => rfl⟩, fun _ => ⟨rfl, ?_, fun m r hr => ?_⟩,
        fun hn => absurd hbr hn⟩
      · rw [solved, hu₀]
        exact hagain
      · rw [solved, hu₀] at hr
        rcases Nat.le_total m n with hmn | hmn
        · exact Option.some.inj ((solve_mono hmn hr).symm.trans hagain)
        · exact Option.some.inj (hr.symm.trans (solve_mono hmn hagain))
    · obtain ⟨hsolvable, hsolutions, hsubjects⟩ := hhalt.lost
      have hlen : t.pending.size + 1 = u.pending.size := by
        rw [← length_eraseFirst hc, EquationSet.size, ← List.length_map Equation.subject,
          hsubjects, List.length_map]
      refine ⟨u, hu, hsolvable.trans hu₀, hsolutions, ⟨fun heq => ?_, fun hb => absurd hb hbr⟩,
        fun hb => absurd hb hbr, fun _ => ⟨c, hc, hsubjects⟩⟩
      omega
  · cases h

/-- `_x` should equal `f(a)`, and `λ[_x, p(_x)]` should equal `λ[y, p(y)]`: the
value of `_x` cannot stand in the binder slot. -/
def boundUnknown : Search :=
  let lambda : Sym := ⟨"lambda", "fns1", false⟩
  let x : Var := ⟨"x", true⟩
  let y : Var := ⟨"y", false⟩
  let f : Expr := .var ⟨"f", false⟩
  let p : Expr := .var ⟨"p", false⟩
  (addAll {} {} [
    (.expr (.var x), .expr (.app f [.var ⟨"a", false⟩])),
    (.expr (.bind lambda ⟨x, []⟩ (.app p [.var x])),
      .expr (.bind lambda ⟨y, []⟩ (.app p [.var y])))]).state

/-- `solved_error` at a search whose first step is refused: what it was
treating is no longer pending. -/
theorem solved_error_boundUnknown : ∃ t fault u,
    boundUnknown.solved {} 3 = some ⟨t, .error fault⟩ ∧ Reaches {} boundUnknown.begun u ∧
      (t.pending.size = u.pending.size ↔ u.Branching {}) ∧ t.pending.size = 1 := by
  have h : ∃ t fault, boundUnknown.solved {} 3 = some ⟨t, .error fault⟩ ∧ t.pending.size = 1 := by
    refine ⟨?_, ?_, ?_, ?_⟩
    rotate_left 2
    · cbv
      rfl
    · rfl
  obtain ⟨t, fault, ht, hsize⟩ := h
  obtain ⟨u, hu, -, -, hkeeps, -⟩ := solved_error ht
  exact ⟨t, fault, u, ht, hu, hkeeps, hsize⟩

/-- **After a fault the next call can succeed,** with a solution of fewer
equations: of the two equations of `boundUnknown` only the second is met by
`_x ↦ y`. -/
theorem solved_after_fault : ∃ t fault u,
    boundUnknown.solved {} 3 = some ⟨t, .error fault⟩ ∧ t.solved {} 6 = some ⟨u, .ok ()⟩ ∧
      u.solutions.map EquationSet.text = ["\x7b(_x, y)\x7d"] := by
  refine ⟨?_, ?_, ?_, ?_, ?_, ?_⟩
  rotate_left 3
  · cbv
    rfl
  · cbv
    rfl
  · cbv

end Search
end SecondOrder
