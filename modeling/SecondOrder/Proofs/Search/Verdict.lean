/-
# Verdicts are stable

When it is known whether a search can be solved, that stays known as long as
nothing is added.  To solve a solved search again finds the solutions that it
has.  And a search that has been refuted stays refuted, whatever is added to it
(`verdict_stable`).

The one exception is to solve a refuted search outright, without asking first
whether it is refuted (`Search.solve` in place of `Search.solved`).  A search
that was refuted by a clash keeps the equation that clashes, and is refuted by
it again.  One that was refuted by an exclusion, or because no branch had a
solution, has lost what refuted it, and what is left may have a solution
(`solvable_of_refuted`).
-/

import SecondOrder.Proofs.Search.Refinement
import SecondOrder.Proofs.Search.Retry

namespace SecondOrder

open Relation

namespace Search

open Equation EquationSet

variable {R : Reserved} {s t u : Search} {n : Nat}

/-- What one call makes of a search.  A refused call leaves what it has
changed.  A refuted search is not solved outright, unless an equation in it
clashes. -/
inductive Call (R : Reserved) (s : Search) : Search → Prop
  | add {t : Search} {c : Equation} (added : s.add R c = .ok t) : Call R s t
  | addAll {t : Search} {pairs : List (Operand × Operand)} {r : Except Fault Unit}
      (added : s.addAll R pairs = ⟨t, r⟩) : Call R s t
  | solve {t : Search} {n : Nat} {r : Except Fault Unit}
      (clash : s.solvable = some false → ∃ c ∈ s.pending.equations, c.rule R = .clash)
      (solved : s.solve R n = some ⟨t, r⟩) : Call R s t
  | solved {t : Search} {n : Nat} {r : Except Fault Unit} (solved : s.solved R n = some ⟨t, r⟩) :
      Call R s t
  | clone : Call R s s.clone

/-- What calls make of a search, one after another. -/
def Reachable (R : Reserved) : Search → Search → Prop := ReflTransGen (Call R)

/-- The search is known to have no solution, and has none. -/
def Refuted (s : Search) : Prop := s.solvable = some false ∧ s.solutions = []

/-- To meet a fault does not settle whether there is a solution. -/
theorem solvable_of_error {fault : Fault} (h : s.solve R n = some ⟨t, .error fault⟩) :
    t.solvable = s.solvable := by
  have hbegun : s.begun.solvable = s.solvable := by
    rw [begun]
    split <;> rfl
  obtain ⟨u, hu, ⟨-, rfl, -⟩ | ⟨-, c, -, hhalt⟩⟩ := solve_error_cases h
  · exact hu.frame.1.trans hbegun
  · exact hhalt.lost.1.trans (hu.frame.1.trans hbegun)

/-- A search that is settled is refused only as long as it is open. -/
theorem Settled.solve {r : Except Fault Unit} (hs : s.Settled)
    (hclash : s.solvable = some false → ∃ c ∈ s.pending.equations, c.rule R = .clash)
    (h : s.solve R n = some ⟨t, r⟩) : t.Settled := by
  cases r with
  | ok => exact settled_solve h
  | error fault =>
    cases hv : s.solvable with
    | none => exact .of_open ((solvable_of_error h).trans hv)
    | some v => cases v with
      | true =>
        obtain ⟨hnone, hne⟩ := hs.complete hv
        obtain ⟨t', ht', -⟩ := solve_of_nil (R := R) hnone hne
        cases solve_unique h ht'
      | false =>
        obtain ⟨c, hc, hr⟩ := hclash hv
        have hone : ¬1 < s.solutions.length := by
          rw [hs.refuted hv]
          exact Nat.not_lt_zero 1
        cases solve_unique h (solve_of_clash hone hc hr (Nat.le_refl 2))

namespace Call

/-- **A call keeps a search settled.** -/
theorem settled (h : Call R s t) (hs : s.Settled) : t.Settled := by
  cases h with
  | add added => exact hs.add added
  | addAll added => exact hs.addAll added
  | solve clash solved => exact hs.solve clash solved
  | solved solved =>
    rw [Search.solved] at solved
    split at solved
    · next hopen =>
      refine hs.solve (fun hf => ?_) solved
      cases hf.symm.trans hopen
    · cases solved
      exact hs
  | clone => exact hs.clone

/-- **A call keeps a search refuted.** -/
theorem refuted (h : Call R s t) (hs : s.Refuted) : t.Refuted := by
  obtain ⟨hv, hnil⟩ := hs
  cases h with
  | add added => exact ⟨((frame_add added).2 hnil).trans hv, (frame_add added).1.trans hnil⟩
  | addAll added => exact ⟨((frame_addAll added).2 hnil).trans hv, (frame_addAll added).1.trans hnil⟩
  | solve clash solved =>
    obtain ⟨c, hc, hr⟩ := clash hv
    have hone : ¬1 < s.solutions.length := by
      rw [hnil]
      exact Nat.not_lt_zero 1
    cases solve_unique solved (solve_of_clash hone hc hr (Nat.le_refl 2))
    exact ⟨rfl, rfl⟩
  | solved solved =>
    rw [Search.solved, hv] at solved
    cases solved
    exact ⟨hv, hnil⟩
  | clone => exact ⟨hv, List.map_eq_nil_iff.2 hnil⟩

end Call

/-- Any calls one after another keep a search settled. -/
theorem Reachable.settled (h : Reachable R s t) (hs : s.Settled) : t.Settled := by
  induction h with
  | refl => exact hs
  | tail _ call ih => exact call.settled ih

/-- Any calls one after another keep a search refuted. -/
theorem Reachable.refuted (h : Reachable R s t) (hs : s.Refuted) : t.Refuted := by
  induction h with
  | refl => exact hs
  | tail _ call ih => exact call.refuted ih

/-- **A verdict is stable.**  Take a search for which it is known whether there
is a solution.  To ask for the solutions again changes nothing.  If there is
one, solving the search once more finds the same solutions.  If there is none,
there is none after any further calls, no stream yields one, and solving it
once more finds none as long as an equation clashes. -/
theorem verdict_stable {limit : Option Int} {v : Bool} (h : Reachable R { limit } s)
    (hv : s.solvable = some v) :
    (∀ n, s.solved R n = some ⟨s, .ok ()⟩) ∧
    (v = true → ∃ t, (∀ n, 3 ≤ n → s.solve R n = some ⟨t, .ok ()⟩) ∧ t.solvable = some true ∧
      List.Forall₂ (fun σ τ => (τ == σ) = true) s.solutions t.solutions ∧
      ((∀ σ ∈ s.solutions, Distinct σ.equations) → t.solutions = s.solutions)) ∧
    (v = false → ∀ t, Reachable R s t → t.solvable = some false ∧ t.solutions = [] ∧
      t.stream R = .ok ⟨[]⟩ ∧
      ((∃ c ∈ t.pending.equations, c.rule R = .clash) → ∃ u, (∀ n, 2 ≤ n → t.solve R n = some ⟨u, .ok ()⟩) ∧
        u.solvable = some false ∧ u.solutions = [])) := by
  have hs : s.Settled := h.settled (.of_open rfl)
  refine ⟨fun n => by rw [solved, hv], ?_, ?_⟩
  · rintro rfl
    obtain ⟨hnone, hne⟩ := hs.complete hv
    obtain ⟨t, ht, hsolvable, hsolutions⟩ := solve_of_nil (R := R) hnone hne
    refine ⟨t, fun n hn => solve_mono hn ht, hsolvable, ?_, fun hdistinct => ?_⟩
    · rcases hsolutions with hsame | hcopies
      · rw [hsame]
        exact List.forall₂_same.2 fun σ _ => σ.beq_refl
      · rw [hcopies]
        exact List.forall₂_map_right_iff.2 (List.forall₂_same.2 fun σ _ => σ.copy_beq)
    · refine hsolutions.elim id fun hcopies => hcopies.trans ?_
      exact (List.map_congr_left fun σ hσ => copy_of_distinct (hdistinct σ hσ)).trans (List.map_id _)
  · rintro rfl t ht
    obtain ⟨hfalse, hnil⟩ := ht.refuted ⟨hv, hs.refuted hv⟩
    refine ⟨hfalse, hnil, by rw [stream, if_pos hfalse]; rfl, ?_⟩
    rintro ⟨c, hc, hr⟩
    have hone : ¬1 < t.solutions.length := by
      rw [hnil]
      exact Nat.not_lt_zero 1
    exact ⟨_, fun n hn => solve_of_clash hone hc hr hn, rfl, rfl⟩

/-- `λ[x, _p]` should equal `λ[y, y]`, so that `_p` must not name what `x` has
become. -/
def escaping : Equation :=
  let lambda : Sym := ⟨"lambda", "fns1", false⟩
  ⟨.bind lambda ⟨⟨"x", false⟩, []⟩ (.var ⟨"p", true⟩),
    .bind lambda ⟨⟨"y", false⟩, []⟩ (.var ⟨"y", false⟩)⟩

/-- `a` should equal `b`. -/
def clashing : Equation := ⟨.var ⟨"a", false⟩, .var ⟨"b", false⟩⟩

/-- The search for `escaping` can be reached with a verdict, and with nothing
pending. -/
theorem reachable_escaping : ∃ s, Reachable {} {} s ∧ s.solvable = some false ∧ s.pending.equations = [] := by
  let s : Search := { pending := .add {} [escaping] }
  have h : ∃ t, s.solved {} 6 = some ⟨t, .ok ()⟩ ∧ t.solvable = some false ∧ t.pending.equations = [] := by
    refine ⟨?_, ?_, ?_, ?_⟩
    rotate_left 1
    · cbv
      rfl
    · cbv
    · cbv
  obtain ⟨t, ht, hrest⟩ := h
  exact ⟨t, .tail (.single (.add rfl)) (.solved ht), hrest⟩

/-- `verdict_stable` at the search for `applied`, which has two solutions, and
at the one for `escaping`, which is refuted before `clashing` is added. -/
theorem verdict_stable_applied :
    (∃ s t, Reachable {} {} s ∧ s.solvable = some true ∧ s.solutions.length = 2 ∧
      s.solve {} 3 = some ⟨t, .ok ()⟩ ∧ t.solvable = some true ∧
      List.Forall₂ (fun σ τ => (τ == σ) = true) s.solutions t.solutions) ∧
    ∃ s t u, Reachable {} {} s ∧ s.solvable = some false ∧ s.add {} clashing = .ok t ∧
      t.solvable = some false ∧ t.solutions = [] ∧ t.stream {} = .ok ⟨[]⟩ ∧
      t.solve {} 2 = some ⟨u, .ok ()⟩ ∧ u.solvable = some false ∧ u.solutions = [] := by
  constructor
  · have hreach : Reachable {} {} solvedApplied := .tail (.single (.add rfl)) (.solved solved_applied)
    obtain ⟨-, htrue, -⟩ := verdict_stable hreach rfl
    obtain ⟨u, hu, hsolvable, hsame, -⟩ := htrue rfl
    exact ⟨solvedApplied, u, hreach, rfl, rfl, hu 3 (Nat.le_refl 3), hsolvable, hsame⟩
  · obtain ⟨s, hs, hv, hnone⟩ := reachable_escaping
    obtain ⟨-, -, hfalse⟩ := verdict_stable hs hv
    have hnil := (hfalse rfl s .refl).2.1
    have hadd : s.add {} clashing = .ok { s with pending := s.pending.add [clashing] } := by
      rw [Search.add, hnil]
      rfl
    obtain ⟨hv', hnil', hstream, hsolve⟩ := hfalse rfl _ (.single (.add hadd))
    have hmem : clashing ∈ (s.pending.add [clashing]).equations := by
      rw [EquationSet.add, equations_recordAll,
        equations_foldl_insert (by rw [hnone]; exact List.pairwise_singleton ..)]
      exact List.mem_append_right _ List.mem_cons_self
    obtain ⟨u, hu, hrest⟩ := hsolve ⟨clashing, hmem, by cbv⟩
    exact ⟨s, _, u, hs, hv, hadd, hv', hnil', hstream, hu 2 (Nat.le_refl 2), hrest⟩

/-- **A refuted search that is solved outright may have a solution:** the
exclusion that refuted the search for `escaping` kept `_p` from a value that is
now forgotten. -/
theorem solvable_of_refuted : ∃ s t, Reachable {} {} s ∧ s.solvable = some false ∧
    s.solutions = [] ∧ s.solve {} 4 = some ⟨t, .ok ()⟩ ∧ t.solvable = some true ∧ t.solutions.length = 1 := by
  obtain ⟨s, hs, hv, hnone⟩ := reachable_escaping
  obtain ⟨t, ht, hsolvable, hlen⟩ : ∃ t, s.solve {} 4 = some ⟨t, .ok ()⟩ ∧ t.solvable = some true ∧
      t.solutions.length = 1 := by
    have hnil : s.solutions = [] := (hs.settled (.of_open rfl)).refuted hv
    have hbegun : s.begun.solutions = [{}] := by rw [begun, hnil]
    have hstep := step_of_nil (R := {}) ((congrArg _ (pending_begun s)).trans hnone)
    refine ⟨{ s.begun with solvable := some true }, ?_, rfl, by rw [hbegun]; rfl⟩
    rw [Search.solve, if_neg (by rw [hnil]; exact Nat.not_lt_zero 1), run, steps, hstep]
  exact ⟨s, t, hs, hv, (hs.settled (.of_open rfl)).refuted hv, ht, hsolvable, hlen⟩

end Search
end SecondOrder
