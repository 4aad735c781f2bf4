/-
# Bounded searches

A search is bounded if its deterministic part ends, and so do those of its
branches, with at most so many branch points above one another
(`Search.Bounded`).  With enough fuel it returns (`Bounded.returns`), and a
limit that admits as many branch points does not refuse it
(`Bounded.unlimited`).

Every step that goes on takes weight off what is pending, as long as no redex
is contracted.  A branch does not, but after it the next step is no branch, or
an unknown is gone and no other has come.  `Shrinking` says so of all searches
with some property.  They are bounded then (`Shrinking.bounded`): the induction
is on the weight, and among searches of one weight on the number of unknowns.
-/

import SecondOrder.Proofs.Search.Enumeration
import SecondOrder.Proofs.Search.Limit
import SecondOrder.Proofs.Search.Weight

namespace SecondOrder

namespace Search

open Equation

variable {R : Reserved} {s t u : Search} {c : Equation} {g : Guess} {m : Expr} {k n M N : Nat}

/-- The search comes to an end, with a result or refused. -/
def Returns (R : Reserved) (s : Search) : Prop := ∃ n r, s.solve R n = some r

/-- A search that stands at a last step has a run to it. -/
theorem steps_of_reaches {last : Attempt Search (Option Equation)} (h : Reaches R s u)
    (hstop : u.step R = .stop last) : ∃ n, steps R n s = some last := by
  induction h with
  | refl => exact ⟨1, by rw [steps, hstop]⟩
  | step first _ ih =>
    obtain ⟨n, hn⟩ := ih hstop
    exact ⟨n + 1, by rw [steps, first]; exact hn⟩

/-- What a search comes by in its deterministic part, its run ends with. -/
theorem steps_of_run {last : Attempt Search (Option Equation)} (h : Reaches R s t)
    (hrun : steps R n s = some last) : ∃ j, steps R j t = some last := by
  induction h generalizing n with
  | refl => exact ⟨n, hrun⟩
  | step first _ ih =>
    cases n with
    | zero => cases hrun
    | succ n =>
      rw [steps, first] at hrun
      exact ih hrun

/-- One step more is reached, too. -/
theorem Reaches.next (h : Reaches R s t) (hn : t.step R = .next u) : Reaches R s u := by
  induction h with
  | refl => exact .step hn (.refl u)
  | step first _ ih => exact .step first (ih hn)

/-- The branches of several guesses come to an end together. -/
theorem exists_explore {gs : List Guess}
    (h : ∀ g ∈ gs, ∀ br, s.branch? R c g = .ok (some br) → br.search.Returns R) :
    ∃ n r, explore R (solve R n) s c gs = some r := by
  induction gs with
  | nil => exact ⟨0, _, rfl⟩
  | cons g gs ih =>
    rw [List.forall_mem_cons] at h
    obtain ⟨n, r, hrest⟩ := ih h.2
    cases hb : s.branch? R c g with
    | error fault => exact ⟨n, .error fault, by rw [explore, hb]⟩
    | ok found =>
      cases found with
      | none => exact ⟨n, r, by rw [explore, hb]; exact hrest⟩
      | some br =>
        obtain ⟨n', ⟨t, last⟩, hsolve⟩ := h.1 br hb
        have hrest := explore_mono (fun _ _ => solve_mono (Nat.le_max_left n n')) hrest
        have hsolve := solve_mono (Nat.le_max_right n n') hsolve
        refine ⟨max n n', ?_⟩
        rw [explore, hb]
        dsimp only
        rw [hsolve]
        cases last with
        | error fault => exact ⟨_, rfl⟩
        | ok =>
          dsimp only
          split
          · exact ⟨_, rfl⟩
          · rw [hrest]
            exact ⟨_, rfl⟩

/-- A search returns if its run ends and the branches there return. -/
theorem returns_of_run {res : Except Fault (Option Equation)} (hs : ¬1 < s.solutions.length)
    (hrun : s.run R n = some ⟨u, res⟩) (h : ∀ c gs, res = .ok (some c) → u.guesses c = .ok gs →
      ∃ n r, explore R (solve R n) u c gs = some r) : s.Returns R := by
  rcases res with fault | _ | c
  · exact ⟨n + 1, ⟨u, .error fault⟩, by rw [solve, if_neg hs, hrun]⟩
  · exact ⟨n + 1, ⟨u, .ok ()⟩, by rw [solve, if_neg hs, hrun]⟩
  · cases hgs : u.guesses c with
    | error fault =>
      refine ⟨n + 1, ⟨u, .error fault⟩, ?_⟩
      rw [solve, if_neg hs, hrun]
      dsimp only
      rw [hgs]
    | ok gs =>
      obtain ⟨n', r, hr⟩ := h c gs rfl hgs
      have hrun := run_mono (Nat.le_max_left n n') hrun
      have hr := explore_mono (fun _ _ => solve_mono (Nat.le_max_right n n')) hr
      refine ⟨max n n' + 1, ?_⟩
      rw [solve, if_neg hs, hrun]
      dsimp only
      rw [hgs]
      dsimp only
      rw [hr]
      exact ⟨_, rfl⟩

/-- The deterministic part of the search ends, and so do those of its branches,
with at most `N` branch points above one another. -/
inductive Bounded (R : Reserved) : Nat → Search → Prop
  | leaf {N n : Nat} {s u : Search} {last : Except Fault (Option Equation)}
      (single : s.solutions.length ≤ 1) (run : s.run R n = some ⟨u, last⟩)
      (ends : ∀ c, last = .ok (some c) → c.unknownHead? = none) : Bounded R N s
  | node {N n k : Nat} {s u : Search} {c : Equation} {m : Expr} (single : s.solutions.length ≤ 1)
      (run : s.run R n = some ⟨u, .ok (some c)⟩) (head : c.unknownHead? = some (m, k))
      (branches : ∀ g ∈ Guess.all (k + 1) c.subject, ∀ b, u.branch? R c g = .ok (some b) →
        Bounded R N b.search) : Bounded R (N + 1) s

/-- The search `t` is met on a path from `s`, below `k` branch points. -/
inductive Path (R : Reserved) (s : Search) : Nat → Search → Prop
  | start : Path R s 0 s.begun
  | step {k : Nat} {t u : Search} (path : Path R s k t) (next : t.step R = .next u) : Path R s k u
  | branch {k n : Nat} {t u : Search} {c : Equation} {m : Expr} {g : Guess} {b : Branch}
      (path : Path R s k t) (stop : t.step R = .stop ⟨u, .ok (some c)⟩)
      (head : c.unknownHead? = some (m, n)) (guess : g ∈ Guess.all (n + 1) c.subject)
      (opened : u.branch? R c g = .ok (some b)) : Path R s (k + 1) b.search.begun

namespace Bounded

/-- A greater bound bounds as well. -/
theorem mono (h : Bounded R N s) (hNM : N ≤ M) : Bounded R M s := by
  induction h generalizing M with
  | leaf single run ends => exact .leaf single run ends
  | node single run head _ ih =>
    obtain ⟨M, rfl⟩ := Nat.exists_eq_succ_of_ne_zero (Nat.ne_zero_of_lt hNM)
    exact .node single run head fun g hg b hb => ih g hg b hb (Nat.le_of_succ_le_succ hNM)

/-- The run of a bounded search comes to an end. -/
theorem run (h : Bounded R N s) : ∃ n last, s.run R n = some last := by
  cases h with
  | leaf _ run _ => exact ⟨_, _, run⟩
  | node _ run _ _ => exact ⟨_, _, run⟩

/-- **A bounded search returns.** -/
theorem returns (h : Bounded R N s) : s.Returns R := by
  induction h with
  | leaf single run ends =>
    refine returns_of_run (Nat.not_lt.2 single) run fun c gs hlast hgs => ?_
    rcases guesses_spec hgs with ⟨-, rfl⟩ | ⟨m, k, hhead, -⟩
    · exact ⟨0, _, rfl⟩
    · cases (ends c hlast).symm.trans hhead
  | node single run head _ ih =>
    refine returns_of_run (Nat.not_lt.2 single) run fun c gs hlast hgs => ?_
    cases hlast
    rcases guesses_spec hgs with ⟨hnone, -⟩ | ⟨m, k, hhead, rfl⟩
    · cases hnone.symm.trans head
    · cases hhead.symm.trans head
      exact exists_explore ih

/-- **A limit that admits all branch points refuses none of them.** -/
theorem unlimited {r : Attempt Search Unit} (h : Bounded R N s)
    (hl : ∀ l : Int, s.limit = some l → (s.depth : Int) + N ≤ l) (hs : s.solve R n = some r) :
    Unlimited r.result := by
  induction h generalizing n r with
  | leaf single run ends =>
    cases n with
    | zero => cases hs
    | succ n =>
      refine unlimited_of_run single (fun v d hrun => ?_) hs
      have heq := Attempt.mk.inj (run_unique run hrun)
      have hguesses : v.guesses d = .ok [] := by rw [guesses, ends d heq.2]
      rw [hguesses]
      refine ⟨.ok _, fun gs fault hgs hfault => ?_⟩
      cases hgs
      cases hfault
  | @node N _ k _ u c m single run head _ ih =>
    cases n with
    | zero => cases hs
    | succ n =>
      refine unlimited_of_run single (fun v d hrun => ?_) hs
      cases run_unique run hrun
      obtain ⟨hdepth, hlimit⟩ := frame_run run
      refine ⟨unlimited_guesses fun l hu => ?_, fun gs q hgs hq => unlimited_explore (fun g hg b t hb ht => ?_) hq⟩
      · have := hl l (hlimit ▸ hu)
        omega
      · rcases guesses_spec hgs with ⟨hnone, -⟩ | ⟨m', k', hhead, rfl⟩
        · cases hnone.symm.trans head
        · cases hhead.symm.trans head
          obtain ⟨hbdepth, hblimit⟩ := frame_branch? hb
          refine ih g hg b hb (fun l hbl => ?_) ht
          have := hl l (hlimit ▸ hblimit ▸ hbl)
          omega

/-- The bound does not depend on the limit. -/
theorem withLimit (l : Option Int) (h : Bounded R N s) : Bounded R N (s.withLimit l) := by
  induction h with
  | leaf single run ends => exact .leaf single ((run_withLimit _ _).trans (congrArg _ run)) ends
  | @node N _ k s u c m single run head _ ih =>
    refine .node single ((run_withLimit _ _).trans (congrArg _ run)) head fun g hg b hb => ?_
    have hb : (u.withLimit l).branch? R c g = .ok (some b) := hb
    rw [branch?_withLimit] at hb
    cases hu : u.branch? R c g with
    | error =>
      rw [hu] at hb
      cases hb
    | ok found =>
      cases found with
      | none =>
        rw [hu] at hb
        cases hb
      | some b' =>
        rw [hu] at hb
        cases hb
        exact ih g hg b' hu

/-- What is met on a path of a bounded search is part of a bounded search. -/
theorem of_path (h : Bounded R N s) (hp : Path R s k t) :
    ∃ M v, k + M = N ∧ Bounded R M v ∧ Reaches R v.begun t := by
  induction hp with
  | start => exact ⟨N, s, Nat.zero_add N, h, .refl _⟩
  | step _ next ih =>
    obtain ⟨M, v, hM, hv, hr⟩ := ih
    exact ⟨M, v, hM, hv, hr.next next⟩
  | branch _ stop head guess opened ih =>
    obtain ⟨M, v, hM, hv, hr⟩ := ih
    obtain ⟨n, hrun⟩ := steps_of_reaches hr stop
    cases hv with
    | leaf _ run ends =>
      cases run_unique run hrun
      cases (ends _ rfl).symm.trans head
    | node _ run head' branches =>
      cases run_unique run hrun
      cases head.symm.trans head'
      exact ⟨_, _, by omega, branches _ guess _ opened, .refl _⟩

/-- **On a path of a bounded search the deterministic part always ends,** and
there are no more branch points than the bound says. -/
theorem path (h : Bounded R N s) (hp : Path R s k t) : k ≤ N ∧ ∃ n last, steps R n t = some last := by
  obtain ⟨M, v, hM, hv, hr⟩ := h.of_path hp
  obtain ⟨n, last, hrun⟩ := hv.run
  obtain ⟨j, hj⟩ := steps_of_run hr hrun
  exact ⟨by omega, j, last, hj⟩

end Bounded

/-- A search with the property `P us` has no redex.  Steps keep the property,
and so do branches, without adding weight; after a branch the next step is no
branch, or one of the unknowns `us` is gone and no other has come. -/
structure Shrinking (R : Reserved) (P : List Expr → Search → Prop) : Prop where
  flex : ∀ {us s c}, P us s → c ∈ s.pending.equations → c.pattern.isRedex R = false
  advance : ∀ {us s t c}, P us s → c ∈ s.pending.equations → Advance R s c t → ∃ us', P us' t
  branch : ∀ {us s c m k g b}, P us s → s.pending.best? R = some c → c.rule R = .guess →
    c.unknownHead? = some (m, k) → g ∈ Guess.all (k + 1) c.subject → s.branch? R c g = .ok (some b) →
    b.search.weight ≤ s.weight ∧ ∃ us', P us' b.search ∧
      ((∃ d ∈ b.search.pending.equations, d.rule R ≠ .guess) ∨
        m ∈ us ∧ us' = us.filter fun n => !(n == m))

namespace Shrinking

variable {P : List Expr → Search → Prop} {us : List Expr}

/-- Where a search comes by there is less to treat than at the start. -/
theorem reaches (hP : Shrinking R P) (h : P us s) (hr : Reaches R s t) :
    (∃ us', P us' t) ∧ (t = s ∨ t.weight < s.weight) := by
  induction hr generalizing us with
  | refl => exact ⟨⟨us, h⟩, .inl rfl⟩
  | step first _ ih =>
    obtain ⟨c, hb, ha⟩ := advance_of_step first
    have hc := EquationSet.mem_of_best? hb
    have hlt := ha.weight_lt hc (hP.flex h hc)
    obtain ⟨us', h'⟩ := hP.advance h hc ha
    obtain ⟨hu, rfl | hlt'⟩ := ih h'
    · exact ⟨hu, .inr hlt⟩
    · exact ⟨hu, .inr (Nat.lt_trans hlt' hlt)⟩

/-- The deterministic part comes to an end. -/
theorem halts (hP : Shrinking R P) (h : P us s) : ∃ u last, Reaches R s u ∧ u.step R = .stop last := by
  induction hw : s.weight using Nat.strongRecOn generalizing s us with
  | _ w ih =>
    cases hstep : s.step R with
    | stop last => exact ⟨s, last, .refl s, hstep⟩
    | next t =>
      obtain ⟨c, hb, ha⟩ := advance_of_step hstep
      have hc := EquationSet.mem_of_best? hb
      obtain ⟨us', h'⟩ := hP.advance h hc ha
      obtain ⟨u, last, hu, hstop⟩ := ih t.weight (hw ▸ ha.weight_lt hc (hP.flex h hc)) h' rfl
      exact ⟨u, last, .step hstep hu, hstop⟩

/-- One bound for the branches of all guesses. -/
theorem exists_bound {gs : List Guess}
    (h : ∀ g ∈ gs, ∀ b, s.branch? R c g = .ok (some b) → ∃ N, Bounded R N b.search) :
    ∃ N, ∀ g ∈ gs, ∀ b, s.branch? R c g = .ok (some b) → Bounded R N b.search := by
  induction gs with
  | nil => exact ⟨0, nofun⟩
  | cons g gs ih =>
    rw [List.forall_mem_cons] at h
    obtain ⟨N, hN⟩ := ih h.2
    have hg : ∃ M, ∀ b, s.branch? R c g = .ok (some b) → Bounded R M b.search := by
      by_cases hb : ∃ b, s.branch? R c g = .ok (some b)
      · obtain ⟨b, hb⟩ := hb
        obtain ⟨M, hM⟩ := h.1 b hb
        refine ⟨M, fun b' hb' => ?_⟩
        cases hb.symm.trans hb'
        exact hM
      · exact ⟨0, fun b hb' => absurd ⟨b, hb'⟩ hb⟩
    obtain ⟨M, hM⟩ := hg
    refine ⟨max N M, List.forall_mem_cons.2 ⟨fun b hb => ?_, fun g' hg' b hb => ?_⟩⟩
    · exact (hM b hb).mono (Nat.le_max_right N M)
    · exact (hN g' hg' b hb).mono (Nat.le_max_left N M)

/-- A search is bounded if its branches are. -/
theorem bounded_of_branches (hP : Shrinking R P) (h : P us s.begun) (hone : s.solutions.length ≤ 1)
    (hbranches : ∀ {u c m k g b}, Reaches R s.begun u → u.pending.best? R = some c → c.rule R = .guess →
      c.unknownHead? = some (m, k) → g ∈ Guess.all (k + 1) c.subject → u.branch? R c g = .ok (some b) →
      ∃ N, Bounded R N b.search) : ∃ N, Bounded R N s := by
  obtain ⟨u, ⟨u', last⟩, hu, hstop⟩ := hP.halts h
  obtain ⟨n, hrun⟩ := steps_of_reaches hu hstop
  rcases halt_of_step hstop with ⟨-, hlast⟩ | ⟨c, hb, hl⟩
  · cases hlast
    exact ⟨0, .leaf hone hrun nofun⟩
  · cases hl with
    | branch hr =>
      cases hhead : c.unknownHead? with
      | none => exact ⟨0, .leaf hone hrun fun d hd => by cases hd; exact hhead⟩
      | some head =>
        obtain ⟨m, k⟩ := head
        obtain ⟨N, hN⟩ := exists_bound fun g hg b => hbranches hu hb hr hhead hg
        exact ⟨N + 1, .node hone hrun hhead hN⟩
    | _ => exact ⟨0, .leaf hone hrun nofun⟩

/-- **Searches that shrink are bounded.** -/
theorem bounded (hP : Shrinking R P) (h : P us s.begun) (hone : s.solutions.length ≤ 1) :
    ∃ N, Bounded R N s := by
  have hsame (m : Expr) : (m == m) = true := Expr.same_refl m
  have hopened {s u : Search} {c : Equation} {g : Guess} {b : Branch} (hone : s.solutions.length ≤ 1)
      (hu : Reaches R s.begun u) (hb : u.branch? R c g = .ok (some b)) :
      b.search.solutions.length ≤ 1 ∧ b.search.begun = b.search := by
    have hlen : b.search.solutions.length = 1 := by
      rw [length_branch? hb, hu.frame.2.2.2, length_begun hone]
    exact ⟨Nat.le_of_eq hlen, begun_of_ne_nil (List.ne_nil_of_length_pos (hlen ▸ Nat.zero_lt_one))⟩
  induction hw : s.begun.weight using Nat.strongRecOn generalizing s us with
  | _ w ihw =>
    -- a search of less weight is bounded, whatever its unknowns are
    have hlight {t : Search} {us : List Expr} (h : P us t) (hone : t.solutions.length ≤ 1)
        (hbegun : t.begun = t) (hlt : t.weight < w) : ∃ N, Bounded R N t :=
      ihw t.weight hlt (hbegun.symm ▸ h) hone (by rw [hbegun])
    induction hlen : us.length using Nat.strongRecOn generalizing s us with
    | _ l ihl =>
      refine hP.bounded_of_branches h hone fun {u c m k g b} hu hbest hr hhead hg hb => ?_
      obtain ⟨hone', hbegun⟩ := hopened hone hu hb
      obtain ⟨⟨us₀, h₀⟩, rfl | hlt⟩ := hP.reaches h hu
      · obtain ⟨hle, us', h', ⟨d, hd, hnext⟩ | ⟨hm, rfl⟩⟩ := hP.branch h hbest hr hhead hg hb
        · -- the branch goes on with a step, so its own branches weigh less
          refine hP.bounded_of_branches (hbegun.symm ▸ h') hone' fun hu' hbest' hr' hhead' hg' hb' => ?_
          obtain ⟨hone'', hbegun'⟩ := hopened hone' hu' hb'
          rw [hbegun] at hu'
          obtain ⟨⟨us₁, h₁⟩, rfl | hlt⟩ := hP.reaches h' hu'
          · exact absurd (EquationSet.rule_of_best?_of_guess hbest' hr' d hd) hnext
          · obtain ⟨hle', us₂, h₂, -⟩ := hP.branch h₁ hbest' hr' hhead' hg' hb'
            exact hlight h₂ hone'' hbegun' (by omega)
        · rcases Nat.lt_or_eq_of_le hle with hlt | heq
          · exact hlight h' hone' hbegun (hw ▸ hlt)
          · refine ihl _ ?_ (hbegun.symm ▸ h') hone' (by rw [hbegun, heq, hw]) rfl
            rw [← hlen, List.length_filter_lt_length_iff_exists]
            exact ⟨m, hm, by rw [hsame]; nofun⟩
      · obtain ⟨hle, us', h', -⟩ := hP.branch h₀ hbest hr hhead hg hb
        exact hlight h' hone' hbegun (by omega)

end Shrinking

end Search
end SecondOrder
