/-
# Copies of sets of equations

To copy a set is to build it anew from its equations, which drops repetitions.
So a copy is the set itself exactly if the set holds no equation twice.

No call brings a repetition in but those that change patterns where they stand:
these keep the subjects, compare nothing, and may give two equations with one
subject the same pattern (`EquationSet.Merged`).  Up to the first such call a
copy is faithful, and afterwards it still has the same members, the first of
each kind (`EquationSet.copy_faithful`).  It does happen that one is dropped
(`EquationSet.copy_drops`).
-/

import Mathlib
import SecondOrder.Proofs.EquationSet.Calls

namespace SecondOrder

open SecondOrder.Expr

namespace EquationSet

variable {R : Reserved} {s t : EquationSet} {k : Call}

/-- A call that changes patterns keeps the subjects where they stand. -/
theorem map_subject_after (hk : k.rewrites = true) :
    (k.after R s).equations.map Equation.subject = s.equations.map Equation.subject := by
  cases k with
  | instantiate σ => exact map_subject_instantiateEach R σ.equations s.equations
  | instantiateSelf => exact map_subject_instantiateAt R _ s.equations
  | _ => cases hk

/-- At the places `i` and `j` the set `s` has equations with one subject and
different patterns, and `t` equations that are the same. -/
structure Merged (s t : EquationSet) (i j : Nat) : Prop where
  before : ∃ c d, s.equations[i]? = some c ∧ s.equations[j]? = some d ∧
    c.pattern.similar d.pattern = false ∧ c.subject.similar d.subject = true
  after : ∃ c d, t.equations[i]? = some c ∧ t.equations[j]? = some d ∧ (c == d) = true

/-- Where the subjects are kept, a repetition is of equations that have been
given one pattern. -/
theorem exists_merged (hsubjects : t.equations.map Equation.subject = s.equations.map Equation.subject)
    (hs : Distinct s.equations) (ht : ¬Distinct t.equations) : ∃ i j, i < j ∧ Merged s t i j := by
  have hlength : t.equations.length = s.equations.length := by simpa using congrArg List.length hsubjects
  have hsubject (n : Nat) (hn : n < t.equations.length) (hn' : n < s.equations.length) :
      t.equations[n].subject = s.equations[n].subject := by
    have heq := congrArg (·[n]?) hsubjects
    simpa [hn, hn'] using heq
  by_contra hnone
  refine ht (List.pairwise_iff_getElem.2 fun i j hi hj hij => Bool.eq_false_iff.2 fun hsame => hnone ?_)
  have hi' := hlength ▸ hi
  have hj' := hlength ▸ hj
  have hdiffer : (s.equations[i].pattern.similar s.equations[j].pattern
      && s.equations[i].subject.similar s.equations[j].subject) = false :=
    List.pairwise_iff_getElem.1 hs i j hi' hj' hij
  have hboth : (t.equations[i].pattern.similar t.equations[j].pattern
      && t.equations[i].subject.similar t.equations[j].subject) = true := hsame
  rw [Bool.and_eq_true, hsubject i hi hi', hsubject j hj hj'] at hboth
  rw [hboth.2, Bool.and_true] at hdiffer
  exact ⟨i, j, hij,
    ⟨_, _, List.getElem?_eq_getElem hi', List.getElem?_eq_getElem hj', hdiffer, hboth.2⟩,
    ⟨_, _, List.getElem?_eq_getElem hi, List.getElem?_eq_getElem hj, hsame⟩⟩

/-- **Up to the first call that merges equations there is no repetition.** -/
theorem distinct_or_merged (R : Reserved) (calls : List Call) (h : Distinct s.equations) :
    Distinct (run R s calls).equations ∨
      ∃ before k after i j, calls = before ++ k :: after ∧ k.rewrites = true ∧ i < j ∧
        Merged (run R s before) (k.after R (run R s before)) i j := by
  induction calls generalizing s with
  | nil => exact .inl h
  | cons k calls ih =>
    by_cases hk : Distinct (k.after R s).equations
    · refine (ih hk).imp_right ?_
      rintro ⟨before, k', after, i, j, rfl, hmerged⟩
      exact ⟨k :: before, k', after, i, j, rfl, hmerged⟩
    · have hrewrites : k.rewrites = true := by
        by_contra hleaves
        exact hk (distinct_after (Bool.eq_false_iff.2 hleaves) h)
      obtain ⟨i, j, hij, hmerged⟩ := exists_merged (map_subject_after hrewrites) h hk
      exact .inr ⟨[], k, calls, i, j, rfl, hrewrites, hij, hmerged⟩

/-- **Copies are faithful as long as no equations are merged.**  After any
calls, a copy of a set is equal to it, equation by equation and with its
counter and exclusions, exactly if the set holds no equation twice; it has the
counter, the exclusions and the members anyhow, and of equations that are the
same it has the first.  And a set holds no equation twice unless some call that
changes patterns has given one pattern to two equations that had different ones
and one subject. -/
theorem copy_faithful (R : Reserved) (cs : List Equation) (calls : List Call) :
    let s := run R (ofList cs) calls
    (s.copy = s ↔ Distinct s.equations) ∧
    s.copy.nextFresh = s.nextFresh ∧ s.copy.exclusions = s.exclusions ∧
    (s.copy == s) = true ∧ Distinct s.copy.equations ∧ s.copy.equations.Sublist s.equations ∧
    (Distinct s.equations ∨
      ∃ before k after i j, calls = before ++ k :: after ∧ k.rewrites = true ∧ i < j ∧
        Merged (run R (ofList cs) before) (k.after R (run R (ofList cs) before)) i j) := by
  intro s
  have hcopy : Distinct s.copy.equations := distinct_ofList s.equations
  exact ⟨⟨fun h => h ▸ hcopy, copy_of_distinct⟩, rfl, rfl, s.copy_beq, hcopy, (grows_copy s).1,
    distinct_or_merged R calls (distinct_ofList cs)⟩

/-- `{(_x, a), (_y, a)}`, instantiated by `{(_x, b), (_y, b)}`, holds `(b, a)`
twice, and its copy once. -/
theorem copy_drops :
    let assign (x value : String) : Equation := ⟨var ⟨x, true⟩, var ⟨value, false⟩⟩
    let merged : Equation := ⟨var ⟨"b", false⟩, var ⟨"a", false⟩⟩
    let s := run {} (ofList [assign "x" "a", assign "y" "a"])
      [.instantiate (ofList [assign "x" "b", assign "y" "b"])]
    s.equations = [merged, merged] ∧ s.copy.equations = [merged] ∧ ¬Distinct s.equations ∧ s.copy ≠ s := by
  intro assign merged s
  have hs : s.equations = [merged, merged] := by cbv
  have hcopy : s.copy.equations = [merged] := by cbv
  have hne : s.copy ≠ s := by
    intro h
    rw [h, hs] at hcopy
    cases hcopy
  exact ⟨hs, hcopy, fun h => hne (copy_of_distinct h), hne⟩

end EquationSet
end SecondOrder
