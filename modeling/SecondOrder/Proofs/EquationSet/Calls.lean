/-
# Calls that change a set

A set of equations is changed by calls that come in any order
(`EquationSet.run`).  Its counter is meant to stay above every `v<N>` in its
equations, so that what it mints is unused.  `add` moves the counter past what
it brings in, the other calls bring in nothing, and those that mint move it
past what they return.  Only to instantiate the patterns by another set brings
in variables, those of the other set's values, past which the counter is not
moved.

So a variable that is minted next has never been minted before, and if it
stands in an equation, it came in with such a value
(`EquationSet.mint_unused`).  It does happen (`EquationSet.mint_in_use`).
-/

import Mathlib
import SecondOrder.Proofs.EquationSet.Contents
import SecondOrder.Proofs.EquationSet.Instantiate

namespace SecondOrder

open SecondOrder.Expr

namespace EquationSet

/-- A call that changes a set, or goes on with a copy of it. -/
inductive Call where
  | add (cs : List Equation)
  | remove (cs : List Equation)
  | clear
  | copy
  /-- Records the exclusions of a pattern. -/
  | record (p : Expr)
  /-- Returns a new variable. -/
  | mint
  /-- Instantiates the patterns by the equations of `σ`. -/
  | instantiate (σ : EquationSet)
  | instantiateSelf

namespace Call

/-- The set after the call, also if the call is refused half-way. -/
def after (R : Reserved) (s : EquationSet) : Call → EquationSet
  | add cs => s.add cs
  | remove cs => s.remove cs
  | clear => s.clear
  | copy => s.copy
  | record p => s.record p
  | mint => s.mint.2
  | instantiate σ => (σ.instantiate R s).state
  | instantiateSelf => (s.instantiateSelf R).state

/-- The variables that the call returns. -/
def minted (s : EquationSet) : Call → List Var
  | mint => [s.mint.1]
  | _ => []

/-- The values that the call instantiates patterns by although they hold a
`v<N>` that the counter has not passed. -/
def unseen (s : EquationSet) : Call → List Expr
  | instantiate σ => (σ.equations.map Equation.subject).filter fun e => s.nextFresh < numberAbove 'v' e.vars
  | _ => []

/-- Whether the call changes patterns where they stand. -/
def rewrites : Call → Bool
  | instantiate _ => true
  | instantiateSelf => true
  | _ => false

end Call

/-- The set after the calls. -/
def run (R : Reserved) (s : EquationSet) : List Call → EquationSet
  | [] => s
  | k :: ks => run R (k.after R s) ks

/-- The variables that the calls return, in order. -/
def minted (R : Reserved) (s : EquationSet) : List Call → List Var
  | [] => []
  | k :: ks => k.minted s ++ minted R (k.after R s) ks

/-- The values that the calls bring in past the counter. -/
def unseen (R : Reserved) (s : EquationSet) : List Call → List Expr
  | [] => []
  | k :: ks => k.unseen s ++ unseen R (k.after R s) ks

variable {R : Reserved} {s : EquationSet} {k : Call} {us : List Expr} {x : Var}

/-- Calls in two stages are carried out one stage after the other. -/
theorem run_append (R : Reserved) (s : EquationSet) (ks ls : List Call) :
    run R s (ks ++ ls) = run R (run R s ks) ls := by
  induction ks generalizing s with
  | nil => rfl
  | cons k ks ih => exact ih _

/-- A call that leaves patterns alone brings no repetition in. -/
theorem distinct_after (hk : k.rewrites = false) (h : Distinct s.equations) :
    Distinct (k.after R s).equations := by
  cases k with
  | add cs => exact distinct_add h cs
  | remove cs => exact h.sublist (sublist_remove s cs)
  | clear => exact List.Pairwise.nil
  | copy => exact distinct_ofList s.equations
  | record p => exact h
  | mint => exact h
  | instantiate σ => cases hk
  | instantiateSelf => cases hk

/-- Nor do calls one after another. -/
theorem distinct_run {ks : List Call} (hks : ∀ k ∈ ks, k.rewrites = false) (h : Distinct s.equations) :
    Distinct (run R s ks).equations := by
  induction ks generalizing s with
  | nil => exact h
  | cons k ks ih =>
    rw [List.forall_mem_cons] at hks
    exact ih hks.2 (distinct_after hks.1 h)

/-- No call moves the counter back. -/
theorem le_nextFresh_after (R : Reserved) (s : EquationSet) (k : Call) :
    s.nextFresh ≤ (k.after R s).nextFresh := by
  cases k with
  | add cs => exact (grows_add s cs).counter
  | mint => exact Nat.le_succ _
  | _ => exact Nat.le_refl _

/-- Nor do calls one after another. -/
theorem le_nextFresh_run (R : Reserved) (s : EquationSet) (ks : List Call) :
    s.nextFresh ≤ (run R s ks).nextFresh := by
  induction ks generalizing s with
  | nil => exact Nat.le_refl _
  | cons k ks ih => exact Nat.le_trans (le_nextFresh_after R s k) (ih _)

/-- What a call returns, the counter has passed. -/
theorem below_of_mem_minted (hx : x ∈ k.minted s) : x.Below (k.after R s).nextFresh := by
  cases k with
  | mint =>
    obtain rfl := List.mem_singleton.1 hx
    exact below_numberedName.2 (Nat.lt_succ_self _)
  | _ => cases hx

/-- What any of the calls returned, the counter has passed in the end. -/
theorem below_minted {ks : List Call} (hx : x ∈ minted R s ks) : x.Below (run R s ks).nextFresh := by
  induction ks generalizing s with
  | nil => cases hx
  | cons k ks ih =>
    rcases List.mem_append.1 hx with hx | hx
    · exact (below_of_mem_minted hx).mono (le_nextFresh_run R _ ks)
    · exact ih hx

/-- The counter has passed the variable, or the variable came in with one of
the values `us`. -/
def Accounted (s : EquationSet) (us : List Expr) (x : Var) : Prop :=
  x.Below s.nextFresh ∨ ∃ e ∈ us, x ∈ e.vars

/-- A later counter and more values account for more. -/
theorem Accounted.mono {t : EquationSet} {vs : List Expr} (hst : s.nextFresh ≤ t.nextFresh)
    (h : Accounted s us x) :
    Accounted t (us ++ vs) x := by
  rcases h with h | ⟨e, he, hx⟩
  · exact .inl (h.mono hst)
  · exact .inr ⟨e, List.mem_append_left _ he, hx⟩

/-- **After every call all variables of the equations are accounted for,** if
they were before. -/
theorem accounted_after (h : ∀ c ∈ s.equations, c.AllVars (Accounted s us)) :
    ∀ c ∈ (k.after R s).equations, c.AllVars (Accounted (k.after R s) (us ++ k.unseen s)) := by
  have hold (c : Equation) (hc : c ∈ s.equations) :
      c.AllVars (Accounted (k.after R s) (us ++ k.unseen s)) :=
    ⟨fun x hx => ((h c hc).1 x hx).mono (le_nextFresh_after R s k),
      fun x hx => ((h c hc).2 x hx).mono (le_nextFresh_after R s k)⟩
  have hway : Expr.HoldsOfRenamed (Accounted (k.after R s) (us ++ k.unseen s)) :=
    fun _ _ hy => .inl (hy.below _)
  intro c hc
  cases k with
  | add cs =>
    rcases mem_add hc with hc | ⟨-, hbelow⟩
    · exact hold c hc
    · exact ⟨fun x hx => .inl (hbelow.1 x hx), fun x hx => .inl (hbelow.2 x hx)⟩
  | remove cs => exact hold c (mem_of_mem_remove hc)
  | clear => cases hc
  | copy => exact hold c ((grows_copy s).1.subset hc)
  | record p => exact hold c hc
  | mint => exact hold c hc
  | instantiate σ =>
    refine allVars_instantiateEach hway (fun a ha x hx => ?_) hold c hc
    by_cases hseen : s.nextFresh < numberAbove 'v' a.subject.vars
    · have hmem : a.subject ∈ (Call.instantiate σ).unseen s :=
        List.mem_filter.2 ⟨List.mem_map_of_mem ha, decide_eq_true hseen⟩
      exact .inr ⟨_, List.mem_append_right _ hmem, hx⟩
    · exact .inl fun n hn => Nat.lt_of_lt_of_le (lt_numberAbove hx hn) (Nat.le_of_not_lt hseen)
  | instantiateSelf => exact allVars_instantiateAt hway hold c hc

/-- **After all calls, too:** only values brought in past the counter can name
a variable that it has not passed. -/
theorem accounted_run (ks : List Call) (h : ∀ c ∈ s.equations, c.AllVars (Accounted s us)) :
    ∀ c ∈ (run R s ks).equations, c.AllVars (Accounted (run R s ks) (us ++ unseen R s ks)) := by
  induction ks generalizing s us with
  | nil => simpa only [run, unseen, List.append_nil] using h
  | cons k ks ih =>
    rw [run, unseen, ← List.append_assoc]
    exact ih (accounted_after h)

/-- **What is minted is unused.**  After any calls, the variable that a set of
equations mints next has a name that no variable minted before has, and every
variable of that name in a pattern or a subject, bound or free, ordinary or an
unknown, stands in a value that patterns were instantiated by although the
counter had not passed its variables. -/
theorem mint_unused (R : Reserved) (cs : List Equation) (calls : List Call) :
    let s := run R (ofList cs) calls
    (∀ x ∈ minted R (ofList cs) calls, x.name ≠ s.mint.1.name) ∧
      ∀ c ∈ s.equations, ∀ x ∈ c.pattern.vars ++ c.subject.vars, x.name = s.mint.1.name →
        ∃ e ∈ unseen R (ofList cs) calls, x ∈ e.vars := by
  intro s
  have hnot {x : Var} (hname : x.name = s.mint.1.name) : ¬x.Below s.nextFresh := by
    intro hbelow
    have hnext : s.mint.1.Below s.nextFresh := fun n hn => hbelow n (hname ▸ hn)
    exact Nat.lt_irrefl _ (below_numberedName.1 hnext)
  have hstart : ∀ c ∈ (ofList cs).equations, c.AllVars (Accounted (ofList cs) []) := by
    intro c hc
    have hbelow := below_add (s := {}) (fun c hc => by cases hc) c hc
    exact ⟨fun x hx => .inl (hbelow.1 x hx), fun x hx => .inl (hbelow.2 x hx)⟩
  refine ⟨fun x hx hname => hnot hname (below_minted hx), fun c hc x hx hname => ?_⟩
  obtain ⟨hpattern, hsubject⟩ := accounted_run calls hstart c hc
  have haccounted := (List.mem_append.1 hx).elim (hpattern x) (hsubject x)
  exact haccounted.resolve_left (hnot hname)

/-- `{(_x, a)}`, instantiated by `{(_x, v0)}`, has `v0` for its pattern and
mints `v0`. -/
theorem mint_in_use :
    let assign (value : String) : EquationSet := ofList [⟨var ⟨"x", true⟩, var ⟨value, false⟩⟩]
    let s := run {} (assign "a") [.instantiate (assign "v0")]
    s.mint.1 = ⟨"v0", false⟩ ∧ s.equations = [⟨var ⟨"v0", false⟩, var ⟨"a", false⟩⟩] ∧
      ∃ c ∈ s.equations, s.mint.1 ∈ c.pattern.vars := by
  intro assign s
  have hmint : s.mint.1 = ⟨"v0", false⟩ := by cbv
  have hs : s.equations = [⟨var ⟨"v0", false⟩, var ⟨"a", false⟩⟩] := by cbv
  refine ⟨hmint, hs, _, hs ▸ List.mem_cons_self, ?_⟩
  rw [hmint]
  exact List.mem_cons_self

end EquationSet
end SecondOrder
