/-
# The deterministic part of a search

`Search.step` treats the pending equation whose rule comes first.  A clash ends
the search without a solution; an equation with equal sides is dropped; an
assignment is carried out; an equation that decomposes is replaced by its
pieces; a redex is contracted.  An unknown function remains, and there the
search has to branch.

`Search.run` repeats steps until nothing is pending, the search is refuted, an
equation to branch on is reached, or a step is refused.  Contracting a redex
may lead to a larger one, so the number of steps has no bound in general; `run`
takes at most as many as its argument `fuel` says, and an answer does not
depend on it (`run_mono`).
-/

import SecondOrder.Search.Basic

namespace SecondOrder

namespace Equation

/-- Exchanges the variables at place `i` of two bindings for `x`. -/
def renameSlot (c : Equation) (i : Nat) (x : Var) : Except Fault Equation := do
  match c.pattern, c.subject with
  | .bind _ xs _, .bind _ ys _ => match xs.toList[i]?, ys.toList[i]? with
    | some u, some v =>
      let subject ← c.subject.alphaConvert (.var v) (.var x)
      let pattern ← c.pattern.alphaConvert (.var u) (.var x)
      return ⟨pattern, subject⟩
    | _, _ => throw .outOfRange
  | _, _ => return c

/-- Gives the variables at the given places of two bindings variables minted by
`s`, the same on both sides. -/
def renameSlots (s : EquationSet) (c : Equation) : List Nat → Attempt EquationSet Equation
  | [] => ⟨s, .ok c⟩
  | i :: places => match c.renameSlot i s.mint.1 with
    | .error fault => ⟨s.mint.2, .error fault⟩
    | .ok c => renameSlots s.mint.2 c places

/-- The places of the ordinary variables that the pattern binds. -/
def ordinarySlots (c : Equation) : List Nat :=
  match c.pattern, c.subject with
  | .bind _ xs _, .bind .. =>
    xs.toList.zipIdx.filterMap fun (x, i) => if x.marked then none else some i
  | _, _ => []

/-- Gives the ordinary bound variables of two bindings variables minted by `s`,
the same on both sides, and keeps the unknowns inside the pattern from naming
them. -/
def align (s : EquationSet) (c : Equation) : Attempt EquationSet Equation :=
  match c.ordinarySlots with
  | [] => ⟨s, .ok c⟩
  | places => match renameSlots s c places with
    | ⟨s, .ok c⟩ => ⟨s.record c.pattern, .ok c⟩
    | ⟨s, .error fault⟩ => ⟨s, .error fault⟩

end Equation

/-- What a step leads to: a search to go on with, or the end of the
deterministic part.  The end comes with the equation to branch on, unless
solvability is decided. -/
inductive Step where
  | next (s : Search)
  | stop (last : Attempt Search (Option Equation))

namespace Search

/-- The search without a pending equation. -/
def drop (s : Search) (c : Equation) : Search := { s with pending := s.pending.remove [c] }

/-- Treats the pending equation `c` by the rule that fits it. -/
def treat (R : Reserved) (s : Search) (c : Equation) : Step :=
  match c.rule R with
  | .clash => .stop ⟨s.refuted, .ok none⟩
  | .trivial => .next (s.drop c)
  | .assign => match (s.drop c).assign R c with
    | ⟨s, .ok true⟩ => .next s
    | ⟨s, .ok false⟩ => .stop ⟨s, .ok none⟩
    | ⟨s, .error fault⟩ => .stop ⟨s, .error fault⟩
  | .decompose => match c.align (s.drop c).pending with
    | ⟨pending, .error fault⟩ => .stop ⟨{ s with pending }, .error fault⟩
    | ⟨pending, .ok c⟩ => .next { s with
        pending := if c.rule R = .decompose then pending.add c.pieces else pending }
  | .guess =>
    if c.pattern.isRedex R then
      match c.pattern.contract R with
      | .error fault => .stop ⟨s.drop c, .error fault⟩
      | .ok p => .next { s with pending := (s.drop c).pending.add [⟨p, c.subject⟩] }
    else .stop ⟨s, .ok (some c)⟩

/-- One step. -/
def step (R : Reserved) (s : Search) : Step :=
  match s.pending.best? R with
  | none => .stop ⟨{ s with solvable := some true }, .ok none⟩
  | some c => s.treat R c

/-- Repeats steps, at most `fuel` of them; `none` if that is not enough. -/
def steps (R : Reserved) : Nat → Search → Option (Attempt Search (Option Equation))
  | 0, _ => none
  | fuel + 1, s => match s.step R with
    | .next s => steps R fuel s
    | .stop last => some last

/-- The search with a solution under construction. -/
def begun (s : Search) : Search :=
  match s.solutions with
  | [] => { s with solutions := [{}] }
  | _ => s

/-- Runs the deterministic part of a search. -/
def run (R : Reserved) (fuel : Nat) (s : Search) : Option (Attempt Search (Option Equation)) :=
  steps R fuel s.begun

/-- One more unit of fuel is left over. -/
theorem steps_succ {R : Reserved} {fuel : Nat} {s : Search}
    {last : Attempt Search (Option Equation)} (h : steps R fuel s = some last) :
    steps R (fuel + 1) s = some last := by
  induction fuel generalizing s with
  | zero => cases h
  | succ fuel ih =>
    rw [steps] at h ⊢
    split at h
    · exact ih h
    · exact h

/-- **More fuel keeps the answer of a run.** -/
theorem run_mono {R : Reserved} {m n : Nat} {s : Search} {last : Attempt Search (Option Equation)}
    (hmn : m ≤ n) (h : run R m s = some last) : run R n s = some last := by
  induction hmn with
  | refl => exact h
  | step _ ih => exact steps_succ ih

end Search
end SecondOrder
