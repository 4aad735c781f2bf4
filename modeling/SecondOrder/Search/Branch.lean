/-
# Branching on an unknown function

When an unknown function is applied to arguments, the search tries the possible
shapes of its value one after another: the constant function if the subject is
atomic, the projection on each argument, and the imitation of the subject if it
is compound.  Every shape is tried in a copy of the search, with parameters
minted there and, for an imitation, temporary unknowns minted after them.

The temporaries are no part of the answer.  `Cleanup` substitutes them away
from the solutions found in the branch, and drops a solution that then violates
an exclusion of the search that branched.
-/

import SecondOrder.Lambda.Guess
import SecondOrder.Search.Run

namespace SecondOrder

/-- A shape for the value of an unknown function. -/
inductive Guess where
  | constant
  /-- The projection on the argument with the given number. -/
  | projection (i : Nat)
  | imitation
deriving DecidableEq, Inhabited

/-- The guesses for `arity` arguments and the given subject, in the order in
which they are tried. -/
def Guess.all (arity : Nat) (subject : Expr) : List Guess :=
  if subject.isCompound then (List.range arity).map projection ++ [imitation]
  else constant :: (List.range arity).map projection

/-- A search with a guess carried out, and the temporary unknowns of the
guess. -/
structure Branch where
  search : Search
  temporaries : List Expr := []

namespace Equation

/-- The unknown that the pattern applies, with the number of its arguments
after the first, if it applies one to any. -/
def unknownHead? (c : Equation) : Option (Expr × Nat) :=
  match c.pattern with
  | .app _ (h :: _ :: as) => if h.isMarked then some (h, as.length) else none
  | _ => none

end Equation

namespace Search

/-- A copy of the search one branch point further down. -/
def deeper (s : Search) : Search := { s.clone with depth := s.depth + 1, solvable := none }

/-- The guesses to try for `c`.  None is left when the pattern applies no
unknown, and it is refused to go deeper than the limit. -/
def guesses (s : Search) (c : Equation) : Except Fault (List Guess) :=
  match c.unknownHead? with
  | none => .ok []
  | some (_, n) => match s.limit with
    | some limit =>
      if limit < s.depth + 1 then .error (.depthExceeded (s.depth + 1) limit)
      else .ok (Guess.all (n + 1) c.subject)
    | none => .ok (Guess.all (n + 1) c.subject)

/-- The value that a guess gives an unknown function of `n + 1` arguments whose
result should be `subject`, with the temporaries in it and the set that minted
its variables. -/
def guessed (R : Reserved) (pending : EquationSet) (n : Nat) (subject : Expr) (g : Guess) :
    Except Fault (Expr × List Expr × EquationSet) :=
  let (xs, pending) := pending.mintBinders n
  match g with
  | .constant => .ok (R.constantFn xs subject, [], pending)
  | .projection i => .ok (R.projectionFn xs (xs.toList.getD i xs.first), [], pending)
  | .imitation => do
    let (ts, pending) := pending.mintBinders (Reserved.temporaryCount subject - 1)
    let temporaries := ts.toList.map fun t => (Expr.var t).setMark true
    return (← R.imitationFn xs subject temporaries, temporaries, pending)

/-- The branch of a guess, unless the guess violates an exclusion at once. -/
def branch? (R : Reserved) (s : Search) (c : Equation) (g : Guess) :
    Except Fault (Option Branch) := do
  match c.unknownHead? with
  | none => return none
  | some (h, n) =>
    let t := s.deeper
    let (value, temporaries, pending) ← guessed R t.pending n c.subject g
    match { t with pending }.assign R ⟨h, value⟩ with
    | ⟨_, .error fault⟩ => throw fault
    | ⟨t, .ok true⟩ => return some ⟨t, temporaries⟩
    | ⟨_, .ok false⟩ => return none

end Search

/-- Temporary unknowns to be substituted away, and the exclusions that a
solution has to respect afterwards. -/
structure Cleanup where
  temporaries : List Expr
  exclusions : List Exclusion

namespace Cleanup

/-- The solution without its assignment to `t`, which is applied to the values
of the other assignments. -/
def substituteAway (R : Reserved) (σ : EquationSet) (t : Expr) : Except Fault EquationSet :=
  match σ.find? fun c => c.pattern == t with
  | none => .ok σ
  | some a => do
    let σ := σ.remove [a]
    let cs ← σ.equations.mapM fun c => do return { c with subject := ← a.apply R c.subject }
    return { σ with equations := cs }

/-- The solution without its temporaries, unless it violates an exclusion. -/
def apply (R : Reserved) (k : Cleanup) (σ : EquationSet) : Except Fault (Option EquationSet) := do
  let σ ← k.temporaries.foldlM (substituteAway R) σ
  return if k.exclusions.all σ.respects then some σ else none

/-- Several cleanups in order, up to the first that drops the solution. -/
def applyAll (R : Reserved) : List Cleanup → EquationSet → Except Fault (Option EquationSet)
  | [], σ => .ok (some σ)
  | k :: ks, σ => do
    match ← k.apply R σ with
    | none => return none
    | some σ => applyAll R ks σ

end Cleanup

/-- The cleanup that a branch of `s` needs, if it has temporaries. -/
def Branch.cleanups (b : Branch) (s : Search) : List Cleanup :=
  if b.temporaries.isEmpty then [] else [⟨b.temporaries, s.pending.exclusions⟩]

end SecondOrder
