/-
# Solutions one at a time

A stream yields the solutions of a search in the order of `Search.solve`, and
goes on searching only when the next one is asked for.  It works on copies and
keeps the branches still to be searched on a stack, each with the cleanups that
its solutions need, the innermost first.
-/

import SecondOrder.Search.Solve

namespace SecondOrder

structure Stream where
  /-- The searches to be continued, the next one first. -/
  stack : List (Search × List Cleanup)

/-- The stream of the solutions of a search.  A search without a solution gives
the empty stream. -/
def Search.stream (R : Reserved) (s : Search) : Except Fault Stream := do
  if s.solvable = some false then return ⟨[]⟩
  let root := s.clone
  if 1 < root.solutions.length then return ⟨(← root.forks R).map (·, [])⟩
  else return ⟨[(root, [])]⟩

/-- The branches of `s` for all guesses, with the cleanups that their solutions
need beyond `cleanups`. -/
def Search.branches (R : Reserved) (s : Search) (c : Equation) (cleanups : List Cleanup) :
    Except Fault (List (Search × List Cleanup)) := do
  let found ← (← s.guesses c).mapM (s.branch? R c)
  return found.reduceOption.map fun b => (b.search, b.cleanups s ++ cleanups)

namespace Stream

/-- The next solution and the rest of the stream, or nothing at its end. -/
def next? (R : Reserved) : Nat → Stream → Option (Except Fault (Option (EquationSet × Stream)))
  | 0, _ => none
  | _, ⟨[]⟩ => some (.ok none)
  | fuel + 1, ⟨(s, cleanups) :: rest⟩ => match s.run R fuel with
    | none => none
    | some ⟨_, .error fault⟩ => some (.error fault)
    | some ⟨s, .ok none⟩ => match s.solvable, s.solutions with
      | some true, σ :: _ => match Cleanup.applyAll R cleanups σ with
        | .error fault => some (.error fault)
        | .ok none => next? R fuel ⟨rest⟩
        | .ok (some σ) => some (.ok (some (σ, ⟨rest⟩)))
      | _, _ => next? R fuel ⟨rest⟩
    | some ⟨s, .ok (some c)⟩ => match s.branches R c cleanups with
      | .error fault => some (.error fault)
      | .ok branches => next? R fuel ⟨branches ++ rest⟩

/-- All solutions that are left. -/
def toList (R : Reserved) : Nat → Stream → Option (Except Fault (List EquationSet))
  | 0, _ => none
  | fuel + 1, t => match t.next? R fuel with
    | none => none
    | some (.error fault) => some (.error fault)
    | some (.ok none) => some (.ok [])
    | some (.ok (some (σ, t))) => (toList R fuel t).map fun r => r.map (σ :: ·)

end Stream
end SecondOrder
