/-
# Searches

A search holds the equations still to be treated, the solutions found or under
construction, and what is known about solvability.  While it runs it has one
solution under construction; when it has ended it may have any number of them.

`assign` gives an unknown its value: the pending patterns are instantiated, the
assignment joins the solution under construction, and the exclusions of the
pending set are checked.  A violated exclusion ends the search without a
solution.
-/

import SecondOrder.EquationSet.Instantiate

namespace SecondOrder

structure Search where
  /-- The equations still to be treated. -/
  pending : EquationSet := {}
  solutions : List EquationSet := []
  /-- Whether there is a solution, once that is known. -/
  solvable : Option Bool := none
  /-- The number of branch points above. -/
  depth : Nat := 0
  /-- The number of branch points that may be nested, if it is limited. -/
  limit : Option Int := none
deriving Inhabited

namespace Search

/-- Adds an equation.  A single solution is applied to its pattern first; then,
and when there are several solutions, solvability is open again. -/
def add (R : Reserved) (s : Search) (c : Equation) : Except Fault Search := do
  match s.solutions with
  | [] => return { s with pending := s.pending.add [c] }
  | [σ] =>
    let p ← EquationSet.applyAll R σ.equations c.pattern
    return { s with solvable := none, pending := s.pending.add [{ c with pattern := p }] }
  | _ => return { s with solvable := none, pending := s.pending.add [c] }

/-- Adds the equations between pairs of operands in order, up to the first pair
that is refused. -/
def addAll (R : Reserved) (s : Search) : List (Operand × Operand) → Attempt Search Unit
  | [] => ⟨s, .ok ()⟩
  | (p, e) :: pairs => match Equation.ofOperands p e >>= s.add R with
    | .error fault => ⟨s, .error fault⟩
    | .ok t => addAll R t pairs

/-- The search for the given pairs. -/
def ofPairs (R : Reserved) (limit : Option Int) (pairs : List (Operand × Operand)) :
    Except Fault Search :=
  let added := addAll R { limit } pairs
  added.result.map fun _ => added.state

/-- A search for pairs has taken all of them. -/
theorem addAll_of_ofPairs {R : Reserved} {limit : Option Int} {pairs : List (Operand × Operand)}
    {s : Search} (h : ofPairs R limit pairs = .ok s) : addAll R { limit } pairs = ⟨s, .ok ()⟩ := by
  rw [ofPairs] at h
  rcases hadd : addAll R { limit } pairs with ⟨t, fault | _⟩ <;> rw [hadd] at h <;> cases h
  rfl

/-- The search with its sets of equations built anew. -/
def clone (s : Search) : Search :=
  { s with pending := s.pending.copy, solutions := s.solutions.map EquationSet.copy }

/-- Whether a solution respects the exclusions of the pending set. -/
def accepts (s : Search) (σ : EquationSet) : Bool := s.pending.exclusions.all σ.respects

/-- Whether the first solution respects the exclusions of the pending set. -/
def acceptsFirst (s : Search) : Except Fault Bool :=
  match s.solutions with
  | [] => .error .outOfRange
  | σ :: _ => .ok (s.accepts σ)

/-- The search ended without a solution. -/
def refuted (s : Search) : Search := { s with solutions := [], solvable := some false }

/-- Applies the equations of `σ` to the pending patterns. -/
def instantiate (R : Reserved) (s : Search) (σ : EquationSet) : Attempt Search Unit :=
  let instantiated := σ.instantiate R s.pending
  ⟨{ s with pending := instantiated.state }, instantiated.result⟩

/-- Gives an unknown its value and tells whether the first solution, which the
assignment joins, respects the exclusions. -/
def assign (R : Reserved) (s : Search) (c : Equation) : Attempt Search Bool :=
  match s.instantiate R (EquationSet.ofList [c]) with
  | ⟨s, .error fault⟩ => ⟨s, .error fault⟩
  | ⟨s, .ok ()⟩ => match s.solutions with
    | [] => ⟨s, .error .outOfRange⟩
    | σ :: rest =>
      let s := { s with solutions := σ.add [c] :: rest }
      if s.accepts (σ.add [c]) then ⟨s, .ok true⟩ else ⟨s.refuted, .ok false⟩

end Search
end SecondOrder
