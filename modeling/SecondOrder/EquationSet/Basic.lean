/-
# Sets of equations

A set holds equations without repetition, in the order of their arrival, a
counter for the variables `v<N>` it mints, and exclusions.  An exclusion says
that the value of one unknown must not contain the value of another variable
free; it is derived from a binding in a pattern, whose variables no unknown
inside may name, and it is never taken back.

`add` skips what is there already, moves the counter past every `v<N>` that a
new equation brings in, and then derives the exclusions of all patterns.
-/

import SecondOrder.Equation

namespace SecondOrder

/-- The value of the unknown `inner` must not contain the value of `outer`
free. -/
structure Exclusion where
  inner : Expr
  outer : Var
deriving BEq, Inhabited

structure EquationSet where
  equations : List Equation := []
  nextFresh : Nat := 0
  exclusions : List Exclusion := []
deriving Inhabited

namespace EquationSet

/-- The number of equations. -/
def size (s : EquationSet) : Nat := s.equations.length

/-- Whether an equation that is the same as `c` is in the set. -/
def contains (s : EquationSet) (c : Equation) : Bool := s.equations.any (· == c)

/-- Each set contains the equations of the other. -/
def same (s t : EquationSet) : Bool := s.equations.all t.contains && t.equations.all s.contains

instance : BEq EquationSet := ⟨same⟩

/-- A variable that the set has not minted before, above every `v<N>` that
its equations brought in. -/
def mint (s : EquationSet) : Var × EquationSet :=
  (⟨numberedName 'v' s.nextFresh, false⟩, { s with nextFresh := s.nextFresh + 1 })

/-- One minted variable and `n` more. -/
def mintBinders (s : EquationSet) (n : Nat) : Binders × EquationSet :=
  (⟨⟨numberedName 'v' s.nextFresh, false⟩,
    (List.range n).map fun i => ⟨numberedName 'v' (s.nextFresh + 1 + i), false⟩⟩,
    { s with nextFresh := s.nextFresh + 1 + n })

/-- The counter past every `v<N>` among the variables of `c`. -/
def passVars (next : Nat) (c : Equation) : Nat :=
  max next (numberAbove 'v' (c.pattern.vars ++ c.subject.vars))

/-- Adds an exclusion unless it is there already. -/
def addExclusion (xs : List Exclusion) (x : Exclusion) : List Exclusion :=
  if xs.contains x then xs else xs ++ [x]

/-- The exclusions of a pattern: for every binding in it, no unknown that
occurs free in the binding may take a value that contains one of its variables
free. -/
def exclusionsOf (pattern : Expr) : List Exclusion :=
  pattern.nodes.flatMap fun
    | .bind f xs b =>
        (Expr.bind f xs b).freeUnknowns.flatMap fun u => xs.toList.map fun x => ⟨u, x⟩
    | _ => []

/-- Records the exclusions of a pattern. -/
def record (s : EquationSet) (pattern : Expr) : EquationSet :=
  { s with exclusions := (exclusionsOf pattern).foldl addExclusion s.exclusions }

/-- Records the exclusions of all patterns. -/
def recordAll (s : EquationSet) : EquationSet := s.equations.foldl (fun s c => s.record c.pattern) s

/-- Appends an equation unless the set contains it. -/
def insert (s : EquationSet) (c : Equation) : EquationSet :=
  if s.contains c then s
  else { s with equations := s.equations ++ [c], nextFresh := passVars s.nextFresh c }

/-- Adds equations in order and records the exclusions of all patterns. -/
def add (s : EquationSet) (cs : List Equation) : EquationSet := (cs.foldl insert s).recordAll

/-- The set of the given equations. -/
def ofList (cs : List Equation) : EquationSet := add {} cs

/-- The equations without the first that is the same as `c`. -/
def eraseFirst (c : Equation) (cs : List Equation) : List Equation := cs.eraseP (· == c)

/-- Removes equations in order.  Counter and exclusions stay. -/
def remove (s : EquationSet) (cs : List Equation) : EquationSet :=
  { s with equations := cs.foldl (fun ds c => eraseFirst c ds) s.equations }

/-- Drops all equations.  Counter and exclusions stay. -/
def clear (s : EquationSet) : EquationSet := { s with equations := [] }

/-- The set built anew from its equations, with the same counter and the same
exclusions. -/
def copy (s : EquationSet) : EquationSet := { ofList s.equations with
  nextFresh := s.nextFresh
  exclusions := s.exclusions }

/-- The place of the first equation that satisfies `p`. -/
def findIdx? (s : EquationSet) (p : Equation → Bool) : Option Nat := s.equations.findIdx? p

/-- The first equation that satisfies `p`. -/
def find? (s : EquationSet) (p : Equation → Bool) : Option Equation := s.equations.find? p

/-- The first two equations at different places that satisfy `p`, in the order
of the first and then of the second. -/
def findPair? (s : EquationSet) (p : Equation → Equation → Bool) : Option (Equation × Equation) :=
  s.equations.zipIdx.findSome? fun (c, i) =>
    s.equations.zipIdx.findSome? fun (d, j) => if i ≠ j && p c d then some (c, d) else none

/-- The equation to treat next: the first one whose rule comes first in the
order in which rules are tried. -/
def best? (R : Reserved) (s : EquationSet) : Option Equation :=
  Rule.priority.findSome? fun rule => s.find? fun c => c.rule R = rule

/-- Whether all equations are assignments, no two of them to unknowns of one
name. -/
def isFunction (s : EquationSet) : Bool :=
  s.equations.all Equation.isAssignment
    && decide ((s.equations.map fun c => c.pattern.name?).Nodup)

/-- The value that the first equation with pattern `e` gives it. -/
def lookup? (s : EquationSet) (e : Expr) : Option Expr :=
  (s.find? fun c => c.pattern == e).map Equation.subject

/-- The value of the unknown variable of the given name. -/
def lookupName? (s : EquationSet) (name : String) : Option Expr := s.lookup? (.var ⟨name, true⟩)

/-- Whether the assignments of `s` respect an exclusion.  An unknown without a
value restricts nothing. -/
def respects (s : EquationSet) (x : Exclusion) : Bool :=
  match s.lookup? x.inner with
  | none => true
  | some inner =>
    match if x.outer.marked then s.lookup? (.var x.outer) else some (.var x.outer) with
    | none => true
    | some outer => !Expr.occursFree outer inner

/-- The compact form. -/
def text (s : EquationSet) : String := "\x7b" ++ joined ", " (s.equations.map Equation.text) ++ "\x7d"

/-- The long form. -/
def termText (s : EquationSet) : String :=
  "ConstraintList(" ++ joined ", " (s.equations.map Equation.termText) ++ ")"

end EquationSet
end SecondOrder
