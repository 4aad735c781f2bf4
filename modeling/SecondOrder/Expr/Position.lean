/-
# Positions

A position is a path of part numbers from the root.  In an application the
parts are the head and the arguments; in a binding part `0` is the head, parts
`1` to `k` are the binder slots and part `k + 1` is the body.

`walk` lists every node with its path, `at?` reads the node at a path and
`replaceAt` exchanges it, as long as a head slot keeps a symbol and a binder
slot a variable.  `bindersAlong` and `isBinderSlot` decide by the path alone
whether the node at it is free (`isFreeAt`), and a walk that asks this of every
path finds the free variables (`freeVarsOnWalk`) and free copies of an
expression (`occursOnWalk`).

A caller may count a step from the end by a negative number; `resolve` turns
such steps into a path.
-/

import SecondOrder.Expr.Freeness
import SecondOrder.Fault

namespace SecondOrder

/-- Part numbers from the root down. -/
abbrev Path := List Nat

namespace Expr

mutual

/-- Every node with its path, in the order of `nodes`. -/
def walk : Expr → List (Path × Expr)
  | app f as => ([], app f as) :: (under 0 (walk f) ++ walkAll 1 as)
  | bind f xs b => ([], bind f xs b) :: ([0], sym f)
      :: (xs.toList.zipIdx.map (fun (x, i) => ([i + 1], var x)) ++ under (xs.length + 1) (walk b))
  | e => [([], e)]

/-- The nodes of neighbouring parts, of which the first has number `i`. -/
def walkAll (i : Nat) : List Expr → List (Path × Expr)
  | [] => []
  | a :: as => under i (walk a) ++ walkAll (i + 1) as

/-- Paths inside part `i` become paths from the node above. -/
def under (i : Nat) (ps : List (Path × Expr)) : List (Path × Expr) :=
  ps.map fun p => (i :: p.1, p.2)

end

/-- A step further out leads to the same nodes. -/
theorem map_snd_under (i : Nat) (ps : List (Path × Expr)) :
    (under i ps).map Prod.snd = ps.map Prod.snd := by
  rw [under, List.map_map]
  rfl

/-- The walk of arguments visits their nodes, if the walks of each do. -/
theorem map_snd_walkAll {as : List Expr} (h : ∀ a ∈ as, (walk a).map Prod.snd = nodes a) (i : Nat) :
    (walkAll i as).map Prod.snd = nodesAll as := by
  induction as generalizing i with
  | nil => rfl
  | cons a as ih =>
    rw [walkAll, List.map_append, map_snd_under, h a (List.mem_cons_self ..),
      ih (fun b hb => h b (List.mem_cons_of_mem _ hb)), nodesAll]

/-- **A walk visits the nodes in their order.** -/
theorem map_snd_walk (e : Expr) : e.walk.map Prod.snd = e.nodes := by
  induction e with
  | app f as hf has =>
    rw [walk, List.map_cons, List.map_append, map_snd_under, hf, map_snd_walkAll has, nodes]
  | bind f xs b hb =>
    have hxs : (xs.toList.zipIdx.map fun (x, i) => (([i + 1] : Path), var x)).map Prod.snd
        = xs.toList.map var := by
      rw [List.map_map, ← List.zipIdx_map_fst 0 xs.toList, List.map_map, List.zipIdx_map_fst]
      rfl
    simp only [walk, List.map_cons, List.map_append, map_snd_under, hb, hxs, nodes]
  | _ => rfl

/-- The node at a path. -/
def at? (e : Expr) : Path → Option Expr
  | [] => some e
  | i :: p => match e.parts[i]? with
    | some part => at? part p
    | none => none

/-- Exchanges part `i`, if there is one. -/
def setPart (e : Expr) (i : Nat) (part : Expr) : Except Fault Expr :=
  match e, i with
  | app _ as, 0 => .ok (app part as)
  | app f as, i + 1 => if i < as.length then .ok (app f (as.set i part)) else .error .outOfRange
  | bind _ xs b, 0 => match part with
    | sym f => .ok (bind f xs b)
    | _ => .error (.headNotSymbol part)
  | bind f xs b, i + 1 =>
    if i < xs.length then
      match part with
      | var x => match Binders.ofList? (xs.toList.set i x) with
        | some ys => .ok (bind f ys b)
        | none => .error .emptyBinding
      | _ => .error (.binderNotVariable part)
    else if i = xs.length then .ok (bind f xs part)
    else .error .outOfRange
  | _, _ => .error .outOfRange

/-- Exchanges the node at a path for `new`. -/
def replaceAt (e : Expr) (p : Path) (new : Expr) : Except Fault Expr :=
  match p with
  | [] => .ok new
  | i :: p => match e.parts[i]? with
    | some part => do e.setPart i (← replaceAt part p new)
    | none => .error .outOfRange

/-- Whether step `i` leads from `e` into a binder slot. -/
def isSlotStep (e : Expr) (i : Int) : Bool :=
  match e with
  | bind _ xs _ => decide (1 ≤ i ∧ i ≤ xs.length)
  | _ => false

/-- Whether the path ends in a binder slot. -/
def isBinderSlot (e : Expr) (p : Path) : Bool :=
  p.getLast?.any fun i => (e.at? p.dropLast).any fun parent => parent.isSlotStep i

/-- The variables bound by the bindings on the way down a path, from the
outermost on. -/
def bindersAlong (e : Expr) : Path → List Var
  | [] => []
  | i :: p =>
    (match e with
      | bind _ xs _ => xs.toList
      | _ => [])
    ++ (match e.parts[i]? with
      | some part => bindersAlong part p
      | none => [])

/-- Whether the node at a path stands in no binder slot and is bound by no
binding above it. -/
def isFreeAt (e : Expr) (p : Path) : Bool :=
  !e.isBinderSlot p && !(e.bindersAlong p).any fun x => some (var x) == e.at? p

/-- Appends a variable that is free at its path and has not been found
before. -/
def noteFree (e : Expr) (found : List Var) (q : Path × Expr) : List Var :=
  match q.2 with
  | var x => if e.isFreeAt q.1 && !found.contains x then found ++ [x] else found
  | _ => found

/-- The free variables as a walk finds them. -/
def freeVarsOnWalk (e : Expr) : List Var := e.walk.foldl e.noteFree []

/-- Whether a walk finds a copy of `s` that stands in no binder slot and under
no binding of a free variable of `s`. -/
def occursOnWalk (s e : Expr) : Bool :=
  e.walk.any fun q => q.2 == s && !e.isBinderSlot q.1
    && !s.freeVarsOnWalk.any (e.bindersAlong q.1).contains

/-- The place of step `i` among `n` parts; a negative step counts from the
end. -/
def resolveStep (n : Nat) (i : Int) : Option Nat :=
  if 0 ≤ i ∧ i < n then some i.toNat
  else if i < 0 ∧ 0 ≤ i + n then some (i + n).toNat
  else none

/-- The path that a list of steps leads along, if every step finds a part. -/
def resolve (e : Expr) : List Int → Option Path
  | [] => some []
  | i :: steps => do
    let j ← resolveStep e.parts.length i
    let part ← e.parts[j]?
    let p ← resolve part steps
    return j :: p

/-- Where a list of steps leads: the path, whether its last step as it is
written names a binder slot, the node there, the variables bound on the way and
whether the node is free. -/
structure Place where
  path : Path
  inSlot : Bool
  node : Expr
  binders : List Var
  free : Bool

/-- The place that a list of steps leads to. -/
def place? (e : Expr) (steps : List Int) : Option Place := do
  let path ← e.resolve steps
  let node ← e.at? path
  let inSlot := steps.getLast?.any fun i => (e.at? path.dropLast).any fun parent =>
    parent.isSlotStep i
  return ⟨path, inSlot, node, e.bindersAlong path, e.isFreeAt path⟩

/-- The nodes that satisfy `p`, in the order of `nodes`. -/
def select (p : Expr → Bool) (e : Expr) : List Expr := e.nodes.filter p

end Expr
end SecondOrder
