/-
# How much a search has to treat

The weight of a search is the number of nodes in the subjects of its pending
equations.  To exchange bound variables keeps it, and the pieces of an equation
weigh less than the equation.  So every step that goes on takes weight off
(`Advance.weight_lt`), unless it contracts a redex.

All this is told of any patterns and subjects.
-/

import Mathlib
import SecondOrder.Proofs.Expr.Inversion
import SecondOrder.Proofs.Expr.Similar
import SecondOrder.Proofs.Search.Retry

namespace SecondOrder

namespace Expr

variable {env : List (Var × Var)} {a b e q : Expr} {x y : Var}

/-- Lists of arguments that are equal up to bound names have as many nodes, if
that is known of each argument. -/
theorem length_nodesAll_of_alphaInAll {as bs : List Expr}
    (h : ∀ a ∈ as, ∀ b, alphaIn env a b = true → a.nodes.length = b.nodes.length)
    (hs : alphaInAll env as bs = true) : (nodesAll as).length = (nodesAll bs).length := by
  have hmap : (bs.map fun b => b.nodes.length) = as.map fun a => a.nodes.length :=
    map_eq_of_forall₂ (forall₂_imp_of_mem (alphaInAll_iff.1 hs) fun a ha b _ hab => (h a ha b hab).symm)
  rw [nodesAll_eq_flatMap, nodesAll_eq_flatMap, List.length_flatMap, List.length_flatMap, hmap]

/-- Expressions that are equal up to bound names have as many nodes. -/
theorem length_nodes_of_alphaIn (h : alphaIn env a b = true) : a.nodes.length = b.nodes.length := by
  induction a generalizing env b with
  | app f as hf has =>
    cases b with
    | app g bs =>
      rw [alphaIn, Bool.and_eq_true] at h
      rw [nodes, nodes, List.length_cons, List.length_cons, List.length_append, List.length_append,
        hf h.1, length_nodesAll_of_alphaInAll (fun a ha b => has a ha) h.2]
    | _ => cases h
  | bind f xs c ih =>
    cases b with
    | bind g ys d =>
      rw [alphaIn, Bool.and_eq_true, Bool.and_eq_true, beq_iff_eq, beq_iff_eq] at h
      obtain ⟨⟨-, hlen⟩, h⟩ := h
      have hlen : xs.toList.length = ys.toList.length := hlen
      rw [nodes, nodes, List.length_cons, List.length_cons, List.length_cons, List.length_cons,
        List.length_append, List.length_append, List.length_map, List.length_map, hlen, ih h]
    | _ => cases h
  | _ => cases b <;> first | rfl | cases h

/-- Every expression has a node. -/
theorem length_nodes_pos (e : Expr) : 0 < e.nodes.length := by
  cases e <;> exact Nat.succ_pos _

/-- What keeps the number of nodes in each argument keeps it in all of them. -/
theorem length_nodesAll_eq {as bs : List Expr} {P : Expr → Expr → Prop}
    (h : ∀ a ∈ as, ∀ b, P a b → b.nodes.length = a.nodes.length) (hs : List.Forall₂ P as bs) :
    (nodesAll bs).length = (nodesAll as).length := by
  induction hs with
  | nil => rfl
  | cons first _ ih =>
    rw [List.forall_mem_cons] at h
    rw [nodesAll, nodesAll, List.length_append, List.length_append, h.1 _ first, ih h.2]

/-- A renaming keeps the number of nodes. -/
theorem length_nodes_rename (e : Expr) (x y : Var) :
    (e.rename x y).nodes.length = e.nodes.length := by
  induction e with
  | app f as ihf ihas =>
    have hall : List.Forall₂ (fun a b => b = a.rename x y) as (as.map (rename x y)) :=
      List.forall₂_map_right_iff.2 (List.forall₂_same.2 fun _ _ => rfl)
    have hargs := length_nodesAll_eq (fun a ha b (hb : b = a.rename x y) => hb ▸ ihas a ha) hall
    rw [rename, renameAll_eq_map, nodes, nodes, List.length_cons, List.length_cons, List.length_append,
      List.length_append, ihf, hargs]
  | bind f xs b ih =>
    have hlen : (xs.rename x y).toList.length = xs.toList.length := Binders.length_rename ..
    rw [rename, nodes, nodes, List.length_cons, List.length_cons, List.length_cons, List.length_cons,
      List.length_append, List.length_append, List.length_map, List.length_map, hlen, ih]
  | _ => rfl

/-- To put a variable in the place of another keeps the number of nodes,
whatever gives way. -/
theorem length_nodes_subst (h : e.subst (var x) (var y) = .ok q) :
    q.nodes.length = e.nodes.length := by
  induction e using sizedInduct generalizing q with
  | atom e he =>
    rw [subst_atom he] at h
    cases h
    split
    · cases e with
      | app | bind => cases he
      | _ => rfl
    · rfl
  | app f as ihf ihas =>
    obtain ⟨f', as', hf, has, rfl⟩ := of_subst_app h
    rw [nodes, nodes, List.length_cons, List.length_cons, List.length_append, List.length_append, ihf hf,
      length_nodesAll_eq (fun a ha b => ihas a ha) has]
  | bind f xs b ih =>
    have hbind {ys : Binders} {c : Expr} (hys : ys.length = xs.length)
        (hc : c.nodes.length = b.nodes.length) :
        (bind f ys c).nodes.length = (bind f xs b).nodes.length := by
      have hys : ys.toList.length = xs.toList.length := hys
      rw [nodes, nodes, List.length_cons, List.length_cons, List.length_cons, List.length_cons,
        List.length_append, List.length_append, List.length_map, List.length_map, hys, hc]
    rcases of_subst_bind h with ⟨u, w, c, -, -, -, hc, rfl⟩ | ⟨-, ys, c, d, hc, hd, rfl⟩
    · exact hbind (Binders.length_rename ..) (ih b rfl hc)
    · obtain ⟨hrenamed, hys, -⟩ := of_clearOf (P := fun e => e.nodes.length = b.nodes.length)
        (fun u _ w e _ _ he => (length_nodes_rename e u w).trans he) rfl hc
      exact hbind hys ((ih c (size_of_clearOf hc) hd).trans hrenamed)

/-- So does the exchange of a bound variable for another. -/
theorem length_nodes_alphaConvert (h : e.alphaConvert (var x) (var y) = .ok q) :
    q.nodes.length = e.nodes.length := by
  obtain ⟨f, xs, b, c, rfl, -, hc, rfl⟩ := of_alphaConvert h
  have hlen : (xs.rename x y).toList.length = xs.toList.length := Binders.length_rename ..
  rw [nodes, nodes, List.length_cons, List.length_cons, List.length_cons, List.length_cons,
    List.length_append, List.length_append, List.length_map, List.length_map, hlen, length_nodes_subst hc]

end Expr

namespace Equation

open SecondOrder.Expr

variable {R : Reserved} {c d : Equation} {s Q : EquationSet}

/-- The number of nodes of the subject. -/
def weight (c : Equation) : Nat := c.subject.nodes.length

/-- The weight of several equations. -/
def weightAll (cs : List Equation) : Nat := (cs.map weight).sum

/-- The weights of two lists of equations are added. -/
theorem weightAll_append (cs ds : List Equation) :
    weightAll (cs ++ ds) = weightAll cs + weightAll ds := by
  rw [weightAll, List.map_append, List.sum_append]
  rfl

/-- The weight of a list is that of its first equation and of the rest. -/
theorem weightAll_cons (c : Equation) (cs : List Equation) :
    weightAll (c :: cs) = c.weight + weightAll cs := by
  rw [weightAll, List.map_cons, List.sum_cons]
  rfl

/-- To leave equations out makes nothing heavier. -/
theorem weightAll_le_of_sublist {cs ds : List Equation} (h : ds.Sublist cs) :
    weightAll ds ≤ weightAll cs := by
  induction h with
  | slnil => exact Nat.le_refl _
  | cons c _ ih =>
    rw [weightAll_cons]
    exact Nat.le_trans ih (Nat.le_add_left ..)
  | cons_cons c _ ih =>
    rw [weightAll_cons, weightAll_cons]
    exact Nat.add_le_add_left ih _

/-- The subjects of applications that decompose are shared out among the
pieces, -/
theorem weightAll_zipWith_le (ps es : List Expr) :
    weightAll (List.zipWith mk ps es) ≤ (nodesAll es).length := by
  induction ps generalizing es with
  | nil => exact Nat.zero_le _
  | cons p ps ih => cases es with
    | nil => exact Nat.zero_le _
    | cons e es =>
      rw [List.zipWith_cons_cons, weightAll_cons, nodesAll, List.length_append]
      exact Nat.add_le_add_left (ih es) _

/-- the slots of bindings weigh one each at most, for they are variables, -/
theorem weightAll_zipWith_var (xs ys : List Var) :
    weightAll (List.zipWith (fun x y => ⟨.var x, .var y⟩) xs ys) ≤ ys.length := by
  induction xs generalizing ys with
  | nil => exact Nat.zero_le _
  | cons x xs ih => cases ys with
    | nil => exact Nat.zero_le _
    | cons y ys =>
      rw [List.zipWith_cons_cons, weightAll_cons, List.length_cons, Nat.add_comm]
      exact Nat.add_le_add_right (ih ys) 1

/-- and so are those of bindings: the pieces weigh less than the equation. -/
theorem weightAll_pieces (c : Equation) : weightAll c.pieces < c.weight := by
  obtain ⟨p, e⟩ := c
  rw [pieces]
  split
  · next g bs hp he =>
    subst he
    refine Nat.lt_of_le_of_lt (weightAll_zipWith_le ..) ?_
    rw [weight, nodes, List.length_cons, nodesAll]
    exact Nat.lt_succ_self _
  · next xs b g ys d hp he =>
    subst he
    have hslots := weightAll_zipWith_var xs.toList ys.toList
    have hbody : weightAll [⟨b, d⟩] = d.nodes.length := Nat.add_zero _
    rw [weightAll_append, hbody, weight, nodes, List.length_cons, List.length_cons,
      List.length_append, List.length_map]
    omega
  · exact length_nodes_pos _

/-- Assignments do not change the subjects. -/
theorem weightAll_of_subjects {cs ds : List Equation}
    (h : List.Forall₂ (fun c d => d.subject = c.subject) cs ds) : weightAll ds = weightAll cs := by
  induction h with
  | nil => rfl
  | cons first _ ih => rw [weightAll_cons, weightAll_cons, ih, weight, weight, first]

/-- Equations that are similar weigh the same. -/
theorem weight_of_same (h : (c == d) = true) : c.weight = d.weight := by
  have h : (c.pattern.similar d.pattern && c.subject.similar d.subject) = true := h
  rw [Bool.and_eq_true] at h
  exact length_nodes_of_alphaIn (similar_iff_alphaEq.1 h.2)

/-- Alignment keeps the weight, as it only exchanges bound variables. -/
theorem weight_align (h : c.align s = ⟨Q, .ok d⟩) : d.weight = c.weight := by
  refine of_align (P := fun _ e => e.weight = c.weight) (fun _ i e e' he he' => ?_) rfl h
  rcases of_renameSlot he' with rfl | ⟨u, v, -, hsubject⟩
  · exact he
  · exact (length_nodes_alphaConvert hsubject).trans he

end Equation

namespace Search

open SecondOrder.Expr Equation

variable {R : Reserved} {s t : Search} {c : Equation}

/-- How much there is to treat. -/
def weight (s : Search) : Nat := weightAll s.pending.equations

/-- To drop an equation takes its weight off. -/
theorem weight_drop (hc : c ∈ s.pending.equations) : (s.drop c).weight + c.weight = s.weight := by
  obtain ⟨d, cs, ds, -, hdc, heqs, herase⟩ :=
    List.exists_of_eraseP (p := (· == c)) hc (Equation.beq_refl c)
  have hdrop : (s.drop c).weight = weightAll (cs ++ ds) := congrArg weightAll herase
  rw [hdrop, weight, heqs, weightAll_append, weightAll_append, weightAll_cons, weight_of_same hdc]
  omega

/-- **A step takes weight off,** unless it contracts a redex. -/
theorem Advance.weight_lt (hc : c ∈ s.pending.equations) (h : Advance R s c t)
    (hflex : c.pattern.isRedex R = false) : t.weight < s.weight := by
  have hdrop := weight_drop hc
  have hpos : 0 < c.weight := length_nodes_pos _
  have haligned {P : EquationSet} {d : Equation} (ha : c.align (s.drop c).pending = ⟨P, .ok d⟩) :
      weightAll P.equations = (s.drop c).weight :=
    congrArg weightAll (equations_of_align ha)
  cases h with
  | trivial => omega
  | assign _ assigned =>
    obtain ⟨σ, rest, ds, -, hds, -, rfl⟩ := assign_ok assigned
    have hsame : weightAll ds = (s.drop c).weight :=
      weightAll_of_subjects ((EquationSet.instantiatePatterns_eq_ok.1 hds).imp fun _ _ => And.right)
    change weightAll ds < s.weight
    omega
  | @align P d _ aligned =>
    have hsame := haligned aligned
    change weightAll P.equations < s.weight
    omega
  | @decompose P d _ aligned _ =>
    have hsame := haligned aligned
    obtain ⟨ds, hds, heqs, -⟩ := (EquationSet.grows_add P d.pieces).equations
    have hpieces := Nat.lt_of_le_of_lt (weightAll_le_of_sublist hds) (weightAll_pieces d)
    rw [weight_align aligned] at hpieces
    change weightAll (P.add d.pieces).equations < s.weight
    rw [heqs, weightAll_append]
    omega
  | contract _ redex => exact absurd (hflex.symm.trans redex) Bool.false_ne_true

end Search
end SecondOrder
