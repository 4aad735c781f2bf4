/-
# Sets that are functions

A set of equations gives every unknown at most one value if its patterns are
unknowns, no two of them the same (`EquationSet.Unambiguous`).  That is to say
that there is no repetition in it and the pattern of every equation, looked up,
has the value that the equation gives it
(`EquationSet.unambiguous_iff_lookup?`).

`EquationSet.isFunction` asks for more.  It tells unknowns apart by their names
alone, and a variable and a symbol, or symbols of two namespaces, may have one
name (`Expr.Namesakes`).  So it is true of the unambiguous sets without
namesakes (`EquationSet.isFunction_iff`).
-/

import Mathlib
import SecondOrder.Proofs.Search.Branching

namespace SecondOrder

open SecondOrder.Expr

/-- Different nodes of one name. -/
def Expr.Namesakes (a b : Expr) : Prop := a.name? = b.name? ∧ (a == b) = false

namespace EquationSet

variable {s : EquationSet} {c d : Equation}

/-- The patterns are unknowns, and no two of them are the same. -/
structure Unambiguous (s : EquationSet) : Prop where
  assignments : ∀ c ∈ s.equations, c.pattern.isMarked = true
  once : s.equations.Pairwise fun c d => (c.pattern == d.pattern) = false

/-- Unknowns are looked up by equality. -/
theorem beq_pattern_iff (hm : ∀ c ∈ s.equations, c.pattern.isMarked = true) (hd : d ∈ s.equations) :
    (c.pattern == d.pattern) = true ↔ c.pattern = d.pattern :=
  beq_name_iff (isName_of_isMarked (hm d hd))

/-- A set that can be looked up in assigns to no unknown twice. -/
theorem Unambiguous.nodup (h : s.Unambiguous) : (s.equations.map Equation.pattern).Nodup := by
  refine List.pairwise_map.2 (h.once.imp_of_mem fun {c d} _ hd hne heq => ?_)
  rw [(beq_pattern_iff h.assignments hd).2 heq] at hne
  cases hne

/-- Conversely it is enough that its patterns are different unknowns. -/
theorem unambiguous_of_nodup (hm : ∀ c ∈ s.equations, c.pattern.isMarked = true)
    (h : (s.equations.map Equation.pattern).Nodup) : s.Unambiguous := by
  refine ⟨hm, (List.pairwise_map.1 h).imp_of_mem fun {c d} _ hd hne => Bool.eq_false_iff.2 fun heq => ?_⟩
  exact hne ((beq_pattern_iff hm hd).1 heq)

/-- **Functions are the unambiguous sets without namesakes.** -/
theorem isFunction_iff : s.isFunction = true ↔
    s.Unambiguous ∧ ∀ c ∈ s.equations, ∀ d ∈ s.equations, ¬Namesakes c.pattern d.pattern := by
  rw [isFunction, Bool.and_eq_true, List.all_eq_true, decide_eq_true_eq]
  constructor
  · rintro ⟨hm, hnames⟩
    refine ⟨unambiguous_of_nodup hm (.of_map name? (by rwa [List.map_map])), fun c hc d hd hsame => ?_⟩
    obtain rfl : c = d := List.inj_on_of_nodup_map hnames hc hd hsame.1
    exact Bool.false_ne_true (hsame.2.symm.trans ((beq_pattern_iff hm hd).2 rfl))
  · rintro ⟨h, hnone⟩
    refine ⟨h.assignments, List.pairwise_map.2 (h.once.imp_of_mem fun {c d} hc hd hne hname => ?_)⟩
    exact hnone c hc d hd ⟨hname, hne⟩

/-- To look up what an equation of an unambiguous set assigns finds its
value. -/
theorem Unambiguous.lookup? (h : s.Unambiguous) (hc : c ∈ s.equations) :
    s.lookup? c.pattern = some c.subject := by
  rw [EquationSet.lookup?, find?, find?_of_distinct h.nodup hc (h.assignments c hc)]
  rfl

/-- **A set without repetition is unambiguous if every equation assigns what
its pattern finds.** -/
theorem unambiguous_iff_lookup? : s.Unambiguous ↔ Distinct s.equations ∧
    (∀ c ∈ s.equations, c.pattern.isMarked = true) ∧
      ∀ c ∈ s.equations, s.lookup? c.pattern = some c.subject := by
  constructor
  · exact fun h => ⟨Search.distinct_of_nodup h.nodup h.assignments, h.assignments, fun c hc => h.lookup? hc⟩
  · rintro ⟨hs, hm, hlookup⟩
    refine ⟨hm, List.Pairwise.imp_of_mem (fun {c d} hc hd hne => Bool.eq_false_iff.2 fun heq => ?_) hs⟩
    have hpattern := (beq_pattern_iff hm hd).1 heq
    have hsubject : c.subject = d.subject :=
      Option.some.inj ((hlookup c hc).symm.trans (hpattern ▸ hlookup d hd))
    have hcd : c = d := by
      obtain ⟨p, e⟩ := c
      obtain ⟨q, f⟩ := d
      exact congrArg₂ Equation.mk hpattern hsubject
    rw [hcd, Equation.beq_refl] at hne
    cases hne

end EquationSet
end SecondOrder
