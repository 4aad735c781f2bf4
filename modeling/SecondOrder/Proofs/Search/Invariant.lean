/-
# What a search under way keeps

`Search.Open` is the invariant of the deterministic part: patterns are sorted
and subjects ground, the variables of both are below the counter, and an
unknown that has been assigned occurs in no pattern any more.

Carrying out an assignment keeps the invariant or ends the search without a
solution; it is never refused (`Open.assign`).
-/

import SecondOrder.Proofs.Equation.Align
import SecondOrder.Proofs.Equation.Solution
import SecondOrder.Proofs.Search.Advance

namespace SecondOrder

namespace Expr

variable {R : Reserved} {arity : Arity} {p : Expr}

/-- An unknown is similar to no other expression. -/
theorem eq_of_similar_of_isMarked {m e : Expr} (hm : m.isMarked = true)
    (h : e.similar m = true) : e = m := by
  rw [similar, alphaEquivalent, Bool.or_eq_true, Bool.and_eq_true, Bool.and_eq_true] at h
  rcases h with h | ⟨⟨-, h⟩, -⟩
  · exact (beq_name_iff (isName_of_isMarked hm)).1 h
  · cases m <;> first | cases hm | cases h

end Expr

namespace EquationSet

open SecondOrder.Expr

variable {R : Reserved} {arity : Arity} {c : Equation}

/-- The exclusions of a sorted pattern keep ordinary variables out. -/
theorem outer_of_mem_exclusionsOf {p : Expr} (hp : Sorted R arity p) {x : Exclusion}
    (hx : x ∈ exclusionsOf p) : x.outer.marked = false := by
  obtain ⟨f, xs, b, hnode, -, hout⟩ := mem_exclusionsOf.1 hx
  exact Equation.not_isMarked_of_mem_slots hp (mem_slots_of_mem_nodes hnode _ hout)

/-- Patterns are instantiated without a fault if each of them is. -/
theorem instantiatePatterns_ok {P : Equation → Equation → Prop} {cs : List Equation}
    (h : ∀ d ∈ cs, ∃ q, c.apply R d.pattern = .ok q ∧ P d ⟨q, d.subject⟩) :
    ∃ ds, instantiatePatterns R c cs = ⟨ds, .ok ()⟩ ∧ List.Forall₂ P cs ds := by
  have hvalue (d : Equation) (hd : d ∈ cs) :
      ∃ d' : Equation, (c.apply R d.pattern = .ok d'.pattern ∧ d'.subject = d.subject) ∧ P d d' := by
    obtain ⟨q, hq, hP⟩ := h d hd
    exact ⟨⟨q, d.subject⟩, ⟨hq, rfl⟩, hP⟩
  obtain ⟨ds, hds⟩ := exists_forall₂ hvalue
  exact ⟨ds, instantiatePatterns_eq_ok.2 (hds.imp fun _ _ h => h.1), hds.imp fun _ _ h => h.2⟩

/-- An assignment to a new unknown joins the others. -/
theorem equations_add_singleton {σ : EquationSet} (hm : c.pattern.isMarked = true)
    (hnew : ∀ d ∈ σ.equations, d.pattern ≠ c.pattern) :
    (σ.add [c]).equations = σ.equations ++ [c] := by
  have hcontains : σ.contains c = false := by
    refine List.any_eq_false.2 fun d hd h => hnew d hd ?_
    have h : (d.pattern.similar c.pattern && d.subject.similar c.subject) = true := h
    rw [Bool.and_eq_true] at h
    exact eq_of_similar_of_isMarked hm h.1
  rw [add, equations_recordAll, List.foldl_cons, List.foldl_nil, insert, hcontains]
  rfl

/-- Of distinct unknowns each is assigned once. -/
theorem find?_of_distinct {S : List Equation} (hdistinct : (S.map Equation.pattern).Nodup)
    (hc : c ∈ S) (hm : c.pattern.isMarked = true) :
    S.find? (fun d => d.pattern == c.pattern) = some c := by
  obtain ⟨as, bs, rfl⟩ := List.append_of_mem hc
  rw [List.map_append, List.map_cons] at hdistinct
  have hnone : as.find? (fun d => d.pattern == c.pattern) = none := by
    refine List.find?_eq_none.2 fun d hd h => ?_
    rw [beq_name_iff (isName_of_isMarked hm)] at h
    exact (List.nodup_append.1 hdistinct).2.2 _ (List.mem_map_of_mem hd) _ List.mem_cons_self h
  have hself : (c.pattern == c.pattern) = true := beq_self_eq_true _
  rw [List.find?_append, hnone, List.find?_cons, hself]
  rfl

/-- What an exclusion keeps out is not in the value. -/
theorem not_mem_of_respects {σ : EquationSet} (hdistinct : (σ.equations.map Equation.pattern).Nodup)
    (hc : c ∈ σ.equations) (hm : c.pattern.isMarked = true) {x : Exclusion}
    (hinner : c.pattern = x.inner) (houter : x.outer.marked = false) (h : σ.respects x = true) :
    .var x.outer ∉ c.subject.names := by
  have hlookup : σ.lookup? x.inner = some c.subject := by
    rw [lookup?, find?, ← hinner, find?_of_distinct hdistinct hc hm]
    rfl
  rw [respects, hlookup, houter] at h
  dsimp only at h
  rw [if_neg Bool.false_ne_true] at h
  dsimp only at h
  intro hfree
  rw [occursFree_var_iff.2 hfree] at h
  cases h

end EquationSet

namespace Search

open SecondOrder.Expr Equation

variable {R : Reserved} {arity : Arity} {s t : Search} {σ : EquationSet} {c : Equation}

/-- A search that constructs the solution `σ`. -/
structure Open (R : Reserved) (arity : Arity) (s : Search) (σ : EquationSet) : Prop where
  solutions : s.solutions = [σ]
  patterns : ∀ c ∈ s.pending.equations, Sorted R arity c.pattern ∧ Ground R c.subject
  below : ∀ c ∈ s.pending.equations, c.Below s.pending.nextFresh
  exclusions : ∀ x ∈ s.pending.exclusions, x.outer.marked = false
  made : ∀ c ∈ σ.equations, c.pattern.isMarked = true ∧ Sorted R arity c.subject ∧
    c.Below s.pending.nextFresh
  distinct : (σ.equations.map Equation.pattern).Nodup
  /-- What is assigned occurs no more. -/
  apart : ∀ c ∈ σ.equations, ∀ d ∈ s.pending.equations, c.pattern ∉ d.pattern.names

/-- The equation `d'` is `d` with the assignment `c` carried out on its
pattern. -/
structure Instantiated (R : Reserved) (arity : Arity) (c d d' : Equation) : Prop where
  subject : d'.subject = d.subject
  applied : Applied R arity c d.pattern d'.pattern
  vars : ∀ z ∈ d'.pattern.vars, z ∈ d.pattern.vars ∨ z ∈ c.subject.vars ∨ z.Numbered 'x'
  slots : ∀ z ∈ d'.pattern.slots, z ∈ d.pattern.slots ∨ z ∈ c.subject.slots ∨ z.Numbered 'x'
  flat : Flat R arity c d.pattern → d'.pattern.slots = []
  carries : Carries R c d.pattern d'.pattern

/-- The search `t` is `s` with the assignment `c` carried out. -/
structure Assigned (R : Reserved) (arity : Arity) (s : Search) (σ : EquationSet) (c : Equation)
    (t : Search) : Prop where
  opened : Open R arity t (σ.add [c])
  equations : (σ.add [c]).equations = σ.equations ++ [c]
  instantiated : List.Forall₂ (Instantiated R arity c) s.pending.equations t.pending.equations
  counter : t.pending.nextFresh = s.pending.nextFresh
  exclusions : t.pending.exclusions = s.pending.exclusions
  accepts : s.accepts (σ.add [c]) = true
  limit : t.limit = s.limit

/-- **With an assignment carried out on its patterns, an open search stays
open.** -/
theorem Open.instantiated {ds : List Equation} (ho : Open R arity s σ) (hc : Proper R arity c)
    (hbelow : c.Below s.pending.nextFresh) (hnew : ∀ d ∈ σ.equations, d.pattern ≠ c.pattern)
    (hvalue : ∀ n ∈ c.subject.names, n.isMarked = true →
      n ≠ c.pattern ∧ ∀ d ∈ σ.equations, d.pattern ≠ n)
    (hall : List.Forall₂ (Instantiated R arity c) s.pending.equations ds) :
    Open R arity { s with pending := { s.pending with equations := ds }, solutions := [σ.add [c]] }
      (σ.add [c]) := by
  have heqs := EquationSet.equations_add_singleton hc.unknown hnew
  have hmem (d : Equation) (hd : d ∈ (σ.add [c]).equations) : d ∈ σ.equations ∨ d = c := by
    rw [heqs] at hd
    exact (List.mem_append.1 hd).imp_right List.mem_singleton.1
  have hmade (d : Equation) (hd : d ∈ (σ.add [c]).equations) :
      d.pattern.isMarked = true ∧ Sorted R arity d.subject ∧ d.Below s.pending.nextFresh := by
    rcases hmem d hd with hd | rfl
    · exact ho.made d hd
    · exact ⟨hc.unknown, hc.value, hbelow⟩
  exact {
    solutions := rfl
    patterns := fun d' hd' => by
      obtain ⟨d, hd, h⟩ := exists_of_forall₂ hall d' hd'
      exact ⟨h.applied.sorted, h.subject ▸ (ho.patterns d hd).2⟩
    below := fun d' hd' => by
      obtain ⟨d, hd, h⟩ := exists_of_forall₂ hall d' hd'
      refine ⟨fun z hz => ?_, h.subject ▸ (ho.below d hd).2⟩
      rcases h.vars z hz with hz | hz | hz
      · exact (ho.below d hd).1 z hz
      · exact hbelow.2 z hz
      · exact hz.below _
    exclusions := ho.exclusions
    made := hmade
    distinct := by
      rw [heqs, List.map_append]
      refine List.nodup_append.2 ⟨ho.distinct, List.nodup_singleton _, fun p hp q hq => ?_⟩
      obtain ⟨d, hd, rfl⟩ := List.mem_map.1 hp
      rw [List.mem_singleton.1 hq]
      exact hnew d hd
    apart := fun d hd e' he' hfree => by
      obtain ⟨e, he, h⟩ := exists_of_forall₂ hall e' he'
      rcases h.applied.unknowns _ hfree (hmade d hd).1 with ⟨hfree, hne⟩ | hfree
      · exact (hmem d hd).elim (fun hd => ho.apart d hd e he hfree) fun hd => hne (hd ▸ rfl)
      · have hnew := hvalue _ hfree (hmade d hd).1
        exact (hmem d hd).elim (fun hd => hnew.2 d hd rfl) fun hd => hnew.1 (hd ▸ rfl) }

/-- **An assignment is carried out, or ends the search.** -/
theorem Open.assign (ho : Open R arity s σ) (hc : Proper R arity c)
    (hbelow : c.Below s.pending.nextFresh)
    (hparam : ∀ u, IsParam R arity c u →
      ¬u.Numbered 'x' ∧ ∀ d ∈ s.pending.equations, u ∉ d.pattern.vars)
    (hnew : ∀ d ∈ σ.equations, d.pattern ≠ c.pattern)
    (hvalue : ∀ n ∈ c.subject.names, n.isMarked = true →
      n ≠ c.pattern ∧ ∀ d ∈ σ.equations, d.pattern ≠ n) :
    ∃ t, s.assign R c = ⟨t, .ok true⟩ ∧ Assigned R arity s σ c t ∨
      s.assign R c = ⟨t, .ok false⟩ ∧ t.solutions = [] := by
  obtain ⟨ds, hds, hall⟩ := EquationSet.instantiatePatterns_ok (R := R) (c := c)
    (P := Instantiated R arity c) fun d (hd : d ∈ s.pending.equations) => by
      obtain ⟨q, hq, happ, hvars, hslots, hflat⟩ := carries_spec hc (ho.patterns d hd).1
        (fun u hu => (hparam u hu).2 d hd) fun _ u hu => (hparam u hu).1
      refine ⟨q, hq.apply, rfl, happ, fun z hz => ?_, hslots, hflat, hq⟩
      exact (hvars z hz).imp_right (Or.imp_right And.right)
  have hassign : s.assign R c = if s.accepts (σ.add [c]) then
        ⟨{ s with pending := { s.pending with equations := ds }, solutions := [σ.add [c]] }, .ok true⟩
      else ⟨Search.refuted { s with pending := { s.pending with equations := ds } }, .ok false⟩ := by
    rw [Search.assign, instantiate_singleton, hds]
    dsimp only
    rw [ho.solutions]
    rfl
  by_cases hacc : s.accepts (σ.add [c]) = true
  · rw [if_pos hacc] at hassign
    have hopen := ho.instantiated hc hbelow hnew hvalue hall
    have heqs := EquationSet.equations_add_singleton hc.unknown hnew
    exact ⟨_, .inl ⟨hassign, hopen, heqs, hall, rfl, rfl, hacc, rfl⟩⟩
  · rw [if_neg hacc] at hassign
    exact ⟨_, .inr ⟨hassign, rfl⟩⟩

end Search
end SecondOrder
