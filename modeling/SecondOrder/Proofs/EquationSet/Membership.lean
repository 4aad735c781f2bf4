/-
# Sets of equations as finite sets

Two equations are the same exactly if their sides have the same nameless forms
(`Equation.beq_iff`), so to be the same is an equivalence, and a set of
equations holds the forms of its members (`EquationSet.forms`).  To add
equations joins their forms.  To remove one takes its form out, for although
only the first member of that form is erased, a set without repetition has no
second.  Two such sets with the same forms have as many members
(`EquationSet.size_eq_of_forms`).

What the calls that leave patterns alone make of the empty set has no
repetition, so there the operations are those of finite sets
(`EquationSet.finite_set_laws`).
-/

import Mathlib
import SecondOrder.Proofs.EquationSet.Calls
import SecondOrder.Proofs.Expr.Comparison

namespace SecondOrder

namespace Equation

variable {c d : Equation}

/-- The nameless forms of the two sides. -/
def form (c : Equation) : Nameless × Nameless := (c.pattern.nameless, c.subject.nameless)

/-- **To be the same is to have the same form.** -/
theorem beq_iff : (c == d) = true ↔ c.form = d.form := by
  change (c.pattern.similar d.pattern && c.subject.similar d.subject) = true ↔ _
  rw [Bool.and_eq_true, Expr.similar_iff_alphaEq, Expr.similar_iff_alphaEq, Expr.alphaEq_iff_nameless,
    Expr.alphaEq_iff_nameless, form, form, Prod.mk.injEq]

/-- Equations are told apart exactly if their forms are. -/
theorem beq_eq_false_iff : (c == d) = false ↔ c.form ≠ d.form := by
  rw [Ne, ← beq_iff, Bool.not_eq_true]

/-- To be the same is symmetric. -/
theorem beq_symm (h : (c == d) = true) : (d == c) = true := beq_iff.2 (beq_iff.1 h).symm

/-- To be the same is an equivalence, as equality of forms is. -/
theorem beq_equivalence : Equivalence fun c d : Equation => (c == d) = true where
  refl := beq_refl
  symm := beq_symm
  trans hcd hde := beq_iff.2 ((beq_iff.1 hcd).trans (beq_iff.1 hde))

end Equation

namespace EquationSet

open Equation

variable {R : Reserved} {s t : EquationSet} {c d : Equation} {cs : List Equation}

/-- The forms of the members. -/
def forms (s : EquationSet) : List (Nameless × Nameless) := s.equations.map form

/-- There are no repetitions exactly if no form comes twice. -/
theorem distinct_iff : Distinct cs ↔ (cs.map form).Nodup := by
  rw [Distinct, List.Nodup, List.pairwise_map]
  simp only [beq_eq_false_iff]

/-- A set contains the equations whose forms it holds. -/
theorem contains_iff : s.contains d = true ↔ d.form ∈ s.forms := by
  rw [contains, List.any_eq_true, forms, List.mem_map]
  simp only [beq_iff]

/-- Sets are the same that hold the same forms. -/
theorem beq_iff_forms : (s == t) = true ↔ ∀ f, f ∈ s.forms ↔ f ∈ t.forms := by
  change (s.equations.all t.contains && t.equations.all s.contains) = true ↔ _
  rw [Bool.and_eq_true, List.all_eq_true, List.all_eq_true]
  simp only [contains_iff]
  rw [← List.forall_mem_map (P := (· ∈ t.forms)), ← List.forall_mem_map (P := (· ∈ s.forms))]
  exact ⟨fun h f => ⟨h.1 f, h.2 f⟩, fun h => ⟨fun f => (h f).1, fun f => (h f).2⟩⟩

/-- **To add equations joins their forms,** whatever the set. -/
theorem mem_forms_add {f : Nameless × Nameless} : f ∈ (s.add cs).forms ↔ f ∈ s.forms ∨ f ∈ cs.map form := by
  have hgrows := grows_add s cs
  obtain ⟨ds, hds, heqs, -⟩ := hgrows.equations
  have hforms : (s.add cs).forms = s.forms ++ ds.map form := by rw [forms, forms, heqs, List.map_append]
  constructor
  · intro hf
    rw [hforms, List.mem_append] at hf
    exact hf.imp_right fun hf => (hds.map form).subset hf
  · rintro (hf | hf)
    · rw [hforms]
      exact List.mem_append_left _ hf
    · obtain ⟨c, hc, rfl⟩ := List.mem_map.1 hf
      exact contains_iff.1 (List.any_eq_true.2 (hgrows.covers c hc))

/-- Without repetition the first equation of a form is the only one. -/
theorem mem_forms_eraseFirst {f : Nameless × Nameless} (h : Distinct cs) :
    f ∈ (eraseFirst c cs).map form ↔ f ∈ cs.map form ∧ f ≠ c.form := by
  induction cs with
  | nil => simp [eraseFirst]
  | cons a as ih =>
    have hnodup := distinct_iff.1 h
    rw [List.map_cons, List.nodup_cons] at hnodup
    rw [eraseFirst, List.eraseP_cons]
    cases hac : a == c with
    | true =>
      have hform := beq_iff.1 hac
      rw [cond_true, List.map_cons, List.mem_cons, ← hform]
      constructor
      · rintro hf
        exact ⟨.inr hf, fun hfa => hnodup.1 (hfa ▸ hf)⟩
      · rintro ⟨hf, hne⟩
        exact hf.resolve_left hne
    | false =>
      have hform := beq_eq_false_iff.1 hac
      have ih := ih (List.pairwise_cons.1 h).2
      rw [eraseFirst] at ih
      rw [cond_false, List.map_cons, List.map_cons, List.mem_cons, List.mem_cons, ih]
      constructor
      · rintro (rfl | ⟨hf, hne⟩)
        · exact ⟨.inl rfl, hform⟩
        · exact ⟨.inr hf, hne⟩
      · rintro ⟨hf, hne⟩
        exact hf.imp_right fun hf => ⟨hf, hne⟩

/-- **To remove equations takes their forms out,** of a set without
repetition. -/
theorem mem_forms_remove {f : Nameless × Nameless} (h : Distinct s.equations) :
    f ∈ (s.remove cs).forms ↔ f ∈ s.forms ∧ f ∉ cs.map form := by
  suffices ∀ es : List Equation, Distinct es →
      (f ∈ (cs.foldl (fun ds c => eraseFirst c ds) es).map form ↔ f ∈ es.map form ∧ f ∉ cs.map form) from
    this _ h
  clear h
  induction cs with
  | nil => simp
  | cons c cs ih =>
    intro es hes
    have hdistinct : Distinct (eraseFirst c es) := hes.sublist List.eraseP_sublist
    rw [List.foldl_cons, ih _ hdistinct, mem_forms_eraseFirst hes, List.map_cons, List.mem_cons, not_or, and_assoc]

/-- Without repetition the number of members is told by their forms. -/
theorem size_eq_of_forms (hs : Distinct s.equations) (ht : Distinct t.equations)
    (h : ∀ f, f ∈ s.forms ↔ f ∈ t.forms) : s.size = t.size := by
  have hperm : s.forms.Perm t.forms :=
    (List.perm_ext_iff_of_nodup (distinct_iff.1 hs) (distinct_iff.1 ht)).2 h
  simpa only [forms, size, List.length_map] using hperm.length_eq

/-! ## Sets that calls have made -/

/-- Several calls of `add`, one after another. -/
theorem mem_forms_addEach {f : Nameless × Nameless} {bundles : List (List Equation)} :
    f ∈ (bundles.foldl add s).forms ↔ f ∈ s.forms ∨ f ∈ bundles.flatten.map form := by
  induction bundles generalizing s with
  | nil => simp
  | cons cs bundles ih =>
    rw [List.foldl_cons, ih, mem_forms_add, List.flatten_cons, List.map_append, List.mem_append, or_assoc]

/-- Several bundles that are added bring no repetition in. -/
theorem distinct_addEach (h : Distinct s.equations) (bundles : List (List Equation)) :
    Distinct (bundles.foldl add s).equations := by
  induction bundles generalizing s with
  | nil => exact h
  | cons cs bundles ih => exact ih (distinct_add h cs)

/-- The same equations, added in whatever bundles and order and however often,
make of a set without repetition sets that are the same and have as many
members. -/
theorem addEach_same (hs : Distinct s.equations) {as bs : List (List Equation)}
    (hab : ∀ a ∈ as.flatten, ∃ b ∈ bs.flatten, (a == b) = true)
    (hba : ∀ b ∈ bs.flatten, ∃ a ∈ as.flatten, (b == a) = true) :
    (as.foldl add s).size = (bs.foldl add s).size ∧ (as.foldl add s == bs.foldl add s) = true := by
  have hcovered {cs ds : List Equation} (h : ∀ c ∈ cs, ∃ d ∈ ds, (c == d) = true) (f : Nameless × Nameless)
      (hf : f ∈ cs.map form) : f ∈ ds.map form := by
    obtain ⟨c, hc, rfl⟩ := List.mem_map.1 hf
    obtain ⟨d, hd, hcd⟩ := h c hc
    exact beq_iff.1 hcd ▸ List.mem_map_of_mem hd
  have hforms (f : Nameless × Nameless) : f ∈ (as.foldl add s).forms ↔ f ∈ (bs.foldl add s).forms := by
    rw [mem_forms_addEach, mem_forms_addEach]
    exact or_congr_right ⟨hcovered hab f, hcovered hba f⟩
  exact ⟨size_eq_of_forms (distinct_addEach hs as) (distinct_addEach hs bs) hforms, beq_iff_forms.2 hforms⟩

/-- **Sets of equations are finite sets.**  Two equations are the same if on
both sides they are equal as nodes or found to be equal up to bound names, and
that is an equivalence.  Of what calls that leave patterns alone have made of
the empty set, `add` makes a set that contains besides its members just what is
the same as something added, `remove` one that contains of its members just
those that are not the same as anything removed, and equations that are added
in two ways, in whatever order and however often, make sets that are the same
and have as many members. -/
theorem finite_set_laws (R : Reserved) (calls : List Call) (hcalls : ∀ k ∈ calls, k.rewrites = false) :
    let finds (a b : Expr) : Prop := (a == b) = true ∨ Expr.alphaDecideWhole a b = .ok true
    let s := run R {} calls
    (∀ c d : Equation, (c == d) = true ↔ finds c.pattern d.pattern ∧ finds c.subject d.subject) ∧
    (Equivalence fun c d : Equation => (c == d) = true) ∧
    (∀ cs d, (s.add cs).contains d = true ↔ s.contains d = true ∨ ∃ c ∈ cs, (d == c) = true) ∧
    (∀ cs d, (s.remove cs).contains d = true ↔ s.contains d = true ∧ ∀ c ∈ cs, (d == c) = false) ∧
    ∀ as bs : List (List Equation), (∀ a ∈ as.flatten, ∃ b ∈ bs.flatten, (a == b) = true) →
      (∀ b ∈ bs.flatten, ∃ a ∈ as.flatten, (b == a) = true) →
      (as.foldl add s).size = (bs.foldl add s).size ∧ (as.foldl add s == bs.foldl add s) = true := by
  intro finds s
  have hdistinct : Distinct s.equations := distinct_run hcalls List.Pairwise.nil
  have hmem (cs : List Equation) (d : Equation) : d.form ∈ cs.map form ↔ ∃ c ∈ cs, (d == c) = true := by
    rw [List.mem_map]
    exact exists_congr fun c => and_congr_right fun _ => eq_comm.trans beq_iff.symm
  refine ⟨fun c d => ?_, beq_equivalence, fun cs d => ?_, fun cs d => ?_, fun as bs => addEach_same hdistinct⟩
  · change (c.pattern.similar d.pattern && c.subject.similar d.subject) = true ↔ _
    rw [Bool.and_eq_true, Expr.similar_iff_alphaDecideWhole, Expr.similar_iff_alphaDecideWhole]
  · rw [contains_iff, contains_iff, mem_forms_add, hmem]
  · rw [contains_iff, contains_iff, mem_forms_remove hdistinct, hmem]
    simp

/-- `(q[x. x], a)` and `(q[y. y], a)` are the same: to remove the second
removes the first, and to add both and then `(_m, b)`, or `(_m, b)` and then
the second, gives the same set of two. -/
theorem finite_set_laws_renamed :
    let name (x : String) : Expr := .var ⟨x, false⟩
    let c (x : String) : Equation := ⟨.bind ⟨"q", "base", false⟩ ⟨⟨x, false⟩, []⟩ (name x), name "a"⟩
    let d : Equation := ⟨.var ⟨"m", true⟩, name "b"⟩
    let once : EquationSet := [[d], [c "y"]].foldl add {}
    let twice : EquationSet := [[c "x", c "y"], [d]].foldl add {}
    (c "x" == c "y") = true ∧ ((run {} {} [.add [c "x", d]]).remove [c "y"]).contains (c "x") = false ∧
      once.size = 2 ∧ twice.size = once.size ∧ (twice == once) = true := by
  intro name c d once twice
  have hsame : (c "x" == c "y") = true := beq_iff.2 rfl
  have hrewrites : ∀ k ∈ [Call.add [c "x", d]], k.rewrites = false := by simp [Call.rewrites]
  obtain ⟨-, -, -, hremove, -⟩ := finite_set_laws {} [.add [c "x", d]] hrewrites
  obtain ⟨-, -, -, -, hadd⟩ := finite_set_laws {} [] (List.forall_mem_nil _)
  have hboth := hadd [[c "x", c "y"], [d]] [[d], [c "y"]]
    (by simp [hsame, Equation.beq_refl]) (by simp [Equation.beq_refl])
  refine ⟨hsame, ?_, ?_, hboth⟩
  · rw [← Bool.not_eq_true, hremove]
    rintro ⟨-, hne⟩
    exact Bool.false_ne_true ((hne _ List.mem_cons_self).symm.trans hsame)
  · cbv

end EquationSet
end SecondOrder
