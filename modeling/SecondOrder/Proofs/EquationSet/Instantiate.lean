/-
# Instantiation, pattern by pattern

Assignments are carried out on a list of equations one after another, each on
all patterns.  If none is refused, that comes to carrying out all of them on
each pattern (`EquationSet.applyAll_of_instantiateEach`,
`EquationSet.instantiateEach_of_applyAll`).
-/

import SecondOrder.EquationSet.Instantiate
import SecondOrder.Proofs.Expr.Provenance
import SecondOrder.Proofs.Refusal

namespace SecondOrder
namespace EquationSet

variable {R : Reserved} {a : Equation} {S cs ds : List Equation}

/-- An assignment that is carried out is carried out on every pattern. -/
theorem instantiatePatterns_eq_ok : instantiatePatterns R a cs = ⟨ds, .ok ()⟩ ↔
    List.Forall₂ (fun c d => a.apply R c.pattern = .ok d.pattern ∧ d.subject = c.subject) cs ds := by
  constructor
  · intro h
    induction cs generalizing ds with
    | nil =>
      cases h
      exact .nil
    | cons c cs ih =>
      rw [instantiatePatterns] at h
      split at h
      · cases h
      · next p hp =>
        rcases hrest : instantiatePatterns R a cs with ⟨es, fault | _⟩ <;> rw [hrest] at h <;> cases h
        exact .cons ⟨hp, rfl⟩ (ih hrest)
  · intro h
    induction h with
    | nil => rfl
    | cons first _ ih =>
      rw [instantiatePatterns, first.1]
      dsimp only
      rw [ih, ← first.2]

/-- Also when it is refused half-way, an assignment is carried out on a pattern
or leaves it alone. -/
theorem mem_instantiatePatterns {d : Equation} (hd : d ∈ (instantiatePatterns R a cs).state) :
    d ∈ cs ∨ ∃ c ∈ cs, a.apply R c.pattern = .ok d.pattern ∧ d.subject = c.subject := by
  induction cs with
  | nil => cases hd
  | cons c cs ih =>
    rw [instantiatePatterns] at hd
    split at hd
    · exact .inl hd
    · next p hp =>
      rcases List.mem_cons.1 hd with rfl | hd
      · exact .inr ⟨c, List.mem_cons_self, hp, rfl⟩
      · exact (ih hd).imp (List.mem_cons_of_mem _)
          fun ⟨e, he, h⟩ => ⟨e, List.mem_cons_of_mem _ he, h⟩

/-- Instantiating patterns keeps the subjects, also when it is cut short. -/
theorem map_subject_instantiatePatterns (R : Reserved) (a : Equation) (cs : List Equation) :
    (instantiatePatterns R a cs).state.map Equation.subject = cs.map Equation.subject := by
  induction cs with
  | nil => rfl
  | cons c cs ih =>
    rw [instantiatePatterns]
    split
    · rfl
    · simp only [List.map_cons, ih]

/-- Subjects are never rewritten, also where instantiation is refused
half-way. -/
theorem map_subject_instantiateEach (R : Reserved) (S cs : List Equation) :
    (instantiateEach R S cs).state.map Equation.subject = cs.map Equation.subject := by
  induction S generalizing cs with
  | nil => rfl
  | cons a S ih =>
    have hfirst := map_subject_instantiatePatterns R a cs
    rw [instantiateEach]
    split
    · next h =>
      rw [h] at hfirst
      exact (ih _).trans hfirst
    · next h =>
      rw [h] at hfirst
      exact hfirst

/-- The same for a set that is instantiated by itself. -/
theorem map_subject_instantiateAt (R : Reserved) (places : List (Nat × Nat)) (cs : List Equation) :
    (instantiateAt R places cs).state.map Equation.subject = cs.map Equation.subject := by
  induction places generalizing cs with
  | nil => rfl
  | cons place places ih =>
    obtain ⟨i, j⟩ := place
    rw [instantiateAt]
    split
    · next a c ha hc =>
      split
      · rfl
      · next p hp =>
        obtain ⟨hj, rfl⟩ := List.getElem?_eq_some_iff.1 hc
        rw [ih, List.map_set]
        refine List.ext_getElem? fun n => ?_
        by_cases hn : j = n
        · subst hn
          simp [hj]
        · simp [List.getElem?_set_ne hn]
    · exact ih cs

section Variables

variable {P : Var → Prop} (hP : Expr.HoldsOfRenamed P)

include hP

/-- What holds of all variables of a set and of a value holds of the set after
one assignment, also where it is refused half-way. -/
theorem allVars_instantiatePatterns (ha : a.subject.AllVars P) (hcs : ∀ c ∈ cs, c.AllVars P) :
    ∀ d ∈ (instantiatePatterns R a cs).state, d.AllVars P := by
  intro d hd
  rcases mem_instantiatePatterns hd with hd | ⟨c, hc, hcd, hsubject⟩
  · exact hcs d hd
  · exact ⟨Equation.allVars_of_apply hP ha (hcs c hc).1 hcd, hsubject ▸ (hcs c hc).2⟩

/-- **Patterns that are instantiated keep to the property of their variables**
and of the values', also where that is refused half-way. -/
theorem allVars_instantiateEach (hS : ∀ a ∈ S, a.subject.AllVars P) (hcs : ∀ c ∈ cs, c.AllVars P) :
    ∀ d ∈ (instantiateEach R S cs).state, d.AllVars P := by
  induction S generalizing cs with
  | nil => exact hcs
  | cons a S ih =>
    rw [List.forall_mem_cons] at hS
    have hds := allVars_instantiatePatterns (R := R) hP hS.1 hcs
    rw [instantiateEach]
    split
    · next h =>
      rw [h] at hds
      exact ih hS.2 hds
    · next h =>
      rw [h] at hds
      exact hds

/-- So do equations that are applied to each other. -/
theorem allVars_instantiateAt {places : List (Nat × Nat)} (hcs : ∀ c ∈ cs, c.AllVars P) :
    ∀ d ∈ (instantiateAt R places cs).state, d.AllVars P := by
  induction places generalizing cs with
  | nil => exact hcs
  | cons place places ih =>
    obtain ⟨i, j⟩ := place
    rw [instantiateAt]
    split
    · next a c ha hc =>
      have ha := hcs a (List.mem_of_getElem? ha)
      have hc := hcs c (List.mem_of_getElem? hc)
      split
      · exact hcs
      · next p hp =>
        refine ih fun d hd => ?_
        rcases List.mem_or_eq_of_mem_set hd with hd | rfl
        · exact hcs d hd
        · exact ⟨Equation.allVars_of_apply hP ha.2 hc.1 hp, hc.2⟩
    · exact ih hcs

end Variables

/-- Assignments that are applied to all patterns together are applied to
each. -/
theorem applyAll_of_instantiateEach (h : instantiateEach R S cs = ⟨ds, .ok ()⟩) :
    List.Forall₂ (fun c d => applyAll R S c.pattern = .ok d.pattern ∧ d.subject = c.subject) cs ds := by
  induction S generalizing cs with
  | nil =>
    cases h
    exact List.forall₂_same.2 fun c _ => ⟨rfl, rfl⟩
  | cons a S ih =>
    rw [instantiateEach] at h
    split at h
    · next es hes =>
      refine forall₂_trans (fun c e d hce hed => ?_) (instantiatePatterns_eq_ok.1 hes) (ih h)
      exact ⟨bind_eq_ok.2 ⟨e.pattern, hce.1, hed.1⟩, hed.2.trans hce.2⟩
    · cases h

/-- A set that instantiates another is applied to each of its patterns. -/
theorem applyAll_of_instantiate {σ s t : EquationSet} (h : σ.instantiate R s = ⟨t, .ok ()⟩) :
    List.Forall₂ (fun c d => applyAll R σ.equations c.pattern = .ok d.pattern ∧ d.subject = c.subject)
      s.equations t.equations := by
  rw [instantiate] at h
  rcases hI : instantiateEach R σ.equations s.equations with ⟨ds, result⟩
  rw [hI] at h
  cases h
  exact applyAll_of_instantiateEach hI

/-- Assignments that can be applied to each pattern can be applied to all of
them together. -/
theorem instantiateEach_of_applyAll (h : List.Forall₂
      (fun c d => applyAll R S c.pattern = .ok d.pattern ∧ d.subject = c.subject) cs ds) :
    instantiateEach R S cs = ⟨ds, .ok ()⟩ := by
  induction S generalizing cs with
  | nil =>
    obtain rfl : ds = cs := eq_of_forall₂ h fun c _ d hcd => by
      obtain ⟨p, e⟩ := d
      obtain ⟨hp, rfl⟩ := hcd
      cases hp
      rfl
    rfl
  | cons a S ih =>
    have hfirst (c d : Equation) (hcd : applyAll R (a :: S) c.pattern = .ok d.pattern ∧ d.subject = c.subject) :
        ∃ e : Equation, (a.apply R c.pattern = .ok e.pattern ∧ e.subject = c.subject) ∧
          applyAll R S e.pattern = .ok d.pattern ∧ d.subject = e.subject := by
      obtain ⟨p, hp, hrest⟩ := bind_eq_ok.1 hcd.1
      exact ⟨⟨p, c.subject⟩, ⟨hp, rfl⟩, hrest, hcd.2⟩
    obtain ⟨es, hes, hall⟩ := exists_forall₂_between (h.imp hfirst)
    rw [instantiateEach, instantiatePatterns_eq_ok.2 hes]
    exact ih hall

/-- Assignments that can be applied to each pattern instantiate the
equations. -/
theorem exists_instantiate {σ : EquationSet} {Q : Equation → Expr → Prop}
    (h : ∀ c ∈ cs, ∃ q, applyAll R σ.equations c.pattern = .ok q ∧ Q c q) :
    ∃ P, σ.instantiate R { equations := cs } = ⟨P, .ok ()⟩ ∧
      List.Forall₂ (fun c d => d.subject = c.subject ∧ Q c d.pattern) cs P.equations := by
  have hvalue (c : Equation) (hc : c ∈ cs) :
      ∃ d : Equation, (applyAll R σ.equations c.pattern = .ok d.pattern ∧ d.subject = c.subject) ∧
        Q c d.pattern := by
    obtain ⟨q, hq, hQ⟩ := h c hc
    exact ⟨⟨q, c.subject⟩, ⟨hq, rfl⟩, hQ⟩
  obtain ⟨ds, hds⟩ := exists_forall₂ hvalue
  refine ⟨{ equations := ds }, ?_, hds.imp fun _ _ h => ⟨h.1.2, h.2⟩⟩
  rw [instantiate, instantiateEach_of_applyAll (hds.imp fun _ _ h => h.1)]

end EquationSet
end SecondOrder
