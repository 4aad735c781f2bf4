/-
# Serial assignments

Assignments are serial (`EquationSet.Serial`) if every value is without the
unknown that it is for and without the unknowns that earlier assignments are
for.  To apply them in order takes all their unknowns out of an expression
(`EquationSet.Serial.applyAll`); none of them is assigned twice
(`EquationSet.Serial.unambiguous`).

An assignment can be taken out of the others and be substituted in their
values; that leaves them serial (`EquationSet.Serial.substituteAway`).
-/

import SecondOrder.Proofs.EquationSet.Lookup
import SecondOrder.Proofs.Equation.Vocabulary
import SecondOrder.Proofs.Search.Solving
import SecondOrder.Proofs.Search.Trial

namespace SecondOrder

open SecondOrder.Expr

namespace Vocabulary

/-- Everything but the unknown `m`. -/
def without (m : Expr) : Vocabulary := unknowns (· ≠ m) (· ≠ m)

/-- Everything but unknowns. -/
def unmarked : Vocabulary := unknowns (fun _ => False) fun _ => False

end Vocabulary

namespace Expr

variable {R : Reserved} {e m : Expr}

/-- An expression without unknowns is without any one of them. -/
theorem Uses.without_of_unmarked (h : Uses R .unmarked e) (m : Expr) : Uses R (.without m) e :=
  h.mono (fun _ (hn : Vocabulary.unmarked.atom _) hm => (hn hm).elim)
    (fun _ (hg : Vocabulary.unmarked.applied _) => hg.2.elim) fun _ _ => trivial

/-- It is enough that none of its nodes is an unknown. -/
theorem uses_unmarked (h : ∀ n ∈ e.nodes, n.isMarked = false) : Uses R .unmarked e :=
  uses_of_nodes (fun _ hx hm => Bool.false_ne_true ((h _ (var_mem_nodes hx)).symm.trans hm))
    (fun _ hf hm => Bool.false_ne_true ((h _ hf).symm.trans hm)) fun _ _ => trivial

/-- Where everything is allowed every expression is. -/
theorem uses_any (e : Expr) : Uses R (.unknowns (fun _ => True) fun _ => True) e :=
  uses_of_nodes (fun _ _ _ => trivial) (fun _ _ _ => trivial) fun _ _ => trivial

/-- An unknown is without the others. -/
theorem Uses.ne_of_without {n : Expr} (h : Uses R (.without m) n) (hn : n.isMarked = true) : n ≠ m := by
  cases h with
  | var atom | sym atom => exact atom hn
  | _ => cases hn

/-- What an expression is without it does not apply. -/
theorem Uses.ne_of_applied {n f : Expr} {as : List Expr} (h : Uses R (.without m) (.app f (n :: as)))
    (hn : n.isMarked = true) : n ≠ m := by
  cases h with
  | app _ args => exact (args n List.mem_cons_self).ne_of_without hn
  | apply applied => exact applied.2

end Expr

namespace Equation

variable {R : Reserved} {a : Equation} {m e q : Expr}

/-- To carry out an assignment brings in no unknown that its value is
without, -/
theorem without_of_apply (hm : a.pattern.isMarked = true) (hvalue : Uses R (.without m) a.subject)
    (he : Uses R (.without m) e) (h : a.apply R e = .ok q) : Uses R (.without m) q :=
  (brings_of_apply h).uses hm (fun _ hn _ => hn) (fun _ hg _ => hg) hvalue he

/-- takes its own unknown out, -/
theorem without_self_of_apply (hm : a.pattern.isMarked = true) (hvalue : Uses R (.without a.pattern) a.subject)
    (h : a.apply R e = .ok q) : Uses R (.without a.pattern) q :=
  (brings_of_apply h).uses hm (fun _ _ hne => hne) (fun _ _ hne => hne) hvalue (uses_any e)

/-- and does nothing but contraction where it is not. -/
theorem without_of_apply_of_without {x : Var} (hx : a.pattern = .var x) (hm : x.marked = true)
    (ha : Uses R (.without a.pattern) e) (he : Uses R (.without m) e) (h : a.apply R e = .ok q) :
    Uses R (.without m) q := by
  obtain ⟨p, depth, hp, hq⟩ := brings_of_apply h
  rw [hx] at ha hp
  have hsame : e.subst (.var x) a.subject = .ok e := by
    refine subst_of_not_mem (.inl ⟨x, rfl⟩) (fun y hy heq => ?_) fun hfree => ?_
    · cases heq
      exact ha.of_mem_slots hy hm rfl
    · exact (ha.of_mem_freeNames hfree hm).elim (fun h => h rfl) fun h => h rfl
  cases hsame.symm.trans hp
  exact he.contractFrom (Vocabulary.contracts_unknowns _ _) hq

end Equation

/-- What holds of any two members of a list in order, and so of what
corresponds to them. -/
theorem pairwise_of_forall₂ {α β : Type} {P : α → β → Prop} {Q : α → α → Prop} {S : β → β → Prop}
    {as : List α} {bs : List β} (hS : ∀ {a b a' b'}, P a a' → P b b' → Q a b → S a' b')
    (h : List.Forall₂ P as bs) (has : as.Pairwise Q) : bs.Pairwise S := by
  induction h with
  | nil => exact .nil
  | cons first rest ih =>
    obtain ⟨hfirst, has⟩ := List.pairwise_cons.1 has
    refine List.pairwise_cons.2 ⟨fun b' hb' => ?_, ih has⟩
    obtain ⟨b, hb, hbb'⟩ := exists_of_forall₂ rest b' hb'
    exact hS first hbb' (hfirst b hb)

/-- The temporaries of a branch are variables. -/
theorem Cleanup.Needed.exists_var {R : Reserved} {s : Search} {k : Cleanup} (h : k.Needed R s) :
    ∀ t ∈ k.temporaries, ∃ x : Var, t = .var x := by
  obtain ⟨c, m, n, g, b, hhead, hg, hb, hk⟩ := h
  obtain ⟨m', n', value, P, hhead', hguess, -⟩ := Search.branch?_some hb
  cases hhead.symm.trans hhead'
  rw [Cleanup.mem_cleanups hk]
  intro t ht
  obtain ⟨x, hx, -⟩ := (Search.of_guessed hg hguess).2.2.2.2 t ht
  exact ⟨x, hx⟩

namespace EquationSet

variable {R : Reserved} {a c : Equation} {cs ds es : List Equation} {σ τ : EquationSet} {m p q : Expr}

/-- Assignments, each to another unknown than the earlier ones, with values
without its own unknown and without the earlier ones. -/
structure Serial (R : Reserved) (cs : List Equation) : Prop where
  unknown : ∀ c ∈ cs, c.pattern.isMarked = true
  own : ∀ c ∈ cs, Uses R (.without c.pattern) c.subject
  earlier : cs.Pairwise fun c d => c.pattern ≠ d.pattern ∧ Uses R (.without c.pattern) d.subject

namespace Serial

/-- The empty solution is serial. -/
theorem nil : Serial R [] := ⟨List.forall_mem_nil _, List.forall_mem_nil _, .nil⟩

/-- The unknowns of a serial solution are different. -/
theorem nodup (h : Serial R cs) : (cs.map Equation.pattern).Nodup :=
  List.pairwise_map.2 (h.earlier.imp fun h => h.1)

/-- **No unknown is assigned twice.** -/
theorem unambiguous (h : Serial R σ.equations) : σ.Unambiguous := unambiguous_of_nodup h.unknown h.nodup

/-- A copy has the same assignments. -/
theorem copy (h : Serial R σ.equations) : σ.copy.equations = σ.equations :=
  equations_ofList (Search.distinct_of_nodup h.nodup h.unknown)

/-- An assignment that comes last. -/
theorem concat (h : Serial R cs) (hm : c.pattern.isMarked = true)
    (hnew : ∀ d ∈ cs, d.pattern ≠ c.pattern ∧ Uses R (.without d.pattern) c.subject)
    (hown : Uses R (.without c.pattern) c.subject) : Serial R (cs ++ [c]) := by
  refine ⟨?_, ?_, ?_⟩
  · simpa [or_imp, forall_and] using ⟨h.unknown, hm⟩
  · simpa [or_imp, forall_and] using ⟨h.own, hown⟩
  · simpa [List.pairwise_append] using ⟨h.earlier, hnew⟩

/-- The later assignments of a serial solution are serial by themselves. -/
theorem tail (h : Serial R (c :: cs)) : Serial R cs :=
  ⟨fun d hd => h.unknown d (List.mem_cons_of_mem _ hd), fun d hd => h.own d (List.mem_cons_of_mem _ hd),
    (List.pairwise_cons.1 h.earlier).2⟩

/-- What the values are without, to apply them does not bring in. -/
theorem applyAll_without (h : Serial R cs) (hcs : ∀ c ∈ cs, Uses R (.without m) c.subject)
    (hp : Uses R (.without m) p) (hq : EquationSet.applyAll R cs p = .ok q) : Uses R (.without m) q := by
  induction cs generalizing p with
  | nil =>
    cases hq
    exact hp
  | cons c cs ih =>
    obtain ⟨p', hp', hq⟩ := bind_eq_ok.1 hq
    rw [List.forall_mem_cons] at hcs
    exact ih h.tail hcs.2 (Equation.without_of_apply (h.unknown c List.mem_cons_self) hcs.1 hp hp') hq

/-- **To apply serial assignments in order takes all their unknowns out of an
expression.** -/
theorem applyAll (h : Serial R cs) (hq : EquationSet.applyAll R cs p = .ok q) :
    ∀ c ∈ cs, Uses R (.without c.pattern) q := by
  induction cs generalizing p with
  | nil => exact List.forall_mem_nil _
  | cons c cs ih =>
    obtain ⟨p', hp', hq⟩ := bind_eq_ok.1 hq
    have hout : Uses R (.without c.pattern) p' :=
      Equation.without_self_of_apply (h.unknown c List.mem_cons_self) (h.own c List.mem_cons_self) hp'
    have hlater := (List.pairwise_cons.1 h.earlier).1
    exact List.forall_mem_cons.2 ⟨h.tail.applyAll_without (fun d hd => (hlater d hd).2) hout hq, ih h.tail hq⟩

/-- Substituting `a` in a value keeps the unknowns out that it is without, if
the value of `a` is without them or `a` is not in it. -/
theorem without_of_substitute {x : Var} {e : Expr} (hx : a.pattern = .var x) (hm : x.marked = true)
    (hor : Uses R (.without m) a.subject ∨ Uses R (.without a.pattern) e) (he : Uses R (.without m) e)
    (h : a.apply R e = .ok q) : Uses R (.without m) q := by
  rcases hor with ha | ha
  · exact Equation.without_of_apply (hx ▸ hm) ha he h
  · exact Equation.without_of_apply_of_without hx hm ha he h

/-- An assignment that is taken out and substituted in the others. -/
theorem exchange {x : Var} (h : Serial R (cs ++ a :: ds)) (hx : a.pattern = .var x)
    (hes : List.Forall₂ (fun c e => e.pattern = c.pattern ∧ a.apply R c.subject = .ok e.subject) (cs ++ ds) es) :
    Serial R es := by
  have ha : a ∈ cs ++ a :: ds := by simp
  have hm : x.marked = true := (congrArg Expr.isMarked hx).symm.trans (h.unknown a ha)
  have hsub : (cs ++ ds).Sublist (cs ++ a :: ds) := (List.sublist_cons_self a ds).append_left cs
  obtain ⟨-, hlater, hcross⟩ := List.pairwise_append.1 h.earlier
  have hcs (c : Equation) (hc : c ∈ cs) : Uses R (.without c.pattern) a.subject :=
    (hcross c hc a List.mem_cons_self).2
  have hds (d : Equation) (hd : d ∈ ds) : Uses R (.without a.pattern) d.subject :=
    ((List.pairwise_cons.1 hlater).1 d hd).2
  refine ⟨fun e he => ?_, fun e he => ?_, ?_⟩
  · obtain ⟨c, hc, hce, -⟩ := exists_of_forall₂ hes e he
    exact hce ▸ h.unknown c (hsub.subset hc)
  · obtain ⟨c, hc, hce, happly⟩ := exists_of_forall₂ hes e he
    rw [hce]
    refine without_of_substitute hx hm ?_ (h.own c (hsub.subset hc)) happly
    exact (List.mem_append.1 hc).imp (hcs c) (hds c)
  · have hor : (cs ++ ds).Pairwise fun c d =>
        Uses R (.without c.pattern) a.subject ∨ Uses R (.without a.pattern) d.subject := by
      refine List.pairwise_append.2 ⟨?_, ?_, fun c _ d hd => .inr (hds d hd)⟩
      · exact List.pairwise_of_forall_mem_list fun c hc d _ => .inl (hcs c hc)
      · exact List.pairwise_of_forall_mem_list fun c _ d hd => .inr (hds d hd)
    refine pairwise_of_forall₂ (fun hc hd hcd => ?_) hes ((h.earlier.sublist hsub).and hor)
    rw [hc.1, hd.1]
    exact ⟨hcd.1.1, without_of_substitute hx hm hcd.2 hcd.1.2 hd.2⟩

/-- **To substitute a temporary away leaves assignments serial.** -/
theorem substituteAway {x : Var} (h : Serial R σ.equations)
    (hτ : Cleanup.substituteAway R σ (.var x) = .ok τ) : Serial R τ.equations := by
  rcases Cleanup.substituteAway_eq_ok.1 hτ with ⟨-, rfl⟩ | ⟨a, es, ha, hes, rfl⟩
  · exact h
  · obtain ⟨hax, cs, ds, hσ, hcs⟩ := List.find?_eq_some_iff_append.1 ha
    have hx : a.pattern = .var x := (beq_name_iff (.inl ⟨x, rfl⟩)).1 hax
    have hrest : (σ.remove [a]).equations = cs ++ ds := by
      have hne : ∀ c ∈ cs, ¬(c == a) = true := by
        intro c hc hca
        have hca : (c.pattern.similar a.pattern && c.subject.similar a.subject) = true := hca
        rw [Bool.and_eq_true] at hca
        have hcx := eq_of_similar_of_isMarked (h.unknown a (hσ ▸ by simp)) hca.1
        have hc := hcs c hc
        rw [hcx, hax] at hc
        cases hc
      have hself : (a == a) = true := Equation.beq_refl a
      change eraseFirst a σ.equations = _
      rw [hσ, eraseFirst, List.eraseP_append_right _ hne, List.eraseP_cons, hself]
      rfl
    rw [hrest] at hes
    rw [hσ] at h
    exact h.exchange hx hes

/-- **What cleanups leave of serial assignments is serial.** -/
theorem cleanup {ks : List Cleanup} (hks : ∀ k ∈ ks, ∃ s, k.Needed R s) (h : Serial R σ.equations)
    (hτ : Cleanup.applyAll R ks σ = .ok (some τ)) : Serial R τ.equations := by
  refine Cleanup.of_applyAll (P := fun σ => Serial R σ.equations) (fun k hk σ τ hσ hτ => ?_) h hτ
  refine (Cleanup.of_apply (P := fun σ => Serial R σ.equations) (fun t ht σ τ hσ hτ => ?_) hσ hτ).1
  obtain ⟨s, hs⟩ := hks k hk
  obtain ⟨x, rfl⟩ := hs.exists_var t ht
  exact hσ.substituteAway hτ

end Serial
end EquationSet
end SecondOrder
