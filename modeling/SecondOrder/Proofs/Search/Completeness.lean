/-
# Every solution is found

If a guide solves what is pending, the search returns exactly one solution that
follows the guide (`Guided.follows`): it gives every unknown that it assigns
the value that the guide tells.  The induction is that of the search.  The
deterministic part follows the guide, and at a branch point the branch of the
right guess does, while no other branch leads to a solution that follows it.
-/

import SecondOrder.Proofs.Search.Choice
import SecondOrder.Proofs.Search.Soundness

namespace SecondOrder

namespace Search

open SecondOrder.Expr Equation

variable {R : Reserved} {arity : Arity} {V : Var → Prop} {Θ Θ' : Expr → Term} {s t u : Search}
  {σ σ' τ τ₀ : EquationSet} {c : Equation} {g : Guess} {m b : Expr} {k n N : Nat} {xs : Binders}
  {ts : List Expr} {new : List Equation} {T : Term}

/-- The solution `τ` goes on from `σ` as the guide tells. -/
def Follows (R : Reserved) (Θ : Expr → Term) (σ τ : EquationSet) : Prop :=
  ∃ S, τ.equations = σ.equations ++ S ∧ ∀ d ∈ S, d.Meets R Θ

/-- To follow a guide from where it has led is to follow it from the start. -/
theorem follows_iff (hσ : σ'.equations = σ.equations ++ new) (hnew : ∀ d ∈ new, d.Meets R Θ)
    (hτ : ∃ S, τ.equations = σ'.equations ++ S) : Follows R Θ σ τ ↔ Follows R Θ σ' τ := by
  obtain ⟨S, hS⟩ := hτ
  have heqs : τ.equations = σ.equations ++ (new ++ S) := by rw [hS, hσ, List.append_assoc]
  constructor
  · rintro ⟨S', hS', hmeets⟩
    obtain rfl := List.append_cancel_left (hS'.symm.trans heqs)
    exact ⟨S, hS, fun d hd => hmeets d (List.mem_append_right _ hd)⟩
  · rintro ⟨S', hS', hmeets⟩
    obtain rfl := List.append_cancel_left (hS'.symm.trans hS)
    exact ⟨new ++ S', heqs, fun d hd => (List.mem_append.1 hd).elim (hnew d) (hmeets d)⟩

section Branched

variable (h : Branched R arity s σ c g m k N xs b ts t) (hT : Told R arity Θ c m k T)
  (hτ : Completes R (arity.extend ts (k + 1)) t (σ.copy.add [⟨m, R.lambda xs b⟩]) τ₀)

include h hT hτ

/-- A solution that follows the guide comes from the branch of the right guess,
and from one that follows the guide there. -/
theorem Branched.of_follows (happly : Cleanup.applyAll R (Branch.cleanups ⟨t, ts⟩ s) τ₀ = .ok (some τ))
    (hfollows : Follows R Θ σ τ) : g = T.guess ∧
      ∀ Θ', Chosen R (k + 1) Θ Θ' ts T → Follows R Θ' (σ.copy.add [⟨m, R.lambda xs b⟩]) τ₀ := by
  obtain ⟨S, heqs, hS⟩ := h.of_completes hτ
  obtain ⟨τ', b', S', heqs', hsub, hcover, hgone, hb, ⟨hnone, -⟩ | ⟨hkept, -⟩⟩ := h.cleanup hS heqs
  · cases hnone.symm.trans happly
  · cases hkept.symm.trans happly
    obtain ⟨S'', heqs'', hmeets⟩ := hfollows
    obtain rfl := List.append_cancel_left (heqs''.symm.trans heqs')
    obtain ⟨hguess, hall⟩ := h.of_meets hS hT hgone hb hcover hmeets
    refine ⟨hguess, fun Θ' hchosen => ⟨S, ?_, hall Θ' hchosen⟩⟩
    rw [heqs, h.assigned.equations, h.opened.deeper.2, ← List.append_cons]

/-- In the branch of the right guess what follows the guide is kept, and
follows it afterwards. -/
theorem Branched.follows (hg : Guided R arity V Θ s σ) (hguess : g = T.guess)
    (hchosen : Chosen R (k + 1) Θ Θ' ts T)
    (hfollows : Follows R Θ' (σ.copy.add [⟨m, R.lambda xs b⟩]) τ₀) :
    ∃ τ, Cleanup.applyAll R (Branch.cleanups ⟨t, ts⟩ s) τ₀ = .ok (some τ) ∧ Follows R Θ σ τ := by
  obtain ⟨S, heqs, hS⟩ := h.of_completes hτ
  have hmeets : ∀ d ∈ S, d.Meets R Θ' := by
    obtain ⟨S', heqs', hmeets⟩ := hfollows
    rw [h.assigned.equations, h.opened.deeper.2, ← List.append_cons, heqs] at heqs'
    exact (List.cons.inj (List.append_cancel_left heqs')).2 ▸ hmeets
  obtain ⟨τ, b', S', heqs', hsub, hcover, hgone, hb, hcleanup⟩ := h.cleanup hS heqs
  have hmeets' := h.meets hS hT hsub hgone hb hguess hchosen hmeets
  rcases hcleanup with ⟨-, x, hx, hrefused⟩ | ⟨hkept, -⟩
  · refine absurd (hrefused.symm.trans (respects_of_names (h.opened.exclusions x hx)
      (hg.spares.outers x hx) fun d hd z hz hfree => ?_)) Bool.false_ne_true
    rw [heqs'] at hd
    rcases List.mem_append.1 hd with hd | hd
    · exact hg.made d hd z hz hfree
    · have hd' : d.pattern.isMarked = true ∧ Ground R d.subject := by
        rcases List.mem_cons.1 hd with rfl | hd
        · exact ⟨(h.opened.unknownHead? h.mem h.head).1, (h.value hS hb).2⟩
        · exact hS.ground d (hsub.subset hd)
      exact hg.admits.names_of_meets (hmeets' d hd) hd'.1 hd'.2 hfree
  · exact ⟨τ, hkept, _, heqs', hmeets'⟩

end Branched

/-- What is found in the branches extends the solution under construction. -/
theorem Open.extends_of_explores {found : List EquationSet} {parts : List Search}
    (ho : Open R arity s σ) (hc : c ∈ s.pending.equations) (hr : c.rule R = .guess)
    (hu : c.unknownHead? = some (m, k))
    (h : Explores R (solve R n) s c (Guess.all (k + 1) c.subject) found parts) (hτ : τ ∈ found) :
    ∃ S, τ.equations = σ.equations ++ S := by
  obtain ⟨S, heqs, -⟩ := ho.completes_of_explores hc hr hu (fun ho h => ho.completes_of_solve h) h τ hτ
  exact ⟨S, heqs⟩

/-- A guide knows of an unknown to guess for. -/
theorem Guided.guesses {gs : List Guess} (hg : Guided R arity V Θ s σ) (ho : Open R arity s σ)
    (hc : c ∈ s.pending.equations) (hr : c.rule R = .guess) (hgs : s.guesses c = .ok gs) :
    ∃ m k, c.unknownHead? = some (m, k) ∧ gs = Guess.all (k + 1) c.subject := by
  obtain ⟨hp, he⟩ := ho.patterns c hc
  obtain ⟨m, as, hpattern, hm, hne, -⟩ := apply_of_guess hp he hr (hg.solved c hc)
  obtain ⟨k, hhead⟩ := exists_unknownHead? hpattern hm hne
  rcases guesses_spec hgs with ⟨hnone, -⟩ | hgs
  · cases hhead.symm.trans hnone
  · exact hgs

/-- At a branch point one solution of one branch follows the guide. -/
theorem Guided.follows_of_explores {found : List EquationSet} {parts : List Search}
    (hg : Guided R arity V Θ s σ) (ho : Open R arity s σ) (hc : c ∈ s.pending.equations)
    (hr : c.rule R = .guess) (hhead : c.unknownHead? = some (m, k))
    (ih : ∀ {arity : Arity} {Θ : Expr → Term} {s t : Search} {σ : EquationSet},
      Guided R arity V Θ s.begun σ → Open R arity s.begun σ → s.solve R n = some ⟨t, .ok ()⟩ →
      ∃! τ, τ ∈ t.solutions ∧ Follows R Θ σ τ)
    (h : Explores R (solve R n) s c (Guess.all (k + 1) c.subject) found parts) :
    ∃! τ, τ ∈ found ∧ Follows R Θ σ τ := by
  obtain ⟨T, hT⟩ := hg.told ho hc hr hhead
  have hmem := (Guided.mem_all hT (ho.patterns c hc).2).1
  obtain ⟨N, xs, b, ts, t, hsome, hbranched⟩ := hg.branched hT ho hc hr hhead
  obtain ⟨Θ', hchosen, hguided⟩ := hbranched.guided hg hT
  obtain ⟨t', -, hsolve⟩ := h.exists_part hmem hsome
  have hcompletes {g : Guess} {N : Nat} {xs : Binders} {b : Expr} {ts : List Expr} {t t' : Search}
      (hbranched : Branched R arity s σ c g m k N xs b ts t)
      (hsolve : t.solve R n = some ⟨t', .ok ()⟩) {τ : EquationSet} (hτ : τ ∈ t'.solutions) :
      Completes R (arity.extend ts (k + 1)) t (σ.copy.add [⟨m, R.lambda xs b⟩]) τ := by
    have hopen := hbranched.assigned.opened
    have h := (hopen.begun.symm ▸ hopen).completes_of_solve hsolve τ hτ
    rwa [hopen.begun] at h
  have hopen := hbranched.assigned.opened
  obtain ⟨τ₀, ⟨hτ₀, hfollows₀⟩, hunique⟩ :=
    ih (s := t) (hopen.begun.symm ▸ hguided) (hopen.begun.symm ▸ hopen) hsolve
  obtain ⟨τ, happly, hfollows⟩ :=
    hbranched.follows hT (hcompletes hbranched hsolve hτ₀) hg rfl hchosen hfollows₀
  refine ⟨τ, ⟨h.mem_iff.2 ⟨_, hmem, _, t', hsome, hsolve, τ₀, hτ₀, happly⟩, hfollows⟩, ?_⟩
  rintro τ' ⟨hτ', hfollows'⟩
  obtain ⟨g, hgs, br, t'', hbr, hsolve', τ₁, hτ₁, happly'⟩ := h.mem_iff.1 hτ'
  -- the guess is the right one, so that the branch is the one above
  obtain rfl : g = T.guess := by
    rcases ho.branched hc hr hhead hgs with hnone | ⟨N', xs', b', ts', t₁, hbr', hbranched'⟩
    · cases hnone.symm.trans hbr
    · cases hbr'.symm.trans hbr
      exact (hbranched'.of_follows hT (hcompletes hbranched' hsolve' hτ₁) happly' hfollows').1
  cases hsome.symm.trans hbr
  cases hsolve.symm.trans hsolve'
  obtain rfl := hunique τ₁ ⟨hτ₁,
    (hbranched.of_follows hT (hcompletes hbranched hsolve hτ₁) happly' hfollows').2 Θ' hchosen⟩
  cases happly.symm.trans happly'
  rfl

/-- **A search that is guided returns one solution that follows the guide.** -/
theorem Guided.follows (hg : Guided R arity V Θ s.begun σ) (ho : Open R arity s.begun σ)
    (h : s.solve R n = some ⟨t, .ok ()⟩) : ∃! τ, τ ∈ t.solutions ∧ Follows R Θ σ τ := by
  induction n generalizing arity Θ s σ t with
  | zero => cases h
  | succ n ih =>
    cases course_of_solve h with
    | forked many => exact absurd many ho.length_le
    | decided _ ran =>
      obtain ⟨u, hu, hstop⟩ := reaches_of_steps ran
      obtain ⟨σ', new, ho', heqs, hg', hnew⟩ := hg.reaches ho hu
      rcases hg'.ended ho' hstop with hlast | ⟨c, -, -, hlast⟩
      · cases hlast
        have hsolutions : u.solutions = [σ'] := ho'.solutions
        refine ⟨σ', ⟨by rw [hsolutions]; exact List.mem_singleton.2 rfl, new, heqs, hnew⟩, fun τ hτ => ?_⟩
        rw [hsolutions] at hτ
        exact List.mem_singleton.1 hτ.1
      · cases hlast
    | @branched _ _ _ found _ _ ran guesses explored =>
      have hstands := stands_of_run ran
      obtain ⟨σ', new, ho', heqs, hg', hnew⟩ := hg.reaches ho hstands.reached
      obtain ⟨m, k, hhead, rfl⟩ := hg'.guesses ho' hstands.mem hstands.rule guesses
      obtain ⟨τ, ⟨hτ, hfollows⟩, hunique⟩ :=
        hg'.follows_of_explores ho' hstands.mem hstands.rule hhead ih explored
      have hiff {υ : EquationSet} (hυ : υ ∈ found) : Follows R Θ σ υ ↔ Follows R Θ σ' υ :=
        follows_iff heqs hnew (ho'.extends_of_explores hstands.mem hstands.rule hhead explored hυ)
      refine ⟨τ, ⟨hτ, (hiff hτ).2 hfollows⟩, ?_⟩
      rintro τ' ⟨hτ', hfollows'⟩
      exact hunique τ' ⟨hτ', (hiff hτ').1 hfollows'⟩

end Search

end SecondOrder
