/-
# What a search that constructs a solution finds

Every solution that an ongoing search returns goes on from the one under
construction with final values, has a value for every temporary, and names no
unknown twice (`Concluded`).  Any two of them give one unknown different values
(`EquationSet.Conflict`): those from one branch did so before its temporaries
were filled in, and those from two branches give the unknown that was branched
on functions of different shapes (`Ongoing.solve`).
-/

import SecondOrder.Proofs.Search.Enumeration
import SecondOrder.Proofs.Search.Filled
import SecondOrder.Proofs.Search.Soundness

namespace SecondOrder

open SecondOrder.Expr

namespace EquationSet

variable {σ τ : EquationSet}

/-- The two sets give one unknown values that are not similar. -/
def Conflict (σ τ : EquationSet) : Prop :=
  ∃ c ∈ σ.equations, ∃ d ∈ τ.equations, c.pattern.isMarked = true ∧ c.pattern = d.pattern ∧
    c.subject.similar d.subject = false

/-- It does not matter which of the two sets is taken first. -/
theorem Conflict.symm (h : Conflict σ τ) : Conflict τ σ := by
  obtain ⟨c, hc, d, hd, hm, hcd, hne⟩ := h
  refine ⟨d, hd, c, hc, hcd ▸ hm, hcd.symm, Bool.eq_false_iff.2 fun hsim => ?_⟩
  rw [similar_symm hsim] at hne
  cases hne

/-- An unknown that is assigned once has one value. -/
theorem eq_of_assigned {c d : Equation} (h : σ.assigned.Nodup) (hc : c ∈ σ.equations)
    (hd : d ∈ σ.equations) (hcd : c.pattern = d.pattern) : c = d :=
  List.inj_on_of_nodup_map h hc hd hcd

/-- **Sets in conflict are not the same.** -/
theorem Conflict.beq_eq_false (hτ : τ.assigned.Nodup) (h : Conflict σ τ) : (σ == τ) = false := by
  obtain ⟨c, hc, d, hd, hm, hcd, hne⟩ := h
  rw [Bool.eq_false_iff]
  intro hsame
  have hsame : (σ.equations.all τ.contains && τ.equations.all σ.contains) = true := hsame
  rw [Bool.and_eq_true] at hsame
  obtain ⟨d', hd', hsame⟩ := List.any_eq_true.1 (List.all_eq_true.1 hsame.1 c hc)
  have hsame : (d'.pattern.similar c.pattern && d'.subject.similar c.subject) = true := hsame
  rw [Bool.and_eq_true] at hsame
  have hpattern := eq_of_similar_of_isMarked hm hsame.1
  obtain rfl := eq_of_assigned hτ hd' hd (hpattern.trans hcd)
  rw [similar_symm hsame.2] at hne
  cases hne

end EquationSet

/-- No guess is tried twice. -/
theorem Guess.nodup_all (k : Nat) (e : Expr) : (Guess.all k e).Nodup := by
  have hprojections : ((List.range k).map Guess.projection).Nodup :=
    List.nodup_range.map fun i j h => Guess.projection.inj h
  have hnot {g : Guess} (hg : ∀ i, Guess.projection i ≠ g) : g ∉ (List.range k).map Guess.projection :=
    fun h => (List.mem_map.1 h).elim fun i hi => hg i hi.2
  rw [Guess.all]
  split
  · refine List.nodup_append.2 ⟨hprojections, List.nodup_singleton _, fun g hg g' hg' heq => ?_⟩
    rw [heq, List.mem_singleton.1 hg'] at hg
    exact hnot (g := .imitation) (by simp) hg
  · exact List.nodup_cons.2 ⟨hnot (g := .constant) (by simp), hprojections⟩

section Shapes

variable {R : Reserved} {V : Var → Prop} {us : Binders} {S S' : List Equation} {e b b' : Expr}
  {g g' : Guess} {ts ts' : List Expr}

/-- **Different guesses leave functions of different shapes.** -/
theorem Filling.apart (hus : us.toList.Nodup) (he : ∀ u ∈ us.toList, u ∉ e.vars) (hg : g ≠ g')
    (h : Filling R V us S [] e g ts b) (h' : Filling R V us S' [] e g' ts' b') :
    (R.lambda us b).similar (R.lambda us b') = false := by
  rw [Bool.eq_false_iff]
  intro hsim
  rw [similar_iff_alphaEq, alphaEq, Reserved.lambda, Reserved.lambda, alphaIn, Bool.and_eq_true,
    List.append_nil] at hsim
  replace hsim := hsim.2
  have hdiagonal : ∀ p ∈ (us.toList.zip us.toList).reverse, p.1 = p.2 := by
    have hall : ∀ p ∈ (us.toList.zip us.toList).reverse ++ [], p.1 = p.2 :=
      diagonal_append (List.forall_mem_nil _)
    rwa [List.append_nil] at hall
  have hvar (x y : Var) (h : alphaIn (us.toList.zip us.toList).reverse (.var x) (.var y) = true) :
      x = y := by
    rw [alphaIn, sameVarIn_of_diagonal hdiagonal] at h
    exact eq_of_beq h
  -- No parameter occurs in the subject, so a constant is not taken for a projection.
  have hsubject (x : Var) (i : Nat) (hx : us.toList[i]? = some x) : e ≠ .var x := by
    rintro rfl
    exact he x (List.mem_of_getElem? hx) (List.mem_singleton.2 rfl)
  cases h with
  | constant atomic =>
    cases h' with
    | constant => exact hg rfl
    | @projection i x param =>
      cases e with
      | var y => exact hsubject x i param (congrArg _ (hvar y x hsim))
      | _ => cases hsim
    | app shape | bind shape =>
      subst shape
      cases atomic
  | @projection i x param =>
    cases h' with
    | constant =>
      cases e with
      | var y => exact hsubject x i param (congrArg _ (hvar x y hsim).symm)
      | _ => cases hsim
    | @projection j y param' =>
      obtain rfl := hvar x y hsim
      refine hg (congrArg _ ?_)
      obtain ⟨hi, hxi⟩ := List.getElem?_eq_some_iff.1 param
      obtain ⟨hj, hxj⟩ := List.getElem?_eq_some_iff.1 param'
      exact hus.getElem_inj_iff.1 (hxi.trans hxj.symm)
    | app | bind => cases hsim
  | app shape =>
    cases h' with
    | constant atomic =>
      subst shape
      cases atomic
    | projection => cases hsim
    | app | bind => exact hg rfl
  | bind shape =>
    cases h' with
    | constant atomic =>
      subst shape
      cases atomic
    | projection => cases hsim
    | app | bind => exact hg rfl

end Shapes

namespace Search

open Equation EquationSet

variable {R : Reserved} {A T : Expr → Prop} {V : Var → Prop} {s t : Search} {σ τ υ : EquationSet}
  {c : Equation} {m body : Expr} {us : Binders} {g : Guess} {b : Branch}

/-- The solution `τ` goes on from `σ` with final values, has one for every
temporary, and no two for any unknown. -/
structure Concluded (R : Reserved) (A T : Expr → Prop) (V : Var → Prop) (σ τ : EquationSet) :
    Prop where
  completed : Completed R A T V σ τ
  distinct : τ.assigned.Nodup
  assigned : ∀ m ∈ τ.assigned, A m ∨ T m
  all : ∀ u, T u → u ∈ τ.assigned

/-- A solution that has been concluded concludes what it started from. -/
theorem Concluded.trans (h : Concluded R A T V τ υ) (hστ : Completed R A T V σ τ) :
    Concluded R A T V σ υ :=
  ⟨hστ.trans h.completed, h.distinct, h.assigned, h.all⟩

/-- Fewer temporaries, and fewer variables. -/
theorem Final.mono {T' : Expr → Prop} {V' : Var → Prop} {d : Equation} (h : Final R A T V d)
    (hT : T d.pattern → T' d.pattern) (hV : ∀ x, V x → V' x) : Final R A T' V' d := by
  cases h with
  | ground unknown value => exact .ground unknown (value.mono_ground hV)
  | function unknown distinct params body =>
    exact .function (unknown.imp_right hT) distinct (fun u hu => ⟨(params u hu).1, hV u (params u hu).2⟩)
      (body.mono_ground hV)

/-- A final value applies no unknown at all, so it may stand wherever
temporaries are applied. -/
theorem Final.inert {d : Equation} (h : Final R A T V d) (T' : Expr → Prop) :
    Uses R (.inert R T') d.subject := by
  cases h with
  | ground _ value => exact value.inert_of_ground T'
  | function _ _ params body =>
    exact .bind rfl (fun u hu => ⟨(params u hu).1, nofun⟩) (body.inert_of_ground T')

namespace Tried

/-- What a search may name that has branched, it might name before. -/
theorem seen (h : Confined R A T V s σ) (ht : Tried R A T s σ c g m us body b τ) :
    ∀ x, s.Seen b.search.pending.nextFresh x → V x := by
  rintro x (hx | ⟨d, hd, hx⟩)
  · exact h.fresh x (hx.imp_right (mt (Var.Below.mono ht.counter)))
  · exact ((h.equations d hd).subject.ground_vars x hx).1

/-- The parameters of a branch are new in the sense that filling in asks
for. -/
theorem parameters (h : Confined R A T V s σ) (ht : Tried R A T s σ c g m us body b τ) :
    Parameters V us where
  plain u hu := (ht.params u hu).1
  unnumbered u hu hx := (ht.params u hu).2.2 (.inl (.inl hx))
  allowed u hu := h.fresh u (.inr (ht.params u hu).2.1)
  distinct := ht.distinct
  fresh x hx := h.fresh x (.inl hx)

/-- Whatever is pending has a ground subject, whose variables the search may
name. -/
theorem subject_ground (h : Confined R A T V s σ) (hc : c ∈ s.pending.equations) :
    Uses R (.ground R V) c.subject :=
  (h.equations c hc).subject.mono_ground fun _ hx => hx.1

/-- No parameter occurs in the subject, since the counter was past it. -/
theorem not_mem_subject (ht : Tried R A T s σ c g m us body b τ) (hc : c ∈ s.pending.equations) :
    ∀ u ∈ us.toList, u ∉ c.subject.vars :=
  fun u hu hx => (ht.params u hu).2.2 (.inr ⟨c, hc, hx⟩)

/-- The value of a temporary can be filled in. -/
theorem fills {d : Equation} (h : Confined R A T V s σ) (ht : Tried R A T s σ c g m us body b τ)
    (hd : Final R A (fun t => T t ∨ t ∈ b.temporaries) (s.Seen b.search.pending.nextFresh) d)
    (hmem : d.pattern ∈ b.temporaries) : d.Fills R V us := by
  have htemp := ht.temporaries _ hmem
  cases hd with
  | ground unknown => exact absurd (.inl unknown) htemp.2
  | function _ distinct params body =>
    refine .function htemp.1 distinct (body.mono_ground (ht.seen h)) fun u hu => ⟨fun hx => ?_, fun hx => ?_⟩
    · exact (ht.params u hu).2.2 (body.ground_vars u hx)
    · exact (ht.params u hu).2.2 (params u hx).2

/-- The solution `υ` of a branch and what a cleanup leaves of it: the
assignments `S` that came after the one of the guess, without those to
temporaries, which are filled in. -/
structure Cleared (R : Reserved) (V : Var → Prop) (σ : EquationSet) (e : Expr) (g : Guess) (m : Expr)
    (us : Binders) (body : Expr) (ts : List Expr) (υ υ' : EquationSet) (S S' : List Equation)
    (body' : Expr) : Prop where
  before : υ.equations = σ.equations ++ ⟨m, R.lambda us body⟩ :: S
  after : υ'.equations = σ.equations ++ ⟨m, R.lambda us body'⟩ :: S'
  sublist : S'.Sublist S
  kept : ∀ d, d ∈ S' ↔ d ∈ S ∧ d.pattern ∉ ts
  filling : Filling R V us S [] e g ts body'

/-- **A cleanup fills the temporaries of the branch in.** -/
theorem cleared {υ' : EquationSet} (h : Confined R A T V s σ) (hc : c ∈ s.pending.equations)
    (ht : Tried R A T s σ c g m us body b τ)
    (hυ : Concluded R A (fun t => T t ∨ t ∈ b.temporaries) (s.Seen b.search.pending.nextFresh) τ υ)
    (hclean : Cleanup.applyAll R (b.cleanups s) υ = .ok (some υ')) :
    ∃ S S' body', Cleared R V σ c.subject g m us body b.temporaries υ υ' S S' body' := by
  obtain ⟨S, hS, hfinal⟩ := hυ.completed
  rw [ht.equations, List.append_assoc] at hS
  have hfold : b.temporaries.foldlM (Cleanup.substituteAway R) υ = .ok υ' := by
    rw [Branch.cleanups] at hclean
    split at hclean
    · next hnil =>
      cases hclean
      rw [List.isEmpty_iff.1 hnil]
      rfl
    · obtain ⟨r, hr, hclean⟩ := bind_eq_ok.1 hclean
      obtain ⟨υ'', hυ'', hr⟩ := bind_eq_ok.1 hr
      cases r with
      | none => cases hclean
      | some r =>
        cases hclean
        split at hr <;> cases hr
        exact hυ''
  have hmarked (d : Equation) (hd : d ∈ υ.equations) : d.pattern.isMarked = true := by
    rcases hυ.assigned _ (List.mem_map_of_mem hd) with hA | hT | hmem
    · exact (h.unknowns _ (.inl hA)).1
    · exact (h.unknowns _ (.inr hT)).1
    · exact (ht.temporaries _ hmem).1
  have hvalue (t : Expr) (hmem : t ∈ b.temporaries) : ∃ d ∈ S, d.pattern = t ∧ d.Fills R V us := by
    have hassigned := hυ.all t (.inr hmem)
    rw [EquationSet.assigned, hS, List.map_append, List.map_append] at hassigned
    rcases List.mem_append.1 hassigned with hold | hnew
    · exact absurd (h.assigned t hold) (ht.temporaries t hmem).2
    · rcases List.mem_append.1 hnew with hm | hnew
      · exact absurd (List.mem_singleton.1 hm ▸ ht.unknown) (ht.temporaries t hmem).2
      · obtain ⟨d, hd, rfl⟩ := List.mem_map.1 hnew
        exact ⟨d, hd, rfl, ht.fills h (hfinal d hd) hmem⟩
  have hold (d : Equation) (hd : d ∈ σ.equations) (t : Expr) (hmem : t ∈ b.temporaries) :
      Uses R (.inert R (· ≠ t)) d.subject := by
    refine (h.values d hd).mono_inert fun u hu heq => ?_
    exact (ht.temporaries t hmem).2 (.inr (heq ▸ hu))
  obtain ⟨body', S', hafter, hsub, hkept, hfilling⟩ := Filling.foldlM (ht.parameters h)
    (subject_ground h hc) ht.unique (fun t hmem => (ht.temporaries t hmem).1) hS hυ.distinct hmarked
    (fun d hd => ⟨hd, (hfinal d hd).inert _⟩) hold hvalue
    (ht.trial.filling (subject_ground h hc) (fun t hmem => (ht.temporaries t hmem).1)
      (ht.not_mem_subject hc)) hfold
  exact ⟨S, S', body', hS, hafter, hsub, hkept, hfilling⟩

/-- **What a cleanup leaves goes on from the search that branched.** -/
theorem concluded {υ' : EquationSet} (h : Confined R A T V s σ) (hc : c ∈ s.pending.equations)
    (ht : Tried R A T s σ c g m us body b τ)
    (hυ : Concluded R A (fun t => T t ∨ t ∈ b.temporaries) (s.Seen b.search.pending.nextFresh) τ υ)
    (hclean : Cleanup.applyAll R (b.cleanups s) υ = .ok (some υ')) : Concluded R A T V σ υ' := by
  obtain ⟨S, S', body', hcleared⟩ := ht.cleared h hc hυ hclean
  obtain ⟨S₀, hS₀, hfinal⟩ := hυ.completed
  rw [ht.equations, List.append_assoc, hcleared.before] at hS₀
  obtain rfl : S = S₀ := (List.cons.inj (List.append_cancel_left hS₀)).2
  have hus := ht.parameters h
  have hground : Uses R (.ground R V) body' := hcleared.filling.uses (subject_ground h hc) hus
  have hpatterns : υ'.assigned.Sublist υ.assigned := by
    rw [EquationSet.assigned, EquationSet.assigned, hcleared.after, hcleared.before, List.map_append,
      List.map_append]
    exact (List.Sublist.refl _).append ((hcleared.sublist.map _).cons_cons _)
  have hmem (n : Expr) : n ∈ υ'.assigned ↔
      n ∈ σ.assigned ∨ n = m ∨ ∃ d ∈ S, d.pattern ∉ b.temporaries ∧ d.pattern = n := by
    rw [EquationSet.assigned, hcleared.after, List.map_append, List.mem_append, List.map_cons,
      List.mem_cons]
    refine or_congr_right (or_congr_right ?_)
    simp only [List.mem_map, hcleared.kept, and_assoc]
  refine ⟨⟨_, hcleared.after, List.forall_mem_cons.2 ⟨?_, fun d hd => ?_⟩⟩,
    hυ.distinct.sublist hpatterns, fun n hn => ?_, fun u hu => ?_⟩
  · exact .function ht.unknown hus.distinct (fun u hu => ⟨hus.plain u hu, hus.allowed u hu⟩) hground
  · obtain ⟨hd, hnot⟩ := (hcleared.kept d).1 hd
    exact (hfinal d hd).mono (fun hT => hT.resolve_right hnot) (ht.seen h)
  · rcases (hmem n).1 hn with hn | rfl | ⟨d, hd, hnot, rfl⟩
    · exact h.assigned n hn
    · exact ht.unknown
    · have hassigned := hυ.assigned d.pattern (List.mem_map_of_mem (by
        rw [hcleared.before]
        exact List.mem_append_right _ (List.mem_cons_of_mem _ hd)))
      exact hassigned.imp_right fun hT => hT.resolve_right hnot
  · have hassigned := hυ.all u (.inl hu)
    rw [EquationSet.assigned, hcleared.before, List.map_append, List.mem_append, List.map_cons,
      List.mem_cons] at hassigned
    refine (hmem u).2 (hassigned.imp_right (Or.imp_right fun hu' => ?_))
    obtain ⟨d, hd, rfl⟩ := List.mem_map.1 hu'
    exact ⟨d, hd, fun hmem => (ht.temporaries _ hmem).2 (.inr hu), rfl⟩

namespace Cleared

variable {S S' S₁ S₁' : List Equation} {υ' υ₁ υ₁' : EquationSet} {body' body₁ body₁' e : Expr}
  {ts ts₁ : List Expr} {g' : Guess}

/-- The solution before the cleanup: what it started from, the function that
was guessed and what the branch has added. -/
theorem mem_before {d : Equation} (h : Cleared R V σ e g m us body ts υ υ' S S' body') :
    d ∈ υ.equations ↔ d ∈ σ.equations ++ [⟨m, R.lambda us body⟩] ∨ d ∈ S := by
  rw [h.before, List.append_cons, List.mem_append]

/-- The solution after the cleanup: the same with the temporaries filled in. -/
theorem mem_after {d : Equation} (h : Cleared R V σ e g m us body ts υ υ' S S' body') :
    d ∈ υ'.equations ↔ d ∈ σ.equations ++ [⟨m, R.lambda us body'⟩] ∨ d ∈ S' := by
  rw [h.after, List.append_cons, List.mem_append]

/-- Functions that are not similar are a conflict. -/
theorem conflict_of_similar (hm : m.isMarked = true)
    (h : Cleared R V σ e g m us body ts υ υ' S S' body')
    (h' : Cleared R V σ e g' m us body₁ ts₁ υ₁ υ₁' S₁ S₁' body₁')
    (hne : (R.lambda us body').similar (R.lambda us body₁') = false) : Conflict υ' υ₁' :=
  ⟨_, h.mem_after.2 (.inl (List.mem_append_right _ List.mem_cons_self)), _,
    h'.mem_after.2 (.inl (List.mem_append_right _ List.mem_cons_self)), hm, rfl, hne⟩

/-- **Solutions of one branch stay in conflict** when their temporaries are
filled in. -/
theorem conflict (hm : m.isMarked = true) (hus : us.toList.Nodup) (hυ : υ.assigned.Nodup)
    (hυ₁ : υ₁.assigned.Nodup) (hne : Conflict υ υ₁)
    (h : Cleared R V σ e g m us body ts υ υ' S S' body')
    (h' : Cleared R V σ e g m us body ts υ₁ υ₁' S₁ S₁' body₁') : Conflict υ' υ₁' := by
  obtain ⟨c, hc, d, hd, hmc, hcd, hne⟩ := hne
  have hself : c ≠ d := by
    rintro rfl
    rw [similar, beq_self_eq_true, Bool.true_or] at hne
    cases hne
  -- an unknown that was assigned before the branch has one value in both solutions
  have hcS : c ∈ S := (h.mem_before.1 hc).resolve_left fun hold =>
    hself (eq_of_assigned hυ₁ (h'.mem_before.2 (.inl hold)) hd hcd)
  have hdS : d ∈ S₁ := (h'.mem_before.1 hd).resolve_left fun hold =>
    hself (eq_of_assigned hυ hc (h.mem_before.2 (.inl hold)) hcd)
  by_cases hts : c.pattern ∈ ts
  · refine h.conflict_of_similar hm h' (Bool.eq_false_iff.2 fun hsim => ?_)
    obtain ⟨c', hc', d', hd', hcc', hdd', hsim⟩ := h.filling.similar hus h'.filling hsim hts
    rw [eq_of_assigned hυ (h.mem_before.2 (.inr hc')) hc hcc',
      eq_of_assigned hυ₁ (h'.mem_before.2 (.inr hd')) hd (hdd'.trans hcd), hne] at hsim
    cases hsim
  · exact ⟨c, h.mem_after.2 (.inr ((h.kept c).2 ⟨hcS, hts⟩)), d,
      h'.mem_after.2 (.inr ((h'.kept d).2 ⟨hdS, hcd ▸ hts⟩)), hmc, hcd, hne⟩

end Cleared

end Tried

/-- Where an equation clashes nothing is found. -/
theorem solutions_of_clash {d : Equation} {n : Nat} (hone : s.solutions.length = 1)
    (hd : d ∈ s.pending.equations) (hr : d.rule R = .clash)
    (hs : s.solve R n = some ⟨t, .ok ()⟩) : t.solutions = [] := by
  have hclash := solve_of_clash (by omega) hd hr (Nat.le_refl 2)
  cases solve_unique hs hclash
  rfl

/-- What holds between the solutions of every branch, and of every two
branches, holds between all solutions. -/
theorem Explores.pairwise {P : EquationSet → EquationSet → Prop} {gs : List Guess}
    {solve : Search → Option (Attempt Search Unit)} {found : List EquationSet} {parts : List Search}
    (h : Explores R solve s c gs found parts) (hgs : gs.Nodup)
    (hone : ∀ g ∈ gs, ∀ b t τs, s.branch? R c g = .ok (some b) → solve b.search = some ⟨t, .ok ()⟩ →
      SecondOrder.Kept R (b.cleanups s) t.solutions τs → τs.Pairwise P)
    (htwo : ∀ g ∈ gs, ∀ g' ∈ gs, g ≠ g' → ∀ τ τ', FoundBy R solve s c g τ → FoundBy R solve s c g' τ' →
      P τ τ') : found.Pairwise P := by
  induction h with
  | nil => exact .nil
  | skip _ _ ih =>
    exact ih (List.nodup_cons.1 hgs).2 (fun g hg => hone g (List.mem_cons_of_mem _ hg))
      (fun g hg g' hg' => htwo g (List.mem_cons_of_mem _ hg) g' (List.mem_cons_of_mem _ hg'))
  | @take g gs b t cleaned _ _ opened solved cleans rest ih =>
    obtain ⟨hg, hgs⟩ := List.nodup_cons.1 hgs
    have hrest := ih hgs (fun g hg => hone g (List.mem_cons_of_mem _ hg))
      (fun g hg g' hg' => htwo g (List.mem_cons_of_mem _ hg) g' (List.mem_cons_of_mem _ hg'))
    have hfirst := hone g List.mem_cons_self b t _ opened solved (.of_mapM cleans)
    refine List.pairwise_append.2 ⟨hfirst, hrest, fun τ hτ τ' hτ' => ?_⟩
    obtain ⟨g', hg', hfound⟩ := rest.mem_iff.1 hτ'
    refine htwo g List.mem_cons_self g' (List.mem_cons_of_mem _ hg') (fun heq => hg (heq ▸ hg')) τ τ'
      ⟨b, t, opened, solved, ?_⟩ hfound
    exact exists_of_mapM_eq_ok cleans _ (List.reduceOption_mem_iff.1 hτ)

/-- What a cleanup keeps comes from a solution. -/
theorem exists_of_kept {ks : List Cleanup} {σs τs : List EquationSet} (h : SecondOrder.Kept R ks σs τs) :
    ∀ τ ∈ τs, ∃ σ ∈ σs, Cleanup.applyAll R ks σ = .ok (some τ) := by
  induction h with
  | nil => nofun
  | keep first _ ih =>
    refine List.forall_mem_cons.2 ⟨⟨_, List.mem_cons_self, first⟩, fun τ hτ => ?_⟩
    exact (ih τ hτ).imp fun σ hσ => ⟨List.mem_cons_of_mem _ hσ.1, hσ.2⟩
  | drop _ _ ih => exact fun τ hτ => (ih τ hτ).imp fun σ hσ => ⟨List.mem_cons_of_mem _ hσ.1, hσ.2⟩

/-- What holds between cleaned solutions if it held before. -/
theorem pairwise_kept {P Q : EquationSet → EquationSet → Prop} {ks : List Cleanup}
    {σs τs : List EquationSet}
    (hPQ : ∀ σ ∈ σs, ∀ σ' ∈ σs, ∀ τ τ', Cleanup.applyAll R ks σ = .ok (some τ) →
      Cleanup.applyAll R ks σ' = .ok (some τ') → P σ σ' → Q τ τ')
    (hP : σs.Pairwise P) (h : SecondOrder.Kept R ks σs τs) : τs.Pairwise Q := by
  induction h with
  | nil => exact .nil
  | keep first rest ih =>
    obtain ⟨hfirst, hP⟩ := List.pairwise_cons.1 hP
    refine List.pairwise_cons.2 ⟨fun τ' hτ' => ?_, ih (fun σ hσ σ' hσ' => ?_) hP⟩
    · obtain ⟨σ', hσ', hclean⟩ := exists_of_kept rest τ' hτ'
      exact hPQ _ List.mem_cons_self σ' (List.mem_cons_of_mem _ hσ') _ _ first hclean (hfirst σ' hσ')
    · exact hPQ σ (List.mem_cons_of_mem _ hσ) σ' (List.mem_cons_of_mem _ hσ')
  | drop first rest ih =>
    refine ih (fun σ hσ σ' hσ' => ?_) (List.pairwise_cons.1 hP).2
    exact hPQ σ (List.mem_cons_of_mem _ hσ) σ' (List.mem_cons_of_mem _ hσ')

/-- What is known of the solutions of an ongoing search: they go on from the
one under construction, and any two of them are in conflict. -/
def Separate (R : Reserved) (A T : Expr → Prop) (V : Var → Prop) (σ : EquationSet)
    (τs : List EquationSet) : Prop :=
  (∀ τ ∈ τs, Concluded R A T V σ τ) ∧ τs.Pairwise Conflict

/-- The branches of an ongoing search find such solutions if solving does. -/
theorem Ongoing.explore {k n : Nat} {found : List EquationSet} {parts : List Search}
    (h : Ongoing R A T V s σ) (hb : s.pending.best? R = some c) (hr : c.rule R = .guess)
    (hflex : c.pattern.isRedex R = false) (hhead : c.unknownHead? = some (m, k))
    (ih : ∀ {T : Expr → Prop} {V : Var → Prop} {s t : Search} {σ : EquationSet}, Ongoing R A T V s σ →
      s.solve R n = some ⟨t, .ok ()⟩ → Separate R A T V σ t.solutions)
    (hfound : Explores R (solve R n) s c (Guess.all (k + 1) c.subject) found parts) :
    Separate R A T V σ found := by
  have hc := mem_of_best? hb
  have hm := isMarked_of_unknownHead? hhead
  -- A branch goes on, or an equation clashes and it has no solution.
  have hbranch (g : Guess) (hg : g ∈ Guess.all (k + 1) c.subject) (b : Branch) (t : Search)
      (hbranch : s.branch? R c g = .ok (some b)) (hsolve : b.search.solve R n = some ⟨t, .ok ()⟩) :
      t.solutions = [] ∨ ∃ body τ, Tried R A T s σ c g m (s.pending.mintBinders k).1 body b τ ∧
        Separate R A (fun t => T t ∨ t ∈ b.temporaries) (s.Seen b.search.pending.nextFresh) τ
          t.solutions := by
    obtain ⟨body, τ, ht⟩ := h.toConfined.branch? hc hhead hg hbranch
    rcases h.tried hb hr hflex hhead ht with hongoing | ⟨d, hd, hclash⟩
    · exact .inr ⟨body, τ, ht, ih hongoing hsolve⟩
    · refine .inl (solutions_of_clash ?_ hd hclash hsolve)
      rw [ht.confined.solutions]
      rfl
  refine ⟨fun τ' hτ' => ?_, hfound.pairwise (Guess.nodup_all _ _) (fun g hg b t τs hb' hsolve hkept => ?_)
    (fun g hg g' hg' hne τ τ' hτ hτ' => ?_)⟩
  · -- every solution goes on from the one under construction
    obtain ⟨g, hg, b, t, hb', hsolve, υ, hυ, hclean⟩ := hfound.mem_iff.1 hτ'
    rcases hbranch g hg b t hb' hsolve with hnil | ⟨body, τ, ht, hsolutions, -⟩
    · rw [hnil] at hυ
      cases hυ
    · exact ht.concluded h.toConfined hc (hsolutions υ hυ) hclean
  · -- two solutions of one branch were in conflict before the cleanup
    rcases hbranch g hg b t hb' hsolve with hnil | ⟨body, τ, ht, hsolutions, hpairwise⟩
    · rw [hnil] at hkept
      cases hkept
      exact .nil
    · refine pairwise_kept (fun υ hυ υ₁ hυ₁ υ' υ₁' hclean hclean₁ hne => ?_) hpairwise hkept
      obtain ⟨S, S', body', hcleared⟩ := ht.cleared h.toConfined hc (hsolutions υ hυ) hclean
      obtain ⟨S₁, S₁', body₁', hcleared₁⟩ := ht.cleared h.toConfined hc (hsolutions υ₁ hυ₁) hclean₁
      exact hcleared.conflict hm ht.distinct (hsolutions υ hυ).distinct (hsolutions υ₁ hυ₁).distinct hne
        hcleared₁
  · -- solutions of two branches differ in the shape that was guessed
    obtain ⟨b, t, hb', hsolve, υ, hυ, hclean⟩ := hτ
    obtain ⟨b₁, t₁, hb₁, hsolve₁, υ₁, hυ₁, hclean₁⟩ := hτ'
    rcases hbranch g hg b t hb' hsolve with hnil | ⟨body, τ, ht, hsolutions, -⟩
    · rw [hnil] at hυ
      cases hυ
    rcases hbranch g' hg' b₁ t₁ hb₁ hsolve₁ with hnil | ⟨body₁, τ₁, ht₁, hsolutions₁, -⟩
    · rw [hnil] at hυ₁
      cases hυ₁
    obtain ⟨S, S', body', hcleared⟩ := ht.cleared h.toConfined hc (hsolutions υ hυ) hclean
    obtain ⟨S₁, S₁', body₁', hcleared₁⟩ := ht₁.cleared h.toConfined hc (hsolutions₁ υ₁ hυ₁) hclean₁
    exact hcleared.conflict_of_similar hm hcleared₁
      (hcleared.filling.apart ht.distinct (ht.not_mem_subject hc) hne hcleared₁.filling)

/-- **What an ongoing search returns:** solutions that go on from the one under
construction, any two of them in conflict. -/
theorem Ongoing.solve {n : Nat} (h : Ongoing R A T V s σ) (hs : s.solve R n = some ⟨t, .ok ()⟩) :
    Separate R A T V σ t.solutions := by
  induction n generalizing T V s σ t with
  | zero => cases hs
  | succ n ih =>
    have hbegun : s.begun = s := begun_of_ne_nil (h.solutions ▸ List.cons_ne_nil _ _)
    cases course_of_solve hs with
    | forked many =>
      rw [h.solutions] at many
      exact absurd many (Nat.lt_irrefl 1)
    | decided _ ran =>
      obtain ⟨u, hu, hstop⟩ := reaches_of_steps ran
      obtain ⟨τ, hτ, hστ⟩ := h.reaches (hbegun ▸ hu)
      have hnone {t : Search} (ht : t.solutions = []) : Separate R A T V σ t.solutions := by
        rw [ht]
        exact ⟨List.forall_mem_nil _, .nil⟩
      rcases halt_of_step hstop with ⟨hnil, hlast⟩ | ⟨c, -, hhalt⟩
      · cases hlast
        change Separate R A T V σ u.solutions
        rw [hτ.solutions]
        refine ⟨List.forall_mem_singleton.2 ⟨hστ, hτ.distinct, hτ.assigned, fun u hu => ?_⟩,
          List.pairwise_singleton ..⟩
        refine (hτ.awaited u hu).resolve_right ?_
        rw [hnil]
        rintro (⟨d, hd, -⟩ | ⟨d, ds, hds, -⟩)
        · cases hd
        · cases hds
      · cases hhalt with
        | clash => exact hnone rfl
        | excluded _ assigned =>
          obtain ⟨σ', rest, ds, -, -, -, rfl⟩ := assign_ok assigned
          exact hnone rfl
    | branched _ ran guesses explored =>
      have hstands := stands_of_run ran
      obtain ⟨τ, hτ, hστ⟩ := h.reaches (hbegun ▸ hstands.reached)
      rcases guesses_spec guesses with ⟨-, rfl⟩ | ⟨m, k, hhead, rfl⟩
      · cases explored
        exact ⟨List.forall_mem_nil _, .nil⟩
      · obtain ⟨hsolutions, hpairwise⟩ := hτ.explore hstands.best hstands.rule hstands.flex hhead ih explored
        exact ⟨fun υ hυ => (hsolutions υ hυ).trans hστ, hpairwise⟩

end Search
end SecondOrder
