/-
# Substituting temporaries away

The solutions of a branch give values to the temporaries of its guess.
`Cleaned` is what the body of the guess keeps while one temporary after another
gives way to its value: its meaning under the solution, and the origin of its
variables.  In the end the body is ground (`substituteAway_all`), and the other
assignments are as they were.
-/

import SecondOrder.Proofs.Search.Branching
import SecondOrder.Proofs.Search.Course

namespace SecondOrder

namespace Valuation

open SecondOrder.Expr

variable {R : Reserved} {ρ : Valuation} {S : List Equation} {c : Equation} {n : Expr}

/-- Among assignments to different unknowns the one that is looked up is
found. -/
theorem find?_pattern (hdistinct : (S.map Equation.pattern).Nodup) (hc : c ∈ S)
    (hm : c.pattern.isMarked = true) : S.find? (c.pattern == ·.pattern) = some c := by
  have hcomm : (fun d : Equation => c.pattern == d.pattern) = fun d => d.pattern == c.pattern :=
    funext fun d => BEq.comm
  rw [hcomm]
  exact EquationSet.find?_of_distinct hdistinct hc hm

/-- An unknown that is assigned means what its value means. -/
theorem under_val_of_mem (h : GroundValues R S) (hdistinct : (S.map Equation.pattern).Nodup)
    (hc : c ∈ S) : (ρ.under R S).val c.pattern = c.subject.den R ρ := by
  rw [under_val h, find?_pattern hdistinct hc (h c hc).1]

/-- As an operation, it is what its value does with arguments. -/
theorem under_fn_of_mem (h : GroundValues R S) (hdistinct : (S.map Equation.pattern).Nodup)
    (hc : c ∈ S) : (ρ.under R S).fn c.pattern = c.subject.call R ρ (c.subject.den R ρ) := by
  rw [under_fn h, find?_pattern hdistinct hc (h c hc).1]

/-- An unknown that is not assigned is not found. -/
theorem find?_eq_none (h : GroundValues R S) (hn : ∀ c ∈ S, c.pattern ≠ n) :
    S.find? (n == ·.pattern) = none := by
  refine List.find?_eq_none.2 fun c hc hnc => hn c hc ?_
  exact ((beq_name_iff (isName_of_isMarked (h c hc).1)).1 hnc).symm

/-- It keeps the meaning that it had, -/
theorem under_val_of_not_mem (h : GroundValues R S) (hn : ∀ c ∈ S, c.pattern ≠ n) :
    (ρ.under R S).val n = ρ.val n := by
  rw [under_val h, find?_eq_none h hn]

/-- and the operation, too. -/
theorem under_fn_of_not_mem (h : GroundValues R S) (hn : ∀ c ∈ S, c.pattern ≠ n) :
    (ρ.under R S).fn n = ρ.fn n := by
  rw [under_fn h, find?_eq_none h hn]

/-- Assignments to other unknowns do not matter. -/
theorem under_of_sublist {S' : List Equation} (h : GroundValues R S)
    (hdistinct : (S.map Equation.pattern).Nodup) (hsub : S'.Sublist S)
    (hn : ∀ d ∈ S, d.pattern = n → d ∈ S') :
    (ρ.under R S').val n = (ρ.under R S).val n ∧ (ρ.under R S').fn n = (ρ.under R S).fn n := by
  have h' : GroundValues R S' := fun d hd => h d (hsub.subset hd)
  have hdistinct' := hdistinct.sublist (hsub.map Equation.pattern)
  by_cases hassigned : ∃ d ∈ S, d.pattern = n
  · obtain ⟨d, hd, rfl⟩ := hassigned
    have hd' := hn d hd rfl
    rw [under_val_of_mem h' hdistinct' hd', under_fn_of_mem h' hdistinct' hd',
      under_val_of_mem h hdistinct hd, under_fn_of_mem h hdistinct hd]
    exact ⟨rfl, rfl⟩
  · have hnone (d : Equation) (hd : d ∈ S) : d.pattern ≠ n := fun heq => hassigned ⟨d, hd, heq⟩
    have hnone' (d : Equation) (hd : d ∈ S') := hnone d (hsub.subset hd)
    rw [under_val_of_not_mem h' hnone', under_fn_of_not_mem h' hnone',
      under_val_of_not_mem h hnone, under_fn_of_not_mem h hnone]
    exact ⟨rfl, rfl⟩

/-- To assign what is assigned already changes nothing. -/
theorem under_assign (h : GroundValues R S) (hdistinct : (S.map Equation.pattern).Nodup)
    (hc : c ∈ S) : (ρ.under R S).assign R c = ρ.under R S := by
  have hmarked (d : Equation) (hd : d ∈ S) := (h d hd).1
  have hname := isName_of_isMarked (h c hc).1
  have hden := den_under (ρ := ρ) hmarked (h c hc).2
  refine congrArg₂ Valuation.mk (funext fun n => ?_) (funext fun n => ?_)
  · by_cases hn : n = c.pattern
    · rw [if_pos ((beq_name_iff hname).2 hn), hn, under_val_of_mem h hdistinct hc, hden]
    · rw [if_neg (mt (beq_name_iff hname).1 hn)]
  · by_cases hn : n = c.pattern
    · rw [if_pos ((beq_name_iff hname).2 hn), hn, under_fn_of_mem h hdistinct hc, hden]
      refine call_ground (h c hc).2 (fun m hm => ?_) _
      exact under_val_of_not_isMarked hmarked (not_isMarked_of_mem_names (h c hc).2 hm)
    · rw [if_neg (mt (beq_name_iff hname).1 hn)]

end Valuation

namespace Equation

open SecondOrder.Expr

variable {R : Reserved} {arity : Arity} {a : Equation} {b b' : Expr} {xs : Binders}

/-- An assignment goes into the body of a function if none of its parameters is
in the way. -/
theorem Carries.lambda (h : Carries R a b b') (hm : a.pattern.isMarked = true)
    (hplain : ∀ x ∈ xs.toList, x.marked = false)
    (hcapture : ∀ x ∈ xs.toList, .var x ∉ a.subject.names) :
    Carries R a (R.lambda xs b) (R.lambda xs b') := by
  obtain ⟨c, hc, hb⟩ := h
  refine ⟨R.lambda xs c, ?_, fun depth => ?_⟩
  · have hbound : xs.bound? a.pattern = none := by
      refine bound?_eq_none fun x hx h => ?_
      rw [h] at hm
      exact Bool.false_ne_true ((hplain x hx).symm.trans hm)
    rw [Reserved.lambda, subst_bind hbound (clearOf_of_apart hcapture), hc]
    rfl
  · rw [Reserved.lambda, contractFrom, hb]
    rfl

end Equation

namespace Cleanup

open SecondOrder.Expr Equation

variable {R : Reserved} {arity : Arity} {S as bs : List Equation} {a : Equation} {m b b₀ : Expr}
  {xs : Binders} {us ts : List Expr} {τ : EquationSet}

/-- A member that stands alone with its pattern is all that is erased with
it. -/
theorem eraseFirst_eq_filter (hdistinct : (S.map Equation.pattern).Nodup)
    (hm : ∀ c ∈ S, c.pattern.isMarked = true) (ha : a ∈ S) :
    EquationSet.eraseFirst a S = S.filter fun d => !(d.pattern == a.pattern) := by
  have hname := isName_of_isMarked (hm a ha)
  have hne {cs : List Equation} (h : a.pattern ∉ cs.map Equation.pattern) :
      cs.filter (fun d => !(d.pattern == a.pattern)) = cs := by
    refine List.filter_eq_self.2 fun d hd => ?_
    rw [Bool.not_eq_true', Bool.eq_false_iff]
    exact fun hda => h (List.mem_map.2 ⟨d, hd, (beq_name_iff hname).1 hda⟩)
  obtain ⟨ys, zs, rfl⟩ := List.append_of_mem ha
  rw [List.map_append, List.map_cons] at hdistinct
  obtain ⟨-, hzs, happ⟩ := List.nodup_append.1 hdistinct
  have hys : a.pattern ∉ ys.map Equation.pattern := fun h => happ _ h _ List.mem_cons_self rfl
  have hzs : a.pattern ∉ zs.map Equation.pattern := (List.nodup_cons.1 hzs).1
  have hkeep : ∀ d ∈ ys, (d == a) ≠ true := by
    intro d hd h
    have h : (d.pattern.similar a.pattern && d.subject.similar a.subject) = true := h
    rw [Bool.and_eq_true] at h
    exact hys (List.mem_map.2 ⟨d, hd, eq_of_similar_of_isMarked (hm a ha) h.1⟩)
  have hself : (a.pattern == a.pattern) = true := beq_self_eq_true _
  rw [EquationSet.eraseFirst, List.eraseP_append_right _ hkeep, List.eraseP_cons, a.beq_refl,
    List.filter_append, hne hys, List.filter_cons, hself, hne hzs]
  rfl

/-- To remove the assignment to a temporary leaves what stands before it. -/
theorem equations_remove {v : Expr} (heqs : τ.equations = as ++ ⟨m, v⟩ :: bs)
    (hdistinct : (τ.equations.map Equation.pattern).Nodup)
    (hm : ∀ c ∈ τ.equations, c.pattern.isMarked = true) (ha : a ∈ bs) :
    (τ.remove [a]).equations = as ++ ⟨m, v⟩ :: bs.filter fun d => !(d.pattern == a.pattern) := by
  have hmem : a ∈ τ.equations := heqs ▸ List.mem_append_right _ (List.mem_cons_of_mem _ ha)
  have hne (d : Equation) (hd : d ∈ as ++ [⟨m, v⟩]) : (!(d.pattern == a.pattern)) = true := by
    rw [heqs, List.append_cons, List.map_append] at hdistinct
    have happ := (List.nodup_append.1 hdistinct).2.2
    rw [Bool.not_eq_true', Bool.eq_false_iff]
    intro hda
    exact happ _ (List.mem_map_of_mem hd) _ (List.mem_map_of_mem ha)
      ((beq_name_iff (isName_of_isMarked (hm a hmem))).1 hda)
  change EquationSet.eraseFirst a τ.equations = _
  rw [eraseFirst_eq_filter hdistinct hm hmem, heqs, List.append_cons, List.filter_append,
    List.filter_eq_self.2 hne, ← List.append_cons]

/-- A temporary that is assigned a value gives way to it in all other
assignments. -/
theorem substituteAway_iff {v : Expr} (heqs : σ.equations = as ++ ⟨m, v⟩ :: bs)
    (hdistinct : (σ.equations.map Equation.pattern).Nodup)
    (hm : ∀ c ∈ σ.equations, c.pattern.isMarked = true) (ha : a ∈ bs) :
    substituteAway R σ a.pattern = .ok τ ↔
      ∃ ds, List.Forall₂ (fun c d => d.pattern = c.pattern ∧ a.apply R c.subject = .ok d.subject)
          (as ++ ⟨m, v⟩ :: bs.filter fun d => !(d.pattern == a.pattern)) ds ∧
        τ = { σ.remove [a] with equations := ds } := by
  have hmem : a ∈ σ.equations := heqs ▸ List.mem_append_right _ (List.mem_cons_of_mem _ ha)
  have hfind : (σ.find? fun d => d.pattern == a.pattern) = some a :=
    EquationSet.find?_of_distinct hdistinct hmem (hm a hmem)
  rw [substituteAway_eq_ok, hfind, ← equations_remove heqs hdistinct hm ha]
  constructor
  · rintro (⟨h, -⟩ | ⟨_, ds, h, hds⟩)
    · cases h
    · cases h
      exact ⟨ds, hds⟩
  · rintro ⟨ds, hds⟩
    exact .inr ⟨a, ds, rfl, hds⟩

/-- **Substituting one temporary away.**  The assignment to it goes; of the
others only the function that holds it changes. -/
theorem substituteAway_spec {b' : Expr} (heqs : τ.equations = as ++ ⟨m, R.lambda xs b⟩ :: bs)
    (hdistinct : (τ.equations.map Equation.pattern).Nodup)
    (hm : ∀ c ∈ τ.equations, c.pattern.isMarked = true) (ha : a ∈ bs)
    {x : Var} (hx : a.pattern = .var x)
    (hstay : ∀ d ∈ as ++ bs, Sorted R arity d.subject ∧ a.pattern ∉ d.subject.names)
    (hb : Carries R a (R.lambda xs b) (R.lambda xs b')) :
    ∃ τ', substituteAway R τ a.pattern = .ok τ' ∧
      τ'.equations = as ++ ⟨m, R.lambda xs b'⟩ :: bs.filter fun d => !(d.pattern == a.pattern) := by
  have hma := hm a (heqs ▸ List.mem_append_right _ (List.mem_cons_of_mem _ ha))
  have hkeep {cs : List Equation} (hcs : ∀ d ∈ cs, d ∈ as ++ bs) :
      List.Forall₂ (fun c d => d.pattern = c.pattern ∧ a.apply R c.subject = .ok d.subject) cs cs := by
    refine List.forall₂_same.2 fun d hd => ⟨rfl, ?_⟩
    obtain ⟨hsorted, hfree⟩ := hstay d (hcs d hd)
    have hfree : a.pattern ∉ d.subject.freeNames := by
      rw [hx] at hfree ⊢
      exact mt var_mem_freeNames_iff.1 hfree
    exact (Carries.of_not_mem hma hsorted hfree).apply
  refine ⟨{ τ.remove [a] with
    equations := as ++ ⟨m, R.lambda xs b'⟩ :: bs.filter fun d => !(d.pattern == a.pattern) },
    (substituteAway_iff heqs hdistinct hm ha).2 ⟨_, ?_, rfl⟩, rfl⟩
  exact List.rel_append (hkeep fun d hd => List.mem_append_left _ hd)
    (.cons ⟨rfl, hb.apply⟩ (hkeep fun d hd => List.mem_append_right _ (List.mem_filter.1 hd).1))

/-- The values `S` that a cleanup puts into a body `b₀` with parameters `xs`:
ground, each to an unknown of its own, and with parameters that occur nowhere
else. -/
structure Supply (R : Reserved) (arity : Arity) (S : List Equation) (xs : Binders) (b₀ : Expr) :
    Prop where
  values : ∀ c ∈ S, Proper R arity c ∧ Ground R c.subject
  distinct : (S.map Equation.pattern).Nodup
  params : ∀ c ∈ S, ∀ u, IsParam R arity c u → ¬u.Numbered 'x' ∧ u ∉ b₀.vars
  apart : ∀ c ∈ S, ∀ d ∈ S, c.pattern ≠ d.pattern → ∀ u, IsParam R arity c u → u ∉ d.subject.vars
  plain : ∀ x ∈ xs.toList, x.marked = false
  clear : ∀ c ∈ S, ∀ x ∈ xs.toList, x ∉ c.subject.vars

/-- The values that a cleanup puts in are ground and belong to unknowns. -/
theorem Supply.ground (h : Supply R arity S xs b₀) : GroundValues R S :=
  fun c hc => ⟨(h.values c hc).1.unknown, (h.values c hc).2⟩

/-- The body `b` is `b₀` with the unknowns `us` but for `ts` substituted
away. -/
structure Cleaned (R : Reserved) (arity : Arity) (S : List Equation) (b₀ : Expr) (us ts : List Expr)
    (b : Expr) : Prop where
  sorted : Sorted R arity b
  unknowns : ∀ n ∈ b.names, n.isMarked = true → n ∈ ts
  den : ∀ ρ : Valuation, b.den R (ρ.under R S) = b₀.den R (ρ.under R S)
  vars : ∀ z ∈ b.vars, z ∈ b₀.vars ∨ z.Numbered 'x' ∨
    ∃ d ∈ S, d.pattern ∈ us ∧ d.pattern ∉ ts ∧ z ∈ d.subject.vars
  slots : ∀ z ∈ b.slots, z ∈ b₀.slots ∨ z.Numbered 'x' ∨ ∃ d ∈ S, z ∈ d.subject.vars
  flat : b₀.slots = [] → (∀ d ∈ S, Bare R arity d) → b.slots = []

/-- One temporary less. -/
theorem Cleaned.step (hS : Supply R arity S xs b₀) (ha : a ∈ S) (hus : a.pattern ∈ us)
    (hts : a.pattern ∉ ts) (h : Cleaned R arity S b₀ us (a.pattern :: ts) b) :
    ∃ b', Carries R a (R.lambda xs b) (R.lambda xs b') ∧ Cleaned R arity S b₀ us ts b' := by
  obtain ⟨hproper, hground⟩ := hS.values a ha
  have hparam (u : Var) (hu : IsParam R arity a u) : u ∉ b.vars := by
    obtain ⟨hx, hb₀⟩ := hS.params a ha u hu
    intro hub
    rcases h.vars u hub with h | h | ⟨d, hd, -, hne, h⟩
    · exact hb₀ h
    · exact hx h
    · exact hS.apart a ha d hd (fun heq => hne (heq ▸ List.mem_cons_self)) u hu h
  obtain ⟨b', hcarries, happ, hvars, hslots, hflat⟩ := carries_spec hproper h.sorted hparam
    fun _ u hu => (hS.params a ha u hu).1
  refine ⟨b', hcarries.lambda hproper.unknown hS.plain fun x hx hfree => ?_, happ.sorted,
    fun n hn hm => ?_, fun ρ => ?_, fun z hz => ?_, fun z hz => ?_,
    fun hb₀ hbare => hflat ((hbare a ha).flat (h.flat hb₀ hbare))⟩
  · exact hS.clear a ha x hx (mem_vars_of_mem_names hfree)
  · rcases happ.unknowns n hn hm with ⟨hn, hne⟩ | hn
    · exact (List.mem_cons.1 (h.unknowns n hn hm)).resolve_left hne
    · exact absurd ((not_isMarked_of_mem_names hground hn).symm.trans hm) Bool.false_ne_true
  · rw [happ.den, Valuation.under_assign hS.ground hS.distinct ha, h.den]
  · rcases hvars z hz with hz | hz | hz
    · refine (h.vars z hz).imp_right (Or.imp_right ?_)
      exact fun ⟨d, hd, hdus, hne, hz⟩ =>
        ⟨d, hd, hdus, fun hmem => hne (List.mem_cons_of_mem _ hmem), hz⟩
    · exact .inr (.inr ⟨a, ha, hus, hts, hz⟩)
    · exact .inr (.inl hz.2)
  · rcases hslots z hz with hz | hz | hz
    · exact h.slots z hz
    · exact .inr (.inr ⟨a, ha, mem_vars_of_mem_slots hz⟩)
    · exact .inr (.inl hz)

/-- **Substituting all temporaries away** leaves a ground body. -/
theorem substituteAway_all (hS : Supply R arity S xs b₀) (hnodup : ts.Nodup)
    (hsub : ∀ t ∈ ts, t ∈ us)
    (heqs : τ.equations = as ++ ⟨m, R.lambda xs b⟩ :: bs)
    (hdistinct : (τ.equations.map Equation.pattern).Nodup)
    (hm : ∀ c ∈ τ.equations, c.pattern.isMarked = true) (hbs : ∀ c ∈ bs, c ∈ S)
    (hvar : ∀ t ∈ ts, ∃ x, t = .var x) (hts : ∀ t ∈ ts, ∃ c ∈ bs, c.pattern = t)
    (has : ∀ d ∈ as, Sorted R arity d.subject ∧ ∀ t ∈ ts, t ∉ d.subject.names)
    (h : Cleaned R arity S b₀ us ts b) :
    ∃ τ' b' bs', ts.foldlM (substituteAway R) τ = .ok τ' ∧
      τ'.equations = as ++ ⟨m, R.lambda xs b'⟩ :: bs' ∧ bs'.Sublist bs ∧
      (∀ d ∈ bs, d ∈ bs' ∨ d.pattern ∈ ts) ∧ (∀ d ∈ bs', d.pattern ∉ ts) ∧
      Cleaned R arity S b₀ us [] b' := by
  induction ts generalizing τ b bs with
  | nil => exact ⟨τ, b, bs, rfl, heqs, List.Sublist.refl _, fun _ hd => .inl hd, fun _ _ => nofun, h⟩
  | cons t ts ih =>
    obtain ⟨ht, htail⟩ := List.nodup_cons.1 hnodup
    obtain ⟨a, ha, rfl⟩ := hts t List.mem_cons_self
    have haS := hbs a ha
    have hname := isName_of_isMarked (hS.values a haS).1.unknown
    obtain ⟨b', hcarries, hcleaned⟩ := h.step hS haS (hsub _ List.mem_cons_self) ht
    have hstay (d : Equation) (hd : d ∈ as ++ bs) :
        Sorted R arity d.subject ∧ a.pattern ∉ d.subject.names := by
      rcases List.mem_append.1 hd with hd | hd
      · exact ⟨(has d hd).1, (has d hd).2 _ List.mem_cons_self⟩
      · obtain ⟨hproper, hground⟩ := hS.values d (hbs d hd)
        refine ⟨hproper.value, fun hfree => ?_⟩
        exact absurd ((not_isMarked_of_mem_names hground hfree).symm.trans
          (hS.values a haS).1.unknown) Bool.false_ne_true
    obtain ⟨x, hx⟩ := hvar _ List.mem_cons_self
    -- No equation before the function names the temporary and those after it are ground, so only
    -- the function changes.
    obtain ⟨τ₁, hτ₁, heqs₁⟩ := substituteAway_spec heqs hdistinct hm ha hx hstay hcarries
    have hpatterns : (τ₁.equations.map Equation.pattern).Sublist (τ.equations.map Equation.pattern) := by
      rw [heqs₁, heqs, List.map_append, List.map_append, List.map_cons, List.map_cons]
      exact (List.Sublist.refl _).append ((List.filter_sublist.map _).cons_cons _)
    have hkept (c : Equation) (hc : c ∈ bs) (hne : c.pattern ≠ a.pattern) :
        c ∈ bs.filter fun d => !(d.pattern == a.pattern) := by
      refine List.mem_filter.2 ⟨hc, ?_⟩
      rw [Bool.not_eq_true', Bool.eq_false_iff]
      exact fun h => hne ((beq_name_iff hname).1 h)
    have hm₁ (c : Equation) (hc : c ∈ τ₁.equations) : c.pattern.isMarked = true := by
      obtain ⟨d, hd, hdc⟩ := List.mem_map.1 (hpatterns.subset (List.mem_map_of_mem hc))
      exact hdc ▸ hm d hd
    have hts₁ (t : Expr) (ht' : t ∈ ts) :
        ∃ c ∈ bs.filter fun d => !(d.pattern == a.pattern), c.pattern = t := by
      obtain ⟨c, hc, rfl⟩ := hts t (List.mem_cons_of_mem _ ht')
      exact ⟨c, hkept c hc fun hca => ht (hca ▸ ht'), rfl⟩
    obtain ⟨τ', b'', bs', hτ', heqs', hbs', hcover, hgone, hclean'⟩ := ih htail
      (fun t ht => hsub t (List.mem_cons_of_mem _ ht)) heqs₁ (hdistinct.sublist hpatterns) hm₁
      (fun c hc => hbs c (List.mem_filter.1 hc).1)
      (fun t ht => hvar t (List.mem_cons_of_mem _ ht)) hts₁
      (fun d hd => ⟨(has d hd).1, fun u hu => (has d hd).2 u (List.mem_cons_of_mem _ hu)⟩) hcleaned
    refine ⟨τ', b'', bs', ?_, heqs', hbs'.trans List.filter_sublist, fun d hd => ?_, fun d hd => ?_,
      hclean'⟩
    · rw [List.foldlM_cons, hτ₁]
      exact hτ'
    · by_cases hda : d.pattern = a.pattern
      · exact .inr (hda ▸ List.mem_cons_self)
      · exact (hcover d (hkept d hd hda)).imp_right (List.mem_cons_of_mem _)
    · rw [List.mem_cons, not_or]
      refine ⟨fun hda => ?_, hgone d hd⟩
      have hfilter := (List.mem_filter.1 (hbs'.subset hd)).2
      rw [hda, beq_self_eq_true] at hfilter
      exact Bool.false_ne_true hfilter

end Cleanup
end SecondOrder
