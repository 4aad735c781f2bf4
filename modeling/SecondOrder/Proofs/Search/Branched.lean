/-
# What the solutions of a branch say about the search above

A solution of a branch gives every temporary of the guess a value: where it did
not, the equation that was branched on would be solved whatever the temporary
gives, and the guess shows that it is not (`Branched.exists_temporary`).  So
the temporaries can be substituted away, and what is left completes the
solution of the search that branched (`Branched.finishes`).
-/

import Mathlib.Data.List.Pairwise
import SecondOrder.Proofs.Search.Cleanup

namespace SecondOrder

namespace Expr

variable {R : Reserved} {e : Expr}

/-- The term of an atom is no slot. -/
theorem bound_not_mem_nodes (he : Ground R e) (hatom : e.isCompound = false) {i n : Nat} :
    .bound i ∉ (e.den R (Valuation.free R) n).nodes := by
  intro h
  cases e with
  | sym f =>
    have hf : f.marked = false := not_isMarked_of_ground he
    rw [den, hf] at h
    cases List.mem_singleton.1 h
  | app | bind => cases hatom
  | _ => cases List.mem_singleton.1 h

end Expr

namespace Equation

variable {R : Reserved} {arity arity' : Arity} {c : Equation} {u : Var}

/-- What the parameters are depends on the sort of the unknown alone. -/
theorem IsParam.congr (h : IsParam R arity c u) (hc : arity' c.pattern = arity c.pattern) :
    IsParam R arity' c u := ⟨hc ▸ h.1, h.2⟩

/-- The parameters of a function are in its slots. -/
theorem isParam_lambda {m b : Expr} {xs : Binders} (h : IsParam R arity ⟨m, R.lambda xs b⟩ u) :
    u ∈ xs.toList := by
  obtain ⟨-, us, b', hus, hu⟩ := h
  cases hus
  exact hu

end Equation

namespace Cleanup

open SecondOrder.Expr Equation

variable {R : Reserved} {arity : Arity} {S S' : List Equation} {b b' : Expr} {xs : Binders}
  {us : List Expr}

/-- Nothing unknown is left in the end. -/
theorem Cleaned.ground (h : Cleaned R arity S b us [] b') : Ground R b' :=
  ground_of_sorted h.sorted fun n hn => Bool.eq_false_iff.2 fun hm =>
    absurd (h.unknowns n hn hm) List.not_mem_nil

/-- **In the end the body means, for any arguments, what it meant under the
values.** -/
theorem Cleaned.den_enter (hS : Supply R arity S xs b) (hb : Sorted R arity b)
    (h : Cleaned R arity S b us [] b') (hS' : ∀ c ∈ S', c.pattern.isMarked = true)
    {ds : List Meaning} (hlen : xs.length = ds.length) (ρ : Valuation) :
    b'.den R ((ρ.under R S').enter xs.toList ds) = b.den R ((ρ.under R S).enter xs.toList ds) := by
  have hlen : xs.toList.length = ds.length := hlen
  have hcapture : ∀ c ∈ S, c.pattern ∈ b.names → ∀ x ∈ xs.toList, .var x ∉ c.subject.names :=
    fun c hc _ x hx hfree => hS.clear c hc x hx (mem_vars_of_mem_names hfree)
  calc b'.den R ((ρ.under R S').enter xs.toList ds)
      = b'.den R (ρ.enter xs.toList ds) := den_ground h.ground fun n hn =>
        Valuation.enter_val_congr hlen fun _ =>
          Valuation.under_val_of_not_isMarked hS' (not_isMarked_of_mem_names h.ground hn)
    _ = b'.den R ((ρ.enter xs.toList ds).under R S) :=
        (Valuation.den_under (fun c hc => (hS.values c hc).1.unknown) h.ground).symm
    _ = b.den R ((ρ.enter xs.toList ds).under R S) := h.den _
    _ = b.den R ((ρ.under R S).enter xs.toList ds) :=
        Valuation.den_enter_under hS.ground hb hlen hS.plain hcapture

/-- So the function gives the same. -/
theorem Cleaned.call_lambda (hS : Supply R arity S xs b) (hb : Sorted R arity b)
    (h : Cleaned R arity S b us [] b') (hS' : ∀ c ∈ S', c.pattern.isMarked = true)
    (ρ : Valuation) :
    (R.lambda xs b').call R (ρ.under R S') ((R.lambda xs b').den R (ρ.under R S')) =
      (R.lambda xs b).call R (ρ.under R S) ((R.lambda xs b).den R (ρ.under R S)) := by
  have hden : (R.lambda xs b').den R (ρ.under R S') = (R.lambda xs b).den R (ρ.under R S) := by
    rw [Reserved.lambda, Reserved.lambda, Expr.den, Expr.den]
    funext n
    rw [h.den_enter hS hb hS' (Meaning.length_levels ..).symm]
  rw [hden]
  funext ds
  by_cases hlen : xs.length = ds.length
  · rw [Equation.call_lambda hlen, Equation.call_lambda hlen, h.den_enter hS hb hS' hlen]
  · rw [Reserved.lambda, Reserved.lambda, call, call, if_neg fun h => hlen h.2,
      if_neg fun h => hlen h.2]

end Cleanup

namespace Search

open SecondOrder.Expr Equation Cleanup

variable {R : Reserved} {arity : Arity} {s t : Search} {σ τ : EquationSet} {c d : Equation}
  {g : Guess} {m b b' : Expr} {k N : Nat} {xs : Binders} {ts : List Expr} {S S' : List Equation}
  {x : Exclusion}

/-- The search `t` is the branch of `s` at `c` in which the function `m` of
`k + 1` arguments is guessed by `g` to be `λ xs. b`, with the temporaries
`ts`. -/
structure Branched (R : Reserved) (arity : Arity) (s : Search) (σ : EquationSet) (c : Equation)
    (g : Guess) (m : Expr) (k N : Nat) (xs : Binders) (b : Expr) (ts : List Expr) (t : Search) : Prop where
  opened : Open R arity s σ
  mem : c ∈ s.pending.equations
  rule : c.rule R = .guess
  head : c.unknownHead? = some (m, k)
  shape : Shape R s.pending.nextFresh N k c.subject g xs b ts
  assigned : Assigned R (arity.extend ts (k + 1)) (s.minting N) σ.copy ⟨m, R.lambda xs b⟩ t


namespace Branched

variable (h : Branched R arity s σ c g m k N xs b ts t)
  (hS : Finishes R (arity.extend ts (k + 1)) t S)

include h

/-- The assignment of the guess moves no counter. -/
theorem counter : t.pending.nextFresh = N := h.assigned.counter

/-- A temporary is none of the names below the counter that the branch started
from. -/
theorem not_mem {n : Expr} (hn : ∀ x, n = .var x → x.Below s.pending.nextFresh) : n ∉ ts :=
  h.shape.not_mem hn

/-- What is no temporary keeps its sort in the branch. -/
theorem sort_of_not_mem {n : Expr} (hn : n ∉ ts) : arity.extend ts (k + 1) n = arity n :=
  h.shape.extend_of_not_mem hn

/-- The body of the guess is sorted in the branch. -/
theorem sorted_body : Sorted R (arity.extend ts (k + 1)) b := h.shape.sorted_body

/-- What the branch treats comes from what was pending. -/
theorem instantiated (hd : d ∈ t.pending.equations) :
    ∃ e ∈ s.pending.equations, Instantiated R (arity.extend ts (k + 1)) ⟨m, R.lambda xs b⟩ e d := by
  obtain ⟨e, he, hi⟩ := exists_of_forall₂ h.assigned.instantiated d hd
  exact ⟨e, (EquationSet.grows_copy s.pending).1.subset he, hi⟩

include hS

/-- A solution of the branch solves, together with the guess, all that was
pending. -/
theorem solved_guess (hd : d ∈ s.pending.equations) : Solved R (⟨m, R.lambda xs b⟩ :: S) d := by
  obtain ⟨e, he, hed⟩ := (EquationSet.grows_copy s.pending).2 d hd
  obtain ⟨e', he', hi⟩ := exists_of_forall₂_left h.assigned.instantiated e he
  have hsolved : Solved R S ⟨e'.pattern, e.subject⟩ := hi.subject ▸ hS.solved e' he'
  have hmem := (EquationSet.grows_copy s.pending).1.subset he
  exact (SolvedIn.congr (h.opened.patterns e hmem) (h.opened.patterns d hd) hed).1
    (hi.applied.solved.1 hsolved)

/-- Only where an unknown is applied a branch has solutions. -/
theorem applies : ∃ as, c.pattern = .app (.sym R.applySym) (m :: as) ∧ as.length = k + 1 ∧
    arity m = some (k + 1) := by
  obtain ⟨hp, he⟩ := h.opened.patterns c h.mem
  obtain ⟨m', as, hpattern, hm, hne, hsort⟩ :=
    apply_of_guess hp he h.rule (h.solved_guess hS h.mem)
  obtain ⟨rfl, hlen⟩ := unknownHead?_of_apply hpattern hm h.head
  exact ⟨as, hpattern, hlen, hlen ▸ hsort⟩

/-- The guess gives the subject for some arguments. -/
theorem exists_args (ρ : Valuation) : ∃ ds : List Meaning, xs.length = ds.length ∧
    b.den R ((ρ.under R S).enter xs.toList ds) = c.subject.den R ρ := by
  obtain ⟨as, hpattern, hlen, -⟩ := h.applies hS
  have hm := (h.opened.unknownHead? h.mem h.head).1
  have hne : as ≠ [] := List.ne_nil_of_length_eq_add_one hlen
  have hsolved := h.solved_guess hS h.mem ρ
  dsimp only at hsolved
  rw [hpattern, den_apply hm hne, Valuation.under] at hsolved
  have hfn := Valuation.assign_fn_self (R := R) (ρ.under R S) ⟨m, R.lambda xs b⟩
  dsimp only at hfn
  refine ⟨as.map (den R ((ρ.under R S).assign R ⟨m, R.lambda xs b⟩)), ?_, ?_⟩
  · rw [List.length_map, hlen, h.shape.length]
  · rw [hfn, call_lambda (by rw [List.length_map, hlen, h.shape.length])] at hsolved
    exact hsolved

/-- **Every temporary has a value.**  Without one it might give anything, and
the guess would give different things accordingly. -/
theorem exists_temporary {n : Expr} (hn : n ∈ ts) : ∃ d ∈ S, d.pattern = n := by
  refine Classical.byContradiction fun hnone => ?_
  have hne (d : Equation) (hd : d ∈ S) : d.pattern ≠ n := fun heq => hnone ⟨d, hd, heq⟩
  let ρ (i : Nat) : Valuation := { Valuation.free R with fn := fun _ _ _ => .bound i }
  have hfn (i : Nat) : ((ρ i).under R S).fn n = fun _ _ => .bound i :=
    Valuation.under_fn_of_not_mem hS.ground hne
  obtain ⟨ds, hlen, hds⟩ := h.exists_args hS (ρ 0)
  obtain ⟨ds', hlen', hds'⟩ := h.exists_args hS (ρ 1)
  refine h.shape.shows hn hlen hlen' (hfn 0) (hfn 1) ?_
  rw [hds, hds']
  exact den_ground (h.opened.patterns c h.mem).2 fun _ _ => rfl

/-- What is closed under the variables of the search above is so for the
branch. -/
theorem closed {A : Var → Prop} (hsubjects : ∀ d ∈ s.pending.equations, ∀ z ∈ d.subject.vars, A z)
    (hminted : ∀ z : Var, ¬z.Below N → A z) (hfresh : ∀ z : Var, z.Numbered 'x' → A z) :
    ∀ d ∈ S, ∀ z ∈ d.subject.vars, A z := by
  refine hS.origin A ⟨fun d hd z hz => ?_, fun z hz => hminted z (h.counter ▸ hz), hfresh⟩
  obtain ⟨e, he, hi⟩ := h.instantiated hd
  rw [hi.subject] at hz
  exact hsubjects e he z hz

/-- The values of the branch can be put into the guess. -/
theorem supply : Supply R (arity.extend ts (k + 1)) S xs b where
  values := hS.values
  distinct := hS.distinct
  params d hd u hu := by
    have hhigh := hS.params d hd u hu
    refine ⟨fun hx => hhigh (hx.below _), fun hub => hhigh ?_⟩
    refine (h.assigned.opened.made ⟨m, R.lambda xs b⟩ ?_).2.2.2 u (mem_vars_bind.2 (.inr hub))
    rw [h.assigned.equations]
    exact List.mem_append_right _ List.mem_cons_self
  apart d hd e he hne u hu := by
    have : Std.Symm fun c d : Equation =>
        (∀ u, IsParam R (arity.extend ts (k + 1)) c u → u ∉ d.subject.vars) ∧
          ∀ u, IsParam R (arity.extend ts (k + 1)) d u → u ∉ c.subject.vars :=
      ⟨fun _ _ => And.symm⟩
    exact (hS.apart.forall hd he fun heq => hne (congrArg Equation.pattern heq)).1 u hu
  plain x hx := (h.shape.params x hx).1
  clear d hd x hx hmem := by
    refine h.closed hS (A := fun z => z ∉ xs.toList) (fun e he z hz hzx => ?_) (fun z hz hzx => ?_)
      (fun z hz hzx => ?_) d hd x hmem hx
    · exact (h.shape.params z hzx).2.1 ((h.opened.below e he).2 z hz)
    · exact hz (h.shape.params z hzx).2.2
    · exact (h.shape.params z hzx).2.1 (hz.below _)

omit hS in
/-- Before any temporary has been substituted away the body is what it is. -/
theorem cleaned : Cleaned R (arity.extend ts (k + 1)) S b ts ts b :=
  ⟨h.sorted_body, h.shape.unknowns, fun _ => rfl, fun _ => .inl, fun _ => .inl, fun hb _ => hb⟩

/-- No unknown is assigned twice. -/
theorem distinct_found (hτ : τ.equations = σ.equations ++ ⟨m, R.lambda xs b⟩ :: S) :
    (τ.equations.map Equation.pattern).Nodup ∧ ∀ d ∈ τ.equations, d.pattern.isMarked = true := by
  have heqs : τ.equations = (σ.copy.add [⟨m, R.lambda xs b⟩]).equations ++ S := by
    rw [hτ, h.assigned.equations, h.opened.deeper.2, List.append_cons]
  have hmade := h.assigned.opened
  rw [heqs]
  refine ⟨?_, fun d hd => ?_⟩
  · rw [List.map_append]
    refine List.nodup_append.2 ⟨hmade.distinct, hS.distinct, fun p hp q hq heq => ?_⟩
    obtain ⟨d, hd, rfl⟩ := List.mem_map.1 hp
    obtain ⟨e, he, rfl⟩ := List.mem_map.1 hq
    obtain ⟨e', he', hfree⟩ := hS.occurs e he
    exact hmade.apart d hd e' he' (heq ▸ hfree)
  · exact (List.mem_append.1 hd).elim (fun hd => (hmade.made d hd).1) fun hd => (hS.values d hd).1.unknown

/-- The temporaries are substituted away without a fault. -/
theorem substituteAway (hτ : τ.equations = σ.equations ++ ⟨m, R.lambda xs b⟩ :: S) :
    ∃ τ' b' S', ts.foldlM (Cleanup.substituteAway R) τ = .ok τ' ∧
      τ'.equations = σ.equations ++ ⟨m, R.lambda xs b'⟩ :: S' ∧ S'.Sublist S ∧
      (∀ d ∈ S, d ∈ S' ∨ d.pattern ∈ ts) ∧ (∀ d ∈ S', d.pattern ∉ ts) ∧
      Cleaned R (arity.extend ts (k + 1)) S b ts [] b' := by
  obtain ⟨hdistinct, hm⟩ := h.distinct_found hS hτ
  refine substituteAway_all (h.supply hS) h.shape.distinct (fun _ ht => ht) hτ hdistinct hm
    (fun _ hd => hd) (fun n hn => ?_) (fun n hn => ?_) (fun d hd => ?_) (h.cleaned)
  · obtain ⟨x, hx, -⟩ := h.shape.temporaries n hn
    exact ⟨x, hx⟩
  · obtain ⟨d, hd, rfl⟩ := h.exists_temporary hS hn
    exact ⟨d, hd, rfl⟩
  · have hd' : d ∈ (σ.copy.add [⟨m, R.lambda xs b⟩]).equations := by
      rw [h.assigned.equations, h.opened.deeper.2]
      exact List.mem_append_left _ hd
    refine ⟨(h.assigned.opened.made d hd').2.1, fun n hn hfree => ?_⟩
    refine h.not_mem (fun x hx => ?_) hn
    exact below_of_names hfree (h.opened.made d hd).2.2.2 hx

section Cleaned

variable (hsub : S'.Sublist S) (hcover : ∀ d ∈ S, d ∈ S' ∨ d.pattern ∈ ts)
  (hgone : ∀ d ∈ S', d.pattern ∉ ts) (hb : Cleaned R (arity.extend ts (k + 1)) S b ts [] b')

include hsub hcover hb

/-- With the cleaned function all that was pending is solved. -/
theorem solved (hd : d ∈ s.pending.equations) : Solved R (⟨m, R.lambda xs b'⟩ :: S') d := by
  have hm := (h.opened.unknownHead? h.mem h.head).1
  have hmarked (e : Equation) (he : e ∈ S') := (hS.ground e (hsub.subset he)).1
  have hsupply := h.supply hS
  obtain ⟨-, -, -, hsort⟩ := h.applies hS
  intro ρ
  refine Eq.trans ?_ (h.solved_guess hS hd ρ)
  refine den_congr (h.opened.patterns d hd).1 fun n hn => ?_
  by_cases hnm : n = m
  · subst hnm
    refine ⟨fun hplain => absurd ⟨hm, by rw [hsort]; nofun⟩ hplain, fun _ => ?_⟩
    have hfn := Valuation.assign_fn_self (R := R) (ρ.under R S) ⟨n, R.lambda xs b⟩
    have hfn' := Valuation.assign_fn_self (R := R) (ρ.under R S') ⟨n, R.lambda xs b'⟩
    exact hfn'.trans ((hb.call_lambda hsupply h.sorted_body hmarked ρ).trans hfn.symm)
  · have hname : IsName m := isName_of_isMarked hm
    have hnts := h.not_mem fun x hx => below_of_names hn (h.opened.below d hd).1 hx
    obtain ⟨hval, hfn⟩ := Valuation.under_of_sublist (ρ := ρ) hS.ground hS.distinct hsub (n := n)
      fun e he heq => (hcover e he).resolve_right (heq ▸ hnts)
    refine ⟨fun _ => ?_, fun _ => ?_⟩
    · exact (Valuation.assign_val_of_ne (c := ⟨m, R.lambda xs b'⟩) hname hnm).trans
        (hval.trans (Valuation.assign_val_of_ne (c := ⟨m, R.lambda xs b⟩) hname hnm).symm)
    · exact (Valuation.assign_fn_of_ne (c := ⟨m, R.lambda xs b'⟩) hname hnm).trans
        (hfn.trans (Valuation.assign_fn_of_ne (c := ⟨m, R.lambda xs b⟩) hname hnm).symm)

omit hsub hcover in
/-- The cleaned function is ground, and no binding in it binds a parameter
again. -/
theorem value : Proper R arity ⟨m, R.lambda xs b'⟩ ∧ Ground R (R.lambda xs b') := by
  have hm := (h.opened.unknownHead? h.mem h.head).1
  have hground : Ground R (R.lambda xs b') := fun arity =>
    .bind (fun x hx => (h.shape.params x hx).1) h.shape.nodup (hb.ground arity)
  refine ⟨⟨hm, hground arity, fun n hn => ⟨xs, b', rfl, ?_, fun u hu hub => ?_⟩⟩, hground⟩
  · rw [h.shape.length, (h.opened.unknownHead? h.mem h.head).2.2 n hn]
  · have hlow := (h.shape.params u hu).2.1
    rcases hb.slots u hub with hub | hx | ⟨d, hd, hud⟩
    · exact hlow ((h.opened.below c h.mem).2 u (mem_vars_of_mem_slots (h.shape.slots u hub)))
    · exact hlow (hx.below _)
    · exact (h.supply hS).clear d hd u hu hud

omit hsub hcover in
/-- The term of the cleaned function is what the guess gives for the
parameters. -/
theorem den_cleaned : (R.lambda xs b').den R (.free R) 0 = .bind R.lambdaSym (k + 1)
    (g.outcome R c.subject ts ((Valuation.free R).under R S) (Meaning.levels 0 (k + 1)) (k + 1)) := by
  have hlen : xs.length = (Meaning.levels 0 (k + 1)).length := by
    rw [Meaning.length_levels, h.shape.length]
  have hnone : ∀ c ∈ ([] : List Equation), c.pattern.isMarked = true := nofun
  have hbody := hb.den_enter (h.supply hS) h.sorted_body hnone hlen (.free R)
  rw [h.shape.gives _ _ hlen] at hbody
  rw [Reserved.lambda, Expr.den]
  dsimp only
  rw [h.shape.length, Nat.zero_add]
  exact congrArg _ (congrFun hbody _)

omit hsub hcover hb in
/-- What a temporary gives for the parameters. -/
theorem temporary {n : Expr} (hn : n ∈ ts) : ∃ d ∈ S, d.pattern = n ∧ ∃ u : Term,
    d.subject.den R (.free R) 0 = .bind R.lambdaSym (k + 1) u ∧ u.Below (k + 1) ∧
      ∀ j, ((Valuation.free R).under R S).fn n (Meaning.levels 0 (k + 1)) j = u := by
  obtain ⟨d, hd, rfl⟩ := h.exists_temporary hS hn
  obtain ⟨u, hden, hu⟩ := hS.function d hd (k + 1) (Arity.extend_of_mem hn)
  refine ⟨d, hd, rfl, u, hden, hu, fun j => ?_⟩
  rw [Valuation.under_fn_of_mem hS.ground hS.distinct hd, call_eq_call (hS.ground d hd).2, hden,
    Term.call_lambda (Meaning.length_levels ..).symm]
  have hbelow : u.Below (Meaning.levels 0 (k + 1)).length := by rwa [Meaning.length_levels]
  exact (Term.fill_of_below hbelow j (k + 1) j).trans (Term.fill_free_levels ..)

omit hsub hcover hb in
/-- Where the slots and variables in what the guess gives come from. -/
theorem mem_nodes_outcome {w : Term} (happ : ∀ u us, w ≠ .app u us) (hbind : ∀ f n u, w ≠ .bind f n u)
    (hw : w ∈ (g.outcome R c.subject ts ((Valuation.free R).under R S) (Meaning.levels 0 (k + 1))
      (k + 1)).nodes) :
    w ∈ (c.subject.den R (.free R) (k + 1)).nodes ∧ c.subject.isCompound = false ∨
      (∃ i < k + 1, w = .bound i) ∨ ∃ d ∈ S, d.pattern ∈ ts ∧ ∃ u : Term,
        d.subject.den R (.free R) 0 = .bind R.lambdaSym (k + 1) u ∧ u.Below (k + 1) ∧ w ∈ u.nodes := by
  have he := (h.opened.patterns c h.mem).2
  have hguess := h.shape.guess
  have hcount := h.shape.count
  have hpart {n : Expr} (hn : n ∈ ts) {j : Nat}
      (hw : w ∈ (((Valuation.free R).under R S).fn n (Meaning.levels 0 (k + 1)) j).nodes) :
      ∃ d ∈ S, d.pattern ∈ ts ∧ ∃ u : Term, d.subject.den R (.free R) 0 =
        .bind R.lambdaSym (k + 1) u ∧ u.Below (k + 1) ∧ w ∈ u.nodes := by
    obtain ⟨d, hd, rfl, u, hden, hu, hfn⟩ := h.temporary hS hn
    rw [hfn] at hw
    exact ⟨d, hd, hn, u, hden, hu, hw⟩
  cases g with
  | constant =>
    have hden := congrFun (Valuation.den_under (ρ := .free R) (fun d hd => (hS.ground d hd).1) he) (k + 1)
    rw [Guess.outcome, hden] at hw
    exact .inl ⟨hw, Guess.isCompound_of_constant hguess⟩
  | projection i =>
    have hi := Guess.lt_of_projection hguess
    rw [Guess.outcome, List.getD_eq_getElem?_getD, Term.getElem?_levels hi, Nat.zero_add] at hw
    exact .inr (.inl ⟨i, hi, List.mem_singleton.1 hw⟩)
  | imitation =>
    have hcompound := Guess.isCompound_of_imitation hguess
    rw [Guess.outcome] at hw
    generalize c.subject = e at hcompound hcount hw
    cases e with
    | app f as =>
      obtain ⟨n, ns, rfl⟩ : ∃ n ns, ts = n :: ns := List.exists_cons_of_length_eq_add_one hcount
      rcases Term.mem_nodes_app.1 hw with hw | hw | ⟨u, hu, hw⟩
      · exact absurd hw (happ _ _)
      · exact .inr (.inr (hpart List.mem_cons_self hw))
      · rw [List.map_map] at hu
        obtain ⟨n', hn', rfl⟩ := List.mem_map.1 hu
        exact .inr (.inr (hpart (List.mem_cons_of_mem _ hn') hw))
    | bind f ys d =>
      obtain ⟨n, ns, rfl⟩ : ∃ n ns, ts = n :: ns := List.exists_cons_of_length_eq_add_one hcount
      rcases Term.mem_nodes_bind.1 hw with hw | hw
      · exact absurd hw (hbind _ _ _)
      · exact .inr (.inr (hpart List.mem_cons_self hw))
    | _ => cases hcompound

omit hsub hcover in
/-- The cleaned function names no variable that is bound in it. -/
theorem below_cleaned : ∃ t, (R.lambda xs b').den R (.free R) 0 = .bind R.lambdaSym (k + 1) t ∧
    t.Below (k + 1) := by
  refine ⟨_, h.den_cleaned hS hb, fun i hi => ?_⟩
  have he := (h.opened.patterns c h.mem).2
  rcases h.mem_nodes_outcome hS (w := .bound i) nofun nofun hi with ⟨hi, hatom⟩ | ⟨j, hj, hij⟩ |
      ⟨d, -, -, u, -, hu, hi⟩
  · exact absurd hi (bound_not_mem_nodes he hatom)
  · cases hij
    exact hj
  · exact hu i hi

omit hsub hcover in
/-- It names what subjects name. -/
theorem free_cleaned {z : Var} (hz : .var z ∈ (R.lambda xs b').names) :
    ∃ d ∈ s.pending.equations, m ∈ d.pattern.names ∧ .var z ∈ d.subject.names := by
  obtain ⟨hm, hfree, -⟩ := h.opened.unknownHead? h.mem h.head
  have he := (h.opened.patterns c h.mem).2
  have hshows : Shows (.var z) := .inr ⟨z, rfl⟩
  have hleaf {e : Expr} (he : Ground R e) {j : Nat} (hz : Term.var z ∈ (e.den R (.free R) j).nodes) :
      .var z ∈ e.names :=
    ((leaf_mem_nodes_den (he arity) hshows (Shown.free hshows) j).1 hz).1
  have hground := (h.value hS hb).2
  have hterm := (leaf_mem_nodes_den (hground arity) hshows (Shown.free (R := R) hshows) 0).2 ⟨hz, trivial⟩
  rw [h.den_cleaned hS hb] at hterm
  have hterm := (Term.mem_nodes_bind.1 hterm).resolve_left nofun
  rcases h.mem_nodes_outcome hS (w := .var z) nofun nofun hterm with
    ⟨hz, -⟩ | ⟨i, -, hi⟩ | ⟨d, hd, hts, u, hden, -, hz⟩
  · exact ⟨c, h.mem, hfree, hleaf he hz⟩
  · cases hi
  · have hzd : Term.var z ∈ (d.subject.den R (.free R) 0).nodes :=
      hden ▸ Term.mem_nodes_bind.2 (.inr hz)
    obtain ⟨e', he', hfree', hze⟩ := hS.free d hd z (hleaf (hS.ground d hd).2 hzd)
    obtain ⟨e, hemem, hi⟩ := h.instantiated he'
    refine ⟨e, hemem, ?_, hi.subject ▸ hze⟩
    have hsorted : Sorted R (arity.extend ts (k + 1)) e.pattern :=
      Sorted.of_agree (h.opened.patterns e hemem).1 (h.opened.below e hemem).1
        fun n hn => h.sort_of_not_mem (h.not_mem hn)
    rcases hi.applied.mem_of_mem hsorted hm hfree' (hS.ground d hd).1 with hmem | hmem
    · exact absurd hts (h.not_mem fun x hx => below_of_names hmem (h.opened.below e hemem).1 hx)
    · exact hmem.1

omit hS hsub hcover in
/-- Where the variables of the cleaned body come from. -/
theorem vars_body {A : Var → Prop} (hparams : ∀ x ∈ xs.toList, A x)
    (hsubject : ∀ z ∈ c.subject.vars, A z) (hts : ∀ x, .var x ∈ ts → A x)
    (hfresh : ∀ z : Var, z.Numbered 'x' → A z)
    (hvalues : ∀ d ∈ S, d.pattern ∈ ts → ∀ z ∈ d.subject.vars, A z) : ∀ z ∈ b'.vars, A z := by
  intro z hz
  rcases hb.vars z hz with hz | hz | ⟨d, hd, hdts, -, hz⟩
  · rcases h.shape.vars z hz with hz | hz | hz
    · exact hparams z hz
    · exact hsubject z hz
    · exact hts z hz
  · exact hfresh z hz
  · exact hvalues d hd hdts z hz

include hgone

omit hS hsub hcover hb in
/-- The parameters of what is left are those of the branch. -/
theorem param (hd : d ∈ S') (hu : IsParam R arity d u) : IsParam R (arity.extend ts (k + 1)) d u :=
  hu.congr (h.sort_of_not_mem (hgone d hd))

omit hcover hb in
/-- They are newer than all that the guess makes. -/
theorem param_new (hd : d ∈ S') (hu : IsParam R arity d u) : ¬u.Below N := by
  have hnew := hS.params d (hsub.subset hd) u (h.param hgone hd hu)
  rwa [h.counter] at hnew

omit hcover hb in
/-- What is left names unknowns that were pending before, for the same
subjects. -/
theorem pending_of_mem (hd : d ∈ S') (he : e ∈ t.pending.equations) (hmem : d.pattern ∈ e.pattern.names) :
    ∃ e' ∈ s.pending.equations, e.subject = e'.subject ∧ d.pattern ∈ e'.pattern.names := by
  obtain ⟨e', he', hi⟩ := h.instantiated he
  have hmarked := (hS.values d (hsub.subset hd)).1.unknown
  rcases hi.applied.unknowns _ hmem hmarked with hmem | hmem
  · exact ⟨e', he', hi.subject, hmem.1⟩
  · refine absurd (h.shape.unknowns _ ?_ hmarked) (hgone d hd)
    exact (mem_names_bind_iff (fun x hx => (h.shape.params x hx).1) hmarked).1 hmem

omit hcover in
/-- The cleaned function has no parameter of what is left. -/
theorem param_not_mem_value (hd : d ∈ S') (hu : IsParam R arity d u) : u ∉ (R.lambda xs b').vars := by
  have hnew := h.param_new hS hsub hgone hd hu
  intro hmem
  rcases mem_vars_bind.1 hmem with hmem | hmem
  · exact hnew (h.shape.params u hmem).2.2
  · refine h.vars_body hb (A := fun z => z ≠ u) (fun x hx heq => ?_) (fun z hz heq => ?_)
      (fun x hx heq => ?_) (fun z hz heq => ?_) (fun e he hets z hz heq => ?_) u hmem rfl
    · exact hnew (heq ▸ (h.shape.params x hx).2.2)
    · exact hnew (heq ▸ ((h.opened.below c h.mem).2 z hz).mono h.shape.counter)
    · obtain ⟨y, hy, -, -, hlow⟩ := h.shape.temporaries _ hx
      cases hy
      exact hnew (heq ▸ hlow)
    · exact hnew (heq ▸ hz.below _)
    · refine (h.supply hS).apart d (hsub.subset hd) e he (fun hde => ?_) u (h.param hgone hd hu) (heq ▸ hz)
      exact hgone d hd (hde ▸ hets)

omit hsub hcover hgone in
/-- The variables of the cleaned function come from the subjects, or are
new. -/
theorem origin_value {A : Var → Prop} (hA : s.Closed A) : ∀ z ∈ (R.lambda xs b').vars, A z := by
  have hvalues := h.closed hS hA.subjects (fun z hz => hA.minted z fun hlow =>
    hz (hlow.mono h.shape.counter)) hA.fresh
  have hparams (x : Var) (hx : x ∈ xs.toList) : A x := hA.minted x (h.shape.params x hx).2.1
  intro z hz
  rcases mem_vars_bind.1 hz with hz | hz
  · exact hparams z hz
  · refine h.vars_body hb hparams (hA.subjects c h.mem) (fun x hx => ?_) hA.fresh (fun d hd _ => hvalues d hd) z hz
    obtain ⟨y, hy, -, hhigh, -⟩ := h.shape.temporaries _ hx
    cases hy
    exact hA.minted x hhigh

omit hcover in
/-- Without bindings in the subjects there is none in what is left. -/
theorem bare (hslots : ∀ d ∈ s.pending.equations, d.subject.slots = []) :
    ∀ d ∈ ⟨m, R.lambda xs b'⟩ :: S', Bare R arity d := by
  have hbare := hS.bare fun e he => by
    obtain ⟨e', he', hi⟩ := h.instantiated he
    rw [hi.subject, hslots e' he']
  have hbody : b.slots = [] := List.eq_nil_iff_forall_not_mem.2 fun z hz => by
    have hz := h.shape.slots z hz
    rw [hslots c h.mem] at hz
    cases hz
  obtain ⟨-, -, -, hsort⟩ := h.applies hS
  refine List.forall_mem_cons.2 ⟨⟨fun hplain => ?_, fun _ us b'' hus => ?_⟩, fun d hd => ?_⟩
  · cases hsort.symm.trans hplain
  · cases hus
    exact hb.flat hbody hbare
  · exact (hbare d (hsub.subset hd)).congr (h.sort_of_not_mem (hgone d hd)).symm

/-- **What is left completes the solution of the search that branched,** if it
respects the exclusions. -/
theorem finishes (hrespects : ∀ x ∈ s.pending.exclusions, ∀ d ∈ ⟨m, R.lambda xs b'⟩ :: S',
      d.pattern = x.inner → .var x.outer ∉ d.subject.names) :
    Finishes R arity s (⟨m, R.lambda xs b'⟩ :: S') where
  values := by
    refine List.forall_mem_cons.2 ⟨h.value hS hb, fun d hd => ?_⟩
    obtain ⟨hproper, hground⟩ := hS.values d (hsub.subset hd)
    have hsort := h.sort_of_not_mem (hgone d hd)
    exact ⟨⟨hproper.unknown, hground arity, fun n hn => hproper.function n (hsort.trans hn)⟩, hground⟩
  occurs := by
    refine List.forall_mem_cons.2 ⟨⟨c, h.mem, (h.opened.unknownHead? h.mem h.head).2.1⟩, fun d hd => ?_⟩
    obtain ⟨e, he, hmem⟩ := hS.occurs d (hsub.subset hd)
    obtain ⟨e', he', -, hmem⟩ := h.pending_of_mem hS hsub hgone hd he hmem
    exact ⟨e', he', hmem⟩
  distinct := by
    refine List.nodup_cons.2 ⟨fun hmem => ?_, hS.distinct.sublist (hsub.map _)⟩
    obtain ⟨d, hd, heq⟩ := List.mem_map.1 hmem
    exact h.assigned.ne_pattern hS (hsub.subset hd) heq
  solved d := h.solved hS hsub hcover hb
  respects := hrespects
  params := List.forall_mem_cons.2 ⟨fun u hu => (h.shape.params u (isParam_lambda hu)).2.1,
    fun d hd u hu hlow => h.param_new hS hsub hgone hd hu (hlow.mono h.shape.counter)⟩
  apart := by
    refine List.pairwise_cons.2 ⟨fun d hd => ⟨fun u hu => ?_,
      fun u => h.param_not_mem_value hS hsub hgone hb hd⟩, ?_⟩
    · exact (h.supply hS).clear d (hsub.subset hd) u (isParam_lambda hu)
    · refine (hS.apart.sublist hsub).imp_of_mem fun hd he hde => ⟨fun u hu => ?_, fun u hu => ?_⟩
      · exact hde.1 u (h.param hgone hd hu)
      · exact hde.2 u (h.param hgone he hu)
  origin A hA := List.forall_mem_cons.2 ⟨h.origin_value hS hb hA, fun d hd =>
    h.closed hS hA.subjects (fun z hz => hA.minted z fun hlow => hz (hlow.mono h.shape.counter)) hA.fresh d
      (hsub.subset hd)⟩
  function := by
    refine List.forall_mem_cons.2 ⟨fun n hn => ?_, fun d hd n hn => ?_⟩
    · rw [(h.opened.unknownHead? h.mem h.head).2.2 n hn]
      exact h.below_cleaned hS hb
    · exact hS.function d (hsub.subset hd) n ((h.sort_of_not_mem (hgone d hd)).trans hn)
  free := by
    refine List.forall_mem_cons.2 ⟨fun z => h.free_cleaned hS hb, fun d hd z hz => ?_⟩
    obtain ⟨e, he, hmem, hze⟩ := hS.free d (hsub.subset hd) z hz
    obtain ⟨e', he', hsubject, hmem⟩ := h.pending_of_mem hS hsub hgone hd he hmem
    exact ⟨e', he', hmem, hsubject ▸ hze⟩
  bare := h.bare hS hsub hgone hb

end Cleaned

/-- Without temporaries the exclusions have been checked already. -/
theorem respects (hx : x ∈ s.pending.exclusions) (hd : d ∈ ⟨m, R.lambda xs b⟩ :: S)
    (hinner : d.pattern = x.inner) : .var x.outer ∉ d.subject.names :=
  h.assigned.respects hS (h.opened.unknownHead? h.mem h.head).1 hx (h.opened.exclusions x hx) d hd hinner

/-- **The cleanup of a branch** drops a solution that violates an exclusion,
and makes of any other a solution of the search that branched. -/
theorem cleanup (hτ : τ.equations = σ.equations ++ ⟨m, R.lambda xs b⟩ :: S) :
    ∃ τ' b' S', τ'.equations = σ.equations ++ ⟨m, R.lambda xs b'⟩ :: S' ∧ S'.Sublist S ∧
      (∀ d ∈ S, d ∈ S' ∨ d.pattern ∈ ts) ∧ (∀ d ∈ S', d.pattern ∉ ts) ∧
      Cleaned R (arity.extend ts (k + 1)) S b ts [] b' ∧
      (Cleanup.applyAll R (Branch.cleanups ⟨t, ts⟩ s) τ = .ok none ∧
          (∃ x ∈ s.pending.exclusions, τ'.respects x = false) ∨
        Cleanup.applyAll R (Branch.cleanups ⟨t, ts⟩ s) τ = .ok (some τ') ∧
          Finishes R arity s (⟨m, R.lambda xs b'⟩ :: S')) := by
  obtain ⟨τ', b', S', hfold, heqs, hsub, hcover, hgone, hb⟩ := h.substituteAway hS hτ
  have hfinishes := h.finishes hS hsub hcover hgone hb
  refine ⟨τ', b', S', heqs, hsub, hcover, hgone, hb, ?_⟩
  by_cases hts : ts = []
  · subst hts
    obtain rfl : τ = τ' := Except.ok.inj hfold
    have hcons := List.append_cancel_left (hτ.symm.trans heqs)
    exact .inr ⟨rfl, hfinishes fun x hx d hd => h.respects hS hx (hcons ▸ hd)⟩
  · have hcleanups : Branch.cleanups ⟨t, ts⟩ s = [⟨ts, s.pending.exclusions⟩] :=
      if_neg fun hempty => hts (List.isEmpty_iff.1 hempty)
    have happly : Cleanup.applyAll R (Branch.cleanups ⟨t, ts⟩ s) τ =
        .ok (if s.pending.exclusions.all τ'.respects then some τ' else none) := by
      rw [hcleanups, Cleanup.applyAll, Cleanup.apply, hfold]
      dsimp only [Bind.bind, Except.bind, pure, Except.pure]
      cases s.pending.exclusions.all τ'.respects <;> rfl
    rw [happly]
    by_cases hall : s.pending.exclusions.all τ'.respects = true
    · rw [if_pos hall]
      refine .inr ⟨rfl, hfinishes fun x hx d hd hinner => ?_⟩
      obtain ⟨hdistinct, hm⟩ := h.distinct_found hS hτ
      have hpatterns : (τ'.equations.map Equation.pattern).Sublist (τ.equations.map Equation.pattern) := by
        rw [heqs, hτ, List.map_append, List.map_append]
        exact (List.Sublist.refl _).append ((hsub.map Equation.pattern).cons_cons m)
      have hd' : d ∈ τ'.equations := heqs ▸ List.mem_append_right _ hd
      obtain ⟨e, he, hde⟩ := List.mem_map.1 (hpatterns.subset (List.mem_map_of_mem hd'))
      exact EquationSet.not_mem_of_respects (hdistinct.sublist hpatterns) hd' (hde ▸ hm e he) hinner
        (h.opened.exclusions x hx) (List.all_eq_true.1 hall x hx)
    · rw [if_neg hall]
      rw [Bool.not_eq_true, List.all_eq_false] at hall
      obtain ⟨x, hx, hfalse⟩ := hall
      exact .inl ⟨rfl, x, hx, Bool.eq_false_iff.2 hfalse⟩

end Branched

end Search
end SecondOrder
