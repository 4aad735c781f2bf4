/-
# The guess that a guide tells

At a branch point the term of the unknown function decides which guess is right
(`Term.guess`): a parameter is a projection, a term with parts an imitation,
any other term the constant function.  The parts of the term are the values of
the temporaries, and with them the guide goes on in the branch
(`Branched.guided`).

A solution of a branch is followed up to the same guide: what is made of it
meets the guide exactly if the guess is the right one and the solution meets
the guide in the branch (`Branched.meets`, `Branched.of_meets`).  So no other
guess leads to it.
-/

import SecondOrder.Proofs.Search.Guided

namespace SecondOrder

namespace Term

/-- The guess that the outermost shape of a term tells. -/
def guess : Term → Guess
  | bound i => .projection i
  | app .. | bind .. => .imitation
  | _ => .constant

/-- The parts of a term, which the temporaries of its imitation stand for. -/
def parts : Term → List Term
  | app h ts => h :: ts
  | bind _ _ b => [b]
  | _ => []

variable {R : Reserved} {t u : Term} {k : Nat}

/-- The parts of a term count no slots that the term does not count. -/
theorem Below.of_parts (h : Below k t) (hu : u ∈ t.parts) : Below k u := by
  cases t with
  | app f ts => exact (List.mem_cons.1 hu).elim (fun hu => hu ▸ (below_app.1 h).1) ((below_app.1 h).2 u)
  | bind f n b => exact List.mem_singleton.1 hu ▸ below_bind.1 h
  | _ => cases hu

/-- The nodes of a part are nodes of the term. -/
theorem mem_nodes_of_parts {w : Term} (hu : u ∈ t.parts) (hw : w ∈ u.nodes) : w ∈ t.nodes := by
  cases t with
  | app f ts =>
    refine mem_nodes_app.2 (.inr ((List.mem_cons.1 hu).imp (fun hu => ?_) fun hu => ⟨u, hu, hw⟩))
    exact hu ▸ hw
  | bind f n b => exact mem_nodes_bind.2 (.inr (List.mem_singleton.1 hu ▸ hw))
  | _ => cases hu

/-- The function with the body `t` gives what `t` tells. -/
theorem call_levels {ρ : Valuation} {ds : List Meaning} (hlen : k = ds.length) (us : List Term) :
    (us.map (bind R.lambdaSym k)).map (fun t => t.call R ρ ds) =
      us.map fun u j => u.fill ρ ds j j := by
  rw [List.map_map]
  exact List.map_congr_left fun u _ => call_lambda hlen

end Term

namespace Expr

variable {R : Reserved} {ρ ρ' : Valuation} {e : Expr} {T : Term} {k : Nat} {ts : List Expr}
  {ds es : List Meaning} {g : Guess}

/-- Only applications and bindings are compound. -/
theorem isCompound_eq_false_of_den (he : Ground R e) (happ : ∀ h us, e.den R ρ 0 ≠ .app h us)
    (hbind : ∀ f n b, e.den R ρ 0 ≠ .bind f n b) : e.isCompound = false := by
  cases e with
  | app f as =>
    rw [den_app ((ground_of_app he).1 fun _ => none).ne_applySym] at happ
    exact absurd rfl (happ _ _)
  | bind f xs b =>
    rw [den] at hbind
    exact absurd rfl (hbind _ _ _)
  | _ => rfl

/-- **The guess that a term tells is one of those that are tried,** and has a
temporary for each part of the term. -/
theorem guess_mem_all (he : Ground R e) (hT : e.den R (Valuation.free R) 0 = T.fill (.free R) ds 0 0)
    (hbelow : T.Below (k + 1)) :
    T.guess ∈ Guess.all (k + 1) e ∧ T.parts.length = T.guess.count e := by
  have hatom (happ : ∀ h us, T.fill (.free R) ds 0 0 ≠ .app h us)
      (hbind : ∀ f n b, T.fill (.free R) ds 0 0 ≠ .bind f n b) : .constant ∈ Guess.all (k + 1) e := by
    rw [Guess.all, isCompound_eq_false_of_den he (hT ▸ happ) (hT ▸ hbind)]
    exact List.mem_cons_self
  cases T with
  | bound i =>
    have hi : .projection i ∈ (List.range (k + 1)).map Guess.projection :=
      List.mem_map_of_mem (List.mem_range.2 (hbelow i List.mem_cons_self))
    refine ⟨?_, rfl⟩
    rw [Term.guess, Guess.all]
    split
    · exact List.mem_append_left _ hi
    · exact List.mem_cons_of_mem _ hi
  | app h us =>
    rw [Term.fill_app] at hT
    obtain ⟨g, bs, rfl, hlen⟩ := exists_app_of_den he hT
    refine ⟨List.mem_append_right _ List.mem_cons_self, ?_⟩
    rw [List.length_map] at hlen
    exact congrArg Nat.succ hlen.symm
  | bind f n b =>
    obtain ⟨ys, d, rfl, -⟩ := exists_bind_of_den he hT
    exact ⟨List.mem_append_right _ List.mem_cons_self, rfl⟩
  | _ => exact ⟨hatom (fun _ _ h => by cases h) (fun _ _ _ h => by cases h), rfl⟩

/-- **What the guess gives,** if the temporaries stand for the parts of the
term. -/
theorem outcome_guess (he : Ground R e) (hT : e.den R (Valuation.free R) 0 = T.fill (.free R) ds 0 0)
    (hbelow : T.Below es.length) (hval : e.den R ρ' = e.den R ρ)
    (hparts : ts.map (fun t => ρ'.fn t es) = T.parts.map fun u j => u.fill ρ es j j) (n j : Nat) :
    T.guess.outcome R e ts ρ' es j = T.fill ρ es n j := by
  have hatom (h : e.den R ρ j = T.fill ρ es n j) : Guess.constant.outcome R e ts ρ' es j = T.fill ρ es n j :=
    (congrFun hval j).trans h
  have hfill := den_eq_fill_nil he ρ j
  rw [hT] at hfill
  cases T with
  | bound i =>
    have hi := List.getElem?_eq_getElem (hbelow i List.mem_cons_self)
    rw [Term.guess, Guess.outcome, List.getD_eq_getElem?_getD, hi, Term.fill_bound_of_getElem? hi]
    rfl
  | app h us =>
    rw [Term.fill_app] at hT
    obtain ⟨g, bs, rfl, -⟩ := exists_app_of_den he hT
    obtain ⟨hhead, hus⟩ := Term.below_app.1 hbelow
    rw [Term.guess, Guess.outcome, hparts, Term.fill_app, Term.fill_of_below hhead n j,
      List.map_congr_left fun u hu => Term.fill_of_below (hus u hu) n j j]
    change Term.app _ ((us.map fun u j => u.fill ρ es j j).map (· j)) = _
    rw [List.map_map]
    rfl
  | bind f l b =>
    obtain ⟨ys, d, rfl, hlen⟩ := exists_bind_of_den he hT
    rw [Term.guess, Guess.outcome, hparts, Term.fill,
      Term.fill_of_below (Term.below_bind.1 hbelow) n (j + l), ← hlen]
    rfl
  | var x => exact hatom hfill
  | sym f => exact hatom hfill
  | int i => exact hatom hfill
  | float x => exact hatom hfill
  | str s => exact hatom hfill

/-- **What a guess gives tells the guess,** and the parts that the temporaries
stand for. -/
theorem guess_of_outcome (he : Ground R e) {us : List Term} (hg : g ∈ Guess.all (k + 1) e)
    (hcount : us.length = g.count e) (hval : e.den R ρ' = e.den R (Valuation.free R))
    (hparts : ts.map (fun t => ρ'.fn t (Meaning.levels 0 (k + 1))) = us.map fun u _ => u)
    (hT : g.outcome R e ts ρ' (Meaning.levels 0 (k + 1)) (k + 1) = T) :
    g = T.guess ∧ T.parts = us := by
  cases g with
  | constant =>
    obtain rfl := List.length_eq_zero_iff.1 hcount
    have hcompound := Guess.isCompound_of_constant hg
    rw [Guess.outcome, hval] at hT
    subst hT
    cases e with
    | sym f =>
      have hf : f.marked = false := not_isMarked_of_ground he
      rw [den, hf]
      exact ⟨rfl, rfl⟩
    | app | bind => cases hcompound
    | _ => exact ⟨rfl, rfl⟩
  | projection i =>
    obtain rfl := List.length_eq_zero_iff.1 hcount
    rw [Guess.outcome, List.getD_eq_getElem?_getD, Term.getElem?_levels (Guess.lt_of_projection hg),
      Nat.zero_add] at hT
    subst hT
    exact ⟨rfl, rfl⟩
  | imitation =>
    have hcompound := Guess.isCompound_of_imitation hg
    rw [Guess.outcome, hparts] at hT
    subst hT
    cases e with
    | app f as =>
      obtain ⟨u, us, rfl⟩ : ∃ v vs, us = v :: vs := List.exists_cons_of_length_eq_add_one hcount
      refine ⟨rfl, ?_⟩
      change u :: (us.map fun u _ => u).map (· (k + 1)) = u :: us
      rw [List.map_map]
      exact congrArg _ (List.map_id _)
    | bind f ys d =>
      obtain ⟨u, us, rfl⟩ : ∃ v vs, us = v :: vs := List.exists_cons_of_length_eq_add_one hcount
      obtain rfl := List.length_eq_zero_iff.1 (Nat.succ.inj hcount)
      exact ⟨rfl, rfl⟩
    | _ => cases hcompound

end Expr

/-- The guide `Θ'` tells what `Θ` tells, and for the temporaries `ts` the
functions of `k` arguments whose bodies are the parts of `T`. -/
structure Chosen (R : Reserved) (k : Nat) (Θ Θ' : Expr → Term) (ts : List Expr) (T : Term) : Prop where
  same : ∀ e ∉ ts, Θ' e = Θ e
  parts : ts.map Θ' = T.parts.map (.bind R.lambdaSym k)

/-- Distinct names can be told anything. -/
theorem exists_told {ts : List Expr} (hdistinct : ts.Nodup) (Θ : Expr → Term) {us : List Term}
    (hlen : ts.length = us.length) : ∃ Θ' : Expr → Term, (∀ e ∉ ts, Θ' e = Θ e) ∧ ts.map Θ' = us := by
  induction ts generalizing us with
  | nil => exact ⟨Θ, fun _ _ => rfl, (List.length_eq_zero_iff.1 hlen.symm).symm⟩
  | cons t ts ih =>
    obtain ⟨u, us, rfl⟩ : ∃ v vs, us = v :: vs := List.exists_cons_of_length_eq_add_one hlen.symm
    obtain ⟨ht, hdistinct⟩ := List.nodup_cons.1 hdistinct
    obtain ⟨Θ', hsame, hmap⟩ := ih hdistinct (Nat.succ.inj hlen)
    classical
    refine ⟨Function.update Θ' t u, fun e he => ?_, ?_⟩
    · rw [List.mem_cons, not_or] at he
      rw [Function.update_of_ne he.1, hsame e he.2]
    · rw [List.map_cons, Function.update_self, ← hmap]
      refine congrArg _ (List.map_congr_left fun e he => Function.update_of_ne ?_ ..)
      rintro rfl
      exact ht he

namespace Search

open SecondOrder.Expr Equation

variable {R : Reserved} {arity : Arity} {V : Var → Prop} {Θ Θ' : Expr → Term} {s t : Search}
  {σ τ : EquationSet} {c d : Equation} {g : Guess} {m b b' : Expr} {k N : Nat} {xs : Binders}
  {ts : List Expr} {S S' : List Equation} {T : Term}

/-- The guide tells a function with the body `T` for the unknown `m` of `k + 1`
arguments, and the subject of `c` is what that function gives for some
arguments. -/
structure Told (R : Reserved) (arity : Arity) (Θ : Expr → Term) (c : Equation) (m : Expr) (k : Nat)
    (T : Term) : Prop where
  value : Θ m = .bind R.lambdaSym (k + 1) T
  below : T.Below (k + 1)
  sort : arity m = some (k + 1)
  subject : ∃ ds, c.subject.den R (.free R) 0 = T.fill (.free R) ds 0 0

/-- At a branch point the guide tells the function that is applied. -/
theorem Guided.told (hg : Guided R arity V Θ s σ) (ho : Open R arity s σ)
    (hc : c ∈ s.pending.equations) (hr : c.rule R = .guess) (hu : c.unknownHead? = some (m, k)) :
    ∃ T, Told R arity Θ c m k T := by
  obtain ⟨hp, he⟩ := ho.patterns c hc
  obtain ⟨m', as, hpattern, hm, hne, hsort⟩ := apply_of_guess hp he hr (hg.solved c hc)
  obtain ⟨rfl, hlen⟩ := unknownHead?_of_apply hpattern hm hu
  rw [hlen] at hsort
  obtain ⟨T, hΘ, hbelow⟩ := hg.admits.function m hm _ hsort
  have hsolved := congrFun (hg.solved c hc (.free R)) 0
  dsimp only at hsolved
  rw [hpattern, den_apply hm hne, Valuation.guide_fn, hΘ,
    Term.call_lambda (by rw [List.length_map, hlen])] at hsolved
  exact ⟨T, hΘ, hbelow, hsort, _, hsolved.symm⟩

/-- **The guess that a guide tells is among those that are tried,** with as
many temporaries as the term has parts. -/
theorem Guided.mem_all (hT : Told R arity Θ c m k T) (he : Ground R c.subject) :
    T.guess ∈ Guess.all (k + 1) c.subject ∧ T.parts.length = T.guess.count c.subject := by
  obtain ⟨ds, hds⟩ := hT.subject
  exact guess_mem_all he hds hT.below

/-- The right guess names only what the guide names. -/
theorem Told.names_of_guess (hT : Told R arity Θ c m k T) (hadmits : Admits R arity V Θ)
    (hm : m.isMarked = true) (he : Ground R c.subject)
    (hshape : Shape R s.pending.nextFresh N k c.subject T.guess xs b ts) {z : Var} (hz : z.marked = false)
    (hfree : .var z ∈ (R.lambda xs b).names) : V z := by
  obtain ⟨hfree, hxs⟩ := mem_names_bind.1 hfree
  rcases hshape.free z hfree with hzx | hzt | ⟨hconstant, hze⟩
  · exact absurd rfl (hxs z hzx)
  · obtain ⟨x, hx, hmarked, -⟩ := hshape.temporaries _ hzt
    cases hx
    exact absurd (hz.symm.trans hmarked) Bool.false_ne_true
  · obtain ⟨ds, hds⟩ := hT.subject
    have hshows : Shows (.var z) := .inr ⟨z, rfl⟩
    have hleaf := (leaf_mem_nodes_den (he arity) hshows (Shown.free (R := R) hshows) 0).2 ⟨hze, trivial⟩
    rw [hds] at hleaf
    refine hadmits.names m hm z ?_
    rw [hT.value]
    refine Term.mem_nodes_bind.2 (.inr ?_)
    -- a term that tells the constant function has no parts
    cases T with
    | bound | app | bind => cases hconstant
    | _ => exact hleaf

section Branched

variable (h : Branched R arity s σ c T.guess m k N xs b ts t) (hg : Guided R arity V Θ s σ)
  (hT : Told R arity Θ c m k T)

include h hT

/-- The right guess fits the guide of the branch. -/
theorem Branched.fits (hchosen : Chosen R (k + 1) Θ Θ' ts T) : Fits R Θ' ⟨m, R.lambda xs b⟩ := by
  have hm := (h.opened.unknownHead? h.mem h.head).1
  have he := (h.opened.patterns c h.mem).2
  obtain ⟨ds, hds⟩ := hT.subject
  have hΘ : Θ' m = .bind R.lambdaSym (k + 1) T := by
    rw [hchosen.same m (h.not_mem fun x hx => ?_), hT.value]
    exact below_of_names (h.opened.unknownHead? h.mem h.head).2.1 (h.opened.below c h.mem).1 hx
  intro ρ
  have hval : c.subject.den R (ρ.guide R Θ') = c.subject.den R ρ :=
    den_guide he
  have hbody {es : List Meaning} (hlen : es.length = k + 1) (n j : Nat) :
      b.den R ((ρ.guide R Θ').enter xs.toList es) j = T.fill ρ es n j := by
    rw [h.shape.gives _ _ (h.shape.length.trans hlen.symm)]
    refine outcome_guess he hds (hlen ▸ hT.below) hval ?_ n j
    calc ts.map (fun t => (ρ.guide R Θ').fn t es)
        = (ts.map Θ').map fun θ => θ.call R ρ es := by rw [List.map_map]; rfl
      _ = T.parts.map fun u j => u.fill ρ es j j := by rw [hchosen.parts, Term.call_levels hlen.symm]
  have hden : (R.lambda xs b).den R (ρ.guide R Θ') = fun n => (Θ' m).fill ρ [] n n := by
    rw [Reserved.lambda, den]
    funext n
    rw [hbody ((Meaning.length_levels ..).trans h.shape.length) (n + xs.length), hΘ, h.shape.length,
      Term.fill_levels, Term.fill]
  refine Valuation.assign_eq_self (c := ⟨m, R.lambda xs b⟩) (isName_of_isMarked hm) ?_ ?_
  · rw [hden, Valuation.guide_val_of_isMarked hm]
  · funext es
    rw [hden]
    dsimp only
    rw [Valuation.guide_fn, hΘ]
    by_cases hlen : es.length = k + 1
    · rw [Equation.call_lambda (h.shape.length.trans hlen.symm), Term.call_lambda hlen.symm]
      exact funext fun j => hbody hlen j j
    · rw [Reserved.lambda, call, if_neg fun h' => hlen (h'.2.symm.trans h.shape.length), Term.call,
        if_neg fun h => hlen h.2.symm]

include hg

/-- **With the right guess the branch is guided,** too. -/
theorem Branched.guided :
    ∃ Θ', Chosen R (k + 1) Θ Θ' ts T ∧
      Guided R (arity.extend ts (k + 1)) V Θ' t (σ.copy.add [⟨m, R.lambda xs b⟩]) := by
  have hm := (h.opened.unknownHead? h.mem h.head).1
  have he := (h.opened.patterns c h.mem).2
  have hlen : ts.length = (T.parts.map (Term.bind R.lambdaSym (k + 1))).length := by
    rw [List.length_map, h.shape.count, (Guided.mem_all hT he).2]
  -- `Θ'` is told, of the temporaries, the parts that the guess has left open.
  obtain ⟨Θ', hsame, hparts⟩ := exists_told h.shape.distinct Θ hlen
  have hchosen : Chosen R (k + 1) Θ Θ' ts T := ⟨hsame, hparts⟩
  have hfits := h.fits hT hchosen
  have htold {n : Expr} (hn : n ∈ ts) : ∃ u ∈ T.parts, Θ' n = .bind R.lambdaSym (k + 1) u := by
    obtain ⟨u, hu, heq⟩ := List.mem_map.1 (hparts ▸ List.mem_map_of_mem (f := Θ') hn)
    exact ⟨u, hu, heq.symm⟩
  refine ⟨Θ', hchosen, ⟨fun n hn l hl => ?_, fun n hn z hz => ?_⟩, fun d' hd' => ?_,
    fun d hd z hz hfree => ?_, ?_⟩
  · by_cases hnts : n ∈ ts
    · rw [Arity.extend_of_mem hnts] at hl
      cases hl
      obtain ⟨u, hu, heq⟩ := htold hnts
      exact ⟨u, heq, hT.below.of_parts hu⟩
    · rw [h.sort_of_not_mem hnts] at hl
      rw [hsame n hnts]
      exact hg.admits.function n hn l hl
  · by_cases hnts : n ∈ ts
    · obtain ⟨u, hu, heq⟩ := htold hnts
      rw [heq] at hz
      refine hg.admits.names m hm z ?_
      rw [hT.value]
      refine Term.mem_nodes_bind.2 (.inr (Term.mem_nodes_of_parts hu ?_))
      exact (Term.mem_nodes_bind.1 hz).resolve_left nofun
    · rw [hsame n hnts] at hz
      exact hg.admits.names n hn z hz
  · obtain ⟨d, hd, hi⟩ := h.instantiated hd'
    refine (hfits.solvedBy_iff hi.applied hi.subject).2 ?_
    refine SolvedBy.congr (h.opened.patterns d hd).1 (fun n hn _ => ?_) (hg.solved d hd)
    exact hsame n (h.not_mem fun x hx => below_of_names hn (h.opened.below d hd).1 hx)
  · rw [h.assigned.equations, h.opened.deeper.2] at hd
    rcases List.mem_append.1 hd with hd | hd
    · exact hg.made d hd z hz hfree
    · rw [List.mem_singleton.1 hd] at hfree
      exact hT.names_of_guess hg.admits hm he h.shape hz hfree
  · have hslot {z : Var} (hz : z ∈ b.slots) : s.Binds z := ⟨c, h.mem, .inr (h.shape.slots z hz)⟩
    refine hg.spares.instantiate h.assigned.instantiated
      (fun d hd => (EquationSet.grows_copy s.pending).1.subset hd) (fun z hz => ?_)
      (fun hnone d hd => ⟨?_, fun hplain => ?_, fun _ us b' hus => ?_⟩) h.assigned.exclusions ?_
    · rcases mem_slots_bind.1 hz with hz | hz
      · exact .inr (h.shape.params z hz).2.1
      · exact .inl (hslot hz)
    · exact List.eq_nil_iff_forall_not_mem.2 fun z hz => hnone ⟨z, d, hd, .inl hz⟩
    · have hmts : m ∉ ts := h.not_mem fun x hx =>
        below_of_names (h.opened.unknownHead? h.mem h.head).2.1 (h.opened.below c h.mem).1 hx
      rw [h.sort_of_not_mem hmts, hT.sort] at hplain
      cases hplain
    · cases hus
      exact List.eq_nil_iff_forall_not_mem.2 fun z hz => hnone ⟨z, hslot hz⟩
    · rw [h.counter]
      exact h.shape.counter

omit h in
/-- **The right guess opens a branch.** -/
theorem Guided.branched (ho : Open R arity s σ) (hc : c ∈ s.pending.equations) (hr : c.rule R = .guess)
    (hu : c.unknownHead? = some (m, k)) :
    ∃ N xs b ts t, s.branch? R c T.guess = .ok (some ⟨t, ts⟩) ∧
      Branched R arity s σ c T.guess m k N xs b ts t := by
  have he := (ho.patterns c hc).2
  obtain ⟨hm, hfree, -⟩ := ho.unknownHead? hc hu
  obtain ⟨xs, b, ts, N, P, -, hshape, ⟨-, hrefused⟩ | ⟨t, hsome, hassigned⟩⟩ :=
    ho.branch? hc hu (Guided.mem_all hT he).1
  · have hnew : ∀ d ∈ σ.copy.equations, d.pattern ≠ m := by
      rintro d hd rfl
      exact ho.apart d (ho.deeper.2 ▸ hd) c hc hfree
    refine absurd (hrefused.symm.trans (hg.accepts ho fun d hd z hz hfree => ?_)) Bool.false_ne_true
    rw [EquationSet.equations_add_singleton hm hnew, ho.deeper.2] at hd
    rcases List.mem_append.1 hd with hd | hd
    · exact hg.made d hd z hz hfree
    · rw [List.mem_singleton.1 hd] at hfree
      exact hT.names_of_guess hg.admits hm he hshape hz hfree
  · exact ⟨N, xs, b, ts, t, hsome, ho, hc, hr, hu, hshape, hassigned⟩

end Branched

/-- What meets the guide gives for any arguments what the guide tells. -/
theorem under_fn_of_meets {ρ : Valuation} (hS : GroundValues R S)
    (hdistinct : (S.map Equation.pattern).Nodup) (hd : d ∈ S) (hmeets : d.Meets R Θ) (ds : List Meaning) :
    (ρ.under R S).fn d.pattern ds = (Θ d.pattern).call R ρ ds := by
  rw [Valuation.under_fn_of_mem hS hdistinct hd, call_eq_call (hS d hd).2, hmeets]

section Cleaned

variable (h : Branched R arity s σ c g m k N xs b ts t) (hS : Finishes R (arity.extend ts (k + 1)) t S)
  (hT : Told R arity Θ c m k T) (hsub : S'.Sublist S) (hgone : ∀ d ∈ S', d.pattern ∉ ts)
  (hb : Cleanup.Cleaned R (arity.extend ts (k + 1)) S b ts [] b')

include h hS hT hsub hgone hb

/-- **What meets the guide in the branch of the right guess meets it
afterwards.** -/
theorem Branched.meets (hguess : g = T.guess) (hchosen : Chosen R (k + 1) Θ Θ' ts T)
    (hmeets : ∀ d ∈ S, d.Meets R Θ') : ∀ d ∈ ⟨m, R.lambda xs b'⟩ :: S', d.Meets R Θ := by
  obtain ⟨ds, hds⟩ := hT.subject
  have he := (h.opened.patterns c h.mem).2
  have hlen : (Meaning.levels 0 (k + 1)).length = k + 1 := Meaning.length_levels ..
  have hbelow : T.Below (Meaning.levels 0 (k + 1)).length := by
    rw [hlen]
    exact hT.below
  refine List.forall_mem_cons.2 ⟨?_, fun d hd => ?_⟩
  · have hparts : ts.map (fun t => ((Valuation.free R).under R S).fn t (Meaning.levels 0 (k + 1))) =
        T.parts.map fun u j => u.fill (.free R) (Meaning.levels 0 (k + 1)) j j := by
      rw [← Term.call_levels (R := R) hlen.symm, ← hchosen.parts, List.map_map]
      refine List.map_congr_left fun n hn => ?_
      obtain ⟨d, hd, rfl⟩ := h.exists_temporary hS hn
      exact under_fn_of_meets hS.ground hS.distinct hd (hmeets d hd) _
    have houtcome := outcome_guess (ρ := .free R) he hds hbelow
      (Valuation.den_under (fun d hd => (hS.ground d hd).1) he) hparts (k + 1) (k + 1)
    rw [Term.fill_free_levels] at houtcome
    rw [Meets, h.den_cleaned hS hb, hguess, houtcome, hT.value]
  · rw [Meets, hmeets d (hsub.subset hd), hchosen.same _ (hgone d hd)]

omit hsub in
/-- **Only the right guess leads to what meets the guide,** and only from what
meets it in the branch. -/
theorem Branched.of_meets (hcover : ∀ d ∈ S, d ∈ S' ∨ d.pattern ∈ ts)
    (hmeets : ∀ d ∈ ⟨m, R.lambda xs b'⟩ :: S', d.Meets R Θ) :
    g = T.guess ∧ ∀ Θ', Chosen R (k + 1) Θ Θ' ts T → ∀ d ∈ S, d.Meets R Θ' := by
  obtain ⟨hvalue, hrest⟩ := List.forall_mem_cons.1 hmeets
  have he := (h.opened.patterns c h.mem).2
  obtain ⟨us, hus⟩ : ∃ us, List.Forall₂ (fun n u => ∃ d ∈ S, d.pattern = n ∧
      d.subject.den R (.free R) 0 = .bind R.lambdaSym (k + 1) u ∧
        ((Valuation.free R).under R S).fn n (Meaning.levels 0 (k + 1)) = fun _ => u) ts us := by
    refine exists_forall₂ fun n hn => ?_
    obtain ⟨d, hd, hdn, u, hden, -, hfn⟩ := h.temporary hS hn
    exact ⟨u, d, hd, hdn, hden, funext hfn⟩
  have hcount : us.length = g.count c.subject := hus.length_eq.symm.trans h.shape.count
  have hparts : ts.map (fun t => ((Valuation.free R).under R S).fn t (Meaning.levels 0 (k + 1))) =
      us.map fun u _ => u := by
    refine List.forall₂_eq_eq_eq ▸ List.forall₂_map_left_iff.2 (List.forall₂_map_right_iff.2 ?_)
    exact hus.imp fun n u hnu => by
      obtain ⟨d, -, -, -, hfn⟩ := hnu
      exact hfn
  rw [Meets, h.den_cleaned hS hb, hT.value] at hvalue
  obtain ⟨hguess, htold⟩ := guess_of_outcome he h.shape.guess hcount
    (Valuation.den_under (fun d hd => (hS.ground d hd).1) he) hparts (Term.bind.inj hvalue).2.2
  refine ⟨hguess, fun Θ' hchosen d hd => ?_⟩
  rcases hcover d hd with hd' | hdts
  · rw [Meets, hrest d hd', hchosen.same _ (hgone d hd')]
  · have hvalues : List.Forall₂ (fun n θ => ∃ d ∈ S, d.pattern = n ∧ d.subject.den R (.free R) 0 = θ)
        ts (us.map (Term.bind R.lambdaSym (k + 1))) :=
      List.forall₂_map_right_iff.2 (hus.imp fun n u ⟨d, hd, hdn, hden, _⟩ => ⟨d, hd, hdn, hden⟩)
    rw [← htold, ← hchosen.parts, List.forall₂_map_right_iff, List.forall₂_same] at hvalues
    obtain ⟨d', hd', hpattern, hden⟩ := hvalues d.pattern hdts
    obtain rfl : d' = d := List.inj_on_of_nodup_map hS.distinct hd' hd hpattern
    exact hden

end Cleaned

end Search

end SecondOrder
