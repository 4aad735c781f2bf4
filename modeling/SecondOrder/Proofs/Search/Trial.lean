/-
# What a guess tries

`Trial` lists the functions that a guess tries for an unknown, whatever the
subject is.  In the branch of a guess a search stays confined
(`Confined.branch?`), with the temporaries of the guess among those that may be
applied.

An imitation makes of the equation that was branched on one that demands all of
its temporaries, or one that clashes, and then the branch finds nothing
(`Ongoing.tried`).
-/

import SecondOrder.Proofs.Search.Awaited
import SecondOrder.Proofs.Search.Branching
import SecondOrder.Proofs.Search.Exclusion

namespace SecondOrder

open SecondOrder.Expr

/-- The function `λ us. b` is what the guess `g` tries for the subject `e`,
with the temporaries `ts`. -/
inductive Trial (R : Reserved) (us : Binders) (e : Expr) : Guess → Expr → List Expr → Prop
  | constant (atomic : e.isCompound = false) : Trial R us e .constant e []
  | projection {i : Nat} {x : Var} (param : us.toList[i]? = some x) :
      Trial R us e (.projection i) (.var x) []
  | app {f h : Expr} {as hs : List Expr} (shape : e = .app f as) (length : as.length = hs.length) :
      Trial R us e .imitation (.app (R.applyVars h us) (hs.map (R.applyVars · us))) (h :: hs)
  | bind {g : Sym} {ys : Binders} {d h : Expr} (shape : e = .bind g ys d) :
      Trial R us e .imitation (.bind g ys (R.applyVars h us)) [h]

namespace Trial

variable {R : Reserved} {T : Expr → Prop} {W : Var → Prop} {U : Vocabulary} {us : Binders} {e b t : Expr}
  {g : Guess} {ts : List Expr}

/-- The application of an unknown to the parameters keeps to a vocabulary that
has them. -/
theorem uses_applyVars {h : Expr} (hh : U.applied h) (hus : ∀ u ∈ us.toList, U.atom (.var u)) :
    Uses R U (R.applyVars h us) :=
  .apply hh (List.cons_ne_nil _ _) (List.forall_mem_map.2 fun u hu => .var (hus u hu) :
    ∀ a ∈ us.toList.map Expr.var, Uses R U a)

/-- What is tried uses parameters, applies temporaries, and has the rest from
the subject. -/
theorem uses (h : Trial R us e g b ts) (he : Uses R U e) (hus : ∀ u ∈ us.toList, U.atom (.var u))
    (hts : ∀ t ∈ ts, U.applied t) : Uses R U b := by
  cases h with
  | constant => exact he
  | projection param => exact .var (hus _ (List.mem_of_getElem? param))
  | app =>
    rw [List.forall_mem_cons] at hts
    exact .app (uses_applyVars hts.1 hus)
      (List.forall_mem_map.2 fun t ht => uses_applyVars (hts.2 t ht) hus)
  | bind shape =>
    subst shape
    cases he with
    | bind head slots _ => exact .bind head slots (uses_applyVars (hts _ List.mem_cons_self) hus)

/-- An imitation is a template for its subject. -/
theorem template (h : Trial R us e g b ts) (he : Uses R (.ground R W) e) (hts : ∀ t ∈ ts, T t)
    (hm : t.isMarked = true) (ht : t ∈ ts) : Template R T t b e := by
  have happ (t : Expr) : Applies R t (R.applyVars t us) := ⟨_, _, rfl⟩
  cases h with
  | constant | projection => cases ht
  | @app f h as hs shape length =>
    subst shape
    have hmap : R.applyVars h us :: hs.map (R.applyVars · us) = (h :: hs).map (R.applyVars · us) := rfl
    refine .app (fun q hq => ?_) ?_ (by rw [List.length_map, length])
    · rw [hmap] at hq
      obtain ⟨t, ht, rfl⟩ := List.mem_map.1 hq
      exact ⟨t, hts t ht, happ t⟩
    · rw [hmap]
      exact ⟨_, List.mem_map_of_mem ht, happ t⟩
  | bind shape =>
    subst shape
    obtain rfl := List.mem_singleton.1 ht
    cases he with
    | bind _ slots _ =>
      refine .bind (happ _) (fun x hx heq => ?_) rfl
      rw [← heq] at hm
      exact Bool.false_ne_true ((slots x hx).1.symm.trans hm)

end Trial

namespace Search

variable {R : Reserved} {P Q : EquationSet} {k : Nat} {e value : Expr} {g : Guess} {ts : List Expr}

/-- **What an imitation is:** the outermost shape of the expression over
applications of the temporaries. -/
theorem trial_of_imitationFn {us : Binders} (h : R.imitationFn us e ts = .ok value) :
    ∃ b, value = R.lambda us b ∧ Trial R us e .imitation b ts := by
  cases e with
  | app f as => cases ts with
    | nil => cases h
    | cons t ts =>
      rw [Reserved.imitationFn] at h
      split at h
      · next hlen =>
        cases h
        exact ⟨_, rfl, .app rfl hlen⟩
      · cases h
  | bind f ys d => match ts, h with
    | [t], rfl => exact ⟨_, rfl, .bind rfl⟩
  | _ => cases h

/-- **A guess is a trial with new parameters and new temporaries.** -/
theorem of_guessed (hg : g ∈ Guess.all (k + 1) e) (h : guessed R P k e g = .ok (value, ts, Q)) :
    (∃ b, value = R.lambda (P.mintBinders k).1 b ∧ Trial R (P.mintBinders k).1 e g b ts) ∧
      Q = { P with nextFresh := Q.nextFresh } ∧
      (P.mintBinders k).2.nextFresh ≤ Q.nextFresh ∧ ts.Nodup ∧
      ∀ t ∈ ts, ∃ x : Var, t = .var x ∧ x.marked = true ∧ ¬x.Below P.nextFresh ∧
        x.Below Q.nextFresh := by
  cases g with
  | constant =>
    cases h
    exact ⟨⟨e, rfl, .constant (Guess.isCompound_of_constant hg)⟩, rfl, Nat.le_refl _, List.nodup_nil,
      nofun⟩
  | projection i =>
    cases h
    let us := (P.mintBinders k).1
    have hi : i < us.toList.length :=
      Nat.lt_of_lt_of_eq (Guess.lt_of_projection hg) (EquationSet.length_mintBinders P k).symm
    have hget : us.toList[i]? = some (us.toList.getD i us.first) := by
      rw [List.getD_eq_getElem?_getD, List.getElem?_eq_getElem hi]
      rfl
    exact ⟨⟨_, rfl, .projection hget⟩, rfl, Nat.le_refl _, List.nodup_nil, nofun⟩
  | imitation =>
    let us := (P.mintBinders k).1
    let new := (P.mintBinders k).2.mintBinders (Reserved.temporaryCount e - 1)
    have hguess : guessed R P k e .imitation =
        (R.imitationFn us e (new.1.toList.map fun x => (Expr.var x).setMark true) >>= fun v =>
          .ok (v, new.1.toList.map fun x => (Expr.var x).setMark true, new.2)) := rfl
    rw [hguess] at h
    obtain ⟨v, hv, h⟩ := bind_eq_ok.1 h
    cases h
    exact ⟨trial_of_imitationFn hv, rfl, Nat.le_trans (Nat.le_succ _) (Nat.le_add_right _ _),
      nodup_temporaries, fun t => mem_temporaries⟩

/-- The variables that are new above `n` or stand in a subject. -/
def Seen (s : Search) (n : Nat) (x : Var) : Prop :=
  (x.Numbered 'x' ∨ ¬x.Below n) ∨ ∃ d ∈ s.pending.equations, x ∈ d.subject.vars

/-- The branch `b` of `s`, which assigns the function `λ us. body` to `m` for
the equation `c`. -/
structure Tried (R : Reserved) (A T : Expr → Prop) (s : Search) (σ : EquationSet) (c : Equation)
    (g : Guess) (m : Expr) (us : Binders) (body : Expr) (b : Branch) (τ : EquationSet) : Prop where
  trial : Trial R us c.subject g body b.temporaries
  params : ∀ u ∈ us.toList, u.marked = false ∧ ¬u.Below s.pending.nextFresh ∧
    ¬s.Seen b.search.pending.nextFresh u
  distinct : us.toList.Nodup
  temporaries : ∀ t ∈ b.temporaries, t.isMarked = true ∧ ¬(A t ∨ T t)
  unique : b.temporaries.Nodup
  unknown : A m ∨ T m
  counter : s.pending.nextFresh ≤ b.search.pending.nextFresh
  equations : τ.equations = σ.equations ++ [⟨m, R.lambda us body⟩]
  confined : Confined R A (fun t => T t ∨ t ∈ b.temporaries) (s.Seen b.search.pending.nextFresh)
    b.search τ
  value : Uses R (.pending A (fun t => T t ∨ t ∈ b.temporaries) (σ.assigned ++ [m]))
    (R.lambda us body)
  carried : List.Forall₂ (fun d e => (⟨m, R.lambda us body⟩ : Equation).apply R d.pattern = .ok e.pattern ∧
    e.subject = d.subject) s.pending.copy.equations b.search.pending.equations

/-- What is applied is an unknown of the user or a temporary without a
value. -/
theorem Confined.unknownHead? {A T : Expr → Prop} {V : Var → Prop} {s : Search} {σ : EquationSet}
    {c : Equation} {m : Expr} (h : Confined R A T V s σ) (hc : c ∈ s.pending.equations)
    (hhead : c.unknownHead? = some (m, k)) : (A m ∨ T m) ∧ m ∉ σ.assigned := by
  have hm := Equation.isMarked_of_unknownHead? hhead
  have hpattern := (h.equations c hc).pattern
  rw [Equation.unknownHead?] at hhead
  split at hhead
  · next f h' a as hp =>
    split at hhead
    · cases hhead
      rw [hp] at hpattern
      cases hpattern with
      | app _ args =>
        have hatom := args m List.mem_cons_self
        cases hatom with
        | var atom | sym atom => exact ⟨.inl (atom hm).1, (atom hm).2⟩
        | _ => cases hm
      | apply applied => exact applied.2
    · cases hhead
  · cases hhead

/-- The copy of a search for a branch, with new temporaries. -/
theorem Confined.deeper {A T : Expr → Prop} {V : Var → Prop} {s : Search} {σ : EquationSet}
    (h : Confined R A T V s σ) (hequations : P.equations = s.pending.copy.equations)
    (hcounter : s.pending.nextFresh ≤ P.nextFresh)
    (hts : ∀ t ∈ ts, ∃ x : Var, t = .var x ∧ x.marked = true ∧ ¬x.Below s.pending.nextFresh ∧
      x.Below P.nextFresh) :
    Confined R A (fun t => T t ∨ t ∈ ts) (s.Seen P.nextFresh) { s.deeper with pending := P } σ.copy ∧
      σ.copy.equations = σ.equations ∧ ∀ t ∈ ts, t.isMarked = true ∧ ¬(A t ∨ T t) := by
  have hσ : σ.copy.equations = σ.equations :=
    EquationSet.equations_ofList (distinct_of_nodup h.distinct fun d hd =>
      (h.unknowns _ (h.assigned _ (List.mem_map_of_mem hd))).1)
  have hassigned : σ.copy.assigned = σ.assigned := congrArg (List.map Equation.pattern) hσ
  have hnew (t : Expr) (ht : t ∈ ts) : t.isMarked = true ∧ ¬(A t ∨ T t) := by
    obtain ⟨x, rfl, hx, hlow, -⟩ := hts t ht
    exact ⟨hx, fun hm => hlow ((h.unknowns _ hm).2 x List.mem_cons_self)⟩
  refine ⟨⟨?_, fun n hn => ?_, fun t ht => ?_, fun x hx => .inl hx, fun d hd => ?_,
    hassigned ▸ h.distinct, fun n hn => ?_, fun d hd => ?_⟩, hσ, hnew⟩
  · change s.solutions.map EquationSet.copy = _
    rw [h.solutions]
    rfl
  · rcases or_assoc.2 hn with hn | hn
    · exact ⟨(h.unknowns n hn).1, (h.unknowns n hn).2.mono hcounter⟩
    · obtain ⟨x, rfl, hx, -, hhigh⟩ := hts n hn
      exact ⟨hx, fun y hy => List.mem_singleton.1 hy ▸ hhigh⟩
  · rcases ht with ht | ht
    · exact h.temporaries t ht
    · obtain ⟨x, rfl, -⟩ := hts t ht
      exact ⟨fun hA => (hnew _ ht).2 (.inl hA), x, rfl⟩
  · have hd : d ∈ s.pending.equations := (EquationSet.grows_copy s.pending).1.subset (hequations ▸ hd)
    obtain ⟨hpattern, hsubject⟩ := h.equations d hd
    rw [hassigned]
    exact ⟨hpattern.mono_pending (fun _ => id) (fun _ => .inl) fun _ => id,
      hsubject.ground_of_vars fun x hx => ⟨.inr ⟨d, hd, hx⟩, (hsubject.ground_vars x hx).2.mono hcounter⟩⟩
  · exact (h.assigned n (hassigned ▸ hn)).imp_right .inl
  · exact (h.values d (hσ ▸ hd)).mono_inert fun _ => .inl

/-- **In a branch a search stays confined.** -/
theorem Confined.branch? {A T : Expr → Prop} {V : Var → Prop} {s : Search} {σ : EquationSet}
    {c : Equation} {m : Expr} {b : Branch} (h : Confined R A T V s σ) (hc : c ∈ s.pending.equations)
    (hhead : c.unknownHead? = some (m, k)) (hg : g ∈ Guess.all (k + 1) c.subject)
    (hb : s.branch? R c g = .ok (some b)) :
    ∃ body τ, Tried R A T s σ c g m (s.pending.mintBinders k).1 body b τ := by
  obtain ⟨m', k', value, P, hhead', hguess, assigned⟩ := branch?_some hb
  cases hhead.symm.trans hhead'
  obtain ⟨⟨body, rfl, htrial⟩, hP, hcounter, hunique, hts⟩ := of_guessed hg hguess
  have hus (u : Var) (hu : u ∈ (s.pending.mintBinders k).1.toList) := EquationSet.mem_mintBinders hu
  have hn : s.pending.nextFresh ≤ P.nextFresh :=
    Nat.le_trans (Nat.le_trans (Nat.le_succ _) (Nat.le_add_right _ _)) hcounter
  have hequations : P.equations = s.pending.copy.equations := by rw [hP]; rfl
  obtain ⟨hstart, hσ, hnew⟩ := h.deeper hequations hn hts
  have hassigned : σ.copy.assigned = σ.assigned := congrArg (List.map Equation.pattern) hσ
  obtain ⟨hm, hmnew⟩ := h.unknownHead? hc hhead
  have hground := (h.equations c hc).subject
  have hplain (u : Var) (hu : u ∈ (s.pending.mintBinders k).1.toList) (hmu : u.marked = true) :
      False := Bool.false_ne_true ((hus u hu).1.symm.trans hmu)
  have hpending : Uses R (.pending A (fun t => T t ∨ t ∈ b.temporaries) (σ.copy.assigned ++ [m]))
      (R.lambda (s.pending.mintBinders k).1 body) := by
    refine .bind trivial (fun u hu hmu => (hplain u hu hmu).elim) (htrial.uses
      (hground.unknowns_of_ground _ _) (fun u hu hmu => (hplain u hu hmu).elim) fun t ht => ?_)
    refine ⟨(hnew t ht).1, .inr (.inr ht), fun hmem => (hnew t ht).2 ?_⟩
    rcases List.mem_append.1 hmem with hmem | hmem
    · exact h.assigned t (hassigned ▸ hmem)
    · exact List.mem_singleton.1 hmem ▸ hm
  have hinert : Uses R (.inert R fun t => T t ∨ t ∈ b.temporaries)
      (R.lambda (s.pending.mintBinders k).1 body) := by
    refine .bind rfl (fun u hu => ⟨(hus u hu).1, nofun⟩) (htrial.uses (hground.inert_of_ground _)
      (fun u hu => ⟨(hus u hu).1, nofun⟩) fun t ht => ⟨(hnew t ht).1, .inr ht⟩)
  obtain ⟨hτ, heqs, hcounter', hall⟩ := hstart.assign (or_assoc.1 (.inl hm)) (hassigned ▸ hmnew) hpending
    hinert assigned
  have hcounter' : b.search.pending.nextFresh = P.nextFresh := hcounter'
  refine ⟨body, _, ⟨htrial, fun u hu => ⟨(hus u hu).1, (hus u hu).2.1, ?_⟩,
    EquationSet.nodup_mintBinders _ _, hnew, hunique, hm,
    hcounter' ▸ hn, hσ ▸ heqs, hcounter' ▸ hτ, hassigned ▸ hpending, hequations ▸ hall⟩⟩
  rw [hcounter']
  rintro ((hx | hx) | ⟨d, hd, hx⟩)
  · exact (hus u hu).2.1 (hx.below _)
  · exact hx ((hus u hu).2.2.mono hcounter)
  · exact (hus u hu).2.1 ((h.equations d hd).subject.ground_vars u hx).2

section Carried

open Equation

variable {A T : Expr → Prop} {V : Var → Prop} {s : Search} {σ τ : EquationSet} {c d : Equation}
  {m body : Expr} {us : Binders} {b : Branch}

/-- A function with a function as first argument clashes unless it is an
application of something. -/
theorem rule_of_lambda_arg {f a e v : Expr} {as : List Expr} {W : Var → Prop} (hf : f ≠ .sym R.applySym)
    (he : Uses R (.ground R W) e) (hdec : ∀ g es, e = .app g es → as.length + 2 ≠ es.length) :
    Equation.rule R ⟨.app f (R.lambda us v :: a :: as), e⟩ = .clash := by
  have happly : (Expr.app f (R.lambda us v :: a :: as)).isApply R = false := isApply_of_ne hf _
  have hne : ((Expr.app f (R.lambda us v :: a :: as)) == e) = false := by
    change Expr.same _ e = false
    cases e with
    | app g es => cases es with
      | nil => exact Bool.and_false _
      | cons e' es =>
        rw [Expr.same, sameAll, Bool.and_eq_false_iff, Bool.and_eq_false_iff]
        refine .inr (.inl (Bool.eq_false_iff.2 fun hsame => ?_))
        have he' : Uses R (.ground R W) e' := by
          cases he with
          | app _ args => exact args e' List.mem_cons_self
          | apply applied => exact applied.elim
        cases e' with
        | bind h ys d =>
          rw [Reserved.lambda, Expr.same, Bool.and_eq_true, Bool.and_eq_true] at hsame
          obtain rfl : R.lambdaSym = h := eq_of_beq hsame.1.1
          exact he'.not_ground_lambda
        | _ => cases hsame
    | _ => rfl
  have hdecomposes : Equation.decomposes R ⟨.app f (R.lambda us v :: a :: as), e⟩ = false := by
    rw [Equation.decomposes]
    cases e with
    | app g es =>
      dsimp only
      rw [Bool.and_eq_false_iff]
      exact .inr (beq_eq_false_iff_ne.2 (hdec g es rfl))
    | _ => rfl
  have hflexible : Equation.isFlexible R ⟨.app f (R.lambda us v :: a :: as), e⟩ = false := by
    rw [Equation.isFlexible]
    dsimp only
    rw [happly]
    rfl
  rw [Equation.rule, hne, hdecomposes, hflexible]
  rfl

/-- **The equation that was branched on demands all temporaries of the guess,**
will do so when its redex is contracted, or clashes. -/
theorem Tried.demands (h : Confined R A T V s σ) (hc : c ∈ s.pending.equations)
    (hr : c.rule R = .guess) (hhead : c.unknownHead? = some (m, k))
    (ht : Tried R A T s σ c g m us body b τ)
    (hd : (⟨m, R.lambda us body⟩ : Equation).apply R c.pattern = .ok d.pattern)
    (hsubject : d.subject = c.subject) :
    (∀ u ∈ b.temporaries, d.Demands R (fun t => T t ∨ t ∈ b.temporaries) u) ∨
      (∀ u ∈ b.temporaries, d.Defers R (fun t => T t ∨ t ∈ b.temporaries) u) ∨ d.rule R = .clash := by
  have hm := isMarked_of_unknownHead? hhead
  have hground := (h.equations c hc).subject
  have htemplate (u : Expr) (hu : u ∈ b.temporaries) :
      Template R (fun t => T t ∨ t ∈ b.temporaries) u body c.subject :=
    ht.trial.template hground (fun _ => .inr) (ht.temporaries u hu).1 hu
  have hplain (u : Var) (hu : u ∈ us.toList) := (ht.params u hu).1
  obtain ⟨f, a, as, hp⟩ := pattern_of_unknownHead? hhead
  obtain ⟨p', depth, hp', hq⟩ := brings_of_apply hd
  rw [hp] at hp'
  obtain ⟨f₁, as₁, hf₁, has₁, rfl⟩ := of_subst_app hp'
  obtain ⟨f₂, as₂, hf₂, has₂, hredex⟩ := of_contractFrom_app hq
  cases has₁ with
  | @cons _ v₁ _ as₁ hv₁ has₁ => cases has₂ with
    | @cons _ v₂ _ as₂ hv₂ has₂ =>
      rw [subst_self (isName_of_isMarked hm)] at hv₁
      cases hv₁
      have hvalue : Uses R (.inert R fun t => T t ∨ t ∈ b.temporaries) (R.lambda us body) := by
        refine ht.confined.values ⟨m, R.lambda us body⟩ ?_
        rw [ht.equations]
        exact List.mem_append_right _ List.mem_cons_self
      rw [hvalue.contractFrom_of_inert] at hv₂
      cases hv₂
      have hall := forall₂_brings (c := ⟨m, R.lambda us body⟩) has₁ has₂
      have hargs : ∀ e ∈ as₂, Uses R (.pending A (fun t => T t ∨ t ∈ b.temporaries) (σ.assigned ++ [m])) e := by
        intro e' he'
        obtain ⟨e, he, hbrings⟩ := exists_of_forall₂ hall e' he'
        refine hbrings.uses_pending hm ht.value ?_
        have hpattern := (h.equations c hc).pattern
        rw [hp] at hpattern
        have huses : Uses R (.pending A T σ.assigned) e := by
          cases hpattern with
          | app _ args => exact args e (List.mem_cons_of_mem _ he)
          | apply _ _ args => exact args e he
        exact huses.mono_pending (fun _ => id) (fun _ => .inl) fun _ => id
      have hlen := hall.length_eq
      obtain ⟨a₂, as₂, rfl⟩ := List.exists_cons_of_length_eq_add_one hlen.symm
      rcases hredex with ⟨hredex, hcontract⟩ | ⟨-, hpattern⟩
      · obtain ⟨_, _, _, _, heq⟩ := isRedex_iff.1 hredex
        cases heq
        cases hf₂
        refine .inl fun u hu => .inr (hsubject ▸ ?_)
        exact Template.of_contract ht.confined.isTemporary (.inr hu) (ht.confined.temporaries u (.inr hu)).2
          hplain (htemplate u hu) hargs hcontract
      · refine .inr ?_
        by_cases hf : f₂ = .sym R.applySym
        · subst hf
          exact .inl fun u hu => ⟨us, body, a₂, as₂, hpattern, hplain, hsubject ▸ htemplate u hu⟩
        · refine .inr ?_
          obtain ⟨p, e⟩ := d
          dsimp only at hpattern hsubject
          subst hpattern hsubject
          refine rule_of_lambda_arg hf hground fun g es he heq => ?_
          -- an equation that is branched on does not decompose
          have hfne : f ≠ .sym R.applySym := by
            rintro rfl
            rw [subst_applySym hm] at hf₁
            cases hf₁
            cases hf₂
            exact hf rfl
          have hdec := (of_guess hr).2.1
          rw [decomposes, hp, he] at hdec
          dsimp only at hdec
          rw [isApply_of_ne hfne, List.length_cons, hlen, List.length_cons, heq, beq_self_eq_true] at hdec
          cases hdec

/-- **In a branch every temporary is awaited again,** or an equation
clashes. -/
theorem Ongoing.tried (h : Ongoing R A T V s σ) (hb : s.pending.best? R = some c)
    (hr : c.rule R = .guess) (hflex : c.pattern.isRedex R = false)
    (hhead : c.unknownHead? = some (m, k)) (ht : Tried R A T s σ c g m us body b τ) :
    Ongoing R A (fun t => T t ∨ t ∈ b.temporaries) (s.Seen b.search.pending.nextFresh) b.search τ ∨
      ∃ d ∈ b.search.pending.equations, d.rule R = .clash := by
  have hc := EquationSet.mem_of_best? hb
  -- The guess is about the first equation, and so the branch begins with what that one becomes.
  obtain ⟨ds, hs⟩ : ∃ ds, s.pending.equations = c :: ds := by
    cases hs : s.pending.equations with
    | nil =>
      rw [hs] at hc
      cases hc
    | cons d ds =>
      obtain rfl := EquationSet.eq_of_best?_of_guess hb hr hs
      exact ⟨ds, rfl⟩
  obtain ⟨es, hes⟩ := EquationSet.equations_copy_cons hs
  have hcarried := ht.carried
  rw [hes] at hcarried
  cases hequations : b.search.pending.equations with
  | nil =>
    rw [hequations] at hcarried
    cases hcarried
  | cons d ds' =>
    rw [hequations] at hcarried
    obtain ⟨⟨happly, hsubject⟩, -⟩ := List.forall₂_cons.1 hcarried
    have hassigned : τ.assigned = σ.assigned ++ [m] := by
      rw [EquationSet.assigned, ht.equations, List.map_append]
      rfl
    have hm := isMarked_of_unknownHead? hhead
    have hold (u : Expr) (hu : T u) :
        u ∈ τ.assigned ∨ Awaits R (fun t => T t ∨ t ∈ b.temporaries) u b.search.pending.equations := by
      rw [hassigned, List.mem_append, List.mem_singleton]
      rcases h.awaited u hu with hu' | hu'
      · exact .inl (.inl hu')
      · by_cases hum : u = m
        · exact .inl (.inr hum)
        · obtain ⟨e, he, happ⟩ := h.toConfined.applies_of_awaits hb hr hflex hu'
          obtain ⟨e', he', hsame⟩ := (EquationSet.grows_copy s.pending).2 e he
          have happ' := applies_of_same (h.temporaries u hu).2 happ (beq_symm hsame)
          obtain ⟨e'', he'', hbrings, -⟩ := exists_of_forall₂_left ht.carried e' he'
          exact .inr (.inl ⟨e'', he'', .inl ((brings_of_apply hbrings).applies hm
            (h.isTemporary u hu).1 hum happ')⟩)
    rcases ht.demands h.toConfined hc hr hhead happly hsubject with hnew | hnew | hclash
    · refine .inl ⟨ht.confined, fun u hu => hu.elim (hold u) fun hu => .inr (.inl ?_)⟩
      exact ⟨d, hequations ▸ List.mem_cons_self, hnew u hu⟩
    · refine .inl ⟨ht.confined, fun u hu => hu.elim (hold u) fun hu => .inr (.inr ?_)⟩
      exact ⟨d, ds', hequations, hnew u hu⟩
    · exact .inr ⟨d, List.mem_cons_self, hclash⟩

end Carried

end Search
end SecondOrder
