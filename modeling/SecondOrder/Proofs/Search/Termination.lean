/-
# Searches for sorted equations end

Sorted patterns have no redex, so that every step takes weight off
(`Advance.weight_lt`).  A branch gives one of the unknowns a value.  A guess
without temporaries brings in no other, and after an imitation the step that
follows is not a branch (`Branched.rule_ne_guess`).

So a search for sorted equations shrinks (`shrinking_open`), comes to an end,
and returns with enough fuel (`Open.returns`).
-/

import SecondOrder.Proofs.Search.Bounded
import SecondOrder.Proofs.Search.Soundness

namespace SecondOrder

/-- Every name means the first slot. -/
def Valuation.blank : Valuation := ⟨fun _ _ => .bound 0, fun _ _ _ => .bound 0⟩

namespace Expr

variable {R : Reserved} {arity : Arity}

/-- Where no name means an application, only an application does. -/
theorem exists_app_of_den_blank {p : Expr} {n : Nat} {t : Term} {ts : List Term} (hp : Sorted R arity p)
    (h : p.den R .blank n = .app t ts) :
    ∃ f as, p = .app f as ∧ f ≠ .sym R.applySym ∧ as.map (fun a => a.den R .blank n) = ts := by
  cases hp with
  | @app f as head args =>
    rw [den_app head.ne_applySym] at h
    exact ⟨f, as, rfl, head.ne_applySym, (Term.app.inj h).2⟩
  | apply unknown nonempty =>
    rw [den_apply unknown nonempty] at h
    cases h
  | sym =>
    rw [den] at h
    split at h <;> cases h
  | _ => cases h

/-- Where no name means a binding, only a binding does. -/
theorem exists_bind_of_den_blank {p : Expr} {n k : Nat} {f : Sym} {t : Term} (hp : Sorted R arity p)
    (h : p.den R .blank n = .bind f k t) : ∃ xs b, p = .bind f xs b ∧ xs.length = k := by
  cases hp with
  | app head =>
    rw [den_app head.ne_applySym] at h
    cases h
  | apply unknown nonempty =>
    rw [den_apply unknown nonempty] at h
    cases h
  | sym =>
    rw [den] at h
    split at h <;> cases h
  | bind =>
    cases h
    exact ⟨_, _, rfl, rfl⟩
  | _ => cases h

end Expr

namespace Equation

open SecondOrder.Expr

variable {R : Reserved} {arity : Arity} {c d : Equation}

/-- What has the shape of a subject decomposes against it. -/
theorem decomposes_of_frame {p e e' : Expr} (hp : Sorted R arity p) (he : Ground R e) (he' : Ground R e')
    (hsame : e'.den R (.free R) 0 = e.den R (.free R) 0) (hcompound : e.isCompound = true)
    {ds : List Meaning} (hlen : ds.length = Reserved.temporaryCount e)
    (h : p.den R .blank 0 = e.frame ds 0) : decomposes R ⟨p, e'⟩ = true := by
  cases e with
  | app f as =>
    obtain ⟨d, ds, rfl⟩ : ∃ d es, ds = d :: es := List.exists_cons_of_length_eq_add_one hlen
    obtain ⟨g, bs, rfl, hg, hbs⟩ := exists_app_of_den_blank hp h
    rw [den_app ((ground_of_app he).1 fun _ => none).ne_applySym] at hsame
    obtain ⟨g', bs', rfl, hlen'⟩ := exists_app_of_den he' hsame
    have hcount := congrArg List.length hbs
    rw [List.length_map, List.length_map] at hcount
    refine decomposes_app hg ?_
    rw [hlen', List.length_map, hcount]
    exact Nat.succ.inj hlen
  | bind f xs b =>
    obtain ⟨d, ds, rfl⟩ : ∃ d es, ds = d :: es := List.exists_cons_of_length_eq_add_one hlen
    obtain ⟨ys, b', rfl, hys⟩ := exists_bind_of_den_blank hp h
    rw [den] at hsame
    obtain ⟨ys', b'', rfl, hys'⟩ := exists_bind_of_den he' hsame
    exact decomposes_bind (hys.trans hys'.symm)
  | _ => cases hcompound

end Equation

namespace Search

open SecondOrder.Expr Equation

variable {R : Reserved} {arity : Arity} {s t u : Search} {σ σ' : EquationSet} {c d : Equation}
  {g : Guess} {m b : Expr} {k n N : Nat} {xs : Binders} {ts : List Expr}

/-- A branch does not add weight. -/
theorem Branched.weight_le (h : Branched R arity s σ c g m k N xs b ts t) : t.weight ≤ s.weight := by
  have hsame : t.weight = weightAll s.pending.copy.equations :=
    weightAll_of_subjects (h.assigned.instantiated.imp fun _ _ hi => hi.subject)
  rw [hsame]
  exact weightAll_le_of_sublist (EquationSet.grows_copy s.pending).1

/-- A guess without temporaries brings in no unknown. -/
theorem Branched.mem_of_nil (h : Branched R arity s σ c g m k N xs b [] t) {us : List Expr}
    (hus : ∀ d ∈ s.pending.equations, ∀ n ∈ d.pattern.names, n.isMarked = true → n ∈ us) :
    ∀ d ∈ t.pending.equations, ∀ n ∈ d.pattern.names, n.isMarked = true → n ∈ us ∧ n ≠ m := by
  intro d hd n hn hm
  obtain ⟨e, he, hi⟩ := h.instantiated hd
  rcases hi.applied.unknowns n hn hm with ⟨hn, hne⟩ | hn
  · exact ⟨hus e he n hn hm, hne⟩
  · have hn := (mem_names_bind_iff (fun x hx => (h.shape.params x hx).1) hm).1 hn
    cases h.shape.unknowns n hn hm

/-- **After an imitation the next step is not a branch.** -/
theorem Branched.rule_ne_guess (h : Branched R arity s σ c g m k N xs b ts t) (hts : ts ≠ []) :
    ∃ d ∈ t.pending.equations, d.rule R ≠ .guess := by
  obtain ⟨e, he, hec⟩ := (EquationSet.grows_copy s.pending).2 c h.mem
  obtain ⟨d, hd, hi⟩ := exists_of_forall₂_left h.assigned.instantiated e he
  refine ⟨d, hd, fun hr => ?_⟩
  have hmem := (EquationSet.grows_copy s.pending).1.subset he
  obtain ⟨hp, hs⟩ := h.opened.patterns c h.mem
  obtain ⟨hep, hes⟩ := h.opened.patterns e hmem
  have hec : (e.pattern.similar c.pattern && e.subject.similar c.subject) = true := hec
  rw [Bool.and_eq_true] at hec
  obtain ⟨hmarked, hdec, hflex⟩ := of_guess hr
  have hden : d.pattern.den R .blank = c.pattern.den R (Valuation.blank.assign R ⟨m, R.lambda xs b⟩) :=
    (hi.applied.den _).trans ((similar_iff hep hp).1 hec.1 _)
  have hsubject : d.subject.den R (.free R) = c.subject.den R (.free R) := by
    rw [hi.subject]
    exact (similar_iff (hes arity) (hs arity)).1 hec.2 _
  obtain ⟨hm, -⟩ := h.opened.unknownHead? h.mem h.head
  have hhead := h.head
  generalize hpattern : c.pattern = p at hp hden
  cases hp with
  | @app f as head args =>
    -- a value has taken the place of the second child, so that nothing is to be guessed
    rw [Equation.unknownHead?, hpattern] at hhead
    obtain ⟨a, as, rfl⟩ : ∃ a as', as = m :: a :: as' := by
      obtain _ | ⟨m', _ | ⟨a, as⟩⟩ := as
      · cases hhead
      · cases hhead
      · dsimp only at hhead
        split at hhead <;> cases hhead
        exact ⟨a, as, rfl⟩
    rw [den_app head.ne_applySym] at hden
    obtain ⟨g', bs, hd', hg', hbs⟩ := exists_app_of_den_blank hi.applied.sorted (congrFun hden 0)
    cases bs with
    | nil => cases hbs
    | cons v bs =>
      rw [List.map_cons, List.map_cons, den_of_isMarked hm,
        Valuation.assign_val_self Valuation.blank ⟨m, R.lambda xs b⟩] at hbs
      have hv : v.isMarked = false := by
        refine Bool.eq_false_iff.2 fun hv => ?_
        rw [den_of_isMarked hv] at hbs
        cases (List.cons.inj hbs).1
      rw [isFlexible, hd', isApply_of_ne hg'] at hflex
      exact Bool.false_ne_true (hv.symm.trans hflex)
  | @apply m' as unknown nonempty takes args =>
    obtain ⟨rfl, hlen⟩ := unknownHead?_of_apply hpattern unknown h.head
    have himitation : g = .imitation := by
      have hcount := h.shape.count
      cases g with
      | imitation => rfl
      | _ => exact absurd (List.length_eq_zero_iff.1 hcount) hts
    have hxs : xs.length = (as.map (den R (Valuation.blank.assign R ⟨m, R.lambda xs b⟩))).length := by
      rw [List.length_map, h.shape.length, hlen]
    rw [den_apply unknown nonempty, Valuation.assign_fn_self Valuation.blank ⟨m, R.lambda xs b⟩,
      call_lambda hxs, h.shape.gives _ _ hxs, himitation] at hden
    have hcount := h.shape.count
    rw [himitation] at hcount
    refine Bool.false_ne_true (hdec.symm.trans (decomposes_of_frame hi.applied.sorted hs (hi.subject ▸ hes)
      (congrFun hsubject 0) (Guess.isCompound_of_imitation (himitation ▸ h.shape.guess)) ?_
      (congrFun hden 0)))
    rw [List.length_map]
    exact hcount
  | _ =>
    rw [Equation.unknownHead?, hpattern] at hhead
    cases hhead

/-- Open searches shrink; their unknowns are those that are free in the
patterns. -/
theorem shrinking_open : Shrinking R fun us s => ∃ arity σ, Open R arity s σ ∧
    ∀ d ∈ s.pending.equations, ∀ n ∈ d.pattern.names, n.isMarked = true → n ∈ us where
  flex := fun ⟨_, _, ho, _⟩ hc => (ho.patterns _ hc).1.isRedex_eq_false
  advance := by
    rintro us s t c ⟨arity, σ, ho, -⟩ hc ha
    obtain ⟨σ', -, ho', -⟩ := ho.advance hc ha
    exact ⟨t.pending.equations.flatMap (·.pattern.names), arity, σ', ho',
      fun d hd n hn _ => List.mem_flatMap.2 ⟨d, hd, hn⟩⟩
  branch := by
    rintro us s c m k g b ⟨arity, σ, ho, hus⟩ hb hr hhead hg hbranch
    have hc := EquationSet.mem_of_best? hb
    rcases ho.branched hc hr hhead hg with hnone | ⟨N, xs, body, ts, t, hsome, h⟩
    · cases hnone.symm.trans hbranch
    cases hsome.symm.trans hbranch
    obtain ⟨hm, hfree, -⟩ := ho.unknownHead? hc hhead
    have hopen := h.assigned.opened
    by_cases hts : ts = []
    · subst hts
      refine ⟨h.weight_le, _, ⟨_, _, hopen, fun d hd n hn hnm => ?_⟩, .inr ⟨hus c hc m hfree hm, rfl⟩⟩
      obtain ⟨hn, hne⟩ := h.mem_of_nil hus d hd n hn hnm
      have hbeq : (n == m) = false := Bool.eq_false_iff.2 (mt (beq_name_iff (isName_of_isMarked hm)).1 hne)
      exact List.mem_filter.2 ⟨hn, by rw [hbeq]; rfl⟩
    · exact ⟨h.weight_le, t.pending.equations.flatMap (·.pattern.names), ⟨_, _, hopen,
        fun d hd n hn _ => List.mem_flatMap.2 ⟨d, hd, hn⟩⟩, .inl (h.rule_ne_guess hts)⟩

/-- **A search for sorted equations comes to an end.** -/
theorem Open.returns (ho : Open R arity s.begun σ) : s.Returns R := by
  obtain ⟨N, hN⟩ := shrinking_open.bounded ⟨arity, σ, ho, fun d hd n hn _ =>
    List.mem_flatMap.2 ⟨d, hd, hn⟩⟩ (Nat.not_lt.1 ho.length_le)
  exact hN.returns

end Search
end SecondOrder
