/-
# Opening a branch

A branch of an open search is an open search itself, in which the temporaries
of the guess are functions of as many arguments as the unknown takes
(`Open.branch?`).  To open it is never refused.
-/

import SecondOrder.Proofs.Search.Guesses
import SecondOrder.Proofs.Search.Progress

namespace SecondOrder

/-- The sorts with the temporaries `ts` as functions of `k` arguments. -/
def Arity.extend (arity : Arity) (ts : List Expr) (k : Nat) : Arity :=
  fun n => if ts.any (n == ·) then some k else arity n

namespace Arity

open SecondOrder.Expr

variable {arity : Arity} {ts : List Expr} {k : Nat} {n : Expr}

/-- The temporaries take the arguments of the unknown that is guessed. -/
theorem extend_of_mem (h : n ∈ ts) : arity.extend ts k n = some k :=
  if_pos (List.any_eq_true.2 ⟨n, h, beq_self_eq_true _⟩)

/-- All other names keep their sort. -/
theorem extend_of_not_mem (hts : ∀ t ∈ ts, IsName t) (h : n ∉ ts) :
    arity.extend ts k n = arity n := by
  refine if_neg fun hany => h ?_
  obtain ⟨t, ht, hnt⟩ := List.any_eq_true.1 hany
  exact (beq_name_iff (hts t ht)).1 hnt ▸ ht

end Arity

namespace Shape

open SecondOrder.Expr Equation

variable {R : Reserved} {arity : Arity} {N N' k : Nat} {e b m n : Expr} {g : Guess} {xs : Binders}
  {ts : List Expr} (h : Shape R N N' k e g xs b ts)

include h

/-- A temporary is none of the names that were there before. -/
theorem not_mem (hn : ∀ x, n = .var x → x.Below N) : n ∉ ts := by
  intro ht
  obtain ⟨x, rfl, -, hx, -⟩ := h.temporaries n ht
  exact hx (hn x rfl)

/-- A name that is no temporary keeps its sort; the temporaries are variables,
so the test tells them apart. -/
theorem extend_of_not_mem (hn : n ∉ ts) : arity.extend ts (k + 1) n = arity n := by
  refine Arity.extend_of_not_mem (fun t ht => ?_) hn
  obtain ⟨x, rfl, -⟩ := h.temporaries t ht
  exact .inl ⟨x, rfl⟩

/-- The body of the guess is sorted once the temporaries have their sorts. -/
theorem sorted_body : Sorted R (arity.extend ts (k + 1)) b :=
  h.sorted _ fun _ ht => Arity.extend_of_mem ht

/-- The unknowns of the function are temporaries. -/
theorem mem_of_unknown (hn : n ∈ (R.lambda xs b).names) (hm : n.isMarked = true) : n ∈ ts :=
  h.unknowns n ((mem_names_bind_iff (fun x hx => (h.params x hx).1) hm).1 hn) hm

/-- The function is one for an unknown of `k + 1` arguments. -/
theorem proper (he : e.Below N) (hm : m.isMarked = true) (hmts : m ∉ ts)
    (harity : ∀ n, arity m = some n → n = k + 1) :
    Proper R (arity.extend ts (k + 1)) ⟨m, R.lambda xs b⟩ := by
  refine ⟨hm, .bind (fun x hx => (h.params x hx).1) h.nodup h.sorted_body, fun n hn => ?_⟩
  refine ⟨xs, b, rfl, ?_, fun u hu hub => (h.params u hu).2.1 (he u ?_)⟩
  · rw [h.extend_of_not_mem hmts] at hn
    rw [h.length, harity n hn]
  · exact mem_vars_of_mem_slots (h.slots u hub)

/-- The function that is guessed keeps to the counter of the branch. -/
theorem below_value (he : e.Below N) : (R.lambda xs b).Below N' := by
  intro z hz
  rcases mem_vars_bind.1 hz with hz | hz
  · exact (h.params z hz).2.2
  · rcases h.vars z hz with hz | hz | hz
    · exact (h.params z hz).2.2
    · exact (he z hz).mono h.counter
    · obtain ⟨x, hx, -, -, hhigh⟩ := h.temporaries _ hz
      exact Expr.var.inj hx ▸ hhigh

end Shape

namespace Search

open SecondOrder.Expr Equation

variable {R : Reserved} {arity arity' : Arity} {s t : Search} {σ : EquationSet} {c d : Equation}
  {S : List Equation}

/-- Distinct unknowns make distinct equations. -/
theorem distinct_of_nodup {cs : List Equation} (hdistinct : (cs.map Equation.pattern).Nodup)
    (hm : ∀ c ∈ cs, c.pattern.isMarked = true) : EquationSet.Distinct cs := by
  induction cs with
  | nil => exact List.Pairwise.nil
  | cons c cs ih =>
    rw [List.forall_mem_cons] at hm
    obtain ⟨hc, hdistinct⟩ := List.nodup_cons.1 hdistinct
    refine List.pairwise_cons.2 ⟨fun d hd => Bool.eq_false_iff.2 fun h => hc ?_, ih hdistinct hm.2⟩
    have h : (c.pattern.similar d.pattern && c.subject.similar d.subject) = true := h
    rw [Bool.and_eq_true] at h
    exact List.mem_map.2 ⟨d, hd, (eq_of_similar_of_isMarked (hm.2 d hd) h.1).symm⟩

/-- Copying a search for a branch keeps it open. -/
theorem Open.deeper (ho : Open R arity s σ) :
    Open R arity s.deeper σ.copy ∧ σ.copy.equations = σ.equations := by
  have hσ : σ.copy.equations = σ.equations :=
    EquationSet.equations_ofList (distinct_of_nodup ho.distinct fun c hc => (ho.made c hc).1)
  have hmem {d : Equation} (hd : d ∈ s.pending.copy.equations) : d ∈ s.pending.equations :=
    (EquationSet.grows_copy s.pending).1.subset hd
  refine ⟨⟨?_, fun d hd => ho.patterns d (hmem hd), fun d hd => ho.below d (hmem hd), ho.exclusions,
    fun d hd => ho.made d (hσ ▸ hd), hσ ▸ ho.distinct, fun d hd e he => ?_⟩, hσ⟩
  · change s.solutions.map EquationSet.copy = _
    rw [ho.solutions]
    rfl
  · exact ho.apart d (hσ ▸ hd) e (hmem he)

/-- The sorts matter only for names that are below the counter, so those of
later temporaries may be anything. -/
theorem Sorted.of_agree {e : Expr} {n : Nat} (he : Sorted R arity e) (hbelow : e.Below n)
    (hagree : ∀ m, (∀ x, m = .var x → x.Below n) → arity' m = arity m) : Sorted R arity' e := by
  refine he.congr fun m hm _ => hagree m ?_
  rintro x rfl
  exact hbelow x (mem_vars_of_mem_names hm)

/-- Unknowns above the counter may be of any sort. -/
theorem Open.extend {n : Nat} (ho : Open R arity s σ) (hn : s.pending.nextFresh ≤ n)
    (hagree : ∀ m, (∀ x, m = .var x → x.Below s.pending.nextFresh) → arity' m = arity m) :
    Open R arity' { s with pending := { s.pending with nextFresh := n } } σ where
  solutions := ho.solutions
  patterns c hc :=
    have hc' := ho.patterns c hc
    ⟨Sorted.of_agree hc'.1 (ho.below c hc).1 hagree, hc'.2⟩
  below c hc := (ho.below c hc).mono hn
  exclusions := ho.exclusions
  made c hc :=
    have ⟨hm, hvalue, hbelow⟩ := ho.made c hc
    ⟨hm, Sorted.of_agree hvalue hbelow.2 hagree, hbelow.mono hn⟩
  distinct := ho.distinct
  apart := ho.apart

/-- The search in which a guess is carried out, once its variables have been
minted. -/
def minting (s : Search) (n : Nat) : Search :=
  { s.deeper with pending := { s.deeper.pending with nextFresh := n } }

/-- What the applied unknown is, and how often it is applied. -/
theorem Open.unknownHead? {m : Expr} {k : Nat} (ho : Open R arity s σ)
    (hc : c ∈ s.pending.equations) (hu : c.unknownHead? = some (m, k)) :
    m.isMarked = true ∧ m ∈ c.pattern.names ∧ ∀ n, arity m = some n → n = k + 1 := by
  obtain ⟨hp, -⟩ := ho.patterns c hc
  rw [Equation.unknownHead?] at hu
  split at hu
  · next f h a as hpat =>
    split at hu
    · next hm =>
      cases hu
      rw [hpat] at hp ⊢
      refine ⟨hm, mem_names_app.2 (.inr ⟨m, List.mem_cons_self, mem_names_self hm⟩), ?_⟩
      intro n hn
      cases hp with
      | app head args =>
        cases (args m List.mem_cons_self).plain_of_isMarked hm ▸ hn
      | apply unknown nonempty takes args =>
        exact Option.some.inj (hn.symm.trans takes)
    · cases hu
  · cases hu

/-- A name that is free in an expression has no later number than the
expression itself. -/
theorem below_of_names {m e : Expr} {n : Nat} (hm : m ∈ e.names) (he : e.Below n) {x : Var}
    (hx : m = .var x) : x.Below n := he x (mem_vars_of_mem_names (hx ▸ hm))

/-- **A branch is open,** and only a guess that violates an exclusion opens
none. -/
theorem Open.branch? {m : Expr} {k : Nat} {g : Guess} (ho : Open R arity s σ)
    (hc : c ∈ s.pending.equations) (hu : c.unknownHead? = some (m, k))
    (hg : g ∈ Guess.all (k + 1) c.subject) :
    ∃ xs b ts N P, guessed R s.deeper.pending k c.subject g = .ok (R.lambda xs b, ts, P) ∧
      Shape R s.pending.nextFresh N k c.subject g xs b ts ∧
      (s.branch? R c g = .ok none ∧ s.accepts (σ.copy.add [⟨m, R.lambda xs b⟩]) = false ∨
        ∃ t, s.branch? R c g = .ok (some ⟨t, ts⟩) ∧
          Assigned R (arity.extend ts (k + 1)) (s.minting N) σ.copy ⟨m, R.lambda xs b⟩ t) := by
  obtain ⟨hp, he⟩ := ho.patterns c hc
  obtain ⟨hcp, hce⟩ := ho.below c hc
  obtain ⟨hm, hfree, harity⟩ := ho.unknownHead? hc hu
  obtain ⟨hdeep, hσ⟩ := ho.deeper
  obtain ⟨xs, b, ts, P, hguess, hshape, hP⟩ := guessed_spec (P := s.deeper.pending) he hce hg
  have hmbelow (x : Var) (hx : m = .var x) : x.Below s.pending.nextFresh := below_of_names hfree hcp hx
  have hmts : m ∉ ts := hshape.not_mem hmbelow
  have hopen : Open R (arity.extend ts (k + 1)) (s.minting P.nextFresh) σ.copy :=
    hdeep.extend hshape.counter fun n hn => hshape.extend_of_not_mem (hshape.not_mem hn)
  have hmvars : m.Below P.nextFresh := by
    intro z hz
    rcases isName_of_isMarked hm with ⟨x, rfl⟩ | ⟨f, rfl⟩
    · rw [List.mem_singleton.1 hz]
      exact (hmbelow x rfl).mono hshape.counter
    · cases hz
  have hparam (u : Var) (hu : IsParam R (arity.extend ts (k + 1)) ⟨m, R.lambda xs b⟩ u) :
      ¬u.Numbered 'x' ∧ ∀ d ∈ (s.minting P.nextFresh).pending.equations, u ∉ d.pattern.vars := by
    obtain ⟨-, us, b', hus, hu⟩ := hu
    cases hus
    have hlow := (hshape.params u hu).2.1
    exact ⟨fun hx => hlow (hx.below _), fun d hd hud => hlow ((hdeep.below d hd).1 u hud)⟩
  have hvalue (n : Expr) (hn : n ∈ (R.lambda xs b).names) (hnm : n.isMarked = true) :
      n ≠ m ∧ ∀ d ∈ σ.copy.equations, d.pattern ≠ n := by
    have ht := hshape.mem_of_unknown hn hnm
    refine ⟨fun h => hmts (h ▸ ht), fun d hd h => ?_⟩
    have hbelow := (hdeep.made d hd).2.2.1
    obtain ⟨x, rfl, -, hlow, -⟩ := hshape.temporaries n ht
    rw [h] at hbelow
    exact hlow (hbelow x (List.mem_singleton.2 rfl))
  obtain ⟨t, hassign⟩ := hopen.assign (hshape.proper hce hm hmts harity) ⟨hmvars, hshape.below_value hce⟩ hparam
    (fun d hd h => ho.apart d (hσ ▸ hd) c hc (h ▸ hfree)) hvalue
  refine ⟨xs, b, ts, P.nextFresh, P, hguess, hshape, ?_⟩
  have hbranch {t : Search} {fits : Bool}
      (ha : (s.minting P.nextFresh).assign R ⟨m, R.lambda xs b⟩ = ⟨t, .ok fits⟩) :
      s.branch? R c g = .ok (if fits then some ⟨t, ts⟩ else none) := by
    have hmint : ({ s.deeper with pending := P } : Search) = s.minting P.nextFresh := by
      rw [hP]
      rfl
    rw [Search.branch?, hu]
    dsimp only
    rw [hguess]
    dsimp only [Bind.bind, Except.bind]
    rw [hmint, ha]
    cases fits <;> rfl
  rcases hassign with ⟨ha, h⟩ | ⟨ha, -⟩
  · exact .inr ⟨t, hbranch ha, h⟩
  · obtain ⟨σ', rest, ds, hσ', -, hfalse, -⟩ := assign_ok ha
    rw [hopen.solutions] at hσ'
    cases hσ'
    exact .inl ⟨hbranch ha, hfalse.symm⟩

end Search
end SecondOrder
