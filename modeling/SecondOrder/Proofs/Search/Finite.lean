/-
# The search is finite

Patterns may hold unknowns in binder slots, apply them to different numbers of
arguments, and use them also where they are not applied.  As long as nothing
but unknowns is applied, the search ends (`solved_within`): the deterministic
part always stops, and there is a number of branch points that no path exceeds,
whatever the limit is.

In such patterns no redex is ever left (`Search.Callable`).  A branch either
takes the unknown that it was opened for from among those that are applied, or
leaves an equation that is no branch point: an imitation mirrors its subject
(`Expr.Mirrors`), and a function that has come to stand elsewhere is not
applied.
-/

import SecondOrder.Proofs.Search.Bounded
import SecondOrder.Proofs.Search.Callable
import SecondOrder.Proofs.Search.Soundness
import SecondOrder.Proofs.Search.Trial

namespace SecondOrder

open SecondOrder.Expr Vocabulary

namespace Expr

variable {R : Reserved} {p e q v r b : Expr}

/-- The pattern has the outermost shape of the subject, and applies no
unknown. -/
inductive Mirrors : Expr → Expr → Prop
  | app {f g : Expr} {as ps es : List Expr} (length : ps.length = es.length) :
      Mirrors (.app (.app f as) ps) (.app g es)
  | bind {f : Sym} {xs ys : Binders} {p e : Expr} (length : xs.length = ys.length) :
      Mirrors (.bind f xs p) (.bind f ys e)

/-- A substitution can only replace leaves, so the shape is still mirrored. -/
theorem Mirrors.subst (h : Mirrors p e) (hq : p.subst v r = .ok q) : Mirrors q e := by
  cases h with
  | app length =>
    obtain ⟨f', ps', hf, hps, rfl⟩ := of_subst_app hq
    obtain ⟨f₀, as', -, -, rfl⟩ := of_subst_app hf
    exact .app (hps.length_eq ▸ length)
  | bind length =>
    rcases of_subst_bind hq with ⟨x, y, c, -, -, -, -, rfl⟩ | ⟨-, zs, c, d, hc, -, rfl⟩
    · exact .bind ((Binders.length_rename ..).trans length)
    · have hzs := (of_clearOf (P := fun _ => True) (fun _ _ _ _ _ _ _ => trivial) trivial hc).2.1
      exact .bind (hzs.trans length)

/-- The same for several substitutions one after another. -/
theorem Mirrors.substEach {pairs : List (Var × Expr)} (h : Mirrors p e)
    (hq : p.substEach pairs = .ok q) : Mirrors q e :=
  of_substEach (P := (Mirrors · e)) (fun _ _ _ _ h hq => h.subst hq) h hq

/-- What mirrors its subject decomposes. -/
theorem Mirrors.decomposes (h : Mirrors p e) : Equation.decomposes R ⟨p, e⟩ = true := by
  cases h with
  | app length => exact Equation.decomposes_app nofun length
  | bind length => exact Equation.decomposes_bind length

end Expr

/-- An imitation mirrors its subject. -/
theorem Trial.mirrors {R : Reserved} {us : Binders} {e b : Expr} {g : Guess} {ts : List Expr}
    (h : Trial R us e g b ts) (hts : ts ≠ []) : Mirrors b e := by
  cases h with
  | constant | projection => exact absurd rfl hts
  | app shape length =>
    subst shape
    exact .app (by rw [List.length_map, length])
  | bind shape =>
    subst shape
    exact .bind rfl

namespace Equation

variable {R : Reserved} {us us' : List Expr} {n : Nat} {c d : Equation} {f m v body : Expr} {as : List Expr}
  {xs : Binders}

/-- A function that has come to stand in an application is not applied
there. -/
theorem ne_applySym_of_lambda (hp : Uses R (.callable R us (Var.Below n)) (.app f (R.lambda xs body :: v :: as))) :
    f ≠ .sym R.applySym := by
  rintro rfl
  have hredex := hp.isRedex_eq_false
  rw [isRedex_iff.2 ⟨xs, body, v, as, rfl⟩] at hredex
  cases hredex

/-- A function in the place of what is applied leaves nothing to guess. -/
theorem rule_ne_guess_of_lambda (hp : c.pattern = .app f (R.lambda xs body :: v :: as))
    (hc : Uses R (.callable R us (Var.Below n)) c.pattern) : c.rule R ≠ .guess := by
  intro hr
  have hflex := (of_guess hr).2.2
  rw [isFlexible, hp, isApply_of_ne (ne_applySym_of_lambda (hp ▸ hc))] at hflex
  cases hflex

/-- An unknown that is applied is one of those that may be. -/
theorem Callable.mem_of_apply (h : c.Callable R us n) (hm : m.isMarked = true)
    (hp : c.pattern = .app (.sym R.applySym) (m :: as)) : m ∈ us := by
  have hpattern := h.pattern
  rw [hp] at hpattern
  cases hpattern with
  | app head =>
    cases head with
    | sym hatom => exact absurd rfl hatom
  | apply applied =>
    exact applied.elim And.right fun hg => absurd (hg.not_isMarked.symm.trans hm) Bool.false_ne_true

/-- An imitation that is carried out where its unknown is applied leaves no
branch point. -/
theorem rule_ne_guess_of_mirrors (h : Mirrors c.pattern c.subject) : c.rule R ≠ .guess := by
  intro hr
  exact Bool.false_ne_true ((of_guess hr).2.1.symm.trans h.decomposes)

/-- What an application looks like when its second child has been given a
function. -/
theorem Brings.lambda_arg {a p : Expr} (hm : m.isMarked = true) (hbody : Uses R (.inert R (· ∈ us)) body)
    (hf : ∀ f₁, f.subst m (R.lambda xs body) = .ok f₁ → f₁ ≠ .sym R.applySym)
    (h : Brings R ⟨m, R.lambda xs body⟩ (.app f (m :: a :: as)) p) :
    ∃ f' a' as', p = .app f' (R.lambda xs body :: a' :: as') ∧ as'.length = as.length := by
  obtain ⟨f', bs, rfl, -, hbs⟩ := Brings.app hf h
  cases hbs with
  | @cons _ v _ bs hv hbs => cases hbs with
    | @cons _ a' _ as' _ has =>
      obtain rfl := hv.eq_subject hm fun _ => hbody.contractFrom_lambda_of_inert
      exact ⟨f', a', as', rfl, has.length_eq.symm⟩

/-- An application of an unknown that has been given a function is
contracted. -/
theorem Brings.contracted {a p : Expr} (hm : m.isMarked = true) (hbody : Uses R (.inert R (· ∈ us)) body)
    (h : Brings R ⟨m, R.lambda xs body⟩ (R.apply m a as) p) :
    ∃ pairs, body.substEach pairs = .ok p := by
  obtain ⟨a', as', -, hq⟩ := Brings.apply_self hm (fun _ => hbody.contractFrom_lambda_of_inert) h
  rcases hq with ⟨-, hq⟩ | ⟨hfun, -⟩
  · exact ⟨_, (of_contract_lambda hq).2⟩
  · exact absurd (hfun.symm.trans (beq_self_eq_true R.lambdaSym)) Bool.false_ne_true

end Equation

namespace Search

open Equation

variable {R : Reserved} {s t : Search} {us : List Expr} {c : Equation} {g : Guess} {m body : Expr} {k : Nat}
  {b : Branch}

/-- In the branch `b` of `s` the unknown `m` has the function with the body
`body` that the guess `g` tries. -/
structure Opened (R : Reserved) (s : Search) (c : Equation) (g : Guess) (m : Expr) (k : Nat) (body : Expr)
    (b : Branch) : Prop where
  unknown : m.isMarked = true
  trial : Trial R (s.pending.mintBinders k).1 c.subject g body b.temporaries
  temporaries : ∀ t ∈ b.temporaries, t.isMarked = true
  counter : s.pending.nextFresh ≤ b.search.pending.nextFresh
  carried : List.Forall₂ (fun d e =>
      (⟨m, R.lambda (s.pending.mintBinders k).1 body⟩ : Equation).apply R d.pattern = .ok e.pattern ∧
        e.subject = d.subject) s.pending.copy.equations b.search.pending.equations

/-- A branch carries out one of the guesses, and the new unknowns in it are
those that the guess has brought. -/
theorem opened_of_branch? (hhead : c.unknownHead? = some (m, k)) (hg : g ∈ Guess.all (k + 1) c.subject)
    (hbranch : s.branch? R c g = .ok (some b)) : ∃ body, s.Opened R c g m k body b := by
  obtain ⟨m', k', value, P, hhead', hguess, assigned⟩ := branch?_some hbranch
  cases hhead.symm.trans hhead'
  obtain ⟨⟨body, rfl, htrial⟩, hP, hcounter, -, hnew⟩ := of_guessed hg hguess
  obtain ⟨σ, rest, ds, -, hds, -, hsearch⟩ := assign_ok assigned
  have hequations : P.equations = s.pending.copy.equations := by rw [hP]; rfl
  have hn : s.pending.nextFresh ≤ P.nextFresh :=
    Nat.le_trans (Nat.le_trans (Nat.le_succ _) (Nat.le_add_right _ _)) hcounter
  refine ⟨body, isMarked_of_unknownHead? hhead, htrial, fun t ht => ?_, ?_, ?_⟩
  · obtain ⟨x, rfl, hx, -⟩ := hnew t ht
    exact hx
  · rw [hsearch]
    exact hn
  · rw [hsearch]
    exact hequations ▸ EquationSet.instantiatePatterns_eq_ok.1 hds

/-- The equation that was branched on is the first one, and stays so in the
branch. -/
theorem Opened.branched (ho : s.Opened R c g m k body b) (hb : s.pending.best? R = some c)
    (hr : c.rule R = .guess) :
    ∃ d ∈ b.search.pending.equations,
      Brings R ⟨m, R.lambda (s.pending.mintBinders k).1 body⟩ c.pattern d.pattern ∧ d.subject = c.subject := by
  obtain ⟨e, es, hs⟩ := List.exists_cons_of_ne_nil (List.ne_nil_of_mem (EquationSet.mem_of_best? hb))
  obtain rfl := EquationSet.eq_of_best?_of_guess hb hr hs
  obtain ⟨es, hes⟩ := EquationSet.equations_copy_cons hs
  obtain ⟨d, hd, happly, hsubject⟩ := exists_of_forall₂_left ho.carried c (hes ▸ List.mem_cons_self)
  exact ⟨d, hd, brings_of_apply happly, hsubject⟩

/-- In the patterns of the search nothing is applied but unknowns among `us`
and ground expressions. -/
def Callable (R : Reserved) (us : List Expr) (s : Search) : Prop :=
  ∀ c ∈ s.pending.equations, c.Callable R us s.pending.nextFresh

namespace Callable

/-- Equations that are callable may be added. -/
theorem add {P : EquationSet} {cs : List Equation} (hP : ∀ c ∈ P.equations, c.Callable R us P.nextFresh)
    (hcs : ∀ c ∈ cs, c.Callable R us P.nextFresh) :
    ∀ c ∈ (P.add cs).equations, c.Callable R us (P.add cs).nextFresh := by
  have hgrows := EquationSet.grows_add P cs
  obtain ⟨ds, hds, heqs, -⟩ := hgrows.equations
  intro c hc
  rw [heqs] at hc
  rcases List.mem_append.1 hc with hc | hc
  · exact (hP c hc).mono (fun _ => id) hgrows.counter
  · exact (hcs c (hds.subset hc)).mono (fun _ => id) hgrows.counter

/-- **Steps keep what is applied.** -/
theorem advance (h : s.Callable R us) (hc : c ∈ s.pending.equations) (ha : Advance R s c t) :
    t.Callable R us := by
  have hdrop (d : Equation) (hd : d ∈ (s.drop c).pending.equations) : d.Callable R us s.pending.nextFresh :=
    h d (mem_of_mem_drop hd)
  have haligned {P : EquationSet} {d : Equation} (ha : c.align (s.drop c).pending = ⟨P, .ok d⟩) :
      (∀ e ∈ P.equations, e.Callable R us P.nextFresh) ∧ d.Callable R us P.nextFresh := by
    refine ⟨fun e he => ?_, Equation.Callable.align (s := (s.drop c).pending) (h c hc) ha⟩
    rw [equations_of_align ha] at he
    exact (hdrop e he).mono (fun _ => id) (nextFresh_of_align ha)
  cases ha with
  | trivial => exact hdrop
  | assign rule assigned =>
    obtain ⟨σ, rest, ds, -, hds, -, rfl⟩ := assign_ok assigned
    intro d hd
    obtain ⟨e, he, hed, hsubject⟩ :=
      exists_of_forall₂ (EquationSet.instantiatePatterns_eq_ok.1 hds) d hd
    exact (hdrop e he).apply (isMarked_of_assign rule) (fun _ hn _ => hn) (.ground (h c hc).subject) hed hsubject
  | align _ aligned => exact (haligned aligned).1
  | decompose _ aligned again =>
    obtain ⟨hP, hd⟩ := haligned aligned
    exact add hP (hd.pieces (decomposes_of_rule again))
  | contract _ redex =>
    exact absurd ((h c hc).pattern.isRedex_eq_false.symm.trans redex) Bool.false_ne_true

/-- In the branch the function is brought into every pattern, and it applies
nothing but the temporaries. -/
theorem opened (h : s.Callable R us) (hc : c ∈ s.pending.equations) (ho : s.Opened R c g m k body b) :
    Uses R (.inert R (· ∈ b.temporaries)) body ∧
      ∀ us', (∀ t ∈ b.temporaries, t ∈ us') → (∀ n ∈ us, n ≠ m → n ∈ us') → b.search.Callable R us' := by
  have hbody : Uses R (.inert R (· ∈ b.temporaries)) body := by
    refine ho.trial.uses ((h c hc).subject.inert_of_ground _) (fun u hu => ⟨?_, nofun⟩) fun t ht => ⟨?_, ht⟩
    · exact (EquationSet.mem_mintBinders hu).1
    · exact ho.temporaries t ht
  refine ⟨hbody, fun us' hts hus d hd => ?_⟩
  obtain ⟨e, he, hed, hsubject⟩ := exists_of_forall₂ ho.carried d hd
  have hvalue : Value R us' (Var.Below s.pending.nextFresh) (R.lambda (s.pending.mintBinders k).1 body) :=
    .function (fun u hu => ⟨(EquationSet.mem_mintBinders hu).1, (EquationSet.mem_mintBinders hu).2.1⟩)
      (hbody.mono_inert hts)
  have he := h e ((EquationSet.grows_copy s.pending).1.subset he)
  exact (he.apply ho.unknown hus hvalue hed hsubject).mono (fun _ => id) ho.counter

/-- **A branch leaves an equation that is no branch point,** or it has no
temporaries and the unknown is no longer applied. -/
theorem branch? (h : s.Callable R us) (hb : s.pending.best? R = some c)
    (hr : c.rule R = .guess) (hhead : c.unknownHead? = some (m, k))
    (hg : g ∈ Guess.all (k + 1) c.subject) (hbranch : s.branch? R c g = .ok (some b)) :
    b.search.weight ≤ s.weight ∧ ∃ us', b.search.Callable R us' ∧
      ((∃ d ∈ b.search.pending.equations, d.rule R ≠ .guess) ∨
        m ∈ us ∧ us' = us.filter fun n => !(n == m)) := by
  have hc := EquationSet.mem_of_best? hb
  obtain ⟨body, ho⟩ := opened_of_branch? hhead hg hbranch
  obtain ⟨hbody, hcallable⟩ := h.opened hc ho
  have hm := ho.unknown
  have hweight : b.search.weight ≤ s.weight := by
    rw [weight, weightAll_of_subjects (ho.carried.imp fun _ _ => And.right)]
    exact weightAll_le_of_sublist (EquationSet.grows_copy s.pending).1
  refine ⟨hweight, ?_⟩
  obtain ⟨d, hd, hbrings, hsubject⟩ := ho.branched hb hr
  obtain ⟨f, a, as, hp⟩ := pattern_of_unknownHead? hhead
  have hall := hcallable (us ++ b.temporaries) (fun t ht => List.mem_append_right _ ht)
    fun n hn _ => List.mem_append_left _ hn
  rw [hp] at hbrings
  by_cases hf : f = .sym R.applySym
  · subst hf
    have hmem : m ∈ us := (h c hc).mem_of_apply hm hp
    by_cases hts : b.temporaries = []
    · refine ⟨_, hcallable _ (by simp [hts]) fun n hn hne => List.mem_filter.2 ⟨hn, ?_⟩, .inr ⟨hmem, rfl⟩⟩
      rw [Bool.eq_false_iff.2 (mt (beq_name_iff (isName_of_isMarked hm)).1 hne)]
      rfl
    · obtain ⟨pairs, hq⟩ := hbrings.contracted hm hbody
      refine ⟨_, hall, .inl ⟨d, hd, rule_ne_guess_of_mirrors ?_⟩⟩
      exact hsubject ▸ (ho.trial.mirrors hts).substEach hq
  · obtain ⟨f', a', as', hq, -⟩ := hbrings.lambda_arg hm hbody fun _ => ne_of_subst hf fun h => by cases h
    exact ⟨_, hall, .inl ⟨d, hd, rule_ne_guess_of_lambda hq (hall d hd).pattern⟩⟩

/-- A search that is made from patterns of the class is callable. -/
theorem ofPairs {cs : List Equation}
    (hcs : ∀ c ∈ cs, (∀ W, Uses R (.callable R us W) c.pattern) ∧ c.subject.Concrete R) :
    Callable R us { pending := .addEach {} cs } := by
  obtain ⟨ds, hds, heqs, hbelow⟩ := (EquationSet.grows_addEach {} cs).equations
  intro c hc
  have hc : c ∈ ds := by
    rwa [show (Search.mk (.addEach {} cs) [] none 0 none).pending.equations = ds from heqs] at hc
  obtain ⟨hp, he⟩ := hcs c (hds.subset hc)
  exact ⟨hp _, he.uses (hbelow c hc).2⟩

end Callable

/-- Searches in which nothing but unknowns and ground expressions is applied
shrink. -/
theorem shrinking_callable : Shrinking R (Callable R) where
  flex h hc := (h _ hc).pattern.isRedex_eq_false
  advance h hc ha := ⟨_, h.advance hc ha⟩
  branch h hb hr hhead hg hbranch := h.branch? hb hr hhead hg hbranch

/-- **The search is finite.**  Take any equations in whose patterns the symbol
for application stands for nothing but the application of unknowns.  There is a
number of branch points that no path of the search exceeds, and everywhere on
the paths the deterministic part ends.  So under no limit, and under every one
that is not below that number, the search returns, or is refused for another
reason than the limit. -/
theorem solved_within {cs : List Equation}
    (hcs : ∀ c ∈ cs, Uses R (.calls R) c.pattern ∧ c.subject.Concrete R) :
    ∃ N : Nat, ∀ limit : Option Int, (∀ l, limit = some l → (N : Int) ≤ l) →
      ∃ s, ofPairs R limit (cs.map operands) = .ok s ∧
        (∀ k t, Path R s k t → k ≤ N ∧ ∃ n last, steps R n t = some last) ∧
        ∃ n t r, s.solved R n = some ⟨t, r⟩ ∧ ∀ fault, r = .error fault → fault.kind ≠ .searchLimit := by
  let s : Search := { pending := .addEach {} cs }
  -- what may be applied is what stands in the patterns
  have hbegun : s.begun.Callable R (cs.flatMap (·.pattern.nodes)) := by
    refine Callable.ofPairs fun c hc => ⟨fun W => ?_, (hcs c hc).2⟩
    refine (hcs c hc).1.of_nodes (fun n _ (hn : (calls R).atom n) => hn) (fun g hg hm => .inl ⟨hm, ?_⟩)
      fun _ _ => trivial
    exact List.mem_flatMap.2 ⟨c, hc, hg⟩
  obtain ⟨N, hN⟩ := shrinking_callable.bounded hbegun (Nat.zero_le 1)
  refine ⟨N, fun limit hlimit => ⟨_, ofPairs_operands R limit cs, ?_⟩⟩
  have hbounded : Bounded R N (s.withLimit limit) := hN.withLimit limit
  obtain ⟨n, ⟨t, r⟩, hsolve⟩ := hbounded.returns
  refine ⟨fun k t hpath => hbounded.path hpath, n, t, r, hsolve, hbounded.unlimited (fun l hl => ?_) hsolve⟩
  have hdepth : (s.withLimit limit).depth = 0 := rfl
  have := hlimit l hl
  omega

/-- `_f` applied under a binder, and alone: `λ[_x. _f(_x)]` should equal
`λ[y. p(y)]`, and `_f` should equal `a`. -/
def appliedUnderBinder : List Equation :=
  let name (s : String) : Expr := .var ⟨s, false⟩
  let f : Expr := .var ⟨"f", true⟩
  let lambda : Sym := { name := "lambda", cd := "fns1" }
  [⟨.bind lambda ⟨⟨"x", true⟩, []⟩ (.app (.sym (Reserved.applySym {})) [f, .var ⟨"x", true⟩]),
      .bind lambda ⟨⟨"y", false⟩, []⟩ (.app (name "p") [name "y"])⟩,
    ⟨f, name "a"⟩]

/-- `solved_within` at `appliedUnderBinder`, where what is applied is also
bound. -/
theorem solved_within_appliedUnderBinder :
    (∀ c ∈ appliedUnderBinder, Uses {} (.calls {}) c.pattern ∧ c.subject.Concrete {}) ∧
    ∃ N : Nat, ∀ limit : Option Int, (∀ l, limit = some l → (N : Int) ≤ l) →
      ∃ s, ofPairs {} limit (appliedUnderBinder.map operands) = .ok s ∧
        (∀ k t, Path {} s k t → k ≤ N ∧ ∃ n last, steps {} n t = some last) ∧
        ∃ n t r, s.solved {} n = some ⟨t, r⟩ ∧ ∀ fault, r = .error fault → fault.kind ≠ .searchLimit := by
  have hcs : ∀ c ∈ appliedUnderBinder, Uses {} (.calls {}) c.pattern ∧ c.subject.Concrete {} := by
    have hf : Uses {} (.calls {}) (.var ⟨"f", true⟩) := .var nofun
    have hx : Uses {} (.calls {}) (.var ⟨"x", true⟩) := .var nofun
    simp only [appliedUnderBinder, List.forall_mem_cons, List.not_mem_nil, false_imp_iff, implies_true, and_true]
    refine ⟨⟨.bind trivial (by simp [Binders.toList, calls]) ?_, ?_⟩, hf, ?_⟩
    · exact .apply rfl (List.cons_ne_nil _ _) (List.forall_mem_singleton.2 hx)
    · simp [Concrete, nodes, nodesAll, isMarked, Binders.toList,
        Reserved.lambdaSym, Reserved.applySym, Reserved.symbol]
    · simp [Concrete, nodes, isMarked]
  exact ⟨hcs, solved_within hcs⟩

end Search
end SecondOrder
