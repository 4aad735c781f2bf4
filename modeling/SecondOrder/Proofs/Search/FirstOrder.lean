/-
# First-order patterns

A pattern is first-order if the symbol for application does not occur in it, so
that nothing is applied.  The search for first-order patterns never comes to
branch in earnest: it returns whatever the limit is, and finds at most one
solution (`solved_firstOrder`).

It may still reach a branch point.  An application of at least three children
whose second child is an unknown, such as `f(_m, a)`, is taken for the
application of that unknown where it does not decompose.  Every guess for the
unknown puts a function into the place of the second child, and there it
clashes (`Callable.clash_of_branch?`), so that nothing is found; but a limit
below 1 refuses the branch point itself (`exceeded_flexible`).  If no pattern
holds such an application (`Expr.Rigid`), no limit ever refuses the search.
-/

import SecondOrder.Proofs.Search.Depth
import SecondOrder.Proofs.Search.Finite

namespace SecondOrder

open SecondOrder.Expr Vocabulary

namespace Expr

variable {R : Reserved} {e f v r q b : Expr} {as : List Expr} {g : Sym} {xs ys : Binders} {x y : Var}

/-- Nothing is applied in the expression, and no unknown stands where one that
is applied would stand. -/
def Rigid (R : Reserved) (e : Expr) : Prop :=
  ∀ f as, .app f as ∈ e.nodes → f ≠ .sym R.applySym ∧ ∀ m a rest, as = m :: a :: rest → m.isMarked = false

/-- What has no children applies nothing. -/
theorem rigid_atom (he : e.isCompound = false) : e.Rigid R := by
  have hnodes : e.nodes = [e] := by cases e <;> first | rfl | cases he
  intro f as h
  rw [hnodes] at h
  rw [← List.mem_singleton.1 h] at he
  cases he

/-- An application is rigid if its symbol is not that for application, if no
unknown stands first among several arguments, and if its children are rigid. -/
theorem rigid_app : (app f as).Rigid R ↔
    f ≠ .sym R.applySym ∧ (∀ m a rest, as = m :: a :: rest → m.isMarked = false) ∧
      f.Rigid R ∧ ∀ a ∈ as, a.Rigid R := by
  simp only [Rigid, mem_nodes_app]
  constructor
  · refine fun h => ⟨(h f as (.inl rfl)).1, (h f as (.inl rfl)).2, fun g bs hn => h g bs (.inr (.inl hn)), ?_⟩
    exact fun a ha g bs hn => h g bs (.inr (.inr ⟨a, ha, hn⟩))
  · rintro ⟨hne, hm, hf, has⟩ g bs (heq | hn | ⟨a, ha, hn⟩)
    · cases heq
      exact ⟨hne, hm⟩
    · exact hf g bs hn
    · exact has a ha g bs hn

/-- A binding is as rigid as its body. -/
theorem rigid_bind : (bind g xs b).Rigid R ↔ b.Rigid R := by
  simp only [Rigid, mem_nodes_bind]
  refine ⟨fun h f as hn => h f as (.inr (.inr (.inr hn))), ?_⟩
  rintro h f as (heq | heq | ⟨x, -, heq⟩ | hn)
  · cases heq
  · cases heq
  · cases heq
  · exact h f as hn

/-- What stands first among several arguments stands there for what stood there
before. -/
theorem not_isMarked_of_forall₂ {P : Expr → Expr → Prop} {bs : List Expr} (h : List.Forall₂ P as bs)
    (hP : ∀ a b, P a b → a.isMarked = false → b.isMarked = false)
    (has : ∀ m a rest, as = m :: a :: rest → m.isMarked = false) :
    ∀ m b rest, bs = m :: b :: rest → m.isMarked = false := by
  rintro m b rest rfl
  cases h with
  | cons hm hrest => cases hrest with
    | cons => exact hP _ _ hm (has _ _ _ rfl)

/-- No unknown comes from a renaming to an ordinary variable. -/
theorem not_isMarked_rename (hy : y.marked = false) (he : e.isMarked = false) :
    (e.rename x y).isMarked = false := by
  cases e with
  | var z =>
    rw [rename]
    split
    · exact hy
    · exact he
  | sym f => exact he
  | _ => rfl

/-- A renaming to an ordinary variable brings no unknown to where one could be
applied. -/
theorem Rigid.rename (hy : y.marked = false) (h : e.Rigid R) : (e.rename x y).Rigid R := by
  induction e with
  | app f as ihf ihas =>
    obtain ⟨hne, hm, hf, has⟩ := rigid_app.1 h
    rw [Expr.rename, renameAll_eq_map]
    refine rigid_app.2 ⟨?_, ?_, ihf hf, List.forall_mem_map.2 fun a ha => ihas a ha (has a ha)⟩
    · cases f with
      | sym => exact hne
      | _ => simp [Expr.rename]
    · refine not_isMarked_of_forall₂ (P := fun a b => b = a.rename x y) ?_
        (fun a b hb ha => hb ▸ not_isMarked_rename hy ha) hm
      exact List.forall₂_map_right_iff.2 (List.forall₂_same.2 fun _ _ => rfl)
  | bind g xs b ih => exact rigid_bind.2 (ih (rigid_bind.1 h))
  | _ => exact rigid_atom rfl

/-- No unknown comes from a substitution of something else, either. -/
theorem not_isMarked_subst (hr : r.isMarked = false) (he : e.isMarked = false) (h : e.subst v r = .ok q) :
    q.isMarked = false := by
  cases e with
  | app =>
    obtain ⟨_, _, -, -, rfl⟩ := of_subst_app h
    rfl
  | bind =>
    rcases of_subst_bind h with ⟨_, _, _, -, -, -, -, rfl⟩ | ⟨-, _, _, _, -, -, rfl⟩ <;> rfl
  | _ =>
    rw [subst_atom rfl] at h
    cases h
    split <;> assumption

/-- **Substitution of what is rigid and no unknown keeps an expression
rigid.** -/
theorem Rigid.subst (hrigid : r.Rigid R) (hr : r.isMarked = false) (hne : r ≠ .sym R.applySym)
    (he : e.Rigid R) (h : e.subst v r = .ok q) : q.Rigid R := by
  induction e using sizedInduct generalizing q with
  | atom e hatom =>
    rw [subst_atom hatom] at h
    cases h
    split <;> assumption
  | app f as ihf ihas =>
    obtain ⟨f', as', hf, has, rfl⟩ := of_subst_app h
    obtain ⟨hfne, hm, hrf, hras⟩ := rigid_app.1 he
    refine rigid_app.2 ⟨ne_of_subst hfne hne hf, not_isMarked_of_forall₂ has (fun a a' haa' ha => ?_) hm,
      ihf hrf hf, fun a' ha' => ?_⟩
    · exact not_isMarked_subst hr ha haa'
    · obtain ⟨a, ha, haa'⟩ := exists_of_forall₂ has a' ha'
      exact ihas a ha (hras a ha) haa'
  | bind g xs b ihb =>
    have hb := rigid_bind.1 he
    rcases of_subst_bind h with ⟨x, y, c, -, -, -, hc, rfl⟩ | ⟨-, ys, c, d, hc, hd, rfl⟩
    · exact rigid_bind.2 (ihb b rfl hb hc)
    · obtain ⟨hcleared, -⟩ := of_clearOf (P := Rigid R) (fun _ _ _ _ hy _ he => he.rename hy) hb hc
      exact rigid_bind.2 (ihb c (size_of_clearOf hc) hcleared hd)

/-- The bound variables of a rigid expression may be exchanged for ordinary
ones, as alignment does. -/
theorem Rigid.alphaConvert (hy : y.marked = false) (he : e.Rigid R)
    (h : e.alphaConvert (.var x) (.var y) = .ok q) : q.Rigid R := by
  obtain ⟨f, xs, b, c, rfl, -, hc, rfl⟩ := of_alphaConvert h
  exact rigid_bind.2 (Rigid.subst (r := .var y) (rigid_atom rfl) hy nofun (rigid_bind.1 he) hc)

/-- What is rigid is no redex, since nothing is applied in it. -/
theorem Rigid.isRedex_eq_false (h : e.Rigid R) : e.isRedex R = false := by
  refine Bool.eq_false_iff.2 fun hredex => ?_
  obtain ⟨xs, b, a, as, rfl⟩ := isRedex_iff.1 hredex
  exact (rigid_app.1 h).1 rfl

/-- Nothing is contracted in a rigid expression. -/
theorem Rigid.contractFrom (h : e.Rigid R) (depth : Nat) : Expr.contractFrom R depth e = .ok e :=
  contractFrom_of_not_isRedex (fun _ hn => isRedex_eq_false fun f as happ => h f as
    (mem_nodes_trans happ hn)) depth

/-- Ground expressions are rigid. -/
theorem Uses.rigid {W : Var → Prop} (h : Uses R (ground R W) e) : e.Rigid R := by
  induction h with
  | @app f as head args ihf ihas =>
    refine rigid_app.2 ⟨?_, ?_, ihf, ihas⟩
    · rintro rfl
      cases head with
      | sym hatom => exact hatom.2.1 rfl
    · rintro m a rest rfl
      exact (args m List.mem_cons_self).not_isMarked
  | apply applied => exact applied.elim
  | bind _ _ _ ih => exact rigid_bind.2 ih
  | _ => exact rigid_atom rfl

/-- What an application applies is part of the expression that the application
is part of. -/
theorem head_mem_nodes (h : app f as ∈ e.nodes) : f ∈ e.nodes := by
  induction e with
  | app g bs ihg ihbs =>
    rcases mem_nodes_app.1 h with heq | h | ⟨b, hb, h⟩
    · cases heq
      exact mem_nodes_of_head (self_mem_nodes f)
    · exact mem_nodes_of_head (ihg h)
    · exact mem_nodes_of_arg hb (ihbs b hb h)
  | bind g xs b ih =>
    rcases mem_nodes_bind.1 h with heq | heq | ⟨x, -, heq⟩ | h
    · cases heq
    · cases heq
    · cases heq
    · exact mem_nodes_of_body (ih h)
  | _ => cases List.mem_singleton.1 h

end Expr

namespace Equation

variable {R : Reserved} {a c d : Equation} {s Q : EquationSet} {m : Expr} {k : Nat}

/-- An equation with a rigid pattern has one after alignment: only new ordinary
names are given. -/
theorem rigid_align (h : c.pattern.Rigid R) (hd : c.align s = ⟨Q, .ok d⟩) : d.pattern.Rigid R := by
  refine of_align (P := fun _ e => e.pattern.Rigid R) (fun n i e e' he he' => ?_) h hd
  rcases of_renameSlot he' with rfl | ⟨u, v, hpattern, -⟩
  · exact he
  · exact he.alphaConvert rfl hpattern

/-- The pieces of a rigid pattern are rigid; its slots become variables by
themselves. -/
theorem rigid_pieces (h : c.pattern.Rigid R) : ∀ d ∈ c.pieces, d.pattern.Rigid R := by
  obtain ⟨p, e⟩ := c
  intro d hd
  rw [pieces] at hd
  dsimp only at h hd
  split at hd
  · obtain ⟨-, -, hf, has⟩ := rigid_app.1 h
    exact (List.forall_mem_cons (p := fun a => a.Rigid R)).2 ⟨hf, has⟩ _ (mem_zipWith_mk hd).1
  · next f xs b g ys b' =>
    rcases List.mem_append.1 hd with hd | hd
    · obtain ⟨i, hi, rfl⟩ := List.mem_iff_getElem.1 hd
      rw [List.getElem_zipWith]
      exact rigid_atom rfl
    · exact List.mem_singleton.1 hd ▸ rigid_bind.1 h
  · cases hd

/-- A rigid pattern is no branch point. -/
theorem unknownHead?_of_rigid (h : c.pattern.Rigid R) : c.unknownHead? = none := by
  refine Option.eq_none_iff_forall_not_mem.2 fun ⟨m, k⟩ hhead => ?_
  obtain ⟨f, a, as, hp⟩ := pattern_of_unknownHead? hhead
  rw [hp] at h
  exact Bool.false_ne_true (((rigid_app.1 h).2.1 m a as rfl).symm.trans (isMarked_of_unknownHead? hhead))

end Equation

namespace Search

open Equation

variable {R : Reserved} {s t u : Search} {c d : Equation} {g : Guess} {m : Expr} {k n : Nat} {b : Branch}
  {fault : Fault} {us : List Expr}

/-- The deterministic part keeps a search callable for the same unknowns. -/
theorem Callable.reaches (h : s.Callable R us) (hr : Reaches R s t) : t.Callable R us :=
  hr.invariant h fun _ _ _ hu hb ha => hu.advance (EquationSet.mem_of_best? hb) ha

/-- Steps keep patterns rigid: all values are ground. -/
theorem rigid_advance (hs : s.Callable R us) (h : ∀ d ∈ s.pending.equations, d.pattern.Rigid R)
    (hc : c ∈ s.pending.equations) (ha : Advance R s c t) : ∀ d ∈ t.pending.equations, d.pattern.Rigid R := by
  have hdrop (d : Equation) (hd : d ∈ (s.drop c).pending.equations) : d.pattern.Rigid R :=
    h d (mem_of_mem_drop hd)
  have haligned {P : EquationSet} {d : Equation} (ha : c.align (s.drop c).pending = ⟨P, .ok d⟩) :
      (∀ e ∈ P.equations, e.pattern.Rigid R) ∧ d.pattern.Rigid R :=
    ⟨equations_of_align ha ▸ hdrop, rigid_align (h c hc) ha⟩
  cases ha with
  | trivial => exact hdrop
  | assign rule assigned =>
    obtain ⟨σ, rest, ds, -, hds, -, rfl⟩ := assign_ok assigned
    intro d hd
    obtain ⟨e, he, hed, -⟩ := exists_of_forall₂ (EquationSet.instantiatePatterns_eq_ok.1 hds) d hd
    obtain ⟨p, depth, hp, hq⟩ := brings_of_apply hed
    have hsubject := (hs c hc).subject
    have hrigid : p.Rigid R := by
      refine Rigid.subst hsubject.rigid hsubject.not_isMarked ?_ (hdrop e he) hp
      intro heq
      rw [heq] at hsubject
      cases hsubject with
      | sym hatom => exact hatom.2.1 rfl
    rw [hrigid.contractFrom] at hq
    exact Except.ok.inj hq ▸ hrigid
  | align _ aligned => exact (haligned aligned).1
  | @decompose P d _ aligned _ =>
    obtain ⟨hP, hd⟩ := haligned aligned
    obtain ⟨ds, hds, heqs, -⟩ := (EquationSet.grows_add P d.pieces).equations
    intro e he
    rw [heqs] at he
    exact (List.mem_append.1 he).elim (hP e) fun he => rigid_pieces hd e (hds.subset he)
  | contract _ redex => exact absurd ((h c hc).isRedex_eq_false.symm.trans redex) Bool.false_ne_true

/-- **The deterministic part keeps patterns rigid,** as each of its steps
does. -/
theorem rigid_reaches (hs : s.Callable R us) (h : ∀ d ∈ s.pending.equations, d.pattern.Rigid R)
    (hr : Reaches R s t) : ∀ d ∈ t.pending.equations, d.pattern.Rigid R := by
  refine (hr.invariant (P := fun u => u.Callable R us ∧ ∀ d ∈ u.pending.equations, d.pattern.Rigid R)
    ⟨hs, h⟩ fun u c v hu hb ha => ?_).2
  have hc := EquationSet.mem_of_best? hb
  exact ⟨hu.1.advance hc ha, rigid_advance hu.1 hu.2 hc ha⟩

/-- **Where nothing is applied every guess clashes:** it puts a function where
the subject has none. -/
theorem Callable.clash_of_branch? (h : s.Callable R []) (hb : s.pending.best? R = some c)
    (hr : c.rule R = .guess) (hhead : c.unknownHead? = some (m, k)) (hg : g ∈ Guess.all (k + 1) c.subject)
    (hbranch : s.branch? R c g = .ok (some b)) : ∃ d ∈ b.search.pending.equations, d.rule R = .clash := by
  have hc := EquationSet.mem_of_best? hb
  obtain ⟨body, ho⟩ := opened_of_branch? hhead hg hbranch
  obtain ⟨hbody, hcallable⟩ := h.opened hc ho
  obtain ⟨⟨p, e⟩, hd, hbrings, hsubject⟩ := ho.branched hb hr
  obtain ⟨f, a, as, hp⟩ := pattern_of_unknownHead? hhead
  have hf : f ≠ .sym R.applySym := fun hf => List.not_mem_nil ((h c hc).mem_of_apply ho.unknown (hf ▸ hp))
  rw [hp] at hbrings
  obtain ⟨f', a', as', rfl, hlen⟩ := hbrings.lambda_arg ho.unknown hbody fun _ => ne_of_subst hf nofun
  have hall := hcallable _ (fun _ => id) nofun _ hd
  refine ⟨_, hd, rule_of_lambda_arg (ne_applySym_of_lambda hall.pattern) hall.subject fun g es he heq => ?_⟩
  -- otherwise the equation that was branched on decomposes
  have hdec := (of_guess hr).2.1
  have hsubject : c.subject = .app g es := hsubject.symm.trans he
  rw [hlen] at heq
  have hdecomposes : decomposes R ⟨.app f (m :: a :: as), .app g es⟩ = true := decomposes_app hf heq
  rw [← hp, ← hsubject, hdec] at hdecomposes
  cases hdecomposes

/-- A refused search keeps the solution under construction. -/
theorem length_of_fault (hone : s.solutions.length ≤ 1) (h : s.solve R n = some ⟨t, .error fault⟩) :
    t.solutions.length = 1 := by
  obtain ⟨u, hu, ⟨-, rfl, -⟩ | ⟨-, c, -, hhalt⟩⟩ := solve_error_cases h
  · exact hu.frame.2.2.2.trans (length_begun hone)
  · rw [hhalt.lost.2.1]
    exact hu.frame.2.2.2.trans (length_begun hone)

/-- Where nothing is applied every branch is refuted. -/
theorem Callable.refuted_of_branch {g : Guess} {b : Branch} {r : Attempt Search Unit} (h : s.Callable R [])
    (hone : s.solutions.length = 1) (hb : s.pending.best? R = some c) (hr : c.rule R = .guess)
    (hhead : c.unknownHead? = some (m, k)) (hg : g ∈ Guess.all (k + 1) c.subject)
    (hopen : s.branch? R c g = .ok (some b)) (hsolve : b.search.solve R n = some r) :
    r = ⟨b.search.begun.refuted, .ok ()⟩ := by
  obtain ⟨d, hd, hclash⟩ := h.clash_of_branch? hb hr hhead hg hopen
  have hlen : ¬1 < b.search.solutions.length := by
    rw [length_branch? hopen, hone]
    exact Nat.lt_irrefl 1
  exact solve_unique hsolve (solve_of_clash hlen hd hclash (Nat.le_refl 2))

/-- What a search comes to in which nothing is applied. -/
theorem Callable.solve {r : Except Fault Unit} (h : s.begun.Callable R []) (hone : s.solutions.length ≤ 1)
    (hs : s.solve R n = some ⟨t, r⟩) :
    t.solutions.length ≤ 1 ∧ ∀ fault, r = .error fault → fault.kind = .searchLimit →
      Reaches R s.begun t ∧ ∃ c m k, c ∈ t.pending.equations ∧ c.unknownHead? = some (m, k) ∧
        t.guesses c = .error fault := by
  have hfault {fault : Fault} (hs : s.solve R n = some ⟨t, .error fault⟩) : t.solutions.length ≤ 1 :=
    Nat.le_of_eq (length_of_fault hone hs)
  cases n with
  | zero => cases hs
  | succ n =>
    -- A branch clashes, so no branch is refused and none finds anything.
    cases course_of_solve hs with
    | forkFault many | partFault many | forked many => exact absurd many (Nat.not_lt.2 hone)
    | runFault _ ran =>
      refine ⟨hfault hs, fun fault hr hkind => ?_⟩
      cases hr
      exact absurd hkind (unlimited_run ran _ rfl)
    | decided _ ran =>
      refine ⟨?_, by simp⟩
      rcases run_decided hone ran with ⟨-, hσ⟩ | ⟨-, -, σ, hσ⟩ <;> rw [hσ]
      · exact Nat.zero_le 1
      · exact Nat.le_refl 1
    | @guessFault _ c _ _ ran guesses =>
      have hstands := stands_of_run ran
      refine ⟨hfault hs, fun fault hr _ => ⟨hstands.reached, c, ?_⟩⟩
      cases hr
      cases hhead : c.unknownHead? with
      | none =>
        rw [Search.guesses, hhead] at guesses
        cases guesses
      | some head => exact ⟨head.1, head.2, hstands.mem, rfl, guesses⟩
    | branchFault _ ran guesses refused =>
      have hstands := stands_of_run ran
      refine ⟨hfault hs, fun fault hr hkind => absurd hkind ?_⟩
      cases hr
      refine unlimited_explore (fun g hg b t hopen ht => ?_) refused
      rcases guesses_spec guesses with ⟨-, rfl⟩ | ⟨m, k, hhead, rfl⟩
      · cases hg
      · rw [(h.reaches hstands.reached).refuted_of_branch (hstands.length hone) hstands.best hstands.rule hhead
          hg hopen ht]
        exact .ok ()
    | @branched _ _ _ found _ _ ran guesses explored =>
      have hstands := stands_of_run ran
      refine ⟨?_, by simp⟩
      obtain rfl : found = [] := by
        refine List.eq_nil_iff_forall_not_mem.2 fun τ hτ => ?_
        obtain ⟨g, hg, b, t, hopen, ht, τ₀, hτ₀, -⟩ := explored.mem_iff.1 hτ
        rcases guesses_spec guesses with ⟨-, rfl⟩ | ⟨m, k, hhead, rfl⟩
        · cases hg
        · cases (h.reaches hstands.reached).refuted_of_branch (hstands.length hone) hstands.best hstands.rule
            hhead hg hopen ht
          cases hτ₀
      exact Nat.zero_le 1

/-- **The search for first-order patterns returns, with at most one solution.**
Take any equations in whose patterns the symbol for application does not occur,
and any limit.  A limit that is not below 1 does not refuse the search, and a
lower one refuses it only if some pattern holds an application of at least
three children with an unknown for the second.  If the equations are sorted
nothing else refuses it. -/
theorem solved_firstOrder {cs : List Equation}
    (hcs : ∀ c ∈ cs, (∀ n ∈ c.pattern.nodes, n ≠ .sym R.applySym) ∧ c.subject.Concrete R)
    (limit : Option Int) :
    ∃ s, ofPairs R limit (cs.map operands) = .ok s ∧ ∃ n t r, s.solved R n = some ⟨t, r⟩ ∧
      t.solutions.length ≤ 1 ∧
      (∀ fault, r = .error fault → fault.kind = .searchLimit →
        ∃ l < 1, limit = some l ∧ fault = .depthExceeded 1 l ∧
          ∃ c ∈ cs, ∃ f m a as, .app f (m :: a :: as) ∈ c.pattern.nodes ∧ m.isMarked = true) ∧
      ∀ arity, (∀ c ∈ cs, Sorted R arity c.pattern ∧ Ground R c.subject) →
        ∀ fault, r = .error fault → fault.kind = .searchLimit := by
  let s : Search := { pending := .addEach {} cs }
  have hbegun : s.begun.Callable R [] := by
    refine Callable.ofPairs fun c hc => ⟨fun W => ?_, (hcs c hc).2⟩
    exact uses_of_nodes (fun _ _ => nofun) (fun f hf => (hcs c hc).1 _ hf) fun _ _ => trivial
  obtain ⟨N, hN⟩ := shrinking_callable.bounded hbegun (Nat.zero_le 1)
  obtain ⟨n, ⟨t, r⟩, hsolve⟩ := (hN.withLimit limit).returns
  have hofPairs := ofPairs_operands R limit cs
  refine ⟨_, hofPairs, n, t, r, hsolve, ?_⟩
  obtain ⟨hlength, hlimit⟩ := Callable.solve (s := s.withLimit limit) hbegun (Nat.zero_le 1) hsolve
  refine ⟨hlength, fun fault hr hkind => ?_, fun arity hsorted fault hr => ?_⟩
  · obtain ⟨hreach, c, m, k, hc, hhead, hguesses⟩ := hlimit fault hr hkind
    obtain ⟨l, hl, hdeep, rfl⟩ := guesses_error hguesses
    obtain ⟨-, hdepth, hlimit, -⟩ := hreach.frame
    have hdepth : t.depth = 0 := hdepth
    rw [hdepth] at hdeep ⊢
    refine ⟨l, hdeep, hlimit.symm.trans hl, rfl, by_contra fun hnone => ?_⟩
    -- otherwise every pattern is rigid, and stays so
    have hrigid : ∀ c ∈ (s.withLimit limit).begun.pending.equations, c.pattern.Rigid R := by
      obtain ⟨ds, hds, heqs, -⟩ := (EquationSet.grows_addEach {} cs).equations
      intro c hc f as hn
      have hc : c ∈ cs := hds.subset ((show s.pending.equations = ds from heqs) ▸ hc)
      refine ⟨(hcs c hc).1 f (head_mem_nodes hn), ?_⟩
      rintro m a rest rfl
      exact Bool.eq_false_iff.2 fun hm => hnone ⟨c, hc, f, m, a, rest, hn, hm⟩
    have hbegun : (s.withLimit limit).begun.Callable R [] := hbegun
    cases (unknownHead?_of_rigid (rigid_reaches hbegun hrigid hreach c hc)).symm.trans hhead
  · obtain ⟨s', str, hs', -, hdeep, -⟩ := @tooDeep_of_fault R arity limit cs hsorted
    cases hofPairs.symm.trans hs'
    obtain ⟨depth, l, -, -, rfl⟩ := hdeep n t fault (hr ▸ hsolve)
    rfl

/-- `f(_m, a)` should equal `c`. -/
def flexible : Equation :=
  let name (s : String) : Expr := .var ⟨s, false⟩
  ⟨.app (name "f") [.var ⟨"m", true⟩, name "a"], name "c"⟩

/-- No reserved symbol occurs in it. -/
theorem unreserved_flexible : ∀ c ∈ [flexible], (∀ n ∈ c.pattern.nodes, n ≠ .sym (Reserved.applySym {}) ∧
    n ≠ .sym (Reserved.lambdaSym {})) ∧ c.subject.Concrete {} := by
  refine List.forall_mem_singleton.2 ⟨?_, ?_⟩
  · simp [flexible, nodes, nodesAll]
  · simp [flexible, Concrete, nodes, isMarked]

/-- `solved_firstOrder` at `flexible`, which may not branch at all. -/
theorem solved_firstOrder_flexible :
    (∀ c ∈ [flexible], (∀ n ∈ c.pattern.nodes, n ≠ .sym (Reserved.applySym {})) ∧ c.subject.Concrete {}) ∧
    ∃ s, ofPairs {} (some 0) ([flexible].map operands) = .ok s ∧ ∃ n t r, s.solved {} n = some ⟨t, r⟩ ∧
      t.solutions.length ≤ 1 ∧
      (∀ fault, r = .error fault → fault.kind = .searchLimit →
        ∃ l < 1, some 0 = some l ∧ fault = .depthExceeded 1 l ∧
          ∃ c ∈ [flexible], ∃ f m a as, .app f (m :: a :: as) ∈ c.pattern.nodes ∧ m.isMarked = true) ∧
      ∀ arity, (∀ c ∈ [flexible], Sorted {} arity c.pattern ∧ Ground {} c.subject) →
        ∀ fault, r = .error fault → fault.kind = .searchLimit := by
  have hcs : ∀ c ∈ [flexible],
      (∀ n ∈ c.pattern.nodes, n ≠ .sym (Reserved.applySym {})) ∧ c.subject.Concrete {} :=
    fun c hc => (unreserved_flexible c hc).imp_left fun h n hn => (h n hn).1
  exact ⟨hcs, solved_firstOrder hcs (some 0)⟩

/-- A pattern without a reserved symbol is refused where the search may not
branch. -/
theorem exceeded_flexible :
    (∀ c ∈ [flexible], (∀ n ∈ c.pattern.nodes, n ≠ .sym (Reserved.applySym {}) ∧
      n ≠ .sym (Reserved.lambdaSym {})) ∧ c.subject.Concrete {}) ∧
    ∃ s t fault, ofPairs {} (some 0) ([flexible].map operands) = .ok s ∧
      s.solved {} 3 = some ⟨t, .error fault⟩ ∧ fault.kind = .searchLimit := by
  let s : Search := { limit := some 0, pending := .addEach {} [flexible] }
  have hstep : s.begun.step {} = .stop ⟨s.begun, .ok (some flexible)⟩ :=
    step_of_flex (by cbv) (by cbv) (by cbv)
  have hguesses : s.begun.guesses flexible = .error (.depthExceeded 1 0) := rfl
  refine ⟨unreserved_flexible, s, s.begun, .depthExceeded 1 0, ofPairs_operands {} (some 0) [flexible], ?_, rfl⟩
  change s.solve {} 3 = _
  rw [solve, if_neg (by exact Nat.not_lt_zero 1), run, steps, hstep]
  dsimp only
  rw [hguesses]

end Search
end SecondOrder
