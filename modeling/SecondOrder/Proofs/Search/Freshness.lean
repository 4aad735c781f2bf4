/-
# Minted variables are new

Every set of equations has a counter for the variables `v<N>` that it mints.
Whatever calls are made of a search and wherever it stands inside one, the
counter of its pending equations is past every `v<N>` in them and in its
solutions (`Search.Met.mints_fresh`).  So what is minted there, be it an
ordinary variable or an unknown, occurs nowhere in it.

Only `EquationSet.add` looks at the equations and moves the counter past what
it finds there.  Instantiated patterns, solutions and their temporaries keep to
the counter since nothing else brings in numbers (`Equation.Below.apply`).  A
search that is settled takes over the counters of its parts, which have minted
the same variables independently.
-/

import SecondOrder.Proofs.Expr.Below
import SecondOrder.Proofs.Search.Enumeration
import SecondOrder.Proofs.Search.Resumption
import SecondOrder.Proofs.Search.Trial

namespace SecondOrder

open SecondOrder.Expr

namespace EquationSet

variable {R : Reserved} {n : Nat} {a c d : Equation} {as cs : List Equation} {s σ τ : EquationSet} {t : Expr}

/-- Patterns in which one assignment has been carried out keep to the bound,
also where that is refused half-way. -/
theorem below_instantiatePatterns (ha : a.Below n) (hcs : ∀ c ∈ cs, c.Below n) :
    ∀ d ∈ (instantiatePatterns R a cs).state, d.Below n :=
  allVars_instantiatePatterns (fun _ _ hy => hy.below n) ha.2 hcs

/-- **Patterns that are instantiated keep to the bound,** also where that is
refused half-way. -/
theorem below_instantiateEach (has : ∀ a ∈ as, a.Below n) (hcs : ∀ c ∈ cs, c.Below n) :
    ∀ d ∈ (instantiateEach R as cs).state, d.Below n :=
  allVars_instantiateEach (fun _ _ hy => hy.below n) (fun a ha => (has a ha).2) hcs

/-- **To substitute a temporary away keeps to the bound.** -/
theorem below_substituteAway (hσ : ∀ d ∈ σ.equations, d.Below n)
    (h : Cleanup.substituteAway R σ t = .ok τ) : ∀ d ∈ τ.equations, d.Below n := by
  rcases Cleanup.substituteAway_eq_ok.1 h with ⟨-, rfl⟩ | ⟨a, ds, ha, hds, rfl⟩
  · exact hσ
  · intro d hd
    obtain ⟨c, hc, hpattern, hq⟩ := exists_of_forall₂ hds d hd
    have hc := hσ c (mem_of_mem_remove hc)
    exact ⟨hpattern ▸ hc.1, (hσ a (List.mem_of_find?_eq_some ha)).apply hc.2 hq⟩

/-- **What cleanups leave of a solution keeps to the bound.** -/
theorem below_applyAll {cleanups : List Cleanup} (hσ : ∀ d ∈ σ.equations, d.Below n)
    (h : Cleanup.applyAll R cleanups σ = .ok (some τ)) : ∀ d ∈ τ.equations, d.Below n :=
  Cleanup.of_applyAll (P := fun σ => ∀ d ∈ σ.equations, d.Below n)
    (fun _ _ _ _ hσ h => (Cleanup.of_apply (fun _ _ _ _ => below_substituteAway) hσ h).1) hσ h

end EquationSet

/-- The body of a guess is made of the subject, the parameters and the
temporaries, so it keeps to their bound. -/
theorem Trial.below {R : Reserved} {us : Binders} {e b : Expr} {g : Guess} {ts : List Expr} {n : Nat}
    (h : Trial R us e g b ts) (hus : ∀ u ∈ us.toList, u.Below n) (he : e.Below n) (hts : ∀ t ∈ ts, t.Below n) :
    b.Below n := by
  have happly {t : Expr} (ht : t ∈ ts) : (R.applyVars t us).Below n := by
    intro z hz
    exact (Search.mem_vars_applyVars.1 hz).elim (hts t ht z) (hus z)
  cases h with
  | constant => exact he
  | projection param => exact below_var.2 (hus _ (List.mem_of_getElem? param))
  | app =>
    refine below_app.2 ⟨happly List.mem_cons_self, List.forall_mem_map.2 fun t ht => ?_⟩
    exact happly (List.mem_cons_of_mem _ ht)
  | bind shape =>
    subst shape
    exact below_bind.2 ⟨(below_bind.1 he).1, happly List.mem_cons_self⟩

namespace Search

open Equation EquationSet

variable {R : Reserved} {s t u : Search} {c : Equation} {σ τ : EquationSet} {n k : Nat} {g : Guess} {m : Expr}

/-- The counter of the search is past every `v<N>` in it. -/
structure Ahead (s : Search) : Prop where
  pending : ∀ c ∈ s.pending.equations, c.Below s.pending.nextFresh
  solutions : ∀ σ ∈ s.solutions, ∀ d ∈ σ.equations, d.Below s.pending.nextFresh

namespace Ahead

/-- Other equations that keep to the counter. -/
theorem replace {P : EquationSet} (h : s.Ahead) (hP : ∀ c ∈ P.equations, c.Below P.nextFresh)
    (hn : s.pending.nextFresh ≤ P.nextFresh) : Ahead { s with pending := P } :=
  ⟨hP, fun σ hσ d hd => (h.solutions σ hσ d hd).mono hn⟩

/-- An equation that is taken off moves no counter. -/
theorem drop (h : s.Ahead) (c : Equation) : (s.drop c).Ahead :=
  h.replace (fun d hd => h.pending d (mem_of_mem_remove hd)) (Nat.le_refl _)

/-- The empty solution that a search begins with mentions nothing. -/
theorem begun (h : s.Ahead) : s.begun.Ahead := by
  rw [Search.begun]
  split
  · refine ⟨h.pending, fun σ hσ d hd => ?_⟩
    obtain rfl := List.mem_singleton.1 hσ
    cases hd
  · exact h

/-- A copy leaves out equations at most, and it takes the counter over. -/
theorem clone (h : s.Ahead) : s.clone.Ahead := by
  refine ⟨fun c hc => h.pending c ((grows_copy s.pending).1.subset hc), fun τ hτ d hd => ?_⟩
  obtain ⟨σ, hσ, rfl⟩ := List.mem_map.1 hτ
  exact h.solutions σ hσ d ((grows_copy σ).1.subset hd)

/-- So does the copy for a branch. -/
theorem deeper (h : s.Ahead) : s.deeper.Ahead := ⟨h.clone.pending, h.clone.solutions⟩

/-- **An assignment keeps to the counter,** whether it is accepted, excluded or
refused. -/
theorem assign (h : s.Ahead) (hc : c.Below s.pending.nextFresh) : (s.assign R c).state.Ahead := by
  have hpatterns := below_instantiatePatterns (R := R) hc h.pending
  rcases ha : s.assign R c with ⟨t, fault | b⟩
  · obtain ⟨ds, rfl, hds⟩ := assign_error ha
    have hstate : (instantiatePatterns R c s.pending.equations).state = ds := by
      rcases hds with hds | ⟨-, hds⟩ <;> rw [hds]
    exact h.replace (hstate ▸ hpatterns) (Nat.le_refl _)
  · obtain ⟨σ, rest, ds, hσ, hds, -, rfl⟩ := assign_ok ha
    rw [hds] at hpatterns
    have hsolutions : ∀ τ ∈ σ.add [c] :: rest, ∀ d ∈ τ.equations, d.Below s.pending.nextFresh := by
      rw [List.forall_mem_cons]
      refine ⟨fun d hd => ?_, fun τ hτ => h.solutions τ (hσ ▸ List.mem_cons_of_mem _ hτ)⟩
      rcases mem_add hd with hd | ⟨hd, -⟩
      · exact h.solutions σ (hσ ▸ List.mem_cons_self) d hd
      · exact List.mem_singleton.1 hd ▸ hc
    cases b with
    | true => exact ⟨hpatterns, hsolutions⟩
    | false => exact ⟨hpatterns, nofun⟩

/-- Equations that are added move the counter. -/
theorem adjoin {P : EquationSet} (cs : List Equation) (h : s.Ahead)
    (hP : ∀ c ∈ P.equations, c.Below P.nextFresh) (hn : s.pending.nextFresh ≤ P.nextFresh) :
    Ahead { s with pending := P.add cs } :=
  h.replace (below_add hP) (Nat.le_trans hn (grows_add P cs).counter)

/-- Alignment moves the counter past what it mints. -/
theorem align (h : s.Ahead) (c : Equation) :
    (∀ d ∈ (c.align (s.drop c).pending).state.equations, d.Below (c.align (s.drop c).pending).state.nextFresh) ∧
      s.pending.nextFresh ≤ (c.align (s.drop c).pending).state.nextFresh := by
  have hn : s.pending.nextFresh ≤ (c.align (s.drop c).pending).state.nextFresh :=
    nextFresh_align (s.drop c).pending c
  refine ⟨fun d hd => ?_, hn⟩
  rw [equations_align] at hd
  exact ((h.drop c).pending d hd).mono hn

/-- **A step that goes on keeps to the counter,** -/
theorem advance (h : s.Ahead) (hc : c ∈ s.pending.equations) (ha : Advance R s c t) : t.Ahead := by
  cases ha with
  | trivial => exact h.drop c
  | assign rule assigned =>
    have ht := (h.drop c).assign (R := R) (h.pending c hc)
    rwa [assigned] at ht
  | align rule aligned =>
    obtain ⟨hP, hn⟩ := aligned ▸ h.align c
    exact h.replace hP hn
  | decompose rule aligned =>
    obtain ⟨hP, hn⟩ := aligned ▸ h.align c
    exact h.adjoin _ hP hn
  | contract => exact h.adjoin _ (h.drop c).pending (Nat.le_refl _)

/-- and so does one that ends. -/
theorem halt {last : Attempt Search (Option Equation)} (h : s.Ahead) (hc : c ∈ s.pending.equations)
    (hl : Halt R s c last) : last.state.Ahead := by
  cases hl with
  | clash => exact ⟨h.pending, nofun⟩
  | excluded rule assigned | assignFault rule assigned =>
    have ht := (h.drop c).assign (R := R) (h.pending c hc)
    rwa [assigned] at ht
  | branch => exact h
  | alignFault rule aligned =>
    obtain ⟨hP, hn⟩ := aligned ▸ h.align c
    exact h.replace hP hn
  | contractFault => exact h.drop c

/-- A step that goes on keeps to the counter. -/
theorem next (h : s.Ahead) (ht : s.step R = .next t) : t.Ahead := by
  obtain ⟨c, hb, ha⟩ := advance_of_step ht
  exact h.advance (mem_of_best? hb) ha

/-- So does one that ends the run, whether with a verdict, a branch point or a
fault. -/
theorem stop {last : Attempt Search (Option Equation)} (h : s.Ahead) (ht : s.step R = .stop last) :
    last.state.Ahead := by
  rcases halt_of_step ht with ⟨-, rfl⟩ | ⟨c, hb, hl⟩
  · exact ⟨h.pending, h.solutions⟩
  · exact h.halt (mem_of_best? hb) hl

/-- **A run keeps to the counter.** -/
theorem run {last : Attempt Search (Option Equation)} (h : s.Ahead) (hr : s.run R n = some last) :
    last.state.Ahead := by
  obtain ⟨u, hu, hstop⟩ := reaches_of_steps hr
  have hu : u.Ahead := hu.invariant h.begun fun _ _ _ hv hb ha => hv.advance (mem_of_best? hb) ha
  exact hu.stop hstop

/-- What mints parameters and temporaries has moved the counter past them. -/
theorem mint (h : s.Ahead) (k : Nat) : Ahead { s with pending := (s.pending.mintBinders k).2 } := by
  have hn : s.pending.nextFresh ≤ (s.pending.mintBinders k).2.nextFresh :=
    Nat.le_trans (Nat.le_succ _) (Nat.le_add_right _ _)
  exact h.replace (fun c hc => (h.pending c hc).mono hn) hn

/-- **A guess that is carried out keeps to the counter.** -/
theorem guess {value : Expr} {ts : List Expr} {P : EquationSet} (h : s.Ahead) (hc : c ∈ s.pending.equations)
    (hhead : c.unknownHead? = some (m, k)) (hg : g ∈ Guess.all (k + 1) c.subject)
    (hguess : guessed R s.deeper.pending k c.subject g = .ok (value, ts, P)) :
    ({ s.deeper with pending := P }.assign R ⟨m, value⟩).state.Ahead := by
  obtain ⟨⟨b, rfl, htrial⟩, hP, hn, -, hts⟩ := of_guessed hg hguess
  have hcounter : s.pending.nextFresh ≤ P.nextFresh :=
    Nat.le_trans (Nat.le_trans (Nat.le_succ _) (Nat.le_add_right _ _)) hn
  have hus (u : Var) (hu : u ∈ (s.deeper.pending.mintBinders k).1.toList) : u.Below P.nextFresh :=
    (mem_mintBinders hu).2.2.mono hn
  have hequations : P.equations = s.deeper.pending.equations := by rw [hP]
  have hb : b.Below P.nextFresh := by
    refine htrial.below hus ((h.pending c hc).2.mono hcounter) fun t ht => ?_
    obtain ⟨x, rfl, -, -, hx⟩ := hts t ht
    exact below_var.2 hx
  have hm : m.Below P.nextFresh := by
    obtain ⟨f, a, as, hp⟩ := pattern_of_unknownHead? hhead
    have hpattern := hp ▸ (h.pending c hc).1
    exact ((below_app.1 hpattern).2 m List.mem_cons_self).mono hcounter
  have hahead : Ahead { s.deeper with pending := P } := by
    refine h.deeper.replace (fun d hd => ?_) hcounter
    exact (h.deeper.pending d (hequations ▸ hd)).mono hcounter
  exact hahead.assign ⟨hm, below_bind.2 ⟨hus, hb⟩⟩

/-- **A branch keeps to the counter,** which it has moved past its own
parameters and temporaries. -/
theorem branch? {b : Branch} (h : s.Ahead) (hc : c ∈ s.pending.equations) (hhead : c.unknownHead? = some (m, k))
    (hg : g ∈ Guess.all (k + 1) c.subject) (hb : s.branch? R c g = .ok (some b)) : b.search.Ahead := by
  obtain ⟨m', k', value, P, hhead', hguess, assigned⟩ := branch?_some hb
  cases hhead.symm.trans hhead'
  have := h.guess hc hhead hg hguess
  rwa [assigned] at this

/-- **A fork keeps to the counter,** also if it is refused. -/
theorem fork (h : s.Ahead) (hσ : σ ∈ s.solutions) :
    ({ s.clone with solutions := [σ.copy], solvable := none }.instantiate R σ).state.Ahead := by
  refine ⟨below_instantiateEach (h.solutions σ hσ) h.clone.pending, fun τ hτ => ?_⟩
  obtain rfl := List.mem_singleton.1 hτ
  exact fun d hd => h.solutions σ hσ d ((grows_copy σ).1.subset hd)

/-- **The parts of solving keep to the counter.** -/
theorem stable : Stable R Ahead where
  clone h := h.clone
  run h _ hr := h.run hr
  branch h _ hc hhead hg hb := h.branch? hc hhead hg hb
  fork h hσ hf := by
    have hfork := h.fork (R := R) hσ
    rwa [fork_ok hf] at hfork
  settle {s found parts} h hfound := by
    refine ⟨nofun, fun τ hτ d hd => ?_⟩
    obtain ⟨t, ht, hahead, ks, -, σ, hσ, happly⟩ := hfound τ hτ
    exact (below_applyAll (hahead.solutions σ hσ) happly d hd).mono ((le_settle s found parts).2 t ht)

/-- **To add an equation moves the counter past it.** -/
theorem add (h : s.Ahead) (ht : s.add R c = .ok t) : t.Ahead := by
  obtain ⟨-, -, hsolutions, p, hpending⟩ := (added_of_add ht).frame
  have hadjoin := h.adjoin [⟨p, c.subject⟩] h.pending (Nat.le_refl _)
  exact ⟨hpending ▸ hadjoin.pending, by rw [hsolutions, hpending]; exact hadjoin.solutions⟩

/-- The same for a list of pairs, also if one of them is refused. -/
theorem addAll {pairs : List (Operand × Operand)} {r : Except Fault Unit} (h : s.Ahead)
    (ht : s.addAll R pairs = ⟨t, r⟩) : t.Ahead := of_addAll Ahead.add h ht

end Ahead

/-- The variable stands in a pending equation or in a solution. -/
inductive Mentions (s : Search) (x : Var) : Prop
  | pattern {c : Equation} (mem : c ∈ s.pending.equations) (vars : x ∈ c.pattern.vars) : Mentions s x
  | subject {c : Equation} (mem : c ∈ s.pending.equations) (vars : x ∈ c.subject.vars) : Mentions s x
  | unknown {σ : EquationSet} {d : Equation} (solution : σ ∈ s.solutions) (mem : d ∈ σ.equations)
      (vars : x ∈ d.pattern.vars) : Mentions s x
  | value {σ : EquationSet} {d : Equation} (solution : σ ∈ s.solutions) (mem : d ∈ σ.equations)
      (vars : x ∈ d.subject.vars) : Mentions s x

/-- The searches that are met when calls are made, between the calls and inside
them.  A call that is refused, and what it was doing, may be gone on from. -/
inductive Met (R : Reserved) : Search → Prop
  | new (limit : Option Int) : Met R { limit }
  | add {s t : Search} {c : Equation} (hs : Met R s) (h : s.add R c = .ok t) : Met R t
  | addAll {s t : Search} {pairs : List (Operand × Operand)} {r : Except Fault Unit} (hs : Met R s)
      (h : s.addAll R pairs = ⟨t, r⟩) : Met R t
  | solve {n : Nat} {s t : Search} {r : Except Fault Unit} (hs : Met R s)
      (h : s.solve R n = some ⟨t, r⟩) : Met R t
  | solved {n : Nat} {s t : Search} {r : Except Fault Unit} (hs : Met R s)
      (h : s.solved R n = some ⟨t, r⟩) : Met R t
  | clone {s : Search} (hs : Met R s) : Met R s.clone
  /-- Before the first step. -/
  | begun {s : Search} (hs : Met R s) : Met R s.begun
  /-- After a step, -/
  | next {s t : Search} (hs : Met R s) (h : s.step R = .next t) : Met R t
  /-- also one that ends the deterministic part or is refused. -/
  | stop {s : Search} {last : Attempt Search (Option Equation)} (hs : Met R s)
      (h : s.step R = .stop last) : Met R last.state
  /-- Inside a step, when the equation has been taken off, -/
  | drop {s : Search} {c : Equation} (hs : Met R s) (hc : c ∈ s.pending.equations) : Met R (s.drop c)
  /-- and when it has been aligned. -/
  | align {s : Search} {c : Equation} (hs : Met R s) (hc : c ∈ s.pending.equations) :
      Met R { s with pending := (c.align (s.drop c).pending).state }
  /-- The copy for a branch, -/
  | deeper {s : Search} (hs : Met R s) : Met R s.deeper
  /-- where variables are minted -/
  | mint {s : Search} (k : Nat) (hs : Met R s) : Met R { s with pending := (s.pending.mintBinders k).2 }
  /-- and a guess is carried out. -/
  | guess {s : Search} {c : Equation} {m value : Expr} {k : Nat} {g : Guess} {ts : List Expr} {P : EquationSet}
      (hs : Met R s) (hc : c ∈ s.pending.equations) (hhead : c.unknownHead? = some (m, k))
      (hg : g ∈ Guess.all (k + 1) c.subject)
      (h : guessed R s.deeper.pending k c.subject g = .ok (value, ts, P)) :
      Met R ({ s.deeper with pending := P }.assign R ⟨m, value⟩).state
  /-- The copy for one of several solutions. -/
  | fork {s : Search} {σ : EquationSet} (hs : Met R s) (hσ : σ ∈ s.solutions) :
      Met R ({ s.clone with solutions := [σ.copy], solvable := none }.instantiate R σ).state
  /-- A branch with a temporary of a solution substituted away. -/
  | clean {s : Search} {σ τ : EquationSet} {before after : List EquationSet} {t : Expr} (hs : Met R s)
      (hσ : s.solutions = before ++ σ :: after) (h : Cleanup.substituteAway R σ t = .ok τ) :
      Met R { s with solutions := before ++ τ :: after }

namespace Met

/-- Every operation keeps to the counter, so all searches that are met do. -/
theorem ahead (h : Met R s) : s.Ahead := by
  have hstable : Stable R Ahead := Ahead.stable
  induction h with
  | new => exact ⟨nofun, nofun⟩
  | add _ h ih => exact ih.add h
  | addAll _ h ih => exact ih.addAll h
  | solve _ h ih => exact hstable.solve ih h
  | solved _ h ih => exact hstable.solved ih h
  | clone _ ih => exact ih.clone
  | begun _ ih => exact ih.begun
  | next _ h ih => exact ih.next h
  | stop _ h ih => exact ih.stop h
  | @drop s c _ _ ih => exact ih.drop c
  | @align s c _ _ ih => exact ih.replace (ih.align c).1 (ih.align c).2
  | deeper _ ih => exact ih.deeper
  | mint k _ ih => exact ih.mint k
  | guess _ hc hhead hg h ih => exact ih.guess hc hhead hg h
  | fork _ hσ ih => exact ih.fork hσ
  | @clean s σ τ before after t _ hσ h ih =>
    refine ⟨ih.pending, fun υ hυ => ?_⟩
    have hsolutions := ih.solutions
    rw [hσ, List.forall_mem_append, List.forall_mem_cons] at hsolutions
    obtain ⟨hbefore, hmid, hafter⟩ := hsolutions
    have hall : ∀ υ ∈ before ++ τ :: after, ∀ d ∈ υ.equations, d.Below s.pending.nextFresh := by
      rw [List.forall_mem_append, List.forall_mem_cons]
      exact ⟨hbefore, below_substituteAway hmid h, hafter⟩
    exact hall υ hυ

/-- **Minted variables are new.**  Wherever a search is met, between calls and
inside them, the counter is past every `v<N>` in its pending equations and in
its solutions, bound or free, ordinary or an unknown.  So no variable that the
search mints there, nor the unknown of that name, stands anywhere in it. -/
theorem mints_fresh (h : Met R s) :
    (∀ x N, s.Mentions x → numberAfter 'v' x.name = some N → N < s.pending.nextFresh) ∧
      (∀ b, ¬s.Mentions { s.pending.mint.1 with marked := b }) ∧
      ∀ k, ∀ x ∈ (s.pending.mintBinders k).1.toList, ∀ b, ¬s.Mentions { x with marked := b } := by
  have hbelow (x : Var) (hx : s.Mentions x) : x.Below s.pending.nextFresh := by
    cases hx with
    | pattern mem vars => exact (h.ahead.pending _ mem).1 x vars
    | subject mem vars => exact (h.ahead.pending _ mem).2 x vars
    | unknown solution mem vars => exact (h.ahead.solutions _ solution _ mem).1 x vars
    | value solution mem vars => exact (h.ahead.solutions _ solution _ mem).2 x vars
  refine ⟨fun x N hx => hbelow x hx N, fun b hx => ?_, fun k x hmem b hx => ?_⟩
  · exact Nat.lt_irrefl _ (below_numberedName.1 (hbelow _ hx))
  · exact (mem_mintBinders hmem).2.1 fun N hN => hbelow _ hx N hN

/-- `Met.mints_fresh` at the search for `applied` when it has been solved: its
solutions name `v0`, and it would mint `v1`. -/
theorem mints_fresh_applied : ∃ s : Search, Met {} s ∧ s.Mentions (Var.minted 0 false) ∧
    s.pending.mint.1 = Var.minted 1 false ∧
    (∀ x N, s.Mentions x → numberAfter 'v' x.name = some N → N < s.pending.nextFresh) ∧
      (∀ b, ¬s.Mentions { s.pending.mint.1 with marked := b }) ∧
      ∀ k, ∀ x ∈ (s.pending.mintBinders k).1.toList, ∀ b, ¬s.Mentions { x with marked := b } := by
  have hvalue : solvedApplied.Mentions (Var.minted 0 false) := by
    refine .value List.mem_cons_self List.mem_cons_self ?_
    cbv
    exact List.mem_cons_self
  have hmet : Met {} solvedApplied := .solved (.add (.new none) rfl) solved_applied
  exact ⟨solvedApplied, hmet, hvalue, by cbv, hmet.mints_fresh⟩

end Met

end Search

end SecondOrder
