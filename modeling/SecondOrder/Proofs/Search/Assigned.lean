/-
# Solutions are unambiguous

A search assigns an unknown that no assignment under construction is for, and
takes it out of all pending patterns (`Search.Building.assign`).  So if there
are no unknowns in the subjects, the assignments of a solution are serial, and
what calls return, all at once or one at a time, is unambiguous
(`Search.Returned.unambiguous`).  Nothing is asked of the patterns.

For `EquationSet.isFunction` that is not enough
(`EquationSet.isFunction_spec`): where unknowns in the patterns are namesakes,
no solution counts as a function (`EquationSet.isFunction_namesakes`).
-/

import SecondOrder.Proofs.EquationSet.Serial
import SecondOrder.Proofs.Search.Answers
import SecondOrder.Proofs.Search.Freshness

namespace SecondOrder

open SecondOrder.Expr

namespace Equation

variable {R : Reserved} {c d : Equation} {ds : List Equation} {i : Nat} {x : Var} {s Q : EquationSet}

/-- The pattern is without the unknowns that `ds` assign, the subject without
any. -/
structure Clear (R : Reserved) (ds : List Equation) (c : Equation) : Prop where
  pattern : ∀ d ∈ ds, Uses R (.without d.pattern) c.pattern
  subject : Uses R .unmarked c.subject

namespace Clear

/-- To rename a slot keeps an equation without the assigned unknowns, for what
is minted is ordinary. -/
theorem renameSlot (h : c.Clear R ds) (hx : x.marked = false) (hd : c.renameSlot i x = .ok d) : d.Clear R ds := by
  rcases of_renameSlot hd with rfl | ⟨u, v, hpattern, hsubject⟩
  · exact h
  · exact ⟨fun e he => (h.pattern e he).alphaConvert_unknowns hx hpattern,
      h.subject.alphaConvert_unknowns hx hsubject⟩

/-- To align two bindings keeps the equation without the assigned unknowns. -/
theorem align (h : c.Clear R ds) (hd : c.align s = ⟨Q, .ok d⟩) : d.Clear R ds :=
  of_align (P := fun _ c => c.Clear R ds) (fun _ _ _ _ hc hd => hc.renameSlot rfl hd) h hd

/-- The pieces of an equation have no unknowns but its own. -/
theorem pieces (h : c.Clear R ds) (hdec : c.decomposes R = true) : ∀ d ∈ c.pieces, d.Clear R ds := by
  have hparts {U : Vocabulary} (hp : Uses R U c.pattern) :=
    uses_pieces hp h.subject (fun _ (hg : Vocabulary.unmarked.applied _) => hg.2) hdec
  exact fun d hd => ⟨fun e he => (hparts (h.pattern e he) d hd).1, (hparts (uses_any _) d hd).2⟩

/-- To contract a pattern brings no unknown in. -/
theorem contract {p : Expr} (h : c.Clear R ds) (hredex : c.pattern.isRedex R = true)
    (hp : c.pattern.contract R = .ok p) : (⟨p, c.subject⟩ : Equation).Clear R ds :=
  ⟨fun e he => (h.pattern e he).contract_unknowns hredex hp, h.subject⟩

/-- An assignment that is carried out takes its unknown out and brings in no
earlier one. -/
theorem apply {a : Equation} (h : c.Clear R ds) (hm : a.pattern.isMarked = true)
    (hvalue : ∀ e ∈ ds ++ [a], Uses R (.without e.pattern) a.subject)
    (hd : a.apply R c.pattern = .ok d.pattern) (hsubject : d.subject = c.subject) : d.Clear R (ds ++ [a]) := by
  rw [List.forall_mem_append, List.forall_mem_singleton] at hvalue
  refine ⟨?_, hsubject ▸ h.subject⟩
  rw [List.forall_mem_append, List.forall_mem_singleton]
  exact ⟨fun e he => without_of_apply hm (hvalue.1 e he) (h.pattern e he) hd,
    without_self_of_apply hm hvalue.2 hd⟩

/-- What is without some unknowns is without fewer of them. -/
theorem mono {es : List Equation} (h : c.Clear R ds) (hsub : ∀ e ∈ es, e ∈ ds) : c.Clear R es :=
  ⟨fun e he => h.pattern e (hsub e he), h.subject⟩

/-- A value without unknowns is without those assigned. -/
theorem value (h : c.Clear R ds) : ∀ e ∈ ds ++ [c], Uses R (.without e.pattern) c.subject :=
  fun e _ => h.subject.without_of_unmarked e.pattern

end Clear

end Equation

namespace Search

open Equation EquationSet

variable {R : Reserved} {s t : Search} {σ τ : EquationSet} {c d : Equation} {cs : List Equation} {n : Nat}

/-- A search with one solution `σ` under construction, whose unknowns have been
taken out of the pending patterns. -/
structure Building (R : Reserved) (s : Search) (σ : EquationSet) : Prop where
  solutions : s.solutions = [σ]
  clear : ∀ c ∈ s.pending.equations, c.Clear R σ.equations
  serial : Serial R σ.equations

namespace Building

/-- Only the pending equations change. -/
theorem replace {P : EquationSet} (h : Building R s σ) (hP : ∀ c ∈ P.equations, c.Clear R σ.equations) :
    Building R { s with pending := P } σ :=
  ⟨h.solutions, hP, h.serial⟩

/-- To drop an equation touches no other. -/
theorem drop (h : Building R s σ) (c : Equation) : Building R (s.drop c) σ :=
  h.replace fun d hd => h.clear d (mem_of_mem_drop hd)

/-- Equations without the assigned unknowns may be added. -/
theorem add {P : EquationSet} (h : Building R { s with pending := P } σ) (hcs : ∀ c ∈ cs, c.Clear R σ.equations) :
    Building R { s with pending := P.add cs } σ :=
  h.replace fun d hd => (mem_add hd).elim (h.clear d) fun hd => hcs d hd.1

/-- To align the bindings of a pending equation mints variables, and leaves the
equation without the assigned unknowns. -/
theorem align {P : EquationSet} (h : Building R s σ) (hc : c ∈ s.pending.equations)
    (hd : c.align (s.drop c).pending = ⟨P, .ok d⟩) :
    Building R { s with pending := P } σ ∧ d.Clear R σ.equations := by
  refine ⟨h.replace fun e he => ?_, (h.clear c hc).align hd⟩
  exact (h.drop c).clear e (equations_of_align hd ▸ he)

/-- **An assignment takes its unknown out of all patterns.** -/
theorem assign (h : Building R s σ) (hm : c.pattern.isMarked = true)
    (hnew : ∀ d ∈ σ.equations, d.pattern ≠ c.pattern)
    (hvalue : ∀ d ∈ σ.equations ++ [c], Uses R (.without d.pattern) c.subject)
    (ht : s.assign R c = ⟨t, .ok true⟩) : Building R t (σ.add [c]) := by
  obtain ⟨σ', rest, ds, hσ, hds, -, rfl⟩ := assign_ok ht
  obtain ⟨rfl, rfl⟩ := List.cons.inj (h.solutions.symm.trans hσ)
  have hequations : (σ.add [c]).equations = σ.equations ++ [c] := equations_add_singleton hm hnew
  refine ⟨rfl, fun d hd => ?_, ?_⟩
  · obtain ⟨e, he, hed, hsubject⟩ := exists_of_forall₂ (instantiatePatterns_eq_ok.1 hds) d hd
    rw [hequations]
    exact (h.clear e he).apply hm hvalue hed hsubject
  · rw [List.forall_mem_append, List.forall_mem_singleton] at hvalue
    rw [hequations]
    exact h.serial.concat hm (fun d hd => ⟨hnew d hd, hvalue.1 d hd⟩) hvalue.2

/-- What a pending equation assigns is new. -/
theorem new (h : Building R s σ) (hc : c ∈ s.pending.equations) (hm : c.pattern.isMarked = true) :
    ∀ d ∈ σ.equations, d.pattern ≠ c.pattern :=
  fun d hd => (((h.clear c hc).pattern d hd).ne_of_without hm).symm

/-- Patterns that an assignment changes before it is refused. -/
theorem assign_error {fault : Fault} (h : Building R s σ) (hc : c ∈ s.pending.equations)
    (hm : c.pattern.isMarked = true) (ht : (s.drop c).assign R c = ⟨t, .error fault⟩) : Building R t σ := by
  obtain ⟨ds, rfl, hds⟩ := Search.assign_error ht
  have hstate : (instantiatePatterns R c (s.drop c).pending.equations).state = ds := by
    rcases hds with h | ⟨-, h⟩ <;> rw [h]
  refine (h.drop c).replace fun d hd => ?_
  rcases mem_instantiatePatterns (hstate.symm ▸ hd) with hd | ⟨e, he, hed, hsubject⟩
  · exact (h.drop c).clear d hd
  · exact (((h.drop c).clear e he).apply hm (h.clear c hc).value hed hsubject).mono
      fun _ => List.mem_append_left _

/-- **Every step keeps assignments serial and their unknowns out of the
patterns.** -/
theorem advance (h : Building R s σ) (hc : c ∈ s.pending.equations) (ha : Advance R s c t) :
    ∃ τ, Building R t τ := by
  cases ha with
  | trivial => exact ⟨σ, h.drop c⟩
  | assign rule assigned =>
    have hm := isMarked_of_assign rule
    exact ⟨_, (h.drop c).assign hm (h.new hc hm) (h.clear c hc).value assigned⟩
  | align _ aligned => exact ⟨σ, (h.align hc aligned).1⟩
  | decompose _ aligned again =>
    obtain ⟨hP, hd⟩ := h.align hc aligned
    exact ⟨σ, hP.add (hd.pieces (decomposes_of_rule again))⟩
  | contract _ redex contracted =>
    refine ⟨σ, (h.drop c).add ?_⟩
    rw [List.forall_mem_singleton]
    exact (h.clear c hc).contract redex contracted

/-- **Steps keep a solution under construction serial:** each assignment is for
an unknown that has been taken out of nothing yet, and takes it out of all that
is pending.  The induction is on the number of steps. -/
theorem reaches (h : Building R s σ) (hr : Reaches R s t) : ∃ τ, Building R t τ :=
  hr.invariant (P := fun u => ∃ τ, Building R u τ) ⟨σ, h⟩ fun _ _ _ ⟨_, hu⟩ hb ha =>
    hu.advance (mem_of_best? hb) ha

/-- The last step does, too, or leaves no solution. -/
theorem halt {last : Attempt Search (Option Equation)} (h : Building R s σ) (hc : c ∈ s.pending.equations)
    (hl : Halt R s c last) : Building R last.state σ ∨ last.state.solutions = [] ∧
      ∀ d ∈ last.state.pending.equations, Uses R .unmarked d.subject := by
  cases hl with
  | clash => exact .inr ⟨rfl, fun d hd => (h.clear d hd).subject⟩
  | excluded rule assigned =>
    obtain ⟨σ', rest, ds, -, hds, -, rfl⟩ := assign_ok assigned
    refine .inr ⟨rfl, fun d hd => ?_⟩
    obtain ⟨e, he, -, hsubject⟩ := exists_of_forall₂ (instantiatePatterns_eq_ok.1 hds) d hd
    exact hsubject ▸ ((h.drop c).clear e he).subject
  | branch => exact .inl h
  | assignFault rule assigned => exact .inl (h.assign_error hc (isMarked_of_assign rule) assigned)
  | alignFault _ aligned =>
    exact .inl (h.replace fun e he => (h.drop c).clear e (equations_of_align aligned ▸ he))
  | contractFault => exact .inl (h.drop c)

/-- **So does a guess,** since its temporaries are new. -/
theorem branch? {m : Expr} {k : Nat} {g : Guess} {b : Branch} (h : Building R s σ) (ha : s.Ahead)
    (hc : c ∈ s.pending.equations) (hhead : c.unknownHead? = some (m, k)) (hg : g ∈ Guess.all (k + 1) c.subject)
    (hb : s.branch? R c g = .ok (some b)) : ∃ τ, Building R b.search τ := by
  obtain ⟨m', k', value, P, hhead', hguess, assigned⟩ := branch?_some hb
  cases hhead.symm.trans hhead'
  obtain ⟨⟨body, rfl, htrial⟩, hP, -, -, hts⟩ := of_guessed hg hguess
  have hm := isMarked_of_unknownHead? hhead
  obtain ⟨f, a, as, hp⟩ := pattern_of_unknownHead? hhead
  have hcopy : σ.copy.equations = σ.equations := h.serial.copy
  have hdeeper : Building R { s.deeper with pending := P } σ.copy := by
    refine ⟨?_, fun d hd => hcopy ▸ h.clear d ?_, hcopy ▸ h.serial⟩
    · change s.solutions.map EquationSet.copy = _
      rw [h.solutions]
      rfl
    · have hd : d ∈ P.equations := hd
      rw [hP] at hd
      exact (grows_copy s.pending).1.subset hd
  have hnew (d : Equation) (hd : d ∈ σ.equations) : d.pattern ≠ m :=
    ((hp ▸ (h.clear c hc).pattern d hd : Uses R (.without d.pattern) (.app f (m :: a :: as))).ne_of_applied
      hm).symm
  have hvalue {n : Expr} (hn : n.Below s.pending.nextFresh) :
      Uses R (.without n) (R.lambda (s.deeper.pending.mintBinders k).1 body) := by
    have hplain (u : Var) (hu : u ∈ (s.deeper.pending.mintBinders k).1.toList) :
        (Vocabulary.without n).atom (.var u) := fun hmu =>
      absurd ((mem_mintBinders hu).1.symm.trans hmu) Bool.false_ne_true
    refine .bind trivial hplain (htrial.uses ((h.clear c hc).subject.without_of_unmarked n) hplain fun t ht => ?_)
    obtain ⟨x, rfl, hx, hlow, -⟩ := hts t ht
    refine ⟨hx, ?_⟩
    rintro rfl
    exact hlow (below_var.1 hn)
  have hbelow (d : Equation) (hd : d ∈ σ.equations) : d.pattern.Below s.pending.nextFresh :=
    (ha.solutions σ (h.solutions ▸ List.mem_cons_self) d hd).1
  have hmbelow : m.Below s.pending.nextFresh :=
    (below_app.1 (hp ▸ (ha.pending c hc).1)).2 m List.mem_cons_self
  refine ⟨_, hdeeper.assign hm (hcopy ▸ hnew) ?_ assigned⟩
  rw [hcopy, List.forall_mem_append, List.forall_mem_singleton]
  exact ⟨fun d hd => hvalue (hbelow d hd), hvalue hmbelow⟩

end Building

/-- What calls for subjects without unknowns keep: assignments are serial, and
single solutions are applied to the pending patterns. -/
structure Consistent (R : Reserved) (s : Search) : Prop where
  ahead : s.Ahead
  subjects : ∀ c ∈ s.pending.equations, Uses R .unmarked c.subject
  patterns : ∀ σ, s.solutions = [σ] → ∀ c ∈ s.pending.equations, ∀ d ∈ σ.equations,
    Uses R (.without d.pattern) c.pattern
  serial : ∀ σ ∈ s.solutions, Serial R σ.equations

/-- A solution under construction is the only one of its search, so what holds
of it holds of the search. -/
theorem Building.consistent (h : Building R s σ) (ha : s.Ahead) : s.Consistent R where
  ahead := ha
  subjects c hc := (h.clear c hc).subject
  patterns τ hτ c hc := by
    obtain rfl := (List.cons.inj (h.solutions.symm.trans hτ)).1
    exact (h.clear c hc).pattern
  serial τ hτ := by
    rw [h.solutions] at hτ
    exact List.mem_singleton.1 hτ ▸ h.serial

namespace Consistent

/-- A consistent search with a single solution has that one under
construction. -/
theorem building (h : s.Consistent R) (hσ : s.solutions = [σ]) : Building R s σ :=
  ⟨hσ, fun c hc => ⟨h.patterns σ hσ c hc, h.subjects c hc⟩, h.serial σ (hσ ▸ List.mem_cons_self)⟩

/-- A consistent search goes on with the only solution it has, or begins with
an empty one. -/
theorem begun (h : s.Consistent R) (hfew : s.solutions.length ≤ 1) : ∃ σ, Building R s.begun σ := by
  rw [Search.begun]
  split
  · exact ⟨{}, rfl, fun c hc => ⟨List.forall_mem_nil _, h.subjects c hc⟩, .nil⟩
  · next hne =>
    have hlen := List.length_pos_iff.2 hne
    obtain ⟨σ, hσ⟩ := List.length_eq_one_iff.1 (by omega : s.solutions.length = 1)
    exact ⟨σ, h.building hσ⟩

/-- A copy of a consistent search is consistent. -/
theorem clone (h : s.Consistent R) : s.clone.Consistent R where
  ahead := h.ahead.clone
  subjects c hc := h.subjects c ((grows_copy s.pending).1.subset hc)
  patterns τ hτ c hc := by
    obtain ⟨σ, hσ, rfl⟩ := List.map_eq_singleton_iff.1 hτ
    rw [(h.serial σ (hσ ▸ List.mem_cons_self)).copy]
    exact h.patterns σ hσ c ((grows_copy s.pending).1.subset hc)
  serial τ hτ := by
    obtain ⟨σ, hσ, rfl⟩ := List.mem_map.1 hτ
    rw [(h.serial σ hσ).copy]
    exact h.serial σ hσ

/-- The deterministic part of a consistent search leaves it consistent,
wherever it ends. -/
theorem run {last : Attempt Search (Option Equation)} (h : s.Consistent R) (hfew : s.solutions.length ≤ 1)
    (hr : s.run R n = some last) : last.state.Consistent R := by
  have hahead := h.ahead.run hr
  obtain ⟨u, hu, hstop⟩ := reaches_of_steps hr
  obtain ⟨σ, hσ⟩ := h.begun hfew
  obtain ⟨τ, hτ⟩ := hσ.reaches hu
  rcases halt_of_step hstop with ⟨-, rfl⟩ | ⟨c, hb, hl⟩
  · exact Building.consistent (σ := τ) ⟨hτ.solutions, hτ.clear, hτ.serial⟩ hahead
  · rcases hτ.halt (mem_of_best? hb) hl with ht | ⟨hnone, hsubjects⟩
    · exact ht.consistent hahead
    · refine ⟨hahead, hsubjects, fun υ hυ => ?_, fun υ hυ => ?_⟩
      · rw [hnone] at hυ
        cases hυ
      · rw [hnone] at hυ
        cases hυ

/-- A fork of a consistent search is consistent, as the solution it goes on
with is applied to all that is pending. -/
theorem fork {f : Search} (h : s.Consistent R) (hσ : σ ∈ s.solutions) (hf : s.fork R σ = .ok f) :
    f.Consistent R := by
  have hserial := h.serial σ hσ
  have hbuilding : Building R f σ.copy := by
    refine ⟨solutions_fork hf, fun d hd => ?_, hserial.copy ▸ hserial⟩
    obtain ⟨c, hc, happly, hsubject⟩ := exists_of_forall₂ (applyAll_of_fork hf) d hd
    rw [hserial.copy]
    exact ⟨hserial.applyAll happly, hsubject ▸ h.subjects c ((grows_copy s.pending).1.subset hc)⟩
  exact hbuilding.consistent (Ahead.stable.fork h.ahead hσ hf)

/-- **The parts of solving keep assignments serial.** -/
theorem stable : Stable R (Consistent R) where
  clone h := h.clone
  run h hfew hr := h.run hfew hr
  branch {s c m k g b} h hone hc hhead hg hb := by
    obtain ⟨σ, hσ⟩ := List.length_eq_one_iff.1 hone
    obtain ⟨τ, hτ⟩ := (h.building hσ).branch? h.ahead hc hhead hg hb
    exact hτ.consistent (h.ahead.branch? hc hhead hg hb)
  fork h hσ hf := h.fork hσ hf
  settle {s found parts} h hfound := by
    have hahead : (s.settle found parts).Ahead :=
      Ahead.stable.settle h.ahead fun τ hτ => (hfound τ hτ).imp fun t ht => ⟨ht.1, ht.2.1.ahead, ht.2.2⟩
    refine ⟨hahead, nofun, fun _ _ => nofun, fun τ hτ => ?_⟩
    obtain ⟨t, -, ht, ks, hks, σ, hσ, happly⟩ := hfound τ hτ
    exact (ht.serial σ hσ).cleanup (fun k hk => ⟨s, hks k hk⟩) happly

/-- **To add an equation keeps assignments serial.** -/
theorem add (h : s.Consistent R) (hc : Uses R .unmarked c.subject) (ht : s.add R c = .ok t) :
    t.Consistent R := by
  have hahead := h.ahead.add ht
  have hmem {p : Expr} {d : Equation} (hd : d ∈ (s.pending.add [⟨p, c.subject⟩]).equations) :
      d ∈ s.pending.equations ∨ d = ⟨p, c.subject⟩ :=
    (mem_add hd).imp_right fun hd => List.mem_singleton.1 hd.1
  have hsubjects {p : Expr} : ∀ d ∈ (s.pending.add [⟨p, c.subject⟩]).equations, Uses R .unmarked d.subject := by
    intro d hd
    rcases hmem hd with hd | rfl
    · exact h.subjects d hd
    · exact hc
  cases added_of_add ht with
  | unsolved empty =>
    refine ⟨hahead, hsubjects, fun σ hσ => ?_, h.serial⟩
    rw [empty] at hσ
    cases hσ
  | @single σ p one applied =>
    refine ⟨hahead, hsubjects, fun τ hτ d hd => ?_, h.serial⟩
    obtain rfl := (List.cons.inj (one.symm.trans hτ)).1
    rcases hmem hd with hd | rfl
    · exact h.patterns σ one d hd
    · exact (h.serial σ (one ▸ List.mem_cons_self)).applyAll applied
  | several many =>
    refine ⟨hahead, hsubjects, fun σ hσ => ?_, h.serial⟩
    rw [hσ] at many
    exact absurd many (Nat.lt_irrefl 1)

end Consistent

/-- **Whatever the calls, assignments are serial,** if the subjects have no
unknowns. -/
theorem Calls.consistent (h : Calls R cs s) (hcs : ∀ c ∈ cs, ∀ e ∈ c.subject.nodes, e.isMarked = false) :
    s.Consistent R := by
  have hstable : Stable R (Consistent R) := Consistent.stable
  induction h with
  | new => exact ⟨⟨List.forall_mem_nil _, List.forall_mem_nil _⟩, List.forall_mem_nil _,
      fun _ => nofun, List.forall_mem_nil _⟩
  | add _ ht ih =>
    rw [List.forall_mem_append, List.forall_mem_singleton] at hcs
    exact (ih hcs.1).add (uses_unmarked hcs.2) ht
  | solve _ ht ih => exact hstable.solve (ih hcs) ht
  | solved _ ht ih => exact hstable.solved (ih hcs) ht
  | clone _ ih => exact (ih hcs).clone

/-- The solutions that calls for subjects without unknowns return, all at once
or one at a time. -/
inductive Returned (R : Reserved) : EquationSet → Prop
  | solved {cs : List Equation} {s t : Search} {n : Nat} {σ : EquationSet} (calls : Calls R cs s)
      (subjects : ∀ c ∈ cs, ∀ e ∈ c.subject.nodes, e.isMarked = false)
      (result : s.solved R n = some ⟨t, .ok ()⟩) (mem : σ ∈ t.solutions) : Returned R σ
  | streamed {cs : List Equation} {s : Search} {str u : Stream} {σs : List EquationSet} {σ : EquationSet}
      (calls : Calls R cs s) (subjects : ∀ c ∈ cs, ∀ e ∈ c.subject.nodes, e.isMarked = false)
      (result : s.stream R = .ok str) (yields : str.Yields R σs u) (mem : σ ∈ σs) : Returned R σ

/-- **Solutions are unambiguous.** -/
theorem Returned.unambiguous (h : Returned R σ) : σ.Unambiguous := by
  have hstable : Stable R (Consistent R) := Consistent.stable
  cases h with
  | solved calls subjects result mem =>
    exact ((hstable.solved (calls.consistent subjects) result).serial σ mem).unambiguous
  | streamed calls subjects result yields mem =>
    obtain ⟨t, ks, ht, hks, τ, hτ, happly⟩ :=
      hstable.of_yields (calls.consistent subjects) result yields σ mem
    exact ((ht.serial τ hτ).cleanup hks happly).unambiguous

end Search

namespace EquationSet

/-- `_x` and `base._x` are unknowns of one name: `f(_x, base._x)` should equal
`f(a, b)`. -/
def namesakes : Equation :=
  ⟨.app (.var ⟨"f", false⟩) [.var ⟨"x", true⟩, .sym ⟨"x", "base", true⟩],
    .app (.var ⟨"f", false⟩) [.var ⟨"a", false⟩, .var ⟨"b", false⟩]⟩

/-- The only solution of `namesakes` gives `_x` the value `a` and `base._x` the
value `b`, and looking them up finds these; but it does not count as a
function. -/
theorem isFunction_namesakes : ∃ σ : EquationSet, Search.Returned {} σ ∧
    σ.equations = [⟨.var ⟨"x", true⟩, .var ⟨"a", false⟩⟩, ⟨.sym ⟨"x", "base", true⟩, .var ⟨"b", false⟩⟩] ∧
    σ.Unambiguous ∧ (∀ c ∈ σ.equations, σ.lookup? c.pattern = some c.subject) ∧ σ.isFunction = false := by
  have hs : Search.Calls {} [namesakes] { pending := .add {} [namesakes] } := .add (.new none) rfl
  have hsubjects : ∀ c ∈ [namesakes], ∀ e ∈ c.subject.nodes, e.isMarked = false := by decide
  have h : ∃ (t : Search) (σ : EquationSet),
      ({ pending := .add {} [namesakes] } : Search).solved {} 8 = some ⟨t, .ok ()⟩ ∧ t.solutions = [σ] ∧
      σ.equations = [⟨.var ⟨"x", true⟩, .var ⟨"a", false⟩⟩, ⟨.sym ⟨"x", "base", true⟩, .var ⟨"b", false⟩⟩] ∧
      σ.isFunction = false := by
    refine ⟨?_, ?_, ?_, ?_, ?_, ?_⟩
    rotate_left 2
    · cbv
      rfl
    · cbv
      rfl
    · cbv
    · cbv
  obtain ⟨t, σ, ht, hσ, hequations, hfunction⟩ := h
  have hreturned : Search.Returned {} σ := .solved hs hsubjects ht (hσ ▸ List.mem_cons_self)
  exact ⟨σ, hreturned, hequations, hreturned.unambiguous, fun c hc => hreturned.unambiguous.lookup? hc, hfunction⟩

/-- **What `isFunction` says of a set.**  It is true if the patterns are
unknowns, no two of them the same and no two of them different but of one name.
The first of this is what makes looking up unambiguous, and every solution
satisfies it if the subjects of the search have no unknowns. -/
theorem isFunction_spec (R : Reserved) (s : EquationSet) :
    (s.isFunction = true ↔
      s.Unambiguous ∧ ∀ c ∈ s.equations, ∀ d ∈ s.equations, ¬Namesakes c.pattern d.pattern) ∧
    (s.Unambiguous ↔ Distinct s.equations ∧ (∀ c ∈ s.equations, c.pattern.isMarked = true) ∧
      ∀ c ∈ s.equations, s.lookup? c.pattern = some c.subject) ∧
    (Search.Returned R s → s.Unambiguous) :=
  ⟨isFunction_iff, unambiguous_iff_lookup?, fun h => h.unambiguous⟩

end EquationSet
end SecondOrder
