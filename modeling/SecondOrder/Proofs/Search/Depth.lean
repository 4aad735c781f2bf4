/-
# Only too deep a search is refused

A search for sorted equations meets one fault only: a branch point deeper than
its limit allows (`Search.TooDeep`).  This holds when all solutions are asked
for at once (`Open.tooDeep_of_solve`) and when they are asked for one by one,
where the cleanups of all branch points on the way are carried out at the end
(`Stream.tooDeep_of_toList`).

For equations that are not sorted it fails: an unknown in a binder slot may get
a value that is no variable (`refused_slot`), and an unknown that is applied
here may elsewhere be taken for a function of another number of arguments
(`refused_arity`).
-/

import SecondOrder.Proofs.Search.Enumeration
import SecondOrder.Proofs.Search.Retry
import SecondOrder.Proofs.Search.Soundness

namespace SecondOrder

namespace Search

open SecondOrder.Expr Equation

variable {R : Reserved} {arity : Arity} {s t u : Search} {σ τ : EquationSet} {c : Equation}
  {m : Expr} {k n : Nat} {fault : Fault}

/-- The fault is that a branch point would be deeper than the limit. -/
def TooDeep (limit : Option Int) (fault : Fault) : Prop :=
  ∃ (depth : Nat) (l : Int), limit = some l ∧ l < depth ∧ fault = .depthExceeded depth l

/-- Without a limit nothing is too deep. -/
theorem not_tooDeep_none (fault : Fault) : ¬TooDeep none fault := by
  rintro ⟨depth, l, h, -⟩
  cases h

/-- To branch is refused only one branch point below the limit. -/
theorem guesses_error (h : s.guesses c = .error fault) :
    ∃ l, s.limit = some l ∧ l < s.depth + 1 ∧ fault = .depthExceeded (s.depth + 1) l := by
  rw [guesses] at h
  split at h
  · cases h
  · split at h
    · next l hl =>
      split at h
      · next hdeep =>
        cases h
        exact ⟨l, hl, hdeep, rfl⟩
      · cases h
    · cases h

/-- Where the guesses are refused it is for the limit. -/
theorem tooDeep_of_guesses (h : s.guesses c = .error fault) : TooDeep s.limit fault := by
  obtain ⟨l, hl, hdeep, rfl⟩ := guesses_error h
  exact ⟨s.depth + 1, l, hl, hdeep, rfl⟩

/-- A search has the limit of the one that it was reached from. -/
theorem limit_of_reaches (h : Reaches R s.begun u) : u.limit = s.limit := by
  rw [h.frame.2.2.1, begun]
  split <;> rfl

/-- A branch is searched under the limit of the search. -/
theorem limit_of_branched {N : Nat} {xs : Binders} {b : Expr} {ts : List Expr}
    (h : Branched R arity s σ c g m k N xs b ts t) : t.limit = s.limit := h.assigned.limit

/-- What goes wrong in a branch goes wrong because it is too deep. -/
theorem Open.tooDeep_of_explore (ho : Open R arity s σ) (hc : c ∈ s.pending.equations) (hr : c.rule R = .guess)
    (hu : c.unknownHead? = some (m, k))
    (ih : ∀ {arity : Arity} {s t : Search} {σ : EquationSet} {fault : Fault},
      Open R arity s.begun σ → s.solve R n = some ⟨t, .error fault⟩ → TooDeep s.limit fault)
    (h : explore R (solve R n) s c (Guess.all (k + 1) c.subject) = some (.error fault)) :
    TooDeep s.limit fault := by
  obtain ⟨g, hg, hfault⟩ := exists_of_explore_error h
  rcases ho.branched hc hr hu hg with hb | ⟨N, xs, b, ts, t, hb, hbranched⟩ <;> rw [hb] at hfault
  · rcases hfault with hb' | ⟨b, t, hb', -⟩ <;> cases hb'
  · rcases hfault with hb' | ⟨b', t', hb', hfault⟩ <;> cases hb'
    have hopen := hbranched.assigned.opened
    have hopen' := hopen.begun.symm ▸ hopen
    rcases hfault with hsolve | ⟨hsolve, hclean⟩
    · exact limit_of_branched hbranched ▸ ih hopen' hsolve
    · -- no cleanup is refused
      have hfound := hopen'.completes_of_solve hsolve
      rw [hopen.begun] at hfound
      obtain ⟨found, hall⟩ := exists_forall₂ (P := fun τ r =>
          Cleanup.applyAll R (Branch.cleanups ⟨t, ts⟩ s) τ = .ok r) fun τ hτ => by
        obtain ⟨S, heqs, hS⟩ := hbranched.of_completes (hfound τ hτ)
        obtain ⟨τ', b', S', -, -, -, -, -, ⟨h, -⟩ | ⟨h, -⟩⟩ := hbranched.cleanup hS heqs
        · exact ⟨_, h⟩
        · exact ⟨_, h⟩
      cases hclean.symm.trans (mapM_eq_ok.2 hall)

/-- **An open search is refused only where it would go too deep.** -/
theorem Open.tooDeep_of_solve (ho : Open R arity s.begun σ)
    (h : s.solve R n = some ⟨t, .error fault⟩) : TooDeep s.limit fault := by
  induction n generalizing arity s σ t fault with
  | zero => cases h
  | succ n ih =>
    cases course_of_solve h with
    | forkFault many => exact absurd many ho.length_le
    | partFault many => exact absurd many ho.length_le
    | runFault _ ran =>
      obtain ⟨u, σ', new, -, -, -, -, hended⟩ := ho.run ran
      cases hended
    | guessFault _ ran guesses =>
      rw [← limit_of_reaches (stands_of_run ran).reached]
      exact tooDeep_of_guesses guesses
    | branchFault _ ran guesses refused =>
      have hstands := stands_of_run ran
      obtain ⟨σ', new, ho', -, -⟩ := ho.reaches hstands.reached
      rw [← limit_of_reaches hstands.reached]
      rcases guesses_spec guesses with ⟨-, rfl⟩ | ⟨m, k, hhead, rfl⟩
      · cases refused
      · exact ho'.tooDeep_of_explore hstands.mem hstands.rule hhead ih refused

end Search

namespace Stream

open Search

variable {R : Reserved} {arity : Arity} {limit : Option Int} {s t u : Search} {σ τ : EquationSet}
  {c : Equation} {m : Expr} {k n : Nat} {ks : List Cleanup} {fault : Fault}
  {entry : Search × List Cleanup}

/-- The cleanups are not refused on what completes the solution. -/
def Cleans (R : Reserved) (arity : Arity) (s : Search) (σ : EquationSet) (ks : List Cleanup) :
    Prop :=
  ∀ τ, Completes R arity s σ τ → ∃ r, Cleanup.applyAll R ks τ = .ok r

/-- What every entry on the stack is: an open search, and cleanups for its
solutions. -/
def Stacked (R : Reserved) (limit : Option Int) (entry : Search × List Cleanup) : Prop :=
  ∃ arity σ, Open R arity entry.1.begun σ ∧ entry.1.limit = limit ∧
    Cleans R arity entry.1.begun σ entry.2

/-- The branches of an open search can be stacked. -/
theorem stacked_of_branches {entries : List (Search × List Cleanup)} (ho : Open R arity s σ)
    (hc : c ∈ s.pending.equations) (hr : c.rule R = .guess) (hks : Cleans R arity s σ ks)
    (h : s.branches R c ks = .ok entries) : ∀ e ∈ entries, Stacked R s.limit e := by
  intro e he
  obtain ⟨gs, g, b, hgs, hg, hsome, rfl⟩ := mem_branches h he
  rcases guesses_spec hgs with ⟨-, rfl⟩ | ⟨m, k, hhead, rfl⟩
  · cases hg
  · rcases ho.branched hc hr hhead hg with hnone | ⟨N, xs, b', ts, t, hsome', hbranched⟩
    · cases hnone.symm.trans hsome
    · cases hsome'.symm.trans hsome
      have hopen := hbranched.assigned.opened
      refine ⟨_, _, hopen.begun.symm ▸ hopen, limit_of_branched hbranched, fun τ hτ => ?_⟩
      have hτ : Completes R _ t _ τ := hopen.begun ▸ hτ
      obtain ⟨S, heqs, hS⟩ := hbranched.of_completes hτ
      obtain ⟨τ', b'', S', heqs', -, -, -, -, ⟨hdrop, -⟩ | ⟨hkeep, hS'⟩⟩ := hbranched.cleanup hS heqs
      · exact ⟨none, Kept.applyAll_append hdrop⟩
      · obtain ⟨r, hks⟩ := hks τ' ⟨_, heqs', hS'⟩
        exact ⟨r, (Kept.applyAll_append hkeep).trans hks⟩

/-- To branch is refused only where it would be too deep. -/
theorem tooDeep_of_branches (ho : Open R arity s σ) (hc : c ∈ s.pending.equations)
    (hr : c.rule R = .guess) (h : s.branches R c ks = .error fault) : TooDeep s.limit fault := by
  rw [branches] at h
  cases hgs : s.guesses c with
  | error =>
    rw [hgs] at h
    cases h
    exact tooDeep_of_guesses hgs
  | ok gs =>
    obtain ⟨bs, hbs⟩ : ∃ bs, gs.mapM (s.branch? R c) = .ok bs := by
      have hbranch : ∀ g ∈ gs, ∃ r, s.branch? R c g = .ok r := fun g hg => by
        rcases guesses_spec hgs with ⟨-, rfl⟩ | ⟨m, k, hhead, rfl⟩
        · cases hg
        · rcases ho.branched hc hr hhead hg with hb | ⟨N, xs, b, ts, t, hb, -⟩
          · exact ⟨_, hb⟩
          · exact ⟨_, hb⟩
      obtain ⟨bs, hbs⟩ := exists_forall₂ hbranch
      exact ⟨bs, mapM_eq_ok.2 hbs⟩
    rw [hgs] at h
    dsimp only [bind, Except.bind] at h
    rw [hbs] at h
    cases h

namespace Stacked

/-- The run of a search on the stack is not refused. -/
theorem run_ne_error (h : Stacked R limit (s, ks)) : s.run R n ≠ some ⟨t, .error fault⟩ := by
  intro ran
  obtain ⟨arity, σ, ho, -⟩ := h
  obtain ⟨u, σ', new, -, -, -, -, hended⟩ := ho.run ran
  cases hended

/-- The cleanups are not refused on the solution that the run completes. -/
theorem exists_applyAll {σs : List EquationSet} (h : Stacked R limit (s, ks))
    (ran : s.run R n = some ⟨t, .ok none⟩) (hτ : t.solutions = τ :: σs) :
    ∃ r, Cleanup.applyAll R ks τ = .ok r := by
  obtain ⟨arity, σ, ho, -, hks⟩ := h
  obtain ⟨u, σ', new, -, ho', heqs, hback, hended⟩ := ho.run ran
  refine hks τ ?_
  cases hended with
  | complete hnone =>
    have hcons : u.solutions = τ :: σs := hτ
    rw [ho'.solutions] at hcons
    cases hcons
    exact ⟨new ++ [], by rw [heqs, List.append_nil], hback [] (finishes_nil hnone)⟩
  | refuted hnil => cases hnil.symm.trans hτ

/-- Where the run stops to branch, the search is open and the cleanups are
still not refused. -/
theorem exists_open (h : Stacked R limit (s, ks)) (ran : s.run R n = some ⟨t, .ok (some c)⟩) :
    t.limit = limit ∧ ∃ arity σ, Open R arity t σ ∧ Cleans R arity t σ ks := by
  obtain ⟨arity, σ, ho, hlimit, hks⟩ := h
  obtain ⟨u, σ', new, hu, ho', heqs, hback, hended⟩ := ho.run ran
  cases hended
  refine ⟨(limit_of_reaches hu).trans hlimit, arity, σ', ho', ?_⟩
  rintro τ ⟨S, hτ, hS⟩
  exact hks τ ⟨new ++ S, by rw [hτ, heqs, List.append_assoc], hback S hS⟩

end Stacked

/-- What the next solution leaves on the stack can be stacked, and if it is
refused then because the search would go too deep. -/
theorem draws_spec {stack : List (Search × List Cleanup)}
    {r : Except Fault (Option (EquationSet × Stream))}
    (hstack : ∀ e ∈ stack, Stacked R limit e) (h : Draws R stack r) :
    (∀ fault, r = .error fault → TooDeep limit fault) ∧
      ∀ τ rest, r = .ok (some (τ, rest)) → ∀ e ∈ rest.stack, Stacked R limit e := by
  induction h with
  | finished => exact ⟨by simp, by simp⟩
  | runFault ran => exact absurd ran (List.forall_mem_cons.1 hstack).1.run_ne_error
  | cleanFault ran solutions _ cleans =>
    obtain ⟨kept, hkept⟩ := (List.forall_mem_cons.1 hstack).1.exists_applyAll ran solutions
    cases cleans.symm.trans hkept
  | found =>
    refine ⟨by simp, fun τ rest heq => ?_⟩
    cases heq
    exact (List.forall_mem_cons.1 hstack).2
  | fruitless _ _ ih => exact ih (List.forall_mem_cons.1 hstack).2
  | branchFault ran refused =>
    obtain ⟨hlimit, arity, σ, ho, -⟩ := (List.forall_mem_cons.1 hstack).1.exists_open ran
    have hstands := stands_of_run ran
    refine ⟨fun fault heq => ?_, by simp⟩
    cases heq
    exact hlimit ▸ tooDeep_of_branches ho hstands.mem hstands.rule refused
  | branched ran opened _ ih =>
    obtain ⟨hentry, hrest⟩ := List.forall_mem_cons.1 hstack
    obtain ⟨hlimit, arity, σ, ho, hks⟩ := hentry.exists_open ran
    have hstands := stands_of_run ran
    have hbranches := stacked_of_branches ho hstands.mem hstands.rule hks opened
    exact ih (List.forall_mem_append.2 ⟨hlimit ▸ hbranches, hrest⟩)

/-- **Solutions one by one are refused only where the search would go too
deep.** -/
theorem tooDeep_of_toList {stack : List (Search × List Cleanup)}
    (hstack : ∀ e ∈ stack, Stacked R limit e) (h : toList R n ⟨stack⟩ = some (.error fault)) :
    TooDeep limit fault := by
  induction n generalizing stack with
  | zero => cases h
  | succ n ih =>
    rw [toList] at h
    split at h
    · cases h
    · next hnext =>
      cases h
      exact (draws_spec hstack (draws_of_next? hnext)).1 _ rfl
    · cases h
    · next τ rest hnext =>
      obtain ⟨r, hr, hmap⟩ := Option.map_eq_some_iff.1 h
      cases r with
      | error =>
        cases hmap
        exact ih ((draws_spec hstack (draws_of_next? hnext)).2 τ rest rfl) hr
      | ok => cases hmap

end Stream

namespace Search

open SecondOrder.Expr Equation

variable {R : Reserved} {arity : Arity} {s t : Search} {σ : EquationSet}

/-- To be open is a matter of what is pending and of the solution. -/
theorem Open.congr (ho : Open R arity s σ) (hpending : t.pending = s.pending)
    (hsolutions : t.solutions = s.solutions) : Open R arity t σ where
  solutions := hsolutions.trans ho.solutions
  patterns := hpending ▸ ho.patterns
  below := hpending ▸ ho.below
  exclusions := hpending ▸ ho.exclusions
  made := hpending ▸ ho.made
  distinct := ho.distinct
  apart := hpending ▸ ho.apart

/-- A copy of an open search is open. -/
theorem Open.clone (ho : Open R arity s.begun σ) : Open R arity s.clone.begun σ.copy := by
  refine ho.deeper.1.congr ?_ ?_
  · rw [Search.begun, Search.begun]
    split <;> split <;> rfl
  · cases hσ : s.solutions with
    | nil =>
      have hclone : s.clone.solutions = [] := by rw [Search.clone, hσ]; rfl
      simp only [Search.begun, Search.deeper, Search.clone, hσ, List.map_nil, List.map_cons]
      rfl
    | cons τ τs => simp only [Search.begun, Search.deeper, Search.clone, hσ, List.map_cons]

/-- **A search for sorted equations is refused only where it would go too
deep,** whether all solutions are asked for at once or one after the other.  It
can be made, and its stream can be opened, without a fault; and every fault of
either names the limit that the search was given and a depth beyond it.
Without a limit there is none. -/
theorem tooDeep_of_fault {limit : Option Int} {cs : List Equation}
    (hcs : ∀ c ∈ cs, Sorted R arity c.pattern ∧ Ground R c.subject) :
    ∃ s str, ofPairs R limit (cs.map operands) = .ok s ∧ s.stream R = .ok str ∧
      (∀ n t fault, s.solved R n = some ⟨t, .error fault⟩ → TooDeep limit fault) ∧
        ∀ n fault, str.toList R n = some (.error fault) → TooDeep limit fault := by
  have hs := ofPairs_operands R limit cs
  obtain ⟨ho, -⟩ := open_ofPairs hcs hs
  refine ⟨_, _, hs, rfl, fun n t fault h => ho.tooDeep_of_solve h, fun n fault h => ?_⟩
  refine Stream.tooDeep_of_toList (fun entry hentry => ?_) h
  rw [List.mem_singleton.1 hentry]
  exact ⟨arity, _, ho.clone, rfl, fun τ _ => ⟨some τ, rfl⟩⟩

/-- `tooDeep_of_fault` at a search for an unknown function that may not branch
at all. -/
theorem tooDeep_applied : ∃ s t fault,
    ofPairs {} (some 0) ([applied].map operands) = .ok s ∧
      s.solved {} 3 = some ⟨t, .error fault⟩ ∧ TooDeep (some 0) fault := by
  let arity : Arity := fun n => if n == .var ⟨"f", true⟩ then some 1 else none
  have hcs : ∀ c ∈ [applied], Sorted {} arity c.pattern ∧ Ground {} c.subject := by
    intro c hc
    obtain rfl := List.mem_singleton.1 hc
    refine ⟨.apply rfl (by simp) rfl fun a ha => ?_, fun _ => .var (by simp)⟩
    exact List.mem_singleton.1 ha ▸ .var (by simp)
  obtain ⟨s, str, hs, -, hsolved, -⟩ := @tooDeep_of_fault {} arity (some 0) _ hcs
  have h : s.solved {} 3 = some ⟨s.begun, .error (.depthExceeded 1 0)⟩ := by
    cases (ofPairs_operands {} (some 0) [applied]).symm.trans hs
    let s : Search := { limit := some 0, pending := EquationSet.add {} [applied] }
    have hstep : s.begun.step {} = .stop ⟨s.begun, .ok (some applied)⟩ :=
      step_of_flex (by cbv) (by cbv) (by cbv)
    have hguesses : s.begun.guesses applied = .error (.depthExceeded 1 0) := rfl
    change s.solve {} 3 = _
    rw [solve, if_neg (by exact Nat.not_lt_zero 1), run, steps, hstep]
    dsimp only
    rw [hguesses]
    rfl
  exact ⟨s, _, _, hs, h, hsolved _ _ _ h⟩

/-- Without slots of unknowns in the patterns, equations would be sorted here:
the unknown of `boundUnknown` stands in a binder slot, and is given a value
that cannot stand there. -/
theorem refused_slot : ∃ t fault,
    boundUnknown.solved {} 3 = some ⟨t, .error fault⟩ ∧ fault.kind = .illegalCapture := by
  refine ⟨?_, ?_, ?_, ?_⟩
  rotate_left 2
  · cbv
    rfl
  · rfl

/-- `f(_m, a)` should equal `c`, and `_m(x, y)` should equal `d`. -/
def mixedUse : List Equation :=
  let name (s : String) : Expr := .var ⟨s, false⟩
  let m : Expr := .var ⟨"m", true⟩
  [⟨.app (name "f") [m, name "a"], name "c"⟩,
    ⟨.app (.sym (Reserved.applySym {})) [m, name "x", name "y"], name "d"⟩]

/-- No slot as in `refused_slot` is needed.  An unknown that is applied, but
also stands as the first argument of another application, is taken there for a
function of as many arguments as follow it, and its value is then applied to a
different number of them. -/
theorem refused_arity : ∃ s t fault, ofPairs {} none (mixedUse.map operands) = .ok s ∧
    s.solved {} 6 = some ⟨t, .error fault⟩ ∧ fault.kind = .arityMismatch := by
  refine ⟨_, ?_, ?_, ofPairs_operands {} none mixedUse, ?_, ?_⟩
  rotate_left 2
  · cbv
    rfl
  · rfl

end Search
end SecondOrder
