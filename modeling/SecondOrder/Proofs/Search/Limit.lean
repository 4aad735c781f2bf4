/-
# The limit on the depth

A search reads its limit at one place only: before it branches
(`Search.guesses`).  So a search and the same search under another limit
(`Search.withLimit`) do the same, step by step, until the smaller limit refuses
a branch point (`Search.solve_withLimit`, `Stream.next?_withLimit`), and
nothing else is refused with the fault of a limit (`Search.fault_of_limit`).

Hence a larger limit changes neither the solutions that a smaller one lets a
search return nor those that it lets a stream yield before it is refused, and
what a limit `m` refuses is a branch point at depth `m + 1`
(`Search.solved_withLimit`).
-/

import SecondOrder.Proofs.Search.Enumeration
import SecondOrder.Proofs.Search.Exclusion
import SecondOrder.Proofs.Search.Unlimited

namespace SecondOrder

/-- The state of an attempt carried elsewhere, with the same result. -/
def Attempt.mapState {σ τ α : Type} (f : σ → τ) (a : Attempt σ α) : Attempt τ α :=
  ⟨f a.state, a.result⟩

/-- The search that a step leads to, carried elsewhere. -/
def Step.map (f : Search → Search) : Step → Step
  | .next s => .next (f s)
  | .stop last => .stop (last.mapState f)

/-- The search under another limit. -/
def Search.withLimit (l : Option Int) (s : Search) : Search := { s with limit := l }

/-- The branch under another limit. -/
def Branch.withLimit (l : Option Int) (b : Branch) : Branch :=
  { b with search := b.search.withLimit l }

namespace Search

variable {R : Reserved} {s t : Search} {c : Equation} {g : Guess} {l l' : Option Int} {n : Nat}

/-- Another limit leaves the solutions alone. -/
@[simp] theorem solutions_withLimit (s : Search) : (s.withLimit l).solutions = s.solutions := rfl

/-! ## The deterministic part does not read the limit -/

/-- To give an unknown its value does not ask for the limit. -/
theorem assign_withLimit (s : Search) (c : Equation) :
    (s.withLimit l).assign R c = (s.assign R c).mapState (withLimit l) := by
  rw [assign, assign, instantiate_singleton, instantiate_singleton]
  dsimp only [withLimit]
  rcases EquationSet.instantiatePatterns R c s.pending.equations with ⟨ds, fault | _⟩
  · rfl
  · dsimp only
    cases s.solutions with
    | nil => rfl
    | cons σ rest =>
      dsimp only
      rw [apply_ite (Attempt.mapState (withLimit l))]
      rfl

/-- No rule asks for the limit. -/
theorem treat_withLimit (s : Search) (c : Equation) :
    (s.withLimit l).treat R c = (s.treat R c).map (withLimit l) := by
  have hassign : ((s.withLimit l).drop c).assign R c =
      ((s.drop c).assign R c).mapState (withLimit l) := assign_withLimit (s.drop c) c
  rw [treat, treat, hassign]
  cases c.rule R with
  | assign => rcases (s.drop c).assign R c with ⟨t, fault | _ | _⟩ <;> rfl
  | decompose =>
    have hpending : ((s.withLimit l).drop c).pending = (s.drop c).pending := rfl
    dsimp only
    rw [hpending]
    rcases c.align (s.drop c).pending with ⟨P, fault | d⟩ <;> rfl
  | guess =>
    dsimp only
    split
    · cases c.pattern.contract R <;> rfl
    · rfl
  | _ => rfl

/-- A step does not ask for the limit. -/
theorem step_withLimit (s : Search) : (s.withLimit l).step R = (s.step R).map (withLimit l) := by
  have hbest : (s.withLimit l).pending.best? R = s.pending.best? R := rfl
  rw [step, step, hbest]
  cases s.pending.best? R with
  | none => rfl
  | some c => exact treat_withLimit s c

/-- Steps that are carried out under another limit go through the same
searches, each under that limit. -/
theorem steps_withLimit (n : Nat) (s : Search) :
    steps R n (s.withLimit l) = (steps R n s).map (·.mapState (withLimit l)) := by
  induction n generalizing s with
  | zero => rfl
  | succ n ih =>
    rw [steps, steps, step_withLimit]
    cases s.step R with
    | next t => exact ih t
    | stop last => rfl

/-- A search begins in the same way under any limit. -/
theorem begun_withLimit (s : Search) : (s.withLimit l).begun = s.begun.withLimit l := by
  obtain ⟨P, σs, b, d, l₀⟩ := s
  cases σs <;> rfl

/-- **The deterministic part of a search is the same under every limit.** -/
theorem run_withLimit (n : Nat) (s : Search) :
    (s.withLimit l).run R n = (s.run R n).map (·.mapState (withLimit l)) := by
  rw [run, begun_withLimit, steps_withLimit, run]

/-! ## Branches and forks -/

/-- A branch that is opened is the same under any limit.  The guesses for it
have been asked for before. -/
theorem branch?_withLimit (s : Search) (c : Equation) (g : Guess) :
    (s.withLimit l).branch? R c g = (s.branch? R c g).map (Option.map (Branch.withLimit l)) := by
  rw [branch?, branch?]
  cases c.unknownHead? with
  | none => rfl
  | some head =>
    obtain ⟨h, k⟩ := head
    change ((guessed R s.deeper.pending k c.subject g) >>= _) =
      Except.map _ ((guessed R s.deeper.pending k c.subject g) >>= _)
    cases guessed R s.deeper.pending k c.subject g with
    | error => rfl
    | ok made =>
      obtain ⟨value, temporaries, P⟩ := made
      have hassign : { (s.withLimit l).deeper with pending := P }.assign R ⟨h, value⟩ =
          ({ s.deeper with pending := P }.assign R ⟨h, value⟩).mapState (withLimit l) :=
        assign_withLimit { s.deeper with pending := P } ⟨h, value⟩
      dsimp only [bind, Except.bind] at hassign ⊢
      rw [hassign]
      generalize assign R _ _ = assigned
      rcases assigned with ⟨t, fault | _ | _⟩ <;> rfl

/-- What a branch has to clean up does not depend on the limit. -/
theorem cleanups_withLimit (b : Branch) (s : Search) :
    (b.withLimit l).cleanups (s.withLimit l) = b.cleanups s := rfl

/-- A search is forked in the same way under any limit. -/
theorem forks_withLimit (s : Search) :
    (s.withLimit l).forks R = (s.forks R).map (List.map (withLimit l)) :=
  mapM_map (fun σ => by
    let fork := { s.clone with solutions := [σ.copy], solvable := none }.instantiate R σ
    change fork.result.map (fun _ => fork.state.withLimit l) =
      (fork.result.map fun _ => fork.state).map (withLimit l)
    cases fork.result <;> rfl) s.solutions

/-- The results of branches are put together in the same way under any
limit. -/
theorem settle_withLimit (s : Search) (σs : List EquationSet) (parts : List Search) :
    (s.withLimit l).settle σs (parts.map (withLimit l)) = (s.settle σs parts).withLimit l := by
  simp only [settle, List.foldl_map]
  rfl

/-! ## Until the smaller limit refuses -/

variable {m : Nat} {fault : Fault}

/-- The fault of the limit `m`: a branch point one deeper. -/
def pastLimit (m : Nat) : Fault := .depthExceeded (m + 1) m

/-- A smaller limit refuses to branch, or lets the same guesses be tried. -/
theorem guesses_withLimit (hd : s.depth ≤ m) (hl : ∀ k, l = some k → (m : Int) ≤ k) :
    (s.withLimit (some m)).guesses c = .error (pastLimit m) ∨
      ∃ gs, (s.withLimit (some m)).guesses c = .ok gs ∧ (s.withLimit l).guesses c = .ok gs ∧
        (gs ≠ [] → s.depth + 1 ≤ m) := by
  rw [guesses, guesses]
  cases c.unknownHead? with
  | none => exact .inr ⟨[], rfl, rfl, fun h => absurd rfl h⟩
  | some head =>
    obtain ⟨h, k⟩ := head
    by_cases hdeep : (m : Int) < s.depth + 1
    · obtain rfl : s.depth = m := by omega
      exact .inl (if_pos hdeep)
    · refine .inr ⟨Guess.all (k + 1) c.subject, if_neg hdeep, ?_, fun _ => by omega⟩
      cases l with
      | none => rfl
      | some k =>
        have hk := hl k rfl
        exact if_neg (show ¬ k < (s.depth : Int) + 1 by omega)

section Recursion

variable {solve : Search → Option (Attempt Search Unit)}
  (ih : ∀ {b : Search} {r : Attempt Search Unit}, b.depth ≤ m →
    solve (b.withLimit (some m)) = some r →
      r.result = .error (pastLimit m) ∨ solve (b.withLimit l) = some (r.mapState (withLimit l)))

include ih

/-- **To explore branches under another limit** gives the same solutions,
unless the smaller limit refuses a branch point in one of them.  The induction
is on the guesses. -/
theorem explore_withLimit {gs : List Guess} {r : Except Fault (List EquationSet × List Search)}
    (hd : gs ≠ [] → s.depth + 1 ≤ m)
    (h : explore R solve (s.withLimit (some m)) c gs = some r) :
    r = .error (pastLimit m) ∨
      explore R solve (s.withLimit l) c gs =
        some (r.map fun found => (found.1, found.2.map (withLimit l))) := by
  induction gs generalizing r with
  | nil =>
    cases h
    exact .inr rfl
  | cons g gs ihgs =>
    have hd : s.depth + 1 ≤ m := hd nofun
    replace ihgs := fun {r} => @ihgs r fun _ => hd
    have hopened (l : Option Int) : (s.withLimit l).branch? R c g =
        (s.branch? R c g).map (Option.map (Branch.withLimit l)) := branch?_withLimit s c g
    rw [explore, hopened] at h ⊢
    cases hb : s.branch? R c g with
    | error =>
      rw [hb] at h
      cases h
      exact .inr rfl
    | ok b =>
      rw [hb] at h
      cases b with
      | none => exact ihgs h
      | some b =>
        rw [show (Except.ok (some b) : Except Fault (Option Branch)).map
          (Option.map (Branch.withLimit _)) = .ok (some (b.withLimit _)) from rfl] at h ⊢
        dsimp only at h ⊢
        cases hsolve : solve (b.withLimit (some m)).search with
        | none =>
          rw [hsolve] at h
          cases h
        | some last =>
          rw [hsolve] at h
          -- What refuses one branch is what the exploration ends with.
          rcases ih (by rw [(frame_branch? hb).1]; exact hd) hsolve with hcut | hsame
          · obtain ⟨t, res⟩ := last
            obtain rfl : res = .error (pastLimit m) := hcut
            cases h
            exact .inl rfl
          · rw [show solve (b.withLimit l).search = _ from hsame]
            obtain ⟨t, fault | _⟩ := last
            · cases h
              exact .inr rfl
            · dsimp only [Attempt.mapState] at h ⊢
              rw [cleanups_withLimit] at h ⊢
              rw [solutions_withLimit]
              cases hfound : t.solutions.mapM (Cleanup.applyAll R (b.cleanups s)) with
              | error =>
                rw [hfound] at h
                cases h
                exact .inr rfl
              | ok found =>
                rw [hfound] at h
                obtain ⟨q, hq, rfl⟩ := Option.map_eq_some_iff.1 h
                rcases ihgs hq with rfl | hrest
                · exact .inl rfl
                · refine .inr ?_
                  dsimp only
                  rw [hrest]
                  cases q <;> rfl

/-- To solve searches in turn under another limit gives the same, unless the
smaller limit refuses one of them. -/
theorem solveEach_withLimit {ss : List Search} {r : Except Fault (List Search)}
    (hd : ∀ s ∈ ss, s.depth ≤ m)
    (h : solveEach solve (ss.map (withLimit (some m))) = some r) :
    r = .error (pastLimit m) ∨
      solveEach solve (ss.map (withLimit l)) = some (r.map (List.map (withLimit l))) := by
  induction ss generalizing r with
  | nil =>
    cases h
    exact .inr rfl
  | cons s ss ihss =>
    obtain ⟨hs, hss⟩ := List.forall_mem_cons.1 hd
    rw [List.map_cons, solveEach] at h ⊢
    cases hsolve : solve (s.withLimit (some m)) with
    | none =>
      rw [hsolve] at h
      cases h
    | some last =>
      rw [hsolve] at h
      rcases ih hs hsolve with hcut | hsame
      · obtain ⟨t, res⟩ := last
        obtain rfl : res = .error (pastLimit m) := hcut
        cases h
        exact .inl rfl
      · rw [hsame]
        obtain ⟨t, fault | _⟩ := last
        · cases h
          exact .inr rfl
        · obtain ⟨q, hq, rfl⟩ := Option.map_eq_some_iff.1 h
          rcases ihss hss hq with rfl | hrest
          · exact .inl rfl
          · refine .inr ?_
            dsimp only [Attempt.mapState]
            rw [hrest]
            cases q <;> rfl

end Recursion

/-- **The same search until the smaller limit refuses.** -/
theorem solve_withLimit {r : Attempt Search Unit} (hd : s.depth ≤ m)
    (hl : ∀ k, l = some k → (m : Int) ≤ k) (h : solve R n (s.withLimit (some m)) = some r) :
    r.result = .error (pastLimit m) ∨
      solve R n (s.withLimit l) = some (r.mapState (withLimit l)) := by
  induction n generalizing s r with
  | zero => cases h
  | succ n ih =>
    rw [solve, solutions_withLimit, forks_withLimit, run_withLimit] at h ⊢
    by_cases hmany : 1 < s.solutions.length
    · rw [if_pos hmany] at h ⊢
      cases hfs : s.forks R with
      | error =>
        rw [hfs] at h
        cases h
        exact .inr rfl
      | ok fs =>
        rw [hfs] at h
        obtain ⟨q, hq, rfl⟩ := Option.map_eq_some_iff.1 h
        have hfork : ∀ f ∈ fs, f.depth ≤ m := fun f hf => (frame_forks hfs f hf).1 ▸ hd
        rcases solveEach_withLimit ih hfork hq with rfl | hsame
        · exact .inl rfl
        · refine .inr (Option.map_eq_some_iff.2 ⟨_, hsame, ?_⟩)
          cases q with
          | error => rfl
          | ok parts =>
            dsimp only [Except.map, Attempt.mapState]
            rw [← settle_withLimit, List.flatMap_map]
            rfl
    · rw [if_neg hmany] at h ⊢
      cases hrun : s.run R n with
      | none =>
        rw [hrun] at h
        cases h
      | some last =>
        rw [hrun] at h
        obtain ⟨t, fault | _ | c⟩ := last
        · cases h
          exact .inr rfl
        · cases h
          exact .inr rfl
        · dsimp only [Option.map, Attempt.mapState] at h ⊢
          have ht : t.depth ≤ m := (frame_run hrun).1 ▸ hd
          rcases guesses_withLimit (c := c) ht hl with hcut | ⟨gs, hgs, hgs', hdeep⟩
          · rw [hcut] at h
            cases h
            exact .inl rfl
          · rw [hgs] at h
            rw [hgs']
            obtain ⟨q, hq, rfl⟩ := Option.map_eq_some_iff.1 h
            rcases explore_withLimit ih hdeep hq with rfl | hsame
            · exact .inl rfl
            · refine .inr (Option.map_eq_some_iff.2 ⟨_, hsame, ?_⟩)
              cases q with
              | error => rfl
              | ok found =>
                dsimp only [Except.map, Attempt.mapState]
                rw [← settle_withLimit]
                rfl

/-- What a branch point puts on the stack is the same until the smaller limit
refuses. -/
theorem branches_withLimit {ks : List Cleanup} (hd : s.depth ≤ m)
    (hl : ∀ k, l = some k → (m : Int) ≤ k) :
    (s.withLimit (some m)).branches R c ks = .error (pastLimit m) ∨
      ∃ r : Except Fault (List (Search × List Cleanup)),
        (∀ es, r = .ok es → ∀ e ∈ es, e.1.depth ≤ m) ∧
        (s.withLimit (some m)).branches R c ks =
          r.map (List.map (Prod.map (withLimit (some m)) id)) ∧
        (s.withLimit l).branches R c ks = r.map (List.map (Prod.map (withLimit l) id)) := by
  rcases guesses_withLimit (c := c) hd hl with hcut | ⟨gs, hgs, hgs', hdeep⟩
  · rw [branches, hcut]
    exact .inl rfl
  · refine .inr ⟨(gs.mapM (s.branch? R c)).map fun bs =>
      bs.reduceOption.map fun b => (b.search, b.cleanups s ++ ks), ?_, ?_, ?_⟩
    · rintro es hes e he
      obtain ⟨bs, hbs, rfl⟩ : ∃ bs, gs.mapM (s.branch? R c) = .ok bs ∧
          (bs.reduceOption.map fun b => (b.search, b.cleanups s ++ ks)) = es := by
        cases hbs : gs.mapM (s.branch? R c) with
        | error =>
          rw [hbs] at hes
          cases hes
        | ok bs =>
          rw [hbs] at hes
          exact ⟨bs, rfl, Except.ok.inj hes⟩
      obtain ⟨b, hb, rfl⟩ := List.mem_map.1 he
      obtain ⟨g, hg, hsome⟩ := exists_of_mapM_eq_ok hbs _ (List.reduceOption_mem_iff.1 hb)
      rw [(frame_branch? hsome).1]
      exact hdeep (List.ne_nil_of_mem hg)
    all_goals
      rw [branches]
      first | rw [hgs] | rw [hgs']
      dsimp only [bind, Except.bind]
      rw [mapM_map (branch?_withLimit s c)]
      cases gs.mapM (s.branch? R c) with
      | error => rfl
      | ok bs =>
        dsimp only [Except.map, pure, Except.pure]
        rw [List.reduceOption_map, List.map_map, List.map_map]
        rfl

end Search

namespace Stream

open Search

variable {R : Reserved} {l : Option Int} {m n : Nat}

/-- The stream under another limit. -/
def withLimit (l : Option Int) (t : Stream) : Stream :=
  ⟨t.stack.map (Prod.map (Search.withLimit l) id)⟩

/-- **The same next solution until the smaller limit refuses.** -/
theorem next?_withLimit {t : Stream} {r : Except Fault (Option (EquationSet × Stream))}
    (hd : ∀ e ∈ t.stack, e.1.depth ≤ m) (hl : ∀ k, l = some k → (m : Int) ≤ k)
    (h : (t.withLimit (some m)).next? R n = some r) :
    r = .error (pastLimit m) ∨ ∃ q : Except Fault (Option (EquationSet × Stream)),
      (∀ σ u, q = .ok (some (σ, u)) → ∀ e ∈ u.stack, e.1.depth ≤ m) ∧
      r = q.map (Option.map (Prod.map id (withLimit (some m)))) ∧
      (t.withLimit l).next? R n = some (q.map (Option.map (Prod.map id (withLimit l)))) := by
  induction n generalizing t r with
  | zero => cases h
  | succ n ih =>
    obtain ⟨_ | ⟨⟨s, ks⟩, rest⟩⟩ := t
    · cases h
      exact .inr ⟨.ok none, by simp, rfl, rfl⟩
    · obtain ⟨hs, hrest⟩ := List.forall_mem_cons.1 hd
      have hnext (l : Option Int) : withLimit l ⟨(s, ks) :: rest⟩ =
          ⟨(s.withLimit l, ks) :: (withLimit l ⟨rest⟩).stack⟩ := rfl
      rw [hnext, next?, run_withLimit] at h ⊢
      cases hrun : s.run R n with
      | none =>
        rw [hrun] at h
        cases h
      | some last =>
        rw [hrun] at h
        obtain ⟨u, fault | _ | c⟩ := last
        · cases h
          exact .inr ⟨.error fault, by simp, rfl, rfl⟩
        · dsimp only [Option.map, Attempt.mapState, Search.withLimit] at h ⊢
          have hgo := @ih ⟨rest⟩ r hrest
          split at h
          · next σ _ _ _ =>
            split at h
            · cases h
              exact .inr ⟨.error _, by simp, rfl, rfl⟩
            · exact hgo h
            · next τ _ =>
              cases h
              refine .inr ⟨.ok (some (τ, ⟨rest⟩)), fun σ u heq => ?_, rfl, rfl⟩
              cases heq
              exact hrest
          · exact hgo h
        · dsimp only [Option.map, Attempt.mapState] at h ⊢
          have hu : u.depth ≤ m := (frame_run hrun).1 ▸ hs
          -- The branches go on top of the stack, and none of them is deeper than the smaller limit.
          rcases @branches_withLimit R u c l m ks hu hl with hcut | ⟨q, hq, hsmall, hlarge⟩
          · rw [hcut] at h
            cases h
            exact .inl rfl
          · rw [hsmall] at h
            rw [hlarge]
            cases q with
            | error =>
              cases h
              exact .inr ⟨.error _, by simp, rfl, rfl⟩
            | ok es =>
              have happend (l : Option Int) :
                  Stream.mk (es.map (Prod.map (Search.withLimit l) id) ++
                    (withLimit l ⟨rest⟩).stack) = withLimit l ⟨es ++ rest⟩ := by
                rw [withLimit, withLimit, List.map_append]
              dsimp only [Except.map] at h ⊢
              rw [happend] at h ⊢
              refine ih (fun e he => ?_) h
              exact (List.mem_append.1 he).elim (hq es rfl e) (hrest e)

/-- **What a stream yields under the smaller limit it yields under the larger
one.** -/
theorem yields_withLimit {t u : Stream} {σs : List EquationSet}
    (hd : ∀ e ∈ t.stack, e.1.depth ≤ m) (hl : ∀ k, l = some k → (m : Int) ≤ k)
    (h : Yields R (t.withLimit (some m)) σs u) : ∃ u', Yields R (t.withLimit l) σs u' := by
  generalize ht : t.withLimit (some m) = t₀ at h
  induction h generalizing t with
  | nil => exact ⟨_, .nil _⟩
  | cons first rest ih =>
    subst ht
    rcases next?_withLimit hd hl first with hcut | ⟨q, hq, heq, hlarge⟩
    · cases hcut
    · match q, heq with
      | .ok (some (τ, t')), heq =>
        cases heq
        obtain ⟨u', hu'⟩ := ih (hq τ t' rfl) rfl
        exact ⟨u', .cons hlarge hu'⟩

end Stream

namespace Search

variable {R : Reserved} {s t : Search} {l l' : Option Int} {m n : Nat} {fault : Fault}

/-- **What a limit refuses is a branch point just beyond it.** -/
theorem fault_of_limit (hd : s.depth ≤ m) (hkind : fault.kind = .searchLimit)
    (h : (s.withLimit (some m)).solve R n = some ⟨t, .error fault⟩) : fault = pastLimit m := by
  rcases solve_withLimit hd (l := none) nofun h with hcut | hsame
  · exact Except.error.inj hcut
  · exact (unlimited_solve rfl hsame fault rfl hkind).elim

/-- No call brings a search deeper. -/
theorem Later.depth (h : Later R s t) : t.depth = s.depth := by
  induction h with
  | refl => rfl
  | add _ h ih => exact (added_of_add h).frame.1.trans ih
  | solve _ h ih => exact (frame_solve h).1.trans ih
  | solved _ h ih =>
    rcases solve_of_solved h with h | rfl
    · exact (frame_solve h).1.trans ih
    · exact ih
  | clone _ ih => exact ih

/-- A stream starts in the same way under any limit. -/
theorem stream_withLimit (s : Search) :
    (s.withLimit l).stream R = (s.stream R).map (Stream.withLimit l) := by
  rw [stream, stream]
  change (if s.solvable = some false then _ else _) = _
  split
  · rfl
  · have hclone : (s.withLimit l).clone = s.clone.withLimit l := rfl
    dsimp only
    rw [hclone, solutions_withLimit, forks_withLimit]
    split
    · cases s.clone.forks R with
      | error => rfl
      | ok fs =>
        dsimp only [Except.map, bind, Except.bind, pure, Except.pure]
        rw [Stream.withLimit, List.map_map, List.map_map]
        rfl
    · rfl

/-- A stream starts at the depth of its search. -/
theorem depth_stream {str : Stream} (hd : s.depth ≤ m) (h : s.stream R = .ok str) :
    ∀ e ∈ str.stack, e.1.depth ≤ m := by
  rintro ⟨t, ks⟩ he
  obtain ⟨-, ⟨-, rfl⟩ | ⟨fs, hfs, hf⟩⟩ := mem_stream h he
  · exact hd
  · exact (frame_forks hfs t hf).1 ▸ hd

/-- **The limit cuts a search off, but does not change it.**  Take any search
that calls have led to and that is still open, under a limit `m` and under a
larger one or none.  If it returns under `m`, it returns the same under the
other; if `m` refuses it, then at a branch point of depth `m + 1`; and what its
stream yields under `m`, before it ends or is refused, is the beginning of what
it yields under the other. -/
theorem solved_withLimit (hs : Later R { limit := l } s) (hopen : s.solvable = none)
    (hl : ∀ k, l' = some k → (m : Int) ≤ k) :
    (∀ n t, (s.withLimit (some m)).solved R n = some ⟨t, .ok ()⟩ →
      (s.withLimit l').solved R n = some ⟨t.withLimit l', .ok ()⟩) ∧
    (∀ n t fault, (s.withLimit (some m)).solved R n = some ⟨t, .error fault⟩ →
      fault.kind = .searchLimit → fault = .depthExceeded (m + 1) m) ∧
    ∀ str σs u, (s.withLimit (some m)).stream R = .ok str → str.Yields R σs u →
      ∃ str' u', (s.withLimit l').stream R = .ok str' ∧ str'.Yields R σs u' := by
  have hd : s.depth ≤ m := by
    rw [hs.depth]
    exact Nat.zero_le m
  have hsolved (l : Option Int) (n : Nat) :
      (s.withLimit l).solved R n = (s.withLimit l).solve R n := by
    rw [solved, show (s.withLimit l).solvable = none from hopen]
  refine ⟨fun n t h => ?_, fun n t fault h hkind => ?_, fun str σs u hstr hσs => ?_⟩
  · rw [hsolved] at h ⊢
    rcases solve_withLimit hd hl h with hcut | hsame
    · cases hcut
    · exact hsame
  · rw [hsolved] at h
    exact fault_of_limit hd hkind h
  · rw [stream_withLimit] at hstr ⊢
    cases hq : s.stream R with
    | error =>
      rw [hq] at hstr
      cases hstr
    | ok str₀ =>
      rw [hq] at hstr
      cases hstr
      obtain ⟨u', hu'⟩ := Stream.yields_withLimit (depth_stream hd hq) hl hσs
      exact ⟨_, u', rfl, hu'⟩

/-- `solved_withLimit` at the search for `applied`: one branch point is enough
to find both solutions, none is one too few, and the first solution is yielded
without a limit as well. -/
theorem solved_withLimit_applied : ∃ (s t t₀ : Search) (fault : Fault) (str str' u u' : Stream),
    Later {} {} s ∧ s.solvable = none ∧
    (s.withLimit (some 1)).solved {} 4 = some ⟨t, .ok ()⟩ ∧ t.solutions.length = 2 ∧
    (s.withLimit none).solved {} 4 = some ⟨t.withLimit none, .ok ()⟩ ∧
    (s.withLimit (some 0)).solved {} 4 = some ⟨t₀, .error fault⟩ ∧ fault.kind = .searchLimit ∧
    fault = .depthExceeded 1 0 ∧
    (s.withLimit (some 1)).stream {} = .ok str ∧ str.Yields {} t.solutions u ∧
    (s.withLimit none).stream {} = .ok str' ∧ str'.Yields {} t.solutions u' := by
  let s : Search := { pending := EquationSet.add {} [applied] }
  have hs : Later {} {} s := .add .refl rfl
  have hstep (l : Option Int) :
      (s.withLimit l).begun.step {} = .stop ⟨(s.withLimit l).begun, .ok (some applied)⟩ :=
    step_of_flex (by cbv) (by cbv) (by cbv)
  have hreturns : ∃ t, (s.withLimit (some 1)).solved {} 4 = some ⟨t, .ok ()⟩ ∧
      t.solutions.length = 2 := by
    refine ⟨?_, ?_, ?_⟩
    rotate_left 1
    · change (s.withLimit (some 1)).solve {} 4 = _
      rw [solve, if_neg (by cbv), run, steps, hstep]
      cbv
      rfl
    · cbv
  have hrefused : (s.withLimit (some 0)).solved {} 4 =
      some ⟨(s.withLimit (some 0)).begun, .error (.depthExceeded 1 0)⟩ := by
    change (s.withLimit (some 0)).solve {} 4 = _
    rw [solve, if_neg (by cbv), run, steps, hstep]
    rfl
  obtain ⟨t, ht, htwo⟩ := hreturns
  have hcopy : (s.withLimit (some 1)).clone = s.withLimit (some 1) := by cbv
  have hnew : ofPairs {} (some 1) [] = .ok { limit := some 1 } := rfl
  obtain ⟨str, n, hstr, hall⟩ := toList_stream (.add (.ofPairs hnew) rfl) (hcopy ▸ ht)
  obtain ⟨u, hu⟩ := Stream.yields_of_toList hall
  obtain ⟨hreturn, -, hstream⟩ := @solved_withLimit {} s none none 1 hs rfl (by simp)
  obtain ⟨-, hfault, -⟩ := @solved_withLimit {} s none none 0 hs rfl (by simp)
  obtain ⟨str', u', hstr', hu'⟩ := hstream str _ u hstr hu
  exact ⟨s, t, _, _, str, str', u, u', hs, rfl, ht, htwo, hreturn 4 t ht, hrefused, rfl,
    hfault 4 _ _ hrefused rfl, hstr, hu, hstr', hu'⟩

end Search
end SecondOrder
