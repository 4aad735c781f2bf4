/-
# Solving, part by part

To solve a search is to run it and to solve a branch for every guess at what
stops the run, or a fork for each of several solutions; then the search is
settled with the solutions of these parts.  A property that runs, branches,
forks and settlements keep (`Search.Stable`) is kept by solving
(`Search.Stable.solve`), whether or not it meets a fault.

A stream takes the same steps in another order.  What it yields are solutions
of searches with the property, too, without the temporaries of the branches on
the way (`Search.Stable.of_yields`).
-/

import SecondOrder.Proofs.Search.Enumeration

namespace SecondOrder

namespace Cleanup

variable {R : Reserved} {P : EquationSet → Prop} {k : Cleanup} {ks : List Cleanup} {σ τ : EquationSet}

/-- The cleanup is that of a branch of `s`. -/
def Needed (R : Reserved) (s : Search) (k : Cleanup) : Prop :=
  ∃ c m n g b, c.unknownHead? = some (m, n) ∧ g ∈ Guess.all (n + 1) c.subject ∧
    s.branch? R c g = .ok (some b) ∧ k ∈ b.cleanups s

/-- The cleanup of a branch is for its temporaries, under the exclusions at the
branch point. -/
theorem mem_cleanups {b : Branch} {s : Search} (h : k ∈ b.cleanups s) :
    k = ⟨b.temporaries, s.pending.exclusions⟩ := by
  rw [Branch.cleanups] at h
  split at h
  · cases h
  · exact List.mem_singleton.1 h

/-- What it keeps of a solution to substitute each temporary away, it keeps to
substitute all of them away. -/
theorem of_foldlM {ts : List Expr}
    (hP : ∀ t ∈ ts, ∀ {σ τ : EquationSet}, P σ → substituteAway R σ t = .ok τ → P τ)
    (hσ : P σ) (h : ts.foldlM (substituteAway R) σ = .ok τ) : P τ := by
  induction ts generalizing σ with
  | nil =>
    cases h
    exact hσ
  | cons t ts ih =>
    rw [List.forall_mem_cons] at hP
    obtain ⟨υ, hυ, h⟩ := bind_eq_ok.1 h
    exact ih hP.2 (hP.1 hσ hυ) h

/-- What is kept when a temporary is substituted away, a cleanup keeps, -/
theorem of_apply
    (hP : ∀ t ∈ k.temporaries, ∀ {σ τ : EquationSet}, P σ → substituteAway R σ t = .ok τ → P τ)
    (hσ : P σ) (h : k.apply R σ = .ok (some τ)) : P τ ∧ ∀ x ∈ k.exclusions, τ.respects x = true := by
  rw [apply] at h
  obtain ⟨υ, hυ, h⟩ := bind_eq_ok.1 h
  by_cases hall : k.exclusions.all υ.respects = true
  · rw [if_pos hall] at h
    cases h
    exact ⟨of_foldlM hP hσ hυ, List.all_eq_true.1 hall⟩
  · rw [if_neg hall] at h
    cases h

/-- and what every cleanup keeps is kept by all of them. -/
theorem of_applyAll
    (hP : ∀ k ∈ ks, ∀ {σ τ : EquationSet}, P σ → k.apply R σ = .ok (some τ) → P τ)
    (hσ : P σ) (h : applyAll R ks σ = .ok (some τ)) : P τ := by
  induction ks generalizing σ with
  | nil =>
    cases h
    exact hσ
  | cons k ks ih =>
    rw [List.forall_mem_cons] at hP
    obtain ⟨r, hr, h⟩ := bind_eq_ok.1 h
    cases r with
    | none => cases h
    | some υ => exact ih hP.2 (hP.1 hσ hr) h

end Cleanup

namespace Search

variable {R : Reserved} {s t : Search} {σ τ : EquationSet} {c : Equation} {n : Nat}

/-- The counter of a settled search is past those of all its parts. -/
theorem le_settle (s : Search) (found : List EquationSet) (parts : List Search) :
    s.pending.nextFresh ≤ (s.settle found parts).pending.nextFresh ∧
      ∀ t ∈ parts, t.pending.nextFresh ≤ (s.settle found parts).pending.nextFresh := by
  suffices ∀ N, N ≤ parts.foldl (fun n t => max n t.pending.nextFresh) N ∧
      ∀ t ∈ parts, t.pending.nextFresh ≤ parts.foldl (fun n t => max n t.pending.nextFresh) N from this _
  induction parts with
  | nil => exact fun N => ⟨Nat.le_refl N, nofun⟩
  | cons t parts ih =>
    intro N
    obtain ⟨hle, hall⟩ := ih (max N t.pending.nextFresh)
    refine ⟨Nat.le_trans (Nat.le_max_left ..) hle, fun u hu => ?_⟩
    rcases List.mem_cons.1 hu with rfl | hu
    · exact Nat.le_trans (Nat.le_max_right ..) hle
    · exact hall u hu

/-- The solution `τ` is one of `t`, without the temporaries of branches of
`s`. -/
def Takes (R : Reserved) (s t : Search) (τ : EquationSet) : Prop :=
  ∃ ks, (∀ k ∈ ks, k.Needed R s) ∧ ∃ σ ∈ t.solutions, Cleanup.applyAll R ks σ = .ok (some τ)

/-- The parts of solving keep the property `P`. -/
structure Stable (R : Reserved) (P : Search → Prop) : Prop where
  clone {s : Search} : P s → P s.clone
  run {s : Search} {n : Nat} {last : Attempt Search (Option Equation)} :
    P s → s.solutions.length ≤ 1 → s.run R n = some last → P last.state
  branch {s : Search} {c : Equation} {m : Expr} {k : Nat} {g : Guess} {b : Branch} :
    P s → s.solutions.length = 1 → c ∈ s.pending.equations → c.unknownHead? = some (m, k) →
      g ∈ Guess.all (k + 1) c.subject → s.branch? R c g = .ok (some b) → P b.search
  fork {s f : Search} {σ : EquationSet} : P s → σ ∈ s.solutions → s.fork R σ = .ok f → P f
  settle {s : Search} {found : List EquationSet} {parts : List Search} :
    P s → (∀ τ ∈ found, ∃ t ∈ parts, P t ∧ Takes R s t τ) → P (s.settle found parts)

namespace Stable

variable {P : Search → Prop} (hP : Stable R P)

include hP

/-- The solutions that branches find come from searches with the property. -/
theorem explore {solve : Search → Option (Attempt Search Unit)} {m : Expr} {k : Nat}
    {found : List EquationSet} {parts : List Search} (h : P s) (hone : s.solutions.length = 1)
    (hc : c ∈ s.pending.equations) (hhead : c.unknownHead? = some (m, k))
    (ih : ∀ {s t : Search}, P s → solve s = some ⟨t, .ok ()⟩ → P t)
    (hfound : Explores R solve s c (Guess.all (k + 1) c.subject) found parts) :
    ∀ τ ∈ found, ∃ t ∈ parts, P t ∧ Takes R s t τ := by
  intro τ hτ
  obtain ⟨g, hg, b, t, hb, ht, σ, hσ, hclean⟩ := hfound.mem_iff.1 hτ
  obtain ⟨t', ht', hsolve⟩ := hfound.exists_part hg hb
  cases ht.symm.trans hsolve
  exact ⟨t, ht', ih (hP.branch h hone hc hhead hg hb) ht, _, fun l hl => ⟨c, m, k, g, b, hhead, hg, hb, hl⟩,
    σ, hσ, hclean⟩

/-- Each fork has what the search has. -/
theorem forks {fs : List Search} (h : P s) (hfs : s.forks R = .ok fs) : ∀ f ∈ fs, P f := by
  intro f hf
  obtain ⟨σ, hσ, hfork⟩ := exists_of_mapM_eq_ok (forks_eq R s ▸ hfs) f hf
  exact hP.fork h hσ hfork

/-- **Solving keeps what its parts keep,** whether or not it meets a fault. -/
theorem solve {r : Except Fault Unit} (h : P s) (hs : s.solve R n = some ⟨t, r⟩) : P t := by
  induction n generalizing s t r with
  | zero => cases hs
  | succ n ih =>
    cases course_of_solve hs with
    | forkFault => exact h
    | partFault => exact h
    | forked _ forks solved =>
      refine hP.settle h fun τ hτ => ?_
      obtain ⟨t, ht, hτ⟩ := List.mem_flatMap.1 hτ
      obtain ⟨f, hf, hsolve⟩ := exists_of_forall₂ solved t ht
      exact ⟨t, ht, ih (hP.forks h forks f hf) hsolve, [], List.forall_mem_nil _, τ, hτ, rfl⟩
    | runFault few ran => exact hP.run h few ran
    | decided few ran => exact hP.run h few ran
    | guessFault few ran => exact hP.run h few ran
    | branchFault few ran => exact hP.run h few ran
    | branched few ran guesses explored =>
      have hu := hP.run h few ran
      have hstands := stands_of_run ran
      refine hP.settle hu ?_
      rcases guesses_spec guesses with ⟨-, rfl⟩ | ⟨m, k, hhead, rfl⟩
      · cases explored
        exact List.forall_mem_nil _
      · exact hP.explore hu (hstands.length few) hstands.mem hhead ih explored

/-- A search that is only solved if it is open has it, too. -/
theorem solved {r : Except Fault Unit} (h : P s) (hs : s.solved R n = some ⟨t, r⟩) : P t := by
  rcases solve_of_solved hs with hs | rfl
  · exact hP.solve h hs
  · exact h

/-- A search that a stream is to go on with, and its cleanups. -/
structure Entry (R : Reserved) (P : Search → Prop) (e : Search × List Cleanup) : Prop where
  keeps : P e.1
  few : e.1.solutions.length ≤ 1
  needed : ∀ k ∈ e.2, ∃ s, k.Needed R s

/-- What a stream yields: a solution of a search with the property, cleaned
up. -/
def Origin (R : Reserved) (P : Search → Prop) (τ : EquationSet) : Prop :=
  ∃ t ks, P t ∧ (∀ k ∈ ks, ∃ s, Cleanup.Needed R s k) ∧
    ∃ σ ∈ t.solutions, Cleanup.applyAll R ks σ = .ok (some τ)

/-- What is put on the stack of a stream for the branches is an entry with the
property. -/
theorem entry_branches {ks : List Cleanup} {es : List (Search × List Cleanup)} (h : P s)
    (hone : s.solutions.length = 1) (hc : c ∈ s.pending.equations) (hks : ∀ k ∈ ks, ∃ s, k.Needed R s)
    (hes : s.branches R c ks = .ok es) : ∀ e ∈ es, Entry R P e := by
  intro e he
  obtain ⟨gs, g, b, hgs, hg, hb, rfl⟩ := mem_branches hes he
  rcases guesses_spec hgs with ⟨-, rfl⟩ | ⟨m, n, hhead, rfl⟩
  · cases hg
  · refine ⟨hP.branch h hone hc hhead hg hb, Nat.le_of_eq ((length_branch? hb).trans hone), fun k hk => ?_⟩
    rcases List.mem_append.1 hk with hk | hk
    · exact ⟨s, c, m, n, g, b, hhead, hg, hb, hk⟩
    · exact hks k hk

/-- The next solution comes from a search with the property, and so will those
after it. -/
theorem draws {stack : List (Search × List Cleanup)} {str : Stream} (h : ∀ e ∈ stack, Entry R P e)
    (hdraws : Stream.Draws R stack (.ok (some (τ, str)))) : Origin R P τ ∧ ∀ e ∈ str.stack, Entry R P e := by
  generalize hr : Except.ok (some (τ, str)) = r at hdraws
  induction hdraws with
  | finished | runFault | cleanFault | branchFault => cases hr
  | @found _ s t ks _ σ _ _ ran solutions cleans =>
    cases hr
    obtain ⟨hs, hrest⟩ := List.forall_mem_cons.1 h
    exact ⟨⟨t, ks, hP.run hs.keeps hs.few ran, hs.needed, σ, solutions ▸ List.mem_cons_self, cleans⟩, hrest⟩
  | fruitless _ _ ih => exact ih (List.forall_mem_cons.1 h).2 hr
  | branched ran opened _ ih =>
    obtain ⟨hs, hrest⟩ := List.forall_mem_cons.1 h
    have hstands := stands_of_run ran
    refine ih (List.forall_mem_append.2 ⟨?_, hrest⟩) hr
    exact hP.entry_branches (hP.run hs.keeps hs.few ran) (hstands.length hs.few) hstands.mem hs.needed opened

/-- **Whatever a stream yields comes from a search with the property.** -/
theorem of_yields {str u : Stream} {σs : List EquationSet} (h : P s) (hstr : s.stream R = .ok str)
    (hσs : str.Yields R σs u) : ∀ τ ∈ σs, Origin R P τ := by
  have hentries : ∀ e ∈ str.stack, Entry R P e := by
    rintro ⟨s', ks⟩ he
    obtain ⟨rfl, ⟨hfew, rfl⟩ | ⟨fs, hfs, hf⟩⟩ := mem_stream hstr he
    · exact ⟨hP.clone h, (List.length_map _).trans_le hfew, List.forall_mem_nil _⟩
    · exact ⟨hP.forks (hP.clone h) hfs s' hf, Nat.le_of_eq (length_forks hfs s' hf), List.forall_mem_nil _⟩
  clear hstr h
  induction hσs with
  | nil => exact List.forall_mem_nil _
  | cons first _ ih =>
    obtain ⟨horigin, hrest⟩ := hP.draws hentries (Stream.draws_of_next? first)
    exact List.forall_mem_cons.2 ⟨horigin, ih hrest⟩

end Stable

end Search
end SecondOrder
