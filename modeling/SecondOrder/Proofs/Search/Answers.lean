/-
# What calls return

Whatever calls were made of a search, whether or not they met a fault, its
solutions are ground substitutions on the unknowns of the patterns that it was
given (`Calls.ground_solutions`), and no two of them are the same
(`Calls.distinct_solutions`).

What calls keep is `Orderly`.  The solutions in hand are told apart by the
value of one unknown (`EquationSet.Conflict`), and solving goes on from each of
them, so they stay so.
-/

import SecondOrder.Proofs.Search.Concluded
import SecondOrder.Proofs.Search.Resumption

namespace SecondOrder

open SecondOrder.Expr

namespace EquationSet

/-- Assignments to different unknowns are copied as they are. -/
theorem equations_copy_of_nodup {σ : EquationSet} (hσ : σ.assigned.Nodup)
    (hm : ∀ d ∈ σ.equations, d.pattern.isMarked = true) : σ.copy.equations = σ.equations :=
  equations_ofList (Search.distinct_of_nodup hσ hm)

end EquationSet

namespace Search

open Equation EquationSet

variable {R : Reserved} {A T : Expr → Prop} {V : Var → Prop} {s t : Search} {σ τ : EquationSet}
  {c d : Equation} {cs ds : List Equation} {n N : Nat} {m p q : Expr} {done : List Expr}

/-- The unknowns in the patterns of `cs`. -/
def Named (cs : List Equation) (m : Expr) : Prop :=
  m.isMarked = true ∧ ∃ c ∈ cs, m ∈ c.pattern.nodes

/-- The unknowns in the patterns of `cs` that a search with the counter `n`
does not mint. -/
def Known (cs : List Equation) (n : Nat) (m : Expr) : Prop := Named cs m ∧ m.Below n

/-- More patterns name more unknowns. -/
theorem Named.mono (h : Named cs m) : Named (cs ++ ds) m :=
  ⟨h.1, h.2.imp fun _ hc => ⟨List.mem_append_left _ hc.1, hc.2⟩⟩

/-- More patterns and a later counter make more unknowns known. -/
theorem Known.mono (hn : n ≤ N) (h : Known cs n m) : Known (cs ++ ds) N m :=
  ⟨h.1.mono, h.2.mono hn⟩

/-- An assignment of a solution: to an unknown of the user, without
temporaries. -/
abbrev Answer (R : Reserved) (A : Expr → Prop) : Equation → Prop :=
  Final R A (fun _ => False) fun _ => True

/-- Whatever is assigned belongs to the user or is a temporary. -/
theorem Final.assigned (h : Final R A T V d) : A d.pattern ∨ T d.pattern := by
  cases h with
  | ground unknown => exact .inl unknown
  | function unknown => exact unknown

/-- A final value may stand in any pattern: it brings no unknown in. -/
theorem Final.uses_pending (h : Final R A T V d) (T' : Expr → Prop) (done : List Expr) :
    Uses R (.pending A T' done) d.subject := by
  cases h with
  | ground _ value => exact value.unknowns_of_ground _ _
  | function _ _ params body =>
    refine .bind trivial (fun u hu hm => ?_) (body.unknowns_of_ground _ _)
    exact absurd ((params u hu).1.symm.trans hm) Bool.false_ne_true

/-- The unknowns may be taken from a larger stock. -/
theorem Final.imp {A' : Expr → Prop} (h : Final R A T V d) (hA : ∀ m, A m → A' m) :
    Final R A' T V d := by
  cases h with
  | ground unknown value => exact .ground (hA _ unknown) value
  | function unknown distinct params body => exact .function (unknown.imp_left (hA _)) distinct params body

/-- No unknown is left in a final value. -/
theorem Final.isMarked_of_mem_nodes (h : Final R A T V d) : ∀ e ∈ d.subject.nodes, e.isMarked = false := by
  have hground {b : Expr} (hb : Uses R (.ground R V) b) : ∀ e ∈ b.nodes, e.isMarked = false :=
    hb.isMarked_of_mem_nodes (fun _ (hn : (Vocabulary.ground R V).atom _) => hn.1) (fun _ => id)
      fun _ (hf : (Vocabulary.ground R V).head _) => hf.1
  cases h with
  | ground _ value => exact hground value
  | @function m b us _ _ params body =>
    intro e he
    rcases mem_nodes_bind.1 he with rfl | rfl | ⟨u, hu, rfl⟩ | he
    · rfl
    · rfl
    · exact (params u hu).1
    · exact hground body e he

/-- **To apply a solution takes its unknowns out of a pattern.** -/
theorem uses_applyAll (hA : ∀ m, A m → m.isMarked = true) (hds : ∀ d ∈ ds, Answer R A d)
    (hp : Uses R (.pending A T done) p) (h : applyAll R ds p = .ok q) :
    Uses R (.pending A T (done ++ ds.map Equation.pattern)) q := by
  induction ds generalizing p done with
  | nil =>
    cases h
    rwa [List.map_nil, List.append_nil]
  | cons d ds ih =>
    rw [List.forall_mem_cons] at hds
    obtain ⟨p', hp', h⟩ := bind_eq_ok.1 h
    have hm := hA _ (hds.1.assigned.resolve_right id)
    have hp' : d.apply R p = .ok p' := hp'
    rw [List.map_cons, List.append_cons]
    exact ih hds.2 ((brings_of_apply hp').uses_pending hm (hds.1.uses_pending T _) hp) h

/-- What calls keep: every name is accounted for, single solutions are applied
to the pending patterns, and solutions are in conflict. -/
structure Orderly (R : Reserved) (cs : List Equation) (s : Search) : Prop where
  equations : ∀ c ∈ s.pending.equations, c.Confined R (Known cs s.pending.nextFresh)
    (fun _ => False) (fun _ => True) s.pending.nextFresh []
  single : ∀ σ, s.solutions = [σ] → ∀ c ∈ s.pending.equations,
    Uses R (.pending (Known cs s.pending.nextFresh) (fun _ => False) σ.assigned) c.pattern
  solutions : ∀ σ ∈ s.solutions,
    σ.assigned.Nodup ∧ ∀ d ∈ σ.equations, Answer R (Known cs s.pending.nextFresh) d
  conflict : s.solutions.Pairwise Conflict

namespace Orderly

/-- Only unknowns are assigned in a solution. -/
theorem isMarked (h : Orderly R cs s) (hσ : σ ∈ s.solutions) :
    ∀ d ∈ σ.equations, d.pattern.isMarked = true :=
  fun d hd => (((h.solutions σ hσ).2 d hd).assigned.resolve_right id).1.1

/-- With one solution an orderly search is confined, and there is no temporary
to await. -/
theorem ongoing (h : Orderly R cs s) (hσ : s.solutions = [σ]) :
    Ongoing R (Known cs s.pending.nextFresh) (fun _ => False) (fun _ => True) s σ := by
  obtain ⟨hdistinct, hfinal⟩ := h.solutions σ (hσ ▸ List.mem_cons_self)
  refine ⟨⟨hσ, fun m hm => ?_, nofun, fun _ _ => trivial, fun c hc => ⟨h.single σ hσ c hc,
    (h.equations c hc).subject⟩, hdistinct, fun m hm => ?_, fun d hd => (hfinal d hd).inert _⟩, nofun⟩
  · have hm := hm.resolve_right id
    exact ⟨hm.1.1, hm.2⟩
  · obtain ⟨d, hd, rfl⟩ := List.mem_map.1 hm
    exact (hfinal d hd).assigned

/-- A confined search without temporaries is orderly if its solution has final
values. -/
theorem of_confined (h : Confined R (Known cs N) (fun _ => False) (fun _ => True) s σ)
    (hσ : ∀ d ∈ σ.equations, Answer R (Known cs N) d) : Orderly R cs s := by
  have hA (m : Expr) (hm : Known cs N m) : Known cs s.pending.nextFresh m :=
    ⟨hm.1, (h.unknowns m (.inl hm)).2⟩
  refine ⟨fun c hc => ⟨?_, (h.equations c hc).subject⟩, fun τ hτ c hc => ?_, fun τ hτ => ?_, ?_⟩
  · exact (h.equations c hc).pattern.mono_pending hA (fun _ => id) nofun
  · obtain rfl := (List.cons.inj (h.solutions.symm.trans hτ)).1
    exact (h.equations c hc).pattern.mono_pending hA (fun _ => id) fun _ => id
  · rw [h.solutions] at hτ
    obtain rfl := List.mem_singleton.1 hτ
    exact ⟨h.distinct, fun d hd => (hσ d hd).imp hA⟩
  · rw [h.solutions]
    exact List.pairwise_singleton ..

/-- The empty solution that a search begins with is an orderly one. -/
theorem begun (h : Orderly R cs s) : Orderly R cs s.begun := by
  rw [Search.begun]
  split
  · refine ⟨h.equations, fun σ hσ c hc => ?_, fun σ hσ => ?_, List.pairwise_singleton ..⟩
    · obtain rfl := (List.cons.inj hσ).1
      exact (h.equations c hc).pattern
    · obtain rfl := List.mem_singleton.1 hσ
      exact ⟨List.nodup_nil, List.forall_mem_nil _⟩
  · exact h

/-- A copy is orderly: assignments to different unknowns are copied as they
are. -/
theorem clone (h : Orderly R cs s) : Orderly R cs s.clone := by
  have hcopy (σ : EquationSet) (hσ : σ ∈ s.solutions) : σ.copy.equations = σ.equations :=
    equations_copy_of_nodup (h.solutions σ hσ).1 (h.isMarked hσ)
  have hassigned (σ : EquationSet) (hσ : σ ∈ s.solutions) : σ.copy.assigned = σ.assigned :=
    congrArg (List.map Equation.pattern) (hcopy σ hσ)
  have hmem {c : Equation} (hc : c ∈ s.clone.pending.equations) : c ∈ s.pending.equations :=
    (grows_copy s.pending).1.subset hc
  refine ⟨fun c hc => h.equations c (hmem hc), fun τ hτ c hc => ?_, fun τ hτ => ?_, ?_⟩
  · obtain ⟨σ, hσ, rfl⟩ := List.map_eq_singleton_iff.1 hτ
    rw [hassigned σ (hσ ▸ List.mem_cons_self)]
    exact h.single σ hσ c (hmem hc)
  · obtain ⟨σ, hσ, rfl⟩ := List.mem_map.1 hτ
    rw [hassigned σ hσ, hcopy σ hσ]
    exact h.solutions σ hσ
  · refine List.pairwise_map.2 (h.conflict.imp_of_mem fun {σ τ} hσ hτ hne => ?_)
    rw [Conflict, hcopy σ hσ, hcopy τ hτ]
    exact hne

/-- **A run keeps a search orderly,** however it ends. -/
theorem run {last : Attempt Search (Option Equation)} (h : Orderly R cs s) (hσ : s.solutions = [σ])
    (hr : s.run R n = some last) : Orderly R cs last.state ∧
      ∀ m, Known cs s.pending.nextFresh m → Known cs last.state.pending.nextFresh m := by
  obtain ⟨u, hu, hstop⟩ := reaches_of_steps hr
  rw [begun_of_ne_nil (hσ ▸ List.cons_ne_nil _ _)] at hu
  obtain ⟨τ, hτ, S, hS, hfinal⟩ := (h.ongoing hσ).reaches hu
  have hvalues : ∀ d ∈ τ.equations, Answer R (Known cs s.pending.nextFresh) d := by
    rw [hS, List.forall_mem_append]
    exact ⟨(h.solutions σ (hσ ▸ List.mem_cons_self)).2, hfinal⟩
  have hknown {t : Search} (ht : Confined R (Known cs s.pending.nextFresh) (fun _ => False)
      (fun _ => True) t τ) (m : Expr) (hm : Known cs s.pending.nextFresh m) :
      Known cs t.pending.nextFresh m :=
    ⟨hm.1, (ht.unknowns m (.inl hm)).2⟩
  rcases halt_of_step hstop with ⟨-, rfl⟩ | ⟨c, hb, hl⟩
  · have ht : Confined R (Known cs s.pending.nextFresh) (fun _ => False) (fun _ => True)
        { u with solvable := some true } τ :=
      ⟨hτ.solutions, hτ.unknowns, hτ.temporaries, hτ.fresh, hτ.equations, hτ.distinct, hτ.assigned,
        hτ.values⟩
    exact ⟨of_confined ht hvalues, hknown ht⟩
  · rcases hτ.toConfined.halt (mem_of_best? hb) hl with ht | ⟨hnil, hn, hequations⟩
    · exact ⟨of_confined ht hvalues, hknown ht⟩
    · refine ⟨⟨fun d hd => ?_, fun υ hυ => ?_, fun υ hυ => ?_, ?_⟩, fun m hm => hn ▸ hknown hτ.toConfined m hm⟩
      · rw [hn]
        exact ⟨(hequations d hd).pattern.mono_pending (hknown hτ.toConfined) (fun _ => id) nofun,
          (hequations d hd).subject⟩
      · rw [hnil] at hυ
        cases hυ
      · rw [hnil] at hυ
        cases hυ
      · rw [hnil]
        exact .nil

/-- Solutions that solving finds are answers again. -/
theorem answers {τ : EquationSet} (h : Orderly R cs s) (hσ : σ ∈ s.solutions)
    (hτ : Concluded R (Known cs s.pending.nextFresh) (fun _ => False) (fun _ => True) σ τ) :
    τ.assigned.Nodup ∧ ∀ d ∈ τ.equations, Answer R (Known cs s.pending.nextFresh) d := by
  obtain ⟨S, hS, hfinal⟩ := hτ.completed
  rw [hS, List.forall_mem_append]
  exact ⟨hτ.distinct, (h.solutions σ hσ).2, hfinal⟩

/-- A search that is settled with answers is orderly. -/
theorem settle {found : List EquationSet} {parts : List Search}
    (hknown : ∀ m, Known cs N m → Known cs s.pending.nextFresh m)
    (hfound : ∀ τ ∈ found, τ.assigned.Nodup ∧ ∀ d ∈ τ.equations, Answer R (Known cs N) d)
    (hconflict : found.Pairwise Conflict) : Orderly R cs (s.settle found parts) := by
  refine ⟨nofun, fun _ _ => nofun, fun τ hτ => ⟨(hfound τ hτ).1, fun d hd => ?_⟩, hconflict⟩
  exact ((hfound τ hτ).2 d hd).imp fun m hm =>
    ⟨hm.1, (hknown m hm).2.mono (le_settle s found parts).1⟩

/-- **To solve a search with at most one solution keeps it orderly.** -/
theorem solve_one {r : Except Fault Unit} (h : Orderly R cs s) (hone : s.solutions = [σ])
    (hs : s.solve R n = some ⟨t, r⟩) : Orderly R cs t := by
  cases n with
  | zero => cases hs
  | succ n =>
    cases course_of_solve hs with
    | forkFault many | partFault many | forked many =>
      rw [hone] at many
      exact absurd many (Nat.lt_irrefl 1)
    | runFault _ ran | decided _ ran | guessFault _ ran | branchFault _ ran => exact (h.run hone ran).1
    | branched _ ran =>
      obtain ⟨hsolutions, hconflict⟩ := (h.ongoing hone).solve hs
      exact settle (h.run hone ran).2 (fun τ hτ => h.answers (hone ▸ List.mem_cons_self) (hsolutions τ hτ))
        hconflict

/-- To solve a search begins it. -/
theorem solve_begun (hfew : s.solutions.length ≤ 1) : s.begun.solve R n = s.solve R n := by
  have hlen := length_begun hfew
  have hbegun : s.begun.begun = s.begun :=
    begun_of_ne_nil (List.ne_nil_of_length_pos (Nat.lt_of_lt_of_eq Nat.zero_lt_one hlen.symm))
  cases n with
  | zero => rfl
  | succ n =>
    have hrun : s.begun.run R n = s.run R n := by rw [Search.run, hbegun, Search.run]
    have hnot : ¬1 < s.begun.solutions.length := by
      rw [hlen]
      exact Nat.lt_irrefl 1
    rw [Search.solve, Search.solve, if_neg (Nat.not_lt.2 hfew), if_neg hnot, hrun]

/-- A fork goes on from the solution that it was made for. -/
theorem fork {f : Search} (h : Orderly R cs s) (hσ : σ ∈ s.solutions)
    (hf : s.fork R σ = .ok f) :
    Orderly R cs f ∧ f.solutions = [σ.copy] ∧ f.pending.nextFresh = s.pending.nextFresh ∧
      σ.copy.equations = σ.equations := by
  have hcopy := equations_copy_of_nodup (h.solutions σ hσ).1 (h.isMarked hσ)
  have hassigned : σ.copy.assigned = σ.assigned := congrArg (List.map Equation.pattern) hcopy
  have hone := solutions_fork hf
  have hn := nextFresh_fork hf
  have hds (d : Equation) (hd : d ∈ f.pending.equations) : d.Confined R (Known cs s.pending.nextFresh)
      (fun _ => False) (fun _ => True) s.pending.nextFresh σ.assigned := by
    obtain ⟨c, hc, happly, hsubject⟩ := exists_of_forall₂ (applyAll_of_fork hf) d hd
    have hc := h.equations c ((grows_copy s.pending).1.subset hc)
    exact ⟨uses_applyAll (fun m hm => hm.1.1) (h.solutions σ hσ).2 hc.pattern happly, hsubject ▸ hc.subject⟩
  refine ⟨⟨fun d hd => ?_, fun τ hτ d hd => ?_, fun τ hτ => ?_,
    hone ▸ List.pairwise_singleton ..⟩, hone, hn, hcopy⟩
  · rw [hn]
    exact ⟨(hds d hd).pattern.mono_pending (fun _ => id) (fun _ => id) (List.forall_mem_nil _), (hds d hd).subject⟩
  · obtain rfl := (List.cons.inj (hone.symm.trans hτ)).1
    rw [hn, hassigned]
    exact (hds d hd).pattern
  · obtain rfl := List.mem_singleton.1 (hone ▸ hτ)
    rw [hn, hassigned, hcopy]
    exact h.solutions σ hσ

/-- What the forks find goes on from the solutions that they were made for. -/
theorem of_forks {σs : List EquationSet} {fs parts : List Search} (h : Orderly R cs s)
    (hσs : ∀ σ ∈ σs, σ ∈ s.solutions) (hf : List.Forall₂ (fun σ f => s.fork R σ = .ok f) σs fs)
    (hs : List.Forall₂ (fun f t => f.solve R n = some ⟨t, .ok ()⟩) fs parts) :
    List.Forall₂ (fun σ t => Separate R (Known cs s.pending.nextFresh) (fun _ => False) (fun _ => True) σ
      t.solutions) σs parts := by
  induction hf generalizing parts with
  | nil =>
    cases hs
    exact .nil
  | @cons σ f σs fs first _ ih =>
    rw [List.forall_mem_cons] at hσs
    obtain ⟨t, parts, ht, hrest, rfl⟩ := List.forall₂_cons_left_iff.1 hs
    obtain ⟨hfork, hone, hn, hcopy⟩ := h.fork hσs.1 first
    refine .cons ?_ (ih hσs.2 hrest)
    obtain ⟨hsolutions, hpairwise⟩ := (hfork.ongoing hone).solve ht
    refine ⟨fun τ hτ => ?_, hpairwise⟩
    obtain ⟨⟨S, hS, hfinal⟩, hdistinct, hassigned, hall⟩ := hsolutions τ hτ
    rw [hn] at hfinal hassigned
    exact ⟨⟨S, hcopy ▸ hS, hfinal⟩, hdistinct, hassigned, hall⟩

/-- Searches that go on from solutions in conflict find solutions in
conflict. -/
theorem pairwise_of_separate {σs : List EquationSet} {parts : List Search}
    (hσs : σs.Pairwise Conflict)
    (h : List.Forall₂ (fun σ t => Separate R A T V σ t.solutions) σs parts) :
    (parts.flatMap Search.solutions).Pairwise Conflict := by
  induction h with
  | nil => exact .nil
  | @cons σ t σs parts first rest ih =>
    obtain ⟨hfirst, hσs⟩ := List.pairwise_cons.1 hσs
    refine List.pairwise_append.2 ⟨first.2, ih hσs, fun τ hτ τ' hτ' => ?_⟩
    obtain ⟨t', ht', hτ'⟩ := List.mem_flatMap.1 hτ'
    obtain ⟨σ', hσ', hsep⟩ := exists_of_forall₂ rest t' ht'
    obtain ⟨c, hc, d, hd, hne⟩ := hfirst σ' hσ'
    obtain ⟨S, hS, -⟩ := (first.1 τ hτ).completed
    obtain ⟨S', hS', -⟩ := (hsep.1 τ' hτ').completed
    refine ⟨c, ?_, d, ?_, hne⟩
    · rw [hS]
      exact List.mem_append_left _ hc
    · rw [hS']
      exact List.mem_append_left _ hd

/-- **To solve a search keeps it orderly,** whether or not it meets a fault. -/
theorem solve {r : Except Fault Unit} (h : Orderly R cs s) (hs : s.solve R n = some ⟨t, r⟩) :
    Orderly R cs t := by
  cases n with
  | zero => cases hs
  | succ n =>
    cases course_of_solve hs with
    | forkFault | partFault => exact h
    | forked _ forks solved =>
      have hparts := h.of_forks (fun σ hσ => hσ) (mapM_eq_ok.1 (forks_eq R s ▸ forks)) solved
      refine settle (fun m hm => hm) (fun τ hτ => ?_) (pairwise_of_separate h.conflict hparts)
      obtain ⟨t, ht, hτ⟩ := List.mem_flatMap.1 hτ
      obtain ⟨σ, hσ, hsep⟩ := exists_of_forall₂ hparts t ht
      exact h.answers hσ (hsep.1 τ hτ)
    | runFault few | decided few | guessFault few | branchFault few | branched few =>
      -- a search without a solution begins with an empty one
      obtain ⟨σ, hσ⟩ := List.length_eq_one_iff.1 (length_begun few)
      exact h.begun.solve_one hσ (solve_begun few ▸ hs)

/-- The same if the search is only solved in case it is open. -/
theorem solved {r : Except Fault Unit} (h : Orderly R cs s) (hs : s.solved R n = some ⟨t, r⟩) :
    Orderly R cs t := by
  rcases solve_of_solved hs with hs | rfl
  · exact h.solve hs
  · exact h

/-- An equation is added whose pattern names unknowns of the user without a
value. -/
theorem adjoin {v : Option Bool} (h : Orderly R cs s) (hc : c.subject.Concrete R)
    (hp : Uses R (.pending (Named (cs ++ [c])) (fun _ => False) []) p)
    (hsingle : ∀ σ, s.solutions = [σ] →
      Uses R (.pending (Named (cs ++ [c])) (fun _ => False) σ.assigned) p) :
    Orderly R (cs ++ [c]) { s with solvable := v, pending := s.pending.add [⟨p, c.subject⟩] } := by
  have hgrows := grows_add s.pending [⟨p, c.subject⟩]
  obtain ⟨ds, hds, heqs, hbelow⟩ := hgrows.equations
  have hknown (m : Expr) (hm : Known cs s.pending.nextFresh m) :
      Known (cs ++ [c]) (s.pending.add [⟨p, c.subject⟩]).nextFresh m := hm.mono hgrows.counter
  have hmem {d : Equation} (hd : d ∈ (s.pending.add [⟨p, c.subject⟩]).equations) :
      d ∈ s.pending.equations ∨ d = ⟨p, c.subject⟩ ∧ d.Below (s.pending.add [⟨p, c.subject⟩]).nextFresh := by
    rw [heqs] at hd
    exact (List.mem_append.1 hd).imp_right fun hd =>
      ⟨List.mem_singleton.1 (hds.subset hd), hbelow d hd⟩
  have hrestrict {done : List Expr} {N : Nat} {p : Expr} (hp : p.Below N)
      (huses : Uses R (.pending (Named (cs ++ [c])) (fun _ => False) done) p) :
      Uses R (.pending (Known (cs ++ [c]) N) (fun _ => False) done) p :=
    huses.of_vars
      (fun n (hn : (Vocabulary.pending _ _ _).atom n) hx hm =>
        ⟨⟨(hn hm).1, fun x hxn => hp x (hx x hxn)⟩, (hn hm).2⟩)
      (fun g (hg : (Vocabulary.pending _ _ _).applied g) hx =>
        ⟨hg.1, hg.2.1.imp_left fun hA => ⟨hA, fun x hxg => hp x (hx x hxg)⟩, hg.2.2⟩)
      fun _ _ => trivial
  refine ⟨fun d hd => ?_, fun σ hσ d hd => ?_, fun σ hσ => ?_, h.conflict⟩
  · rcases hmem hd with hd | ⟨rfl, hd⟩
    · have hd := (h.equations d hd).mono hgrows.counter
      exact ⟨hd.pattern.mono_pending hknown (fun _ => id) fun _ => id, hd.subject⟩
    · exact ⟨hrestrict hd.1 hp, hc.uses fun x hx => ⟨trivial, hd.2 x hx⟩⟩
  · rcases hmem hd with hd | ⟨rfl, hd⟩
    · exact (h.single σ hσ d hd).mono_pending hknown (fun _ => id) fun _ => id
    · exact hrestrict hd.1 (hsingle σ hσ)
  · exact ⟨(h.solutions σ hσ).1, fun d hd => ((h.solutions σ hσ).2 d hd).imp hknown⟩

/-- **To add an equation keeps a search orderly.** -/
theorem add (h : Orderly R cs s) (hc : c.subject.Concrete R) (ht : s.add R c = .ok t) :
    Orderly R (cs ++ [c]) t := by
  have hp : Uses R (.pending (Named (cs ++ [c])) (fun _ => False) []) c.pattern := by
    have hnamed {n : Expr} (hn : n ∈ c.pattern.nodes) (hm : n.isMarked = true) : Named (cs ++ [c]) n :=
      ⟨hm, c, List.mem_append_right _ List.mem_cons_self, hn⟩
    exact uses_of_nodes (fun x hx hm => ⟨hnamed (var_mem_nodes hx) hm, List.not_mem_nil⟩)
      (fun f hf hm => ⟨hnamed hf hm, List.not_mem_nil⟩) fun _ _ => trivial
  cases added_of_add ht with
  | unsolved empty =>
    refine h.adjoin (v := s.solvable) hc hp fun σ hσ => ?_
    rw [empty] at hσ
    cases hσ
  | @single σ _ one applied =>
    have hanswers (d : Equation) (hd : d ∈ σ.equations) : Answer R (Named (cs ++ [c])) d :=
      ((h.solutions σ (one ▸ List.mem_cons_self)).2 d hd).imp fun m hm => hm.1.mono
    have hp := uses_applyAll (fun m hm => hm.1) hanswers hp applied
    refine h.adjoin (v := none) hc
      (hp.mono_pending (fun _ => id) (fun _ => id) fun _ hn => absurd hn List.not_mem_nil) fun τ hτ => ?_
    obtain rfl := (List.cons.inj (one.symm.trans hτ)).1
    exact hp
  | several many =>
    refine h.adjoin (v := none) hc hp fun σ hσ => ?_
    rw [hσ] at many
    exact absurd many (Nat.lt_irrefl 1)

end Orderly

/-- The calls that may have led to a search, with the equations that it was
given.  Solving may have met a fault. -/
inductive Calls (R : Reserved) : List Equation → Search → Prop
  | new (limit : Option Int) : Calls R [] { limit }
  | add {cs : List Equation} {s t : Search} {c : Equation} (hs : Calls R cs s)
      (h : s.add R c = .ok t) : Calls R (cs ++ [c]) t
  | solve {cs : List Equation} {n : Nat} {s t : Search} {r : Except Fault Unit} (hs : Calls R cs s)
      (h : s.solve R n = some ⟨t, r⟩) : Calls R cs t
  | solved {cs : List Equation} {n : Nat} {s t : Search} {r : Except Fault Unit} (hs : Calls R cs s)
      (h : s.solved R n = some ⟨t, r⟩) : Calls R cs t
  | clone {cs : List Equation} {s : Search} (hs : Calls R cs s) : Calls R cs s.clone

namespace Calls

/-- To add pairs is to add their equations one after the other. -/
theorem addAll {pairs : List (Operand × Operand)} (h : Calls R cs s)
    (ht : s.addAll R pairs = ⟨t, .ok ()⟩) : ∃ ds, pairs = ds.map operands ∧ Calls R (cs ++ ds) t := by
  induction pairs generalizing cs s with
  | nil =>
    cases ht
    exact ⟨[], rfl, by rwa [List.append_nil]⟩
  | cons pair pairs ih =>
    obtain ⟨p, e⟩ := pair
    rw [Search.addAll] at ht
    split at ht
    · cases ht
    · next u hu =>
      obtain ⟨c, hc, hu⟩ := bind_eq_ok.1 hu
      cases p with
      | expr p => cases e with
        | expr e =>
          cases hc
          obtain ⟨ds, rfl, hds⟩ := ih (h.add hu) ht
          exact ⟨_ :: ds, rfl, by rwa [List.append_assoc] at hds⟩
        | _ => cases hc
      | _ => cases hc

/-- A search that is made from pairs has been called with expressions, since
all else is refused, and with these in order. -/
theorem ofPairs {limit : Option Int} {pairs : List (Operand × Operand)}
    (h : ofPairs R limit pairs = .ok s) : ∃ cs, pairs = cs.map operands ∧ Calls R cs s :=
  (Calls.new limit).addAll (addAll_of_ofPairs h)

/-- **Whatever the calls, a search is orderly.** -/
theorem orderly (h : Calls R cs s) (hcs : ∀ c ∈ cs, c.subject.Concrete R) : Orderly R cs s := by
  induction h with
  | new => exact ⟨nofun, fun _ => nofun, nofun, .nil⟩
  | add _ ht ih =>
    rw [List.forall_mem_append, List.forall_mem_singleton] at hcs
    exact (ih hcs.1).add hcs.2 ht
  | solve _ ht ih => exact (ih hcs).solve ht
  | solved _ ht ih => exact (ih hcs).solved ht
  | clone _ ih => exact (ih hcs).clone

/-- **Solutions are ground substitutions on the unknowns of the patterns:**
every unknown that they assign occurs in a pattern that the search was given,
none is assigned twice, and no unknown is left in a value.  The calls that have
led to the search may be any, in any order and refused half-way; only their
subjects must be free of unknowns and reserved symbols.  That the temporaries
of imitations are gone again is part of it, as they occur in no pattern
given. -/
theorem ground_solutions (h : Calls R cs s) (hcs : ∀ c ∈ cs, c.subject.Concrete R)
    (hs : s.solved R n = some ⟨t, .ok ()⟩) (hσ : σ ∈ t.solutions) :
    (∀ d ∈ σ.equations, d.pattern.isMarked = true ∧ (∃ c ∈ cs, d.pattern ∈ c.pattern.nodes) ∧
      ∀ e ∈ d.subject.nodes, e.isMarked = false) ∧
    σ.equations.Pairwise fun c d => (c.pattern == d.pattern) = false := by
  have ht := (h.orderly hcs).solved hs
  obtain ⟨hdistinct, hfinal⟩ := ht.solutions σ hσ
  refine ⟨fun d hd => ?_, ?_⟩
  · obtain ⟨⟨hm, hc⟩, -⟩ := (hfinal d hd).assigned.resolve_right id
    exact ⟨hm, hc, (hfinal d hd).isMarked_of_mem_nodes⟩
  · refine (List.pairwise_map.1 hdistinct).imp_of_mem fun {c d} _ hd hne => Bool.eq_false_iff.2 fun heq => ?_
    exact hne ((beq_name_iff (isName_of_isMarked (ht.isMarked hσ d hd))).1 heq)

/-- The variable in the subject of `applied` is concrete. -/
theorem concrete_applied : ∀ c ∈ [applied], c.subject.Concrete {} := by
  intro c hc e he
  rw [List.mem_singleton.1 hc] at he
  rw [List.mem_singleton.1 he]
  exact ⟨rfl, nofun, nofun⟩

/-- `Calls.ground_solutions` at the search for `applied`, which has two
solutions. -/
theorem ground_solutions_applied : ∃ s t,
    Calls {} [applied] s ∧ s.solved {} 4 = some ⟨t, .ok ()⟩ ∧ t.solutions.length = 2 ∧
      ∀ σ ∈ t.solutions, (∀ d ∈ σ.equations, d.pattern.isMarked = true ∧
        (∃ c ∈ [applied], d.pattern ∈ c.pattern.nodes) ∧ ∀ e ∈ d.subject.nodes, e.isMarked = false) ∧
        σ.equations.Pairwise fun c d => (c.pattern == d.pattern) = false := by
  have hs : Calls {} [applied] { pending := .add {} [applied] } := .add (.new none) rfl
  exact ⟨_, solvedApplied, hs, solved_applied, rfl,
    fun σ hσ => hs.ground_solutions concrete_applied solved_applied hσ⟩

/-- **No solution is returned twice,** also where equations were added to a
search that had been solved.  Of any two that are returned, neither counts as
equal to the other: they have followed different guesses at some branch point,
and so there is an unknown to which they give values that are not even equal up
to bound names (`EquationSet.Conflict`). -/
theorem distinct_solutions (h : Calls R cs s) (hcs : ∀ c ∈ cs, c.subject.Concrete R)
    (hs : s.solved R n = some ⟨t, .ok ()⟩) :
    t.solutions.Pairwise fun σ τ => (σ == τ) = false ∧ (τ == σ) = false := by
  have ht := (h.orderly hcs).solved hs
  refine ht.conflict.imp_of_mem fun {σ τ} hσ hτ hne => ?_
  exact ⟨hne.beq_eq_false (ht.solutions τ hτ).1, hne.symm.beq_eq_false (ht.solutions σ hσ).1⟩

/-- `_g` should equal `b`. -/
def elementary : Equation := ⟨.var ⟨"g", true⟩, .var ⟨"b", false⟩⟩

/-- `Calls.distinct_solutions` at the search for `applied` that `elementary`
was added to when it had been solved. -/
theorem distinct_solutions_applied : ∃ s t u v,
    Calls {} [applied] s ∧ s.solved {} 4 = some ⟨t, .ok ()⟩ ∧ t.solutions.length = 2 ∧
      t.add {} elementary = .ok u ∧ u.solved {} 4 = some ⟨v, .ok ()⟩ ∧ v.solutions.length = 2 ∧
        v.solutions.Pairwise fun σ τ => (σ == τ) = false ∧ (τ == σ) = false := by
  have hs : Calls {} [applied] { pending := .add {} [applied] } := .add (.new none) rfl
  have h : ∃ u v, solvedApplied.add {} elementary = .ok u ∧ u.solved {} 4 = some ⟨v, .ok ()⟩ ∧
      v.solutions.length = 2 := by
    refine ⟨?_, ?_, ?_, ?_, ?_⟩
    rotate_left 2
    · cbv
      rfl
    · cbv
      rfl
    · cbv
  obtain ⟨u, v, hu, hv, htwo⟩ := h
  have hcs : ∀ c ∈ [applied] ++ [elementary], c.subject.Concrete {} := by
    intro c hc e he
    obtain rfl | rfl : c = applied ∨ c = elementary := by simpa using hc
    all_goals
      rw [List.mem_singleton.1 he]
      exact ⟨rfl, fun h => (by cases h), fun h => by cases h⟩
  exact ⟨_, solvedApplied, u, v, hs, solved_applied, rfl, hu, hv, htwo,
    ((hs.solved solved_applied).add hu).distinct_solutions hcs hv⟩

end Calls

end Search
end SecondOrder
