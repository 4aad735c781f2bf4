/-
# Solutions solve

Every solution that a search returns completes the solution it started with
(`Open.completes_of_solve`): by induction on the fuel, through the
deterministic part and the branches of every guess.  So a solution of the
search for some equations, applied to their patterns, makes each of them
similar to its subject (`instantiate_solution`).

The equations have to be sorted, and the counter above all `v<N>` in them: it
has not passed those of an equation that was left out as the same as another.
With an unknown in a binder slot a solution need not solve (`unsound_slot`),
since the slot of the pattern may be given a variable that the subject binds
further in.
-/

import Mathlib
import SecondOrder.Proofs.Search.Branched
import SecondOrder.Proofs.Search.Course

namespace SecondOrder

/-- The two sides of an equation as operands. -/
def Equation.operands (c : Equation) : Operand × Operand := (.expr c.pattern, .expr c.subject)

namespace EquationSet

/-- The set with equations added one by one. -/
def addEach (s : EquationSet) (cs : List Equation) : EquationSet := cs.foldl (fun P c => P.add [c]) s

/-- Equations that are added one after another are taken in order, those like
an earlier one left out. -/
theorem grows_addEach (s : EquationSet) (cs : List Equation) : Grows s cs (s.addEach cs) := by
  induction cs generalizing s with
  | nil => exact ⟨⟨[], List.Sublist.refl _, (List.append_nil _).symm, nofun⟩, nofun, Nat.le_refl _⟩
  | cons c cs ih => exact (grows_add s [c]).trans (ih _)

end EquationSet

namespace Search

open SecondOrder.Expr Equation

variable {R : Reserved} {arity : Arity} {s t : Search} {σ τ : EquationSet} {c d : Equation}
  {m : Expr} {k n : Nat} {g : Guess} {gs : List Guess}

/-- The solution `τ` completes the one under construction. -/
def Completes (R : Reserved) (arity : Arity) (s : Search) (σ τ : EquationSet) : Prop :=
  ∃ S, τ.equations = σ.equations ++ S ∧ Finishes R arity s S

/-- **A guess opens a branch,** unless it violates an exclusion at once. -/
theorem Open.branched (ho : Open R arity s σ) (hc : c ∈ s.pending.equations)
    (hr : c.rule R = .guess) (hu : c.unknownHead? = some (m, k))
    (hg : g ∈ Guess.all (k + 1) c.subject) :
    s.branch? R c g = .ok none ∨ ∃ N xs b ts t, s.branch? R c g = .ok (some ⟨t, ts⟩) ∧
      Branched R arity s σ c g m k N xs b ts t := by
  obtain ⟨xs, b, ts, N, P, -, hshape, ⟨hnone, -⟩ | ⟨t, hsome, hassigned⟩⟩ := ho.branch? hc hu hg
  · exact .inl hnone
  · exact .inr ⟨N, xs, b, ts, t, hsome, ho, hc, hr, hu, hshape, hassigned⟩

/-- What completes the solution of a branch is the guess and something that
finishes the branch. -/
theorem Branched.of_completes {N : Nat} {xs : Binders} {b : Expr} {ts : List Expr}
    (h : Branched R arity s σ c g m k N xs b ts t)
    (hτ : Completes R (arity.extend ts (k + 1)) t (σ.copy.add [⟨m, R.lambda xs b⟩]) τ) :
    ∃ S, τ.equations = σ.equations ++ ⟨m, R.lambda xs b⟩ :: S ∧
      Finishes R (arity.extend ts (k + 1)) t S := by
  obtain ⟨S, heqs, hS⟩ := hτ
  refine ⟨S, ?_, hS⟩
  rw [heqs, h.assigned.equations, h.opened.deeper.2, ← List.append_cons]

/-- An open search has begun already. -/
theorem Open.begun (ho : Open R arity s σ) : s.begun = s :=
  begun_of_ne_nil (ho.solutions ▸ List.cons_ne_nil _ _)

/-- What the branches of the guesses find completes the solution of the search
that branched. -/
theorem Open.completes_of_explores (ho : Open R arity s σ) (hc : c ∈ s.pending.equations)
    (hr : c.rule R = .guess) (hu : c.unknownHead? = some (m, k))
    (ih : ∀ {arity : Arity} {s : Search} {σ : EquationSet} {t : Search}, Open R arity s.begun σ →
      s.solve R n = some ⟨t, .ok ()⟩ → ∀ τ ∈ t.solutions, Completes R arity s.begun σ τ)
    {found : List EquationSet} {parts : List Search}
    (h : Explores R (solve R n) s c (Guess.all (k + 1) c.subject) found parts) :
    ∀ τ ∈ found, Completes R arity s σ τ := by
  intro τ' hτ'
  obtain ⟨g, hg, b, t', hb, hsolve, τ, hτ, happly⟩ := h.mem_iff.1 hτ'
  rcases ho.branched hc hr hu hg with hnone | ⟨N, xs, b', ts, t, hsome, hbranched⟩
  · cases hnone.symm.trans hb
  · cases hsome.symm.trans hb
    have hopen := hbranched.assigned.opened
    have hfound := ih (s := t) (hopen.begun.symm ▸ hopen) hsolve τ hτ
    rw [hopen.begun] at hfound
    obtain ⟨S, heqs, hS⟩ := hbranched.of_completes hfound
    obtain ⟨τ'', b'', S', heqs', -, -, -, -, ⟨hnone, -⟩ | ⟨hkept, hS'⟩⟩ := hbranched.cleanup hS heqs
    · cases hnone.symm.trans happly
    · cases hkept.symm.trans happly
      exact ⟨_, heqs', hS'⟩

/-- Nothing is needed to finish a search with nothing pending. -/
theorem finishes_nil (h : s.pending.equations = []) : Finishes R arity s [] where
  values := nofun
  occurs := nofun
  distinct := List.nodup_nil
  solved _ hc := absurd (h ▸ hc) List.not_mem_nil
  respects _ _ := nofun
  params := nofun
  apart := .nil
  origin _ _ := nofun
  function := nofun
  free := nofun
  bare _ := nofun

/-- How the deterministic part of an open search ends that has come to `u`:
with nothing pending, without a solution, or at an equation to branch on. -/
inductive Ended (R : Reserved) (u : Search) : Attempt Search (Option Equation) → Prop
  | complete (nothing : u.pending.equations = []) :
      Ended R u ⟨{ u with solvable := some true }, .ok none⟩
  | refuted {t : Search} (nothing : t.solutions = []) : Ended R u ⟨t, .ok none⟩
  | branch {c : Equation} (mem : c ∈ u.pending.equations) (rule : c.rule R = .guess) :
      Ended R u ⟨u, .ok (some c)⟩

/-- **The last step of an open search is never refused.** -/
theorem Open.ended {last : Attempt Search (Option Equation)} (ho : Open R arity s σ)
    (h : s.step R = .stop last) : Ended R s last := by
  rcases halt_of_step h with ⟨hnone, rfl⟩ | ⟨c, hbest, hhalt⟩
  · exact .complete hnone
  · have hc := EquationSet.mem_of_best? hbest
    cases hhalt with
    | clash => exact .refuted rfl
    | excluded hr ha =>
      obtain ⟨t', ⟨ha', -⟩ | ⟨ha', hnil⟩⟩ := ho.assign_pending hc hr
      · cases ha.symm.trans ha'
      · cases ha.symm.trans ha'
        exact .refuted hnil
    | branch hr => exact .branch hc hr
    | assignFault hr ha =>
      obtain ⟨t', ⟨ha', -⟩ | ⟨ha', -⟩⟩ := ho.assign_pending hc hr <;> cases ha.symm.trans ha'
    | alignFault hr ha =>
      obtain ⟨P, d, ha', -⟩ := ho.realigned hc (decomposes_of_rule hr)
      cases ha.symm.trans ha'
    | contractFault hr hred =>
      rw [(ho.patterns c hc).1.isRedex_eq_false] at hred
      cases hred

/-- **The run of an open search** comes to an open search and ends there. -/
theorem Open.run {last : Attempt Search (Option Equation)} (ho : Open R arity s.begun σ)
    (h : s.run R n = some last) :
    ∃ u σ' new, Reaches R s.begun u ∧ Open R arity u σ' ∧ σ'.equations = σ.equations ++ new ∧
      (∀ S, Finishes R arity u S → Finishes R arity s.begun (new ++ S)) ∧ Ended R u last := by
  obtain ⟨u, hu, hstop⟩ := reaches_of_steps h
  obtain ⟨σ', new, ho', heqs, hback⟩ := ho.reaches hu
  exact ⟨u, σ', new, hu, ho', heqs, hback, ho'.ended hstop⟩

/-- An open search has one solution under construction. -/
theorem Open.length_le (ho : Open R arity s.begun σ) : ¬1 < s.solutions.length := by
  have hsolutions := ho.solutions
  rw [Search.begun] at hsolutions
  split at hsolutions
  · next hnil => rw [hnil]; exact Nat.not_lt_zero 1
  · rw [hsolutions]; exact Nat.lt_irrefl 1

/-- What is returned for an open search that has come to `u`: nothing is
pending, there is no solution, or `u` is settled with what its branches
find. -/
inductive Closes (R : Reserved) (n : Nat) (u : Search) : Search → Prop
  | complete (nothing : u.pending.equations = []) : Closes R n u { u with solvable := some true }
  | refuted {t : Search} (nothing : t.solutions = []) : Closes R n u t
  | branched {c : Equation} {m : Expr} {k : Nat} {found : List EquationSet} {parts : List Search}
      (mem : c ∈ u.pending.equations) (rule : c.rule R = .guess) (head : c.unknownHead? = some (m, k))
      (explored : Explores R (solve R n) u c (Guess.all (k + 1) c.subject) found parts) :
      Closes R n u (u.settle found parts)

/-- **Solving an open search** comes to an open search and closes it. -/
theorem Open.closes (ho : Open R arity s.begun σ) (h : s.solve R (n + 1) = some ⟨t, .ok ()⟩) :
    ∃ u σ' new, Reaches R s.begun u ∧ Open R arity u σ' ∧ σ'.equations = σ.equations ++ new ∧
      (∀ S, Finishes R arity u S → Finishes R arity s.begun (new ++ S)) ∧ Closes R n u t := by
  cases course_of_solve h with
  | forked many => exact absurd many ho.length_le
  | decided _ ran =>
    obtain ⟨u, σ', new, hu, ho', heqs, hback, hended⟩ := ho.run ran
    refine ⟨u, σ', new, hu, ho', heqs, hback, ?_⟩
    cases hended with
    | complete nothing => exact .complete nothing
    | refuted nothing => exact .refuted nothing
  | branched _ ran guesses explored =>
    obtain ⟨u, σ', new, hu, ho', heqs, hback, hended⟩ := ho.run ran
    refine ⟨u, σ', new, hu, ho', heqs, hback, ?_⟩
    cases hended with
    | branch mem rule =>
      rcases guesses_spec guesses with ⟨-, rfl⟩ | ⟨m, k, head, rfl⟩
      · cases explored
        exact .refuted rfl
      · exact .branched mem rule head explored

/-- **What a search returns completes the solution it started with.** -/
theorem Open.completes_of_solve (ho : Open R arity s.begun σ)
    (h : s.solve R n = some ⟨t, .ok ()⟩) : ∀ τ ∈ t.solutions, Completes R arity s.begun σ τ := by
  induction n generalizing arity s σ t with
  | zero => cases h
  | succ n ih =>
    obtain ⟨u, σ', new, -, ho', heqs, hback, hcloses⟩ := ho.closes h
    cases hcloses with
    | complete nothing =>
      intro τ hτ
      have hτ : τ ∈ u.solutions := hτ
      rw [ho'.solutions] at hτ
      obtain rfl := List.mem_singleton.1 hτ
      exact ⟨new ++ [], by rw [heqs, List.append_nil], hback [] (finishes_nil nothing)⟩
    | refuted nothing =>
      rw [nothing]
      exact List.forall_mem_nil _
    | branched mem rule head explored =>
      intro τ hτ
      obtain ⟨S, heqs', hS⟩ := ho'.completes_of_explores mem rule head ih explored τ hτ
      exact ⟨new ++ S, by rw [heqs', heqs, List.append_assoc], hback S hS⟩

/-- The search for equations. -/
theorem ofPairs_operands (R : Reserved) (limit : Option Int) (cs : List Equation) :
    ofPairs R limit (cs.map operands) =
      .ok { limit, pending := .addEach {} cs } := by
  suffices ∀ s : Search, s.solutions = [] → addAll R s (cs.map operands) =
      ⟨{ s with pending := s.pending.addEach cs }, .ok ()⟩ by
    rw [ofPairs, this _ rfl]
    rfl
  induction cs with
  | nil => exact fun _ _ => rfl
  | cons c cs ih =>
    intro s hs
    have hadd : (Equation.ofOperands c.operands.1 c.operands.2 >>= s.add R) =
        .ok { s with pending := s.pending.add [c] } := by
      change s.add R c = _
      rw [add, hs]
      rfl
    rw [List.map_cons, addAll, hadd]
    exact ih { s with pending := s.pending.add [c] } hs

/-- A search stays open when equations are added one after another. -/
theorem Open.addEach (ho : Open R arity s σ) {cs : List Equation}
    (hcs : ∀ c ∈ cs, Sorted R arity c.pattern ∧ Ground R c.subject)
    (hapart : ∀ c ∈ σ.equations, ∀ d ∈ cs, c.pattern ∉ d.pattern.names) :
    Open R arity { s with pending := s.pending.addEach cs } σ := by
  induction cs generalizing s with
  | nil => exact ho
  | cons c cs ih =>
    rw [List.forall_mem_cons] at hcs
    have hfirst : Open R arity { s with pending := s.pending.add [c] } σ :=
      ho.add (fun d hd => List.mem_singleton.1 hd ▸ hcs.1)
        fun d hd e he => hapart d hd e (List.mem_singleton.1 he ▸ List.mem_cons_self)
    exact ih hfirst hcs.2 fun d hd e he => hapart d hd e (List.mem_cons_of_mem _ he)

/-- **The search for sorted equations is open.** -/
theorem open_ofPairs {limit : Option Int} {cs : List Equation}
    (hcs : ∀ c ∈ cs, Sorted R arity c.pattern ∧ Ground R c.subject)
    (h : ofPairs R limit (cs.map operands) = .ok s) :
    Open R arity s.begun {} ∧ s.solvable = none ∧ s.begun.pending = s.pending ∧
      EquationSet.Grows {} cs s.pending := by
  rw [ofPairs_operands] at h
  cases h
  have hempty : Open R arity { limit, solutions := [{}] } {} :=
    ⟨rfl, nofun, nofun, nofun, nofun, List.nodup_nil, nofun⟩
  exact ⟨hempty.addEach hcs nofun, rfl, rfl, EquationSet.grows_addEach {} cs⟩

/-- **Every solution solves:** applied to the equations that the search was
made for, it makes each pattern similar to its subject.  The equations are
sorted, and the search has noticed every `v<N>` in them, so that what it mints
is new. -/
theorem instantiate_solution {limit : Option Int} {cs : List Equation}
    (hcs : ∀ c ∈ cs, Sorted R arity c.pattern ∧ Ground R c.subject)
    (hs : ofPairs R limit (cs.map operands) = .ok s)
    (hbelow : ∀ c ∈ cs, c.pattern.Below s.pending.nextFresh)
    (h : s.solved R n = some ⟨t, .ok ()⟩) :
    ∀ τ ∈ t.solutions, ∃ P, τ.instantiate R { equations := cs } = ⟨P, .ok ()⟩ ∧
      List.Forall₂ (fun c d => d.subject = c.subject ∧ d.pattern.similar c.subject = true)
        cs P.equations := by
  obtain ⟨ho, hopen, hpending, hgrows⟩ := open_ofPairs hcs hs
  rw [solved, hopen] at h
  intro τ hτ
  obtain ⟨S, heqs, hS⟩ := ho.completes_of_solve h τ hτ
  have hS' : τ.equations = S := heqs
  refine EquationSet.exists_instantiate (Q := fun c q => q.similar c.subject = true) fun c hc => ?_
  rw [hS']
  obtain ⟨d, hd, hdc⟩ := hgrows.covers c hc
  rw [← hpending] at hd
  have hsolved := (SolvedIn.congr (ho.patterns d hd) (hcs c hc) hdc).1 (hS.solved d hd)
  have hparam (d : Equation) (hd : d ∈ S) (u : Var) (hu : IsParam R arity d u) :
      u ∉ c.pattern.vars ∧ ¬u.Numbered 'x' := by
    have hhigh := hS.params d hd u hu
    rw [hpending] at hhigh
    exact ⟨fun hmem => hhigh (hbelow c hc u hmem), fun hx => hhigh (hx.below _)⟩
  exact EquationSet.applyAll_similar (fun d hd => (hS.values d hd).1) (hcs c hc).1 (hcs c hc).2
    hparam (hS.apart.imp fun h => h.2) hsolved

/-- `λ[x, _f(x)]` should equal `λ[y, y]`. -/
def mapped : Equation :=
  let lambda : Sym := ⟨"lambda", "fns1", false⟩
  let x : Var := ⟨"x", false⟩
  let y : Var := ⟨"y", false⟩
  ⟨.bind lambda ⟨x, []⟩ (.app (.sym (Reserved.applySym {})) [.var ⟨"f", true⟩, .var x]),
    .bind lambda ⟨y, []⟩ (.var y)⟩

/-- Solving finds one solution. -/
theorem mapped_solved : ∃ s t, ofPairs {} none ([mapped].map operands) = .ok s ∧
    s.solved {} 4 = some ⟨t, .ok ()⟩ ∧ t.solutions.length = 1 := by
  let s : Search := { pending := EquationSet.add {} [mapped] }
  have h : ∃ u v c gs r, s.begun.step {} = .next u ∧ u.step {} = .next v ∧
      v.pending.best? {} = some c ∧ c.rule {} = .guess ∧ c.pattern.isRedex {} = false ∧
      v.guesses c = .ok gs ∧ explore {} (solve {} 3) v c gs = some (.ok r) ∧ r.1.length = 1 := by
    refine ⟨?_, ?_, ?_, ?_, ?_, ?_, ?_, ?_, ?_, ?_, ?_, ?_, ?_⟩
    rotate_left 5
    · cbv
      rfl
    · cbv
      rfl
    · cbv
      rfl
    · cbv
    · cbv
    · cbv
      rfl
    · cbv
      rfl
    · cbv
  obtain ⟨u, v, c, gs, r, hfirst, hsecond, hbest, hrule, hredex, hguesses, hexplore, hone⟩ := h
  refine ⟨s, v.settle r.1 r.2, ofPairs_operands {} none [mapped], ?_, hone⟩
  have hrun : s.run {} 3 = some ⟨v, .ok (some c)⟩ := by
    rw [run, steps, hfirst]
    dsimp only
    rw [steps, hsecond]
    dsimp only
    rw [steps, step_of_flex hbest hrule hredex]
  change s.solve {} 4 = _
  rw [solve, if_neg (by exact Nat.not_lt_zero 1), hrun]
  dsimp only
  rw [hguesses]
  dsimp only
  rw [hexplore]
  rfl

/-- `instantiate_solution` at the search for `mapped`, which the identity
solves. -/
theorem instantiate_solution_mapped : ∃ s t, ofPairs {} none ([mapped].map operands) = .ok s ∧
    s.solved {} 4 = some ⟨t, .ok ()⟩ ∧ t.solutions.length = 1 ∧
      ∀ τ ∈ t.solutions, ∃ P, τ.instantiate {} { equations := [mapped] } = ⟨P, .ok ()⟩ ∧
        List.Forall₂ (fun c d => d.subject = c.subject ∧ d.pattern.similar c.subject = true)
          [mapped] P.equations := by
  obtain ⟨s, t, hs, ht, hone⟩ := mapped_solved
  let arity : Arity := fun n => if n == .var ⟨"f", true⟩ then some 1 else none
  have hcs : ∀ c ∈ [mapped], Sorted {} arity c.pattern ∧ Ground {} c.subject := by
    intro c hc
    obtain rfl := List.mem_singleton.1 hc
    refine ⟨.bind ?_ (List.nodup_singleton _) (.apply rfl nofun rfl ?_), fun _ =>
      .bind ?_ (List.nodup_singleton _) (.var nofun)⟩
    · exact fun x hx => List.mem_singleton.1 hx ▸ rfl
    · exact fun a ha => List.mem_singleton.1 ha ▸ .var nofun
    · exact fun x hx => List.mem_singleton.1 hx ▸ rfl
  have hbelow : ∀ c ∈ [mapped], c.pattern.Below s.pending.nextFresh := by
    intro c hc x hx k hk
    obtain rfl := List.mem_singleton.1 hc
    have hnames : ∀ x ∈ mapped.pattern.vars, numberAfter 'v' x.name = none := by decide
    cases (hnames x hx).symm.trans hk
  exact ⟨s, t, hs, ht, hone, instantiate_solution hcs hs hbelow ht⟩

/-- `λ[x, λ[_y, p(x, _y)]]` should equal `λ[a, λ[a, p(a, a)]]` and
`λ[c, λ[d, p(c, d)]]`. -/
def boundSlots : List Equation :=
  let lambda : Sym := ⟨"lambda", "fns1", false⟩
  let twice (x y : Var) : Expr :=
    .bind lambda ⟨x, []⟩ (.bind lambda ⟨y, []⟩ (.app (.var ⟨"p", false⟩) [.var x, .var y]))
  let a : Var := ⟨"a", false⟩
  let pattern := twice ⟨"x", false⟩ ⟨"y", true⟩
  [⟨pattern, twice a a⟩, ⟨pattern, twice ⟨"c", false⟩ ⟨"d", false⟩⟩]

/-- **A solution need not solve where an unknown stands in a binder slot.**
The outer slots of the first equation of `boundSlots` become `v0`, and the
inner slot of its pattern, an unknown, is not renamed along with them.  The
second equation then gives `v0` to it, so that the two slots of the first
pattern coincide, and its `p(x, _y)` refers to one of them where it should
refer to both. -/
theorem unsound_slot : ∃ s t τ, ofPairs {} none (boundSlots.map operands) = .ok s ∧
    s.solved {} 10 = some ⟨t, .ok ()⟩ ∧ τ ∈ t.solutions ∧
    ¬∃ P, τ.instantiate {} { equations := boundSlots } = ⟨P, .ok ()⟩ ∧
      List.Forall₂ (fun c d => d.subject = c.subject ∧ d.pattern.similar c.subject = true)
        boundSlots P.equations := by
  refine ⟨_, ?_, ?_, ofPairs_operands {} none boundSlots, ?_, ?_, ?_⟩
  rotate_left 2
  · cbv
    rfl
  · exact List.mem_cons_self
  · rintro ⟨P, hP, hall⟩
    have h : ∃ P', EquationSet.instantiate {} { equations := [⟨.var ⟨"y", true⟩, .var ⟨"v0", false⟩⟩] }
        { equations := boundSlots } = ⟨P', .ok ()⟩ ∧
        P'.equations.map (fun d => d.pattern.similar d.subject) = [false, true] := by
      refine ⟨?_, ?_, ?_⟩
      rotate_left
      · cbv
        rfl
      · cbv
    obtain ⟨P', hP', hmap⟩ := h
    cases hP.symm.trans hP'
    have hsimilar : ∀ b ∈ P.equations.map fun d => d.pattern.similar d.subject, b = true := by
      intro b hb
      obtain ⟨d, hd, rfl⟩ := List.mem_map.1 hb
      obtain ⟨c, -, hsubject, h⟩ := exists_of_forall₂ hall d hd
      exact hsubject ▸ h
    rw [hmap] at hsimilar
    exact Bool.false_ne_true (hsimilar false List.mem_cons_self)

end Search
end SecondOrder
