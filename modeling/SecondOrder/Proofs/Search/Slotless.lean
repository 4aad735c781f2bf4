/-
# Searches without bindings

Where no equation has a binding nothing is ever excluded, and a search stands
for its equations (`EquationSet.Slotless`).  So it comes to an end, each of its
solutions makes every pattern equal to its subject, and whatever else does so
agrees with exactly one of them on all that it assigns (`solved_exactly`).
-/

import SecondOrder.Proofs.Equation.Flat
import SecondOrder.Proofs.Search.Depth
import SecondOrder.Proofs.Search.Exactness
import SecondOrder.Proofs.Search.Termination

namespace SecondOrder

namespace EquationSet

open SecondOrder.Expr Equation

variable {R : Reserved} {arity : Arity} {s : EquationSet} {cs : List Equation} {p : Expr}

/-- A set of equations without bindings, which exclude nothing. -/
structure Slotless (R : Reserved) (arity : Arity) (s : EquationSet) : Prop where
  equations : ∀ c ∈ s.equations, c.Slotless R arity
  exclusions : s.exclusions = []

/-- A set stays without bindings when such equations are added: they exclude
nothing. -/
theorem Slotless.add (hs : s.Slotless R arity) (hcs : ∀ c ∈ cs, c.Slotless R arity) :
    (s.add cs).Slotless R arity := by
  have hequations : ∀ c ∈ (s.add cs).equations, c.Slotless R arity := by
    obtain ⟨ds, hds, heqs, -⟩ := (grows_add s cs).equations
    rw [heqs]
    exact fun c hc => (List.mem_append.1 hc).elim (hs.equations c) fun hc => hcs c (hds.subset hc)
  refine ⟨hequations, List.eq_nil_iff_forall_not_mem.2 fun x hx => ?_⟩
  rcases mem_exclusions_add.1 hx with hx | ⟨c, hc, hx⟩
  · exact List.eq_nil_iff_forall_not_mem.1 hs.exclusions x hx
  · obtain ⟨f, xs, b, hnode, -, hout⟩ := mem_exclusionsOf.1 hx
    have hslot := mem_slots_of_mem_nodes hnode _ hout
    rw [(hequations c hc).pattern] at hslot
    cases hslot

/-- The same if they are added one after another. -/
theorem Slotless.addEach (hs : s.Slotless R arity) (hcs : ∀ c ∈ cs, c.Slotless R arity) :
    (s.addEach cs).Slotless R arity := by
  induction cs generalizing s with
  | nil => exact hs
  | cons c cs ih =>
    obtain ⟨hc, hcs⟩ := List.forall_mem_cons.1 hcs
    exact ih (hs.add fun d hd => List.mem_singleton.1 hd ▸ hc) hcs

end EquationSet

namespace Search

open SecondOrder.Expr Equation

variable {R : Reserved} {arity : Arity} {V : Var → Prop} {s t : Search} {σ τ : EquationSet}
  {c d : Equation} {cs S : List Equation} {n : Nat}

/-- Where nothing is bound every variable is spared. -/
theorem spares_of_slotless (h : s.pending.Slotless R arity) (V : Var → Prop) : s.Spares V := by
  have hbinds (z : Var) : ¬s.Binds z := by
    rintro ⟨c, hc, hz⟩
    rw [(h.equations c hc).pattern, (h.equations c hc).subject] at hz
    exact hz.elim nofun nofun
  refine ⟨fun z hz => absurd hz (hbinds z), fun x hx => ?_, fun ⟨y, hy⟩ => absurd hy (hbinds y)⟩
  rw [h.exclusions] at hx
  cases hx

/-- An open search without a limit returns, and is not refused. -/
theorem Open.exists_solve (ho : Open R arity s.begun σ) (hlimit : s.limit = none) :
    ∃ n t, s.solve R n = some ⟨t, .ok ()⟩ := by
  obtain ⟨n, ⟨t, r⟩, h⟩ := ho.returns
  cases r with
  | error fault => exact absurd (hlimit ▸ ho.tooDeep_of_solve h) (not_tooDeep_none fault)
  | ok => exact ⟨n, t, h⟩

/-- What finishes a search without bindings makes each pattern equal to its
subject. -/
theorem Finishes.applyAll_beq (h : Finishes R arity s S) (hs : s.pending.Slotless R arity)
    (hc : c.Slotless R arity) (hbelow : c.pattern.Below s.pending.nextFresh) (hsolved : c.Solved R S) :
    ∃ q, EquationSet.applyAll R S c.pattern = .ok q ∧ (q == c.subject) = true := by
  have hbare := h.bare fun d hd => (hs.equations d hd).subject
  obtain ⟨q, hq, hsorted, hslots, hden, -⟩ := EquationSet.applyAll_flat
    (fun d hd => ⟨(h.values d hd).1, (h.values d hd).2, hbare d hd⟩) hc.sorted hc.pattern
    (fun d hd u hu hmem => h.params d hd u hu (hbelow u hmem)) (h.apart.imp And.right)
  refine ⟨q, hq, ?_⟩
  rw [← similar_eq_beq hslots]
  exact (similar_iff hsorted (hc.ground arity)).2 fun ρ => (hden ρ).trans (hsolved ρ)

/-- Values without bindings for some unknowns of the equations `cs`.  The
parameters of a function occur in no pattern and in no other value. -/
structure Assignment (R : Reserved) (arity : Arity) (cs S : List Equation) : Prop where
  unknown : ∀ d ∈ S, d.pattern.isMarked = true
  distinct : (S.map Equation.pattern).Nodup
  plain : ∀ d ∈ S, arity d.pattern = none → Ground R d.subject ∧ d.subject.slots = []
  function : ∀ d ∈ S, ∀ k, arity d.pattern = some k → ∃ us b, d.subject = R.lambda us b ∧
    us.length = k ∧ us.toList.Nodup ∧ (∀ u ∈ us.toList, u.marked = false) ∧
      Ground R b ∧ b.slots = []
  params : ∀ d ∈ S, ∀ u, IsParam R arity d u →
    (∀ c ∈ cs, u ∉ c.pattern.vars) ∧ ∀ e ∈ S, e ≠ d → u ∉ e.subject.vars

namespace Assignment

variable (h : Assignment R arity cs S)

include h

/-- The values that are assigned are proper and ground, and there are no
bindings in them but the functions themselves. -/
theorem values (hd : d ∈ S) : Proper R arity d ∧ Ground R d.subject ∧ Bare R arity d := by
  have hm := h.unknown d hd
  cases hk : arity d.pattern with
  | none =>
    obtain ⟨hground, hslots⟩ := h.plain d hd hk
    exact ⟨.of_plain hm (hground arity) hk, hground, fun _ => hslots, fun hne => absurd hk hne⟩
  | some k =>
    obtain ⟨us, b, hvalue, hlen, hnodup, hplain, hground, hslots⟩ := h.function d hd k hk
    have hsubject : Ground R d.subject := by
      rw [hvalue]
      exact fun arity => .bind hplain hnodup (hground arity)
    have hproper : Proper R arity d := ⟨hm, hsubject arity, fun k' hk' =>
      ⟨us, b, hvalue, hlen.trans (Option.some.inj (hk.symm.trans hk')), fun u _ => hslots ▸ List.not_mem_nil⟩⟩
    refine ⟨hproper, hsubject, fun hnone => (nomatch hk.symm.trans hnone), fun _ us' b' hvalue' => ?_⟩
    cases hvalue.symm.trans hvalue'
    exact hslots

/-- Each function names only its parameters among the slots. -/
theorem below {k : Nat} (hd : d ∈ S) (hk : arity d.pattern = some k) :
    ∃ t, d.subject.den R (.free R) 0 = .bind R.lambdaSym k t ∧ t.Below k := by
  obtain ⟨us, b, hvalue, rfl, -, -, hground, hslots⟩ := h.function d hd k hk
  refine ⟨_, ?_, below_den hground hslots us.toList us.length⟩
  rw [hvalue, Reserved.lambda, den]
  dsimp only
  rw [Nat.zero_add]
  rfl

/-- The assignments solve the equations if they make each pattern equal to its
subject. -/
theorem solves (hcs : ∀ c ∈ cs, c.Slotless R arity)
    (hequal : ∃ P, EquationSet.instantiate R { equations := S } { equations := cs } = ⟨P, .ok ()⟩ ∧
      ∀ d ∈ P.equations, (d.pattern == d.subject) = true) : Solves R arity cs S := by
  have hvalues (d : Equation) (hd : d ∈ S) := h.values hd
  have hapart : S.Pairwise fun c d => ∀ u, IsParam R arity d u → u ∉ c.subject.vars :=
    (h.distinct.of_map _).imp_of_mem fun {c d} hc hd hne u hu => (h.params d hd u hu).2 c hc hne
  obtain ⟨P', hP', hall⟩ := EquationSet.exists_instantiate (σ := { equations := S })
    (Q := fun c q => Sorted R arity q ∧ ∀ ρ : Valuation, q.den R ρ = c.pattern.den R (ρ.under R S))
    fun c hc => by
      obtain ⟨q, hq, hsorted, -, hden, -⟩ := EquationSet.applyAll_flat hvalues (hcs c hc).sorted
        (hcs c hc).pattern (fun d hd u hu => (h.params d hd u hu).1 c hc) hapart
      exact ⟨q, hq, hsorted, hden⟩
  obtain ⟨P, hP, hequal⟩ := hequal
  cases hP.symm.trans hP'
  refine ⟨fun d hd => ⟨h.unknown d hd, (hvalues d hd).2.1⟩, h.distinct, fun c hc ρ => ?_,
    fun d hd k => h.below hd⟩
  obtain ⟨d, hd, hsubject, hsorted, hden⟩ := exists_of_forall₂_left hall c hc
  rw [← hden, den_eq_of_same hsorted (hequal d hd), hsubject]

end Assignment

/-- **A search without bindings is exact:** it comes to an end, each of its
solutions makes every pattern equal to its subject, and each assignment that
does so, too, agrees with one of the solutions, and with no other, on all that
the solution assigns. -/
theorem solved_exactly (hcs : ∀ c ∈ cs, c.Slotless R arity) :
    ∃ s n t, ofPairs R none (cs.map operands) = .ok s ∧ s.solved R n = some ⟨t, .ok ()⟩ ∧
      (∀ τ ∈ t.solutions, ∃ P, τ.instantiate R { equations := cs } = ⟨P, .ok ()⟩ ∧
        List.Forall₂ (fun c d => d.subject = c.subject ∧ (d.pattern == c.subject) = true)
          cs P.equations) ∧
      ∀ σ : EquationSet, Assignment R arity cs σ.equations →
        (∃ P, σ.instantiate R { equations := cs } = ⟨P, .ok ()⟩ ∧
          ∀ d ∈ P.equations, (d.pattern == d.subject) = true) →
        ∃! τ, τ ∈ t.solutions ∧ ∀ c ∈ τ.equations, σ.contains c = true := by
  have hs := ofPairs_operands R none cs
  have hsorted (c : Equation) (hc : c ∈ cs) := And.intro (hcs c hc).sorted (hcs c hc).ground
  have hslotless : (EquationSet.addEach {} cs).Slotless R arity := .addEach ⟨nofun, rfl⟩ hcs
  obtain ⟨ho, hopen, hpending, hgrows⟩ := open_ofPairs hsorted hs
  have hrepresents := represents_ofPairs (V := fun _ => True) hsorted hs (spares_of_slotless hslotless _)
  obtain ⟨n, t, hsolve⟩ := ho.exists_solve rfl
  refine ⟨_, n, t, hs, hsolve, fun τ hτ => ?_, fun σ hσ hequal => ?_⟩
  · obtain ⟨S, heqs, hS⟩ := ho.completes_of_solve hsolve τ hτ
    have hS' : τ.equations = S := heqs
    refine EquationSet.exists_instantiate (Q := fun c q => (q == c.subject) = true) fun c hc => ?_
    rw [hS']
    obtain ⟨d, hd, hdc⟩ := hgrows.covers c hc
    refine hS.applyAll_beq hslotless (hcs c hc) (fun x hx => (ho.below d hd).1 x ?_) ?_
    · rwa [(hslotless.equations d hd).vars_eq hdc]
    · exact (SolvedIn.congr (ho.patterns d hd) (hsorted c hc) hdc).1 (hS.solved d hd)
  · have hsolves := hσ.solves hcs hequal
    -- a variable that no subject names stands for what the assignment leaves open
    let w := freshVar (cs.map Equation.subject)
    have hw (c : Equation) (hc : c ∈ cs) : .var w ∉ c.subject.names := fun hfree =>
      freshVar_not_mem (List.mem_map_of_mem hc) (mem_vars_of_mem_names hfree)
    have hadmits := hsolves.admits_termOf (V := fun _ => True) (w := w) trivial fun _ _ _ _ => trivial
    have hsolved := hsolves.solvedBy (Θ := termOf R arity σ.equations w) (fun c hc => (hcs c hc).ground)
      fun c hc => hsolves.meets_termOf hc
    have hiff (τ : EquationSet) (hτ : τ ∈ t.solutions) (d : Equation) (hd : d ∈ τ.equations) :=
      hsolves.meets_iff (hrepresents.solution hsolve hτ).1 hw hd
    obtain ⟨τ, ⟨hτ, hmeets⟩, hunique⟩ := hrepresents.follows hsolve hadmits hsolved nofun
    refine ⟨τ, ⟨hτ, fun d hd => (hiff τ hτ d hd).1 (hmeets d hd)⟩, ?_⟩
    rintro τ' ⟨hτ', hcontains⟩
    exact hunique τ' ⟨hτ', fun d hd => (hiff τ' hτ' d hd).2 (hcontains d hd)⟩

/-- The unknown `_f` takes one argument. -/
def unary : Arity := fun n => if n == .var ⟨"f", true⟩ then some 1 else none

/-- `_f(x)` should equal `x`. -/
theorem slotless_unary {x : Var} (hx : x.marked = false) : Equation.Slotless {} unary
    ⟨.app (.sym (Reserved.applySym {})) [.var ⟨"f", true⟩, .var x], .var x⟩ := by
  have hsorted (arity : Arity) : Sorted {} arity (.var x) :=
    .var fun hm => absurd (hx.symm.trans hm) Bool.false_ne_true
  refine ⟨.apply rfl nofun rfl fun a ha => ?_, hsorted, rfl, rfl⟩
  exact List.mem_singleton.1 ha ▸ hsorted _

/-- `solved_exactly` at the search for `applied`: the identity solves it. -/
theorem solved_exactly_applied : ∃ s n t, ofPairs {} none ([applied].map operands) = .ok s ∧
    s.solved {} n = some ⟨t, .ok ()⟩ ∧
      ∃! τ, τ ∈ t.solutions ∧ ∀ c ∈ τ.equations, EquationSet.contains
        { equations := [⟨.var ⟨"f", true⟩, Reserved.lambda {} ⟨⟨"u", false⟩, []⟩ (.var ⟨"u", false⟩)⟩] }
        c = true := by
  have hcs : ∀ c ∈ [applied], c.Slotless {} unary := fun c hc =>
    List.mem_singleton.1 hc ▸ slotless_unary rfl
  obtain ⟨s, n, t, hs, hsolve, -, hfound⟩ := solved_exactly hcs
  refine ⟨s, n, t, hs, hsolve, hfound _ ⟨?_, List.nodup_singleton _, ?_, ?_, ?_⟩
    ⟨{ equations := [⟨applied.subject, applied.subject⟩] }, by cbv, ?_⟩⟩
  all_goals simp only [List.forall_mem_singleton]
  · rfl
  · simp [unary]
  · rintro k hk
    cases hk
    refine ⟨_, _, rfl, rfl, List.nodup_singleton _, fun u hu => ?_, fun _ => .var (by simp), rfl⟩
    rw [List.mem_singleton.1 hu]
  · rintro u ⟨-, us, b, hvalue, hu⟩
    cases hvalue
    obtain rfl := List.mem_singleton.1 hu
    exact ⟨by decide, fun h => absurd rfl h⟩
  · decide

end Search

end SecondOrder
