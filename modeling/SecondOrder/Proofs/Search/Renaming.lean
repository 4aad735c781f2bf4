/-
# The names of bound variables

Similar equations, which differ in the names of their bound variables only,
have the same solutions (`similar_solutions`).  For what a search returns is
exact, and what solves an equation solves each that is similar.

This holds where no variable that is free in a subject is bound in an equation
(`Parted`).  An unknown under a binder is kept from the variable that is bound
there, and stays so after that variable has got another name.  If a variable of
the old name is free in a subject, too, then a value that names it is refused
(`lost_by_name`).
-/

import SecondOrder.Proofs.Equation.Vocabulary
import SecondOrder.Proofs.Search.Slotless

namespace SecondOrder

namespace Expr

variable {R : Reserved} {a b : Expr}

/-- Similar expressions have the same free variables. -/
theorem mem_names_of_similar (ha : Ground R a) (hb : Ground R b) (h : a.similar b = true) {z : Var} :
    .var z ∈ a.names ↔ .var z ∈ b.names := by
  have hden := (similar_iff (ha fun _ => none) (hb fun _ => none)).1 h (.free R)
  rw [← var_mem_nodes_den ha, ← var_mem_nodes_den hb, hden]

end Expr

namespace EquationSet

variable {s : EquationSet} {cs : List Equation} {x : Exclusion}

/-- What adding equations one by one excludes, a pattern among them
excludes. -/
theorem mem_exclusions_addEach (h : x ∈ (s.addEach cs).exclusions) :
    x ∈ s.exclusions ∨ ∃ c ∈ (s.addEach cs).equations, x ∈ exclusionsOf c.pattern := by
  induction cs generalizing s with
  | nil => exact .inl h
  | cons c cs ih =>
    rcases ih h with h | h
    · refine (mem_exclusions_add.1 h).imp_right fun ⟨d, hd, hx⟩ => ⟨d, ?_, hx⟩
      obtain ⟨ds, -, heqs, -⟩ := (grows_addEach (s.add [c]) cs).equations
      exact (show ((s.add [c]).addEach cs).equations = _ from heqs) ▸ List.mem_append_left ds hd
    · exact .inr h

end EquationSet

namespace Equation

variable {R : Reserved} {c d : Equation} {z : Var}

/-- The equation binds the variable. -/
def Binds (c : Equation) (z : Var) : Prop := z ∈ c.pattern.slots ∨ z ∈ c.subject.slots

/-- What an equation binds is one of its variables. -/
theorem Binds.mem_vars (h : c.Binds z) : z ∈ c.pattern.vars ++ c.subject.vars :=
  List.mem_append.2 (h.imp Expr.mem_vars_of_mem_slots Expr.mem_vars_of_mem_slots)

/-- Equations that are the same have the same free variables in their
subjects. -/
theorem mem_names_of_beq (hc : Expr.Ground R c.subject) (hd : Expr.Ground R d.subject)
    (h : (c == d) = true) : .var z ∈ c.subject.names ↔ .var z ∈ d.subject.names :=
  Expr.mem_names_of_similar hc hd (Bool.and_eq_true_iff.1 h).2

end Equation

namespace Search

open SecondOrder.Expr Equation

variable {R : Reserved} {arity : Arity} {V : Var → Prop} {Θ : Expr → Term} {limit : Option Int}
  {s t : Search} {cs ds : List Equation} {w : Var} {n : Nat}

/-- No variable that is free in a subject is bound in an equation or, if
anything is bound, has a name that substitution gives to bound variables. -/
def Parted (cs : List Equation) : Prop :=
  ∀ c ∈ cs, ∀ z : Var, .var z ∈ c.subject.names → ∀ d ∈ cs, ∀ y, d.Binds y → z ≠ y ∧ ¬z.Numbered 'x'

/-- A search spares variables that its equations spare. -/
theorem spares_ofPairs (h : ofPairs R limit (cs.map operands) = .ok s)
    (hV : ∀ z, V z → ∀ c ∈ cs, ∀ y, c.Binds y → z ≠ y ∧ ¬z.Numbered 'x')
    (hbelow : ∀ z, V z → z.Below s.pending.nextFresh) : s.begun.Spares V := by
  rw [ofPairs_operands] at h
  cases h
  have hmem : ∀ c ∈ (EquationSet.addEach {} cs).equations, c ∈ cs := by
    obtain ⟨ds, hds, heqs, -⟩ := (EquationSet.grows_addEach {} cs).equations
    rw [heqs]
    exact fun c hc => hds.subset hc
  refine ⟨?_, fun x hx hz => ?_, ?_⟩
  · rintro z ⟨c, hc, hbinds⟩ hz
    exact (hV z hz c (hmem c hc) z hbinds).1 rfl
  · rcases EquationSet.mem_exclusions_addEach hx with hx | ⟨c, hc, hx⟩
    · cases hx
    · obtain ⟨f, xs, b, hnode, -, hout⟩ := EquationSet.mem_exclusionsOf.1 hx
      exact (hV _ hz c (hmem c hc) _ (.inl (mem_slots_of_mem_nodes hnode _ hout))).1 rfl
  · rintro ⟨y, c, hc, hbinds⟩ z hz
    exact ⟨hbelow z hz, (hV z hz c (hmem c hc) y hbinds).2⟩

/-- The search has noticed every `v<N>` that is free in a subject. -/
theorem below_of_free (hcs : ∀ c ∈ cs, Ground R c.subject)
    (h : ofPairs R limit (cs.map operands) = .ok s) {c : Equation} (hc : c ∈ cs) {z : Var}
    (hz : .var z ∈ c.subject.names) : z.Below s.pending.nextFresh := by
  rw [ofPairs_operands] at h
  cases h
  obtain ⟨ds, hds, heqs, hbelow⟩ := (EquationSet.grows_addEach {} cs).equations
  obtain ⟨d, hd, hdc⟩ := (EquationSet.grows_addEach {} cs).covers c hc
  have hd : d ∈ ds := by rwa [heqs] at hd
  have hz := (mem_names_of_beq (hcs d (hds.subset hd)) (hcs c hc) hdc).2 hz
  exact (hbelow d hd).2 z (mem_vars_of_mem_names hz)

/-- **What a search for parted equations returns is exact,** for values that
name what the subjects name, and a variable `w` that occurs nowhere. -/
theorem exact_of_parted (hcs : ∀ c ∈ cs, Sorted R arity c.pattern ∧ Ground R c.subject)
    (hparted : Parted cs) (hw : ∀ c ∈ cs, w ∉ c.pattern.vars ++ c.subject.vars)
    (hnamed : w.Numbered 'w') (hV : ∀ z, V z → z = w ∨ ∃ c ∈ cs, .var z ∈ c.subject.names)
    (h : ofPairs R limit (cs.map operands) = .ok s) (hsolve : s.solve R n = some ⟨t, .ok ()⟩) :
    Exact R arity V cs t.solutions := by
  have hspares : s.begun.Spares V := by
    refine spares_ofPairs h (fun z hz d hd y hy => ?_) fun z hz => ?_
    · rcases hV z hz with rfl | ⟨c, hc, hz⟩
      · exact ⟨fun heq => hw d hd (heq ▸ hy.mem_vars), hnamed.not_numbered (by decide)⟩
      · exact hparted c hc z hz d hd y hy
    · rcases hV z hz with rfl | ⟨c, hc, hz⟩
      · exact hnamed.below_of_ne (by decide) _
      · exact below_of_free (fun c hc => (hcs c hc).2) h hc hz
  exact (represents_ofPairs hcs h hspares).exact hsolve nofun

/-- In similar equations the same variables are free. -/
theorem exists_free_congr (hcs : ∀ c ∈ cs, Ground R c.subject) (hds : ∀ d ∈ ds, Ground R d.subject)
    (h : List.Forall₂ (fun c d => (c == d) = true) cs ds) {z : Var} :
    (∃ c ∈ cs, .var z ∈ c.subject.names) ↔ ∃ d ∈ ds, .var z ∈ d.subject.names := by
  constructor
  · rintro ⟨c, hc, hz⟩
    obtain ⟨d, hd, hcd⟩ := exists_of_forall₂_left h c hc
    exact ⟨d, hd, (mem_names_of_beq (hcs c hc) (hds d hd) hcd).1 hz⟩
  · rintro ⟨d, hd, hz⟩
    obtain ⟨c, hc, hcd⟩ := exists_of_forall₂ h d hd
    exact ⟨c, hc, (mem_names_of_beq (hcs c hc) (hds d hd) hcd).2 hz⟩

/-- Similar equations are solved by the same values. -/
theorem solvedBy_congr (hcs : ∀ c ∈ cs, Sorted R arity c.pattern ∧ Ground R c.subject)
    (hds : ∀ d ∈ ds, Sorted R arity d.pattern ∧ Ground R d.subject)
    (h : List.Forall₂ (fun c d => (c == d) = true) cs ds) :
    (∀ c ∈ cs, c.SolvedBy R Θ) ↔ ∀ d ∈ ds, d.SolvedBy R Θ := by
  constructor
  · intro hsolved d hd
    obtain ⟨c, hc, hcd⟩ := exists_of_forall₂ h d hd
    exact (SolvedIn.congr (hcs c hc) (hds d hd) hcd).1 (hsolved c hc)
  · intro hsolved c hc
    obtain ⟨d, hd, hcd⟩ := exists_of_forall₂_left h c hc
    exact (SolvedIn.congr (hcs c hc) (hds d hd) hcd).2 (hsolved d hd)

/-- A search for sorted equations returns, and is refused only where it would
go too deep. -/
theorem returns_ofPairs (hcs : ∀ c ∈ cs, Sorted R arity c.pattern ∧ Ground R c.subject)
    (limit : Option Int) : ∃ s, ofPairs R limit (cs.map operands) = .ok s ∧ s.solvable = none ∧
      ∃ n t r, s.solved R n = some ⟨t, r⟩ ∧ ∀ fault, r = .error fault → TooDeep limit fault := by
  have hs := ofPairs_operands R limit cs
  obtain ⟨ho, -⟩ := open_ofPairs hcs hs
  obtain ⟨n, ⟨t, r⟩, hsolve⟩ := ho.returns
  exact ⟨_, hs, rfl, n, t, r, hsolve, fun fault hr => ho.tooDeep_of_solve (hr ▸ hsolve)⟩

/-- **The names of bound variables do not matter** where the equations are
parted: if two lists of sorted equations differ in them only, then both
searches return, refused only where they would go too deep, and have the same
solutions. -/
theorem similar_solutions (hcs : ∀ c ∈ cs, Sorted R arity c.pattern ∧ Ground R c.subject)
    (hds : ∀ d ∈ ds, Sorted R arity d.pattern ∧ Ground R d.subject) (hcparted : Parted cs)
    (hdparted : Parted ds) (h : List.Forall₂ (fun c d => (c == d) = true) cs ds)
    (limit limit' : Option Int) :
    ∃ s s', ofPairs R limit (cs.map operands) = .ok s ∧ ofPairs R limit' (ds.map operands) = .ok s' ∧
      (∃ n t r, s.solved R n = some ⟨t, r⟩ ∧ ∀ fault, r = .error fault → TooDeep limit fault) ∧
      (∃ n t r, s'.solved R n = some ⟨t, r⟩ ∧ ∀ fault, r = .error fault → TooDeep limit' fault) ∧
      ∀ n t n' t', s.solved R n = some ⟨t, .ok ()⟩ → s'.solved R n' = some ⟨t', .ok ()⟩ →
        (∀ τ ∈ t.solutions, ∃ τ' ∈ t'.solutions, (τ == τ') = true) ∧
          ∀ τ' ∈ t'.solutions, ∃ τ ∈ t.solutions, (τ' == τ) = true := by
  obtain ⟨s, hs, hopen, hreturns⟩ := returns_ofPairs hcs limit
  obtain ⟨s', hs', hopen', hreturns'⟩ := returns_ofPairs hds limit'
  refine ⟨s, s', hs, hs', hreturns, hreturns', fun n t n' t' ht ht' => ?_⟩
  rw [solved, hopen] at ht
  rw [solved, hopen'] at ht'
  -- a variable for what a solution leaves open, beside those that are free in the subjects
  obtain ⟨w, hnamed, hw⟩ := exists_numbered_not_mem 'w'
    ((cs ++ ds).flatMap fun c => c.pattern.vars ++ c.subject.vars)
  have hwc (c : Equation) (hc : c ∈ cs) : w ∉ c.pattern.vars ++ c.subject.vars := fun hmem =>
    hw (List.mem_flatMap.2 ⟨c, List.mem_append_left _ hc, hmem⟩)
  have hwd (d : Equation) (hd : d ∈ ds) : w ∉ d.pattern.vars ++ d.subject.vars := fun hmem =>
    hw (List.mem_flatMap.2 ⟨d, List.mem_append_right _ hd, hmem⟩)
  let V (z : Var) : Prop := z = w ∨ ∃ c ∈ cs, .var z ∈ c.subject.names
  have hV (z : Var) : V z ↔ z = w ∨ ∃ d ∈ ds, .var z ∈ d.subject.names :=
    or_congr_right (exists_free_congr (fun c hc => (hcs c hc).2) (fun d hd => (hds d hd).2) h)
  have hexact : Exact R arity V cs t.solutions :=
    exact_of_parted hcs hcparted hwc hnamed (fun _ => id) hs ht
  have hexact' : Exact R arity V ds t'.solutions :=
    exact_of_parted hds hdparted hwd hnamed (fun z => (hV z).1) hs' ht'
  have hfree {e : Equation} (hwe : w ∉ e.pattern.vars ++ e.subject.vars) : .var w ∉ e.subject.names :=
    fun hmem => hwe (List.mem_append_right _ (mem_vars_of_mem_names hmem))
  have hc (c : Equation) (hc : c ∈ cs) :
      Ground R c.subject ∧ .var w ∉ c.subject.names ∧ ∀ z : Var, .var z ∈ c.subject.names → V z :=
    ⟨(hcs c hc).2, hfree (hwc c hc), fun z hz => .inr ⟨c, hc, hz⟩⟩
  have hd (d : Equation) (hd : d ∈ ds) :
      Ground R d.subject ∧ .var w ∉ d.subject.names ∧ ∀ z : Var, .var z ∈ d.subject.names → V z :=
    ⟨(hds d hd).2, hfree (hwd d hd), fun z hz => (hV z).2 (.inr ⟨d, hd, hz⟩)⟩
  exact ⟨fun τ => hexact.same hexact' hc hd (.inl rfl) fun _ => solvedBy_congr hcs hds h,
    fun τ => hexact'.same hexact hd hc (.inl rfl) fun _ => (solvedBy_congr hcs hds h).symm⟩

/-- `λ[x, _p]` should equal `λ[y, a]`. -/
def underBinder (x : String) : Equation :=
  let lambda : Sym := ⟨"lambda", "fns1", false⟩
  ⟨.bind lambda ⟨⟨x, false⟩, []⟩ (.var ⟨"p", true⟩),
    .bind lambda ⟨⟨"y", false⟩, []⟩ (.var ⟨"a", false⟩)⟩

/-- The equation is sorted, and its subject is ground. -/
theorem sorted_underBinder (x : String) : ∀ c ∈ [underBinder x],
    Sorted {} (fun _ => none) c.pattern ∧ Ground {} c.subject := by
  have hbind {R : Reserved} {arity : Arity} {f : Sym} {z : Var} {b : Expr} (hz : z.marked = false)
      (hb : Sorted R arity b) : Sorted R arity (.bind f ⟨z, []⟩ b) :=
    .bind (List.forall_mem_singleton.2 hz) (List.nodup_singleton z) hb
  exact List.forall_mem_singleton.2
    ⟨hbind rfl (.var fun _ => rfl), fun _ => hbind rfl (.var nofun)⟩

/-- It is parted unless the binder has the name of the value. -/
theorem parted_underBinder {x : String} (hx : "a" ≠ x) : Parted [underBinder x] := by
  intro c hc z hz d hd y hy
  obtain rfl := List.mem_singleton.1 hc
  obtain rfl := List.mem_singleton.1 hd
  have hz : .var z ∈ [Expr.var ⟨"a", false⟩] := hz
  cases List.mem_singleton.1 hz
  refine ⟨fun heq => ?_, Bool.eq_false_iff.1 rfl⟩
  rcases hy with hy | hy
  · exact hx (congrArg Var.name (heq.trans (List.mem_singleton.1 hy)))
  · exact absurd (congrArg Var.name (heq.trans (List.mem_singleton.1 hy))) (by decide)

/-- `similar_solutions` where `λ[z, _p]` is written `λ[u, _p]`. -/
theorem similar_solutions_underBinder : ∃ s s' t t',
    Parted [underBinder "z"] ∧ Parted [underBinder "u"] ∧ (underBinder "z" == underBinder "u") = true ∧
      ofPairs {} none ([underBinder "z"].map operands) = .ok s ∧ s.solved {} 6 = some ⟨t, .ok ()⟩ ∧
      ofPairs {} none ([underBinder "u"].map operands) = .ok s' ∧ s'.solved {} 6 = some ⟨t', .ok ()⟩ ∧
      t.solutions.length = 1 ∧ ∀ τ ∈ t.solutions, ∃ τ' ∈ t'.solutions, (τ == τ') = true := by
  have hz : Parted [underBinder "z"] := parted_underBinder (by decide)
  have hu : Parted [underBinder "u"] := parted_underBinder (by decide)
  have hsame : (underBinder "z" == underBinder "u") = true := by decide
  obtain ⟨s, s', hs, hs', -, -, h⟩ := similar_solutions (sorted_underBinder "z") (sorted_underBinder "u")
    hz hu (.cons hsame .nil) none none
  cases (ofPairs_operands {} none [underBinder "z"]).symm.trans hs
  cases (ofPairs_operands {} none [underBinder "u"]).symm.trans hs'
  refine ⟨_, _, ?_, ?_, hz, hu, hsame, hs, ?_, hs', ?_, ?_, (h 6 _ 6 _ ?_ ?_).1⟩
  rotate_left 2
  · cbv
    rfl
  · cbv
    rfl
  · cbv
  · cbv
  · cbv

/-- `_f(b)` should equal `λ[x, b]`, and `_f(_m)` should equal `λ[z, a]`. -/
def sharedFunction (x : String) : List Equation :=
  let name (s : String) : Expr := .var ⟨s, false⟩
  let lambda : Sym := ⟨"lambda", "fns1", false⟩
  let applied (e : Expr) : Expr := .app (.sym (Reserved.applySym {})) [.var ⟨"f", true⟩, e]
  [⟨applied (name "b"), .bind lambda ⟨⟨x, false⟩, []⟩ (name "b")⟩,
    ⟨applied (.var ⟨"m", true⟩), .bind lambda ⟨⟨"z", false⟩, []⟩ (name "a")⟩]

/-- `(λ x, y. x)(a, b)` should equal `a`. -/
def firstOf (y : String) : Equation :=
  let name (s : String) : Expr := .var ⟨s, false⟩
  ⟨.app (.sym (Reserved.applySym {}))
    [Reserved.lambda {} ⟨⟨"x", false⟩, [⟨y, false⟩]⟩ (name "x"), name "a", name "b"], name "a"⟩

/-- The search for the equations returns so many solutions. -/
def Finds (cs : List Equation) (k : Nat) : Prop :=
  ∃ s n t, ofPairs {} none (cs.map operands) = .ok s ∧ s.solved {} n = some ⟨t, .ok ()⟩ ∧
    t.solutions.length = k

/-- It is enough to compute whether solving is refused and how many solutions
it finds. -/
theorem finds_of_solved {k : Nat} (h : (solved {} 12 { pending := .addEach {} cs }).map
    (fun r => (r.result.toBool, r.state.solutions.length)) = some (true, k)) : Finds cs k := by
  obtain ⟨⟨t, r⟩, ht, hr⟩ := Option.map_eq_some_iff.1 h
  cases r with
  | error fault => cases hr
  | ok => exact ⟨_, 12, t, ofPairs_operands {} none cs, ht, congrArg Prod.snd hr⟩

/-- Equations in whose subjects nothing is unknown or reserved, and in which no
unknown is bound, that have a solution only with other names for their bound
variables. -/
def Lost (cs ds : List Equation) : Prop :=
  (∀ c ∈ cs ++ ds, c.subject.Concrete {} ∧ ∀ z ∈ c.pattern.slots, z.marked = false) ∧
    List.Forall₂ (fun c d => (c == d) = true) cs ds ∧ Finds cs 0 ∧ Finds ds 1

/-- **Solutions are lost by the names of bound variables.**  That `λ[a, _p]`
equals `λ[y, a]` has no solution, for `_p` is kept from `a`; written
`λ[z, _p]`, the pattern gives `a` to `_p`.  So it is with the names that an
imitation takes from a subject, where no pattern binds anything: when `_f(_m)`
has become `λ[a, _t(_m)]`, the unknown `_m` is kept from `a` that it should be.
And when a function is applied, the arguments take the places of its variables
one after the other. -/
theorem lost_by_name : Lost [underBinder "a"] [underBinder "z"] ∧
    Lost (sharedFunction "a") (sharedFunction "y") ∧ Lost [firstOf "a"] [firstOf "y"] := by
  refine ⟨⟨?_, .cons (by decide) .nil, ?_, ?_⟩,
    ⟨?_, .cons (by decide) (.cons (by decide) .nil), ?_, ?_⟩,
    ⟨?_, .cons (by decide) .nil, ?_, ?_⟩⟩
  case refine_2 | refine_3 | refine_5 | refine_6 | refine_8 | refine_9 =>
    exact finds_of_solved (by decide +kernel)
  · simp [underBinder, Concrete, nodes, slots, isMarked, Binders.toList, Reserved.lambdaSym,
      Reserved.applySym, Reserved.symbol]
  · simp [sharedFunction, Concrete, nodes, slots, slotsAll, isMarked, Binders.toList, Reserved.lambdaSym,
      Reserved.applySym, Reserved.symbol]
  · simp [firstOf, Concrete, nodes, slots, slotsAll, isMarked, Binders.toList, Reserved.lambda]

end Search

end SecondOrder
