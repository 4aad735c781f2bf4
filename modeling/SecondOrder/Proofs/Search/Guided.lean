/-
# A search that is shown the way

A guide tells the term of the value of every unknown (`Valuation.guide`).  If
it solves what is pending, the search cannot help following it: what a step
assigns is what the guide tells, what is pending afterwards is solved by it,
too (`Guided.advance`), and the deterministic part does not end without a
solution (`Guided.ended`).

The one thing that could end it are the exclusions.  They keep the bound
variables of the patterns out of the values, so the guide may name only
variables that are bound nowhere and will not be (`Search.Spares`).
-/

import SecondOrder.Proofs.Search.Branched

namespace SecondOrder

namespace Valuation

open SecondOrder.Expr

variable {R : Reserved} {ρ : Valuation} {c : Equation}

/-- To enter variables with the meanings that they have changes nothing. -/
theorem enter_self (ρ : Valuation) (xs : List Var) : ρ.enter xs (xs.map fun x => ρ.val (.var x)) = ρ := by
  induction xs with
  | nil => rfl
  | cons x xs ih =>
    have hupdate : ρ.update (.var x) (ρ.val (.var x)) = ρ := by
      refine congrArg (fun val => (⟨val, ρ.fn⟩ : Valuation)) (funext fun e => ?_)
      by_cases he : e = .var x
      · rw [he]
        exact if_pos (same_refl _)
      · exact if_neg fun h => he (same_var_iff.1 h)
    rw [List.map_cons, enter, hupdate, ih]

/-- To give an unknown the value that it has changes nothing. -/
theorem assign_eq_self (hc : c.pattern.IsName) (hval : c.subject.den R ρ = ρ.val c.pattern)
    (hfn : c.subject.call R ρ (c.subject.den R ρ) = ρ.fn c.pattern) : ρ.assign R c = ρ := by
  refine congrArg₂ Valuation.mk (funext fun n => ?_) (funext fun n => ?_)
  · by_cases hn : n = c.pattern
    · rw [if_pos ((beq_name_iff hc).2 hn), hn, hval]
    · rw [if_neg (mt (beq_name_iff hc).1 hn)]
  · by_cases hn : n = c.pattern
    · rw [if_pos ((beq_name_iff hc).2 hn), hn, hfn]
    · rw [if_neg (mt (beq_name_iff hc).1 hn)]

end Valuation

namespace Equation

open SecondOrder.Expr

variable {R : Reserved} {arity : Arity} {Θ : Expr → Term} {c d d' : Equation}

/-- The pattern means what the subject means, if the unknowns stand for the
values whose terms `Θ` tells. -/
abbrev SolvedBy (R : Reserved) (Θ : Expr → Term) (c : Equation) : Prop :=
  c.SolvedIn R (Valuation.guide R · Θ)

/-- The assignment gives the unknown the value whose term `Θ` tells. -/
def Meets (R : Reserved) (Θ : Expr → Term) (c : Equation) : Prop :=
  c.subject.den R (Valuation.free R) 0 = Θ c.pattern

/-- The assignment changes nothing where `Θ` tells the values. -/
def Fits (R : Reserved) (Θ : Expr → Term) (c : Equation) : Prop :=
  ∀ ρ : Valuation, (ρ.guide R Θ).assign R c = ρ.guide R Θ

/-- **What gives an unknown its value fits.** -/
theorem Meets.fits (h : c.Meets R Θ) (hm : c.pattern.isMarked = true) (he : Ground R c.subject) :
    c.Fits R Θ := by
  intro ρ
  have hden : c.subject.den R (ρ.guide R Θ) = c.subject.den R ρ := den_guide he
  refine Valuation.assign_eq_self (isName_of_isMarked hm) ?_ ?_
  · rw [hden, Valuation.guide_val_of_isMarked hm, ← h]
    exact funext fun n => den_eq_fill_nil he ρ n
  · have hcall : c.subject.call R (ρ.guide R Θ) = c.subject.call R ρ := funext fun d =>
      call_ground he (fun n hn => Valuation.guide_val_of_not_isMarked (not_isMarked_of_mem_names he hn)) d
    rw [hcall, hden]
    refine funext fun ds => ?_
    rw [call_eq_call he, h]
    rfl

/-- To solve an equation for an unknown is to tell its value. -/
theorem SolvedIn.meets (h : c.SolvedBy R Θ) (hm : c.pattern.isMarked = true) : c.Meets R Θ := by
  have hfree := congrFun (h (Valuation.free R)) 0
  dsimp only at hfree
  rw [den_of_isMarked hm, Valuation.guide_val_of_isMarked hm] at hfree
  dsimp only at hfree
  rw [Term.fill_free] at hfree
  exact hfree.symm

/-- **An assignment that fits makes no difference** to what is solved. -/
theorem Fits.solvedBy_iff (h : c.Fits R Θ) (happ : Applied R arity c d.pattern d'.pattern)
    (hsubject : d'.subject = d.subject) : d'.SolvedBy R Θ ↔ d.SolvedBy R Θ := by
  refine forall_congr' fun ρ => ?_
  rw [happ.den, h, hsubject]

/-- Only the values of the unknowns that occur matter. -/
theorem SolvedBy.congr {Θ' : Expr → Term} (hp : Sorted R arity c.pattern)
    (h : ∀ n ∈ c.pattern.names, n.isMarked = true → Θ' n = Θ n) (hs : c.SolvedBy R Θ) :
    c.SolvedBy R Θ' := fun ρ => by
  refine (den_congr hp fun n hn => ⟨fun _ => ?_, fun hfn => ?_⟩).trans (hs ρ)
  · cases hm : n.isMarked with
    | true => rw [Valuation.guide_val_of_isMarked hm, Valuation.guide_val_of_isMarked hm, h n hn hm]
    | false =>
      rw [Valuation.guide_val_of_not_isMarked hm, Valuation.guide_val_of_not_isMarked hm]
  · funext ds
    rw [Valuation.guide_fn, Valuation.guide_fn, h n hn hfn.1]

/-- The bodies of bindings are solved if the bindings are. -/
theorem solvedBy_body {f : Sym} {zs : Binders} {b e : Expr} (hp : Sorted R arity (.bind f zs b))
    (he : Ground R (.bind f zs e)) (h : SolvedBy R Θ ⟨.bind f zs b, .bind f zs e⟩) :
    SolvedBy R Θ ⟨b, e⟩ := by
  intro ρ
  funext n
  cases hp with
  | bind plain distinct body =>
    have hterm := (Term.bind.inj (congrFun (h (Valuation.free R)) 0)).2.2
    rw [Nat.zero_add] at hterm
    have hlen : zs.toList.length = (zs.toList.map fun z => ρ.val (.var z)).length :=
      (List.length_map _).symm
    have hval : (zs.toList.map fun z => (ρ.guide R Θ).val (.var z)) =
        zs.toList.map fun z => ρ.val (.var z) :=
      List.map_congr_left fun z hz => Valuation.guide_val_of_not_isMarked (plain z hz)
    have hb := den_guide_enter (ρ := ρ) (Θ := Θ) body hlen plain n
    have hb' := den_eq_fill (ρ := ρ) (ground_of_bind he) hlen plain n
    rw [← hval, Valuation.enter_self] at hb
    rw [Valuation.enter_self] at hb'
    dsimp only
    rw [hb, hb', hval]
    exact congrArg (Term.fill ρ _ n n) hterm

/-- **What is solved does not clash.** -/
theorem rule_ne_clash (hp : Sorted R arity c.pattern) (he : Ground R c.subject)
    (h : c.SolvedBy R Θ) : c.rule R ≠ .clash := by
  intro hr
  obtain ⟨hne, hm, hdec, hflex⟩ := of_clash hr
  have hatom (hcompound : c.pattern.isCompound = false) : ¬∀ ρ : Valuation,
      c.pattern.den R (ρ.guide R Θ) = c.pattern.den R ρ := by
    intro hden
    have hsimilar := (similar_iff hp (he arity)).2 fun ρ => (hden ρ).symm.trans (h ρ)
    rw [similar, hne, alphaEquivalent, hcompound] at hsimilar
    cases hsimilar
  obtain ⟨p, e⟩ := c
  cases hp with
  | var => exact hatom rfl fun ρ => Valuation.guide_val_of_not_isMarked hm
  | @sym f =>
    have hf : f.marked = false := hm
    refine hatom rfl fun ρ => ?_
    rw [den, den, hf]
    rfl
  | int n => exact hatom rfl fun _ => rfl
  | float x => exact hatom rfl fun _ => rfl
  | str s => exact hatom rfl fun _ => rfl
  | app head args => exact Bool.false_ne_true (hdec.symm.trans (decomposes_of_app head he h))
  | @apply m as unknown nonempty =>
    rw [isFlexible, isApply_of_ne_nil m nonempty] at hflex
    cases hflex
  | @bind f xs b =>
    obtain ⟨ys, d, rfl, hlen⟩ := exists_bind_of_den he (congrFun (h (Valuation.free R)) 0).symm
    exact Bool.false_ne_true (hdec.symm.trans (decomposes_bind hlen.symm))

end Equation

namespace Search

open SecondOrder.Expr Equation

variable {R : Reserved} {arity : Arity} {V : Var → Prop} {Θ : Expr → Term} {s t : Search}
  {σ τ : EquationSet} {c d : Equation} {z : Var}

/-- A pending equation binds the variable. -/
def Binds (s : Search) (z : Var) : Prop :=
  ∃ c ∈ s.pending.equations, z ∈ c.pattern.slots ∨ z ∈ c.subject.slots

/-- A step may bind the variable, or keep it out of a value.  Nothing is bound
where nothing was. -/
def MayBind (s : Search) (z : Var) : Prop :=
  (∃ y, s.Binds y) ∧ (s.Binds z ∨ z.Numbered 'x' ∨ ¬z.Below s.pending.nextFresh)

/-- What is bound may be bound. -/
theorem Binds.mayBind (h : s.Binds z) : s.MayBind z := ⟨⟨z, h⟩, .inl h⟩

/-- The variables `V` are not bound in what is pending, and no step will bind
one. -/
structure Spares (V : Var → Prop) (s : Search) : Prop where
  binds : ∀ z, s.Binds z → ¬V z
  outers : ∀ x ∈ s.pending.exclusions, ¬V x.outer
  named : (∃ y, s.Binds y) → ∀ z, V z → z.Below s.pending.nextFresh ∧ ¬z.Numbered 'x'

namespace Spares

/-- None of the variables that are spared may be bound. -/
theorem not_of_mayBind (h : s.Spares V) (hz : s.MayBind z) : ¬V z := by
  intro hV
  obtain ⟨hbelow, hx⟩ := h.named hz.1 z hV
  rcases hz.2 with hz | hz | hz
  · exact h.binds z hz hV
  · exact hx hz
  · exact hz hbelow

/-- A step binds none of them. -/
theorem step (h : s.Spares V) (hbinds : ∀ z, t.Binds z → s.MayBind z)
    (houters : ∀ x ∈ t.pending.exclusions, x ∈ s.pending.exclusions ∨ s.MayBind x.outer)
    (hcounter : s.pending.nextFresh ≤ t.pending.nextFresh) : t.Spares V where
  binds z hz := h.not_of_mayBind (hbinds z hz)
  outers x hx := (houters x hx).elim (h.outers x) h.not_of_mayBind
  named hy z hz := by
    obtain ⟨y, hy⟩ := hy
    obtain ⟨hbelow, hx⟩ := h.named (hbinds y hy).1 z hz
    exact ⟨hbelow.mono hcounter, hx⟩

/-- Neither does an assignment, if its value does not. -/
theorem instantiate (h : s.Spares V) {a : Equation} {ds : List Equation}
    (hall : List.Forall₂ (Instantiated R arity a) ds t.pending.equations)
    (hds : ∀ d ∈ ds, d ∈ s.pending.equations)
    (hslots : ∀ z ∈ a.subject.slots, s.Binds z ∨ ¬z.Below s.pending.nextFresh)
    (hflat : (¬∃ y, s.Binds y) → ∀ d ∈ s.pending.equations, Flat R arity a d.pattern)
    (hexclusions : t.pending.exclusions = s.pending.exclusions)
    (hcounter : s.pending.nextFresh ≤ t.pending.nextFresh) : t.Spares V := by
  refine h.step (fun z hz => ?_) (fun x hx => .inl (hexclusions ▸ hx)) hcounter
  obtain ⟨d', hd', hz⟩ := hz
  obtain ⟨d, hd, hi⟩ := exists_of_forall₂ hall d' hd'
  have hd := hds d hd
  rcases hz with hz | hz
  · refine ⟨Classical.byContradiction fun hnone => ?_, ?_⟩
    · rw [hi.flat (hflat hnone d hd)] at hz
      cases hz
    · rcases hi.slots z hz with hz | hz | hz
      · exact .inl ⟨d, hd, .inl hz⟩
      · exact (hslots z hz).imp_right .inr
      · exact .inr (.inl hz)
  · exact Binds.mayBind ⟨d, hd, .inr (hi.subject ▸ hz)⟩

end Spares

/-- The guide gives every function a function that names no variable bound in
it, and names only the variables `V`. -/
structure Admits (R : Reserved) (arity : Arity) (V : Var → Prop) (Θ : Expr → Term) : Prop where
  function : ∀ m : Expr, m.isMarked = true → ∀ k, arity m = some k →
    ∃ t, Θ m = .bind R.lambdaSym k t ∧ t.Below k
  names : ∀ m : Expr, m.isMarked = true → ∀ z, .var z ∈ (Θ m).nodes → V z

/-- What gives an unknown its value names only the variables `V`. -/
theorem Admits.names_of_meets (h : Admits R arity V Θ) (hd : d.Meets R Θ) (hm : d.pattern.isMarked = true)
    (he : Ground R d.subject) (hz : .var z ∈ d.subject.names) : V z := by
  have hshows : Shows (.var z) := .inr ⟨z, rfl⟩
  have hleaf := (leaf_mem_nodes_den (he arity) hshows (Shown.free (R := R) hshows) 0).2 ⟨hz, trivial⟩
  rw [hd] at hleaf
  exact h.names d.pattern hm z hleaf

/-- The guide `Θ` solves what is pending, and names only variables that no
exclusion keeps out of a value. -/
structure Guided (R : Reserved) (arity : Arity) (V : Var → Prop) (Θ : Expr → Term) (s : Search)
    (σ : EquationSet) : Prop where
  admits : Admits R arity V Θ
  solved : ∀ c ∈ s.pending.equations, c.SolvedBy R Θ
  made : ∀ c ∈ σ.equations, ∀ z : Var, z.marked = false → .var z ∈ c.subject.names → V z
  spares : s.Spares V

/-- Values that name only the variables `V` respect exclusions of other
variables. -/
theorem respects_of_names {x : Exclusion} (houter : x.outer.marked = false) (hx : ¬V x.outer)
    (hτ : ∀ c ∈ τ.equations, ∀ z : Var, z.marked = false → .var z ∈ c.subject.names → V z) :
    τ.respects x = true := by
  rw [EquationSet.respects, EquationSet.lookup?]
  cases hfind : τ.find? fun c => c.pattern == x.inner with
  | none => rfl
  | some c =>
    rw [houter]
    dsimp only [Option.map]
    rw [if_neg Bool.false_ne_true]
    dsimp only
    rw [Bool.not_eq_true', Bool.eq_false_iff]
    intro hfree
    exact hx (hτ c (List.mem_of_find?_eq_some hfind) _ houter (occursFree_var_iff.1 hfree))

namespace Guided

/-- A solution whose values name only the variables `V` is accepted. -/
theorem accepts (hg : Guided R arity V Θ s σ) (ho : Open R arity s σ)
    (hτ : ∀ c ∈ τ.equations, ∀ z : Var, z.marked = false → .var z ∈ c.subject.names → V z) :
    s.accepts τ = true :=
  List.all_eq_true.2 fun x hx => respects_of_names (ho.exclusions x hx) (hg.spares.outers x hx) hτ

/-- To take an equation off leaves a search guided. -/
theorem drop (hg : Guided R arity V Θ s σ) (c : Equation) : Guided R arity V Θ (s.drop c) σ where
  admits := hg.admits
  solved d hd := hg.solved d (mem_of_mem_drop hd)
  made := hg.made
  spares := hg.spares.step (fun _ ⟨d, hd, hz⟩ => Binds.mayBind ⟨d, mem_of_mem_drop hd, hz⟩)
    (fun _ hx => .inl hx) (Nat.le_refl _)

/-- What assigns an unknown that stands alone assigns what the guide tells. -/
theorem assign (hg : Guided R arity V Θ s σ) (ho : Open R arity s σ) (hc : c ∈ s.pending.equations)
    (hr : c.rule R = .assign) :
    ∃ t, (s.drop c).assign R c = ⟨t, .ok true⟩ ∧ Assigned R arity (s.drop c) σ c t ∧
      c.Meets R Θ ∧ Guided R arity V Θ t (σ.add [c]) := by
  obtain ⟨hp, he⟩ := ho.patterns c hc
  have hm := isMarked_of_assign hr
  have hmeets := SolvedIn.meets (hg.solved c hc) hm
  have hplain := hp.plain_of_isMarked hm
  have heqs : (σ.add [c]).equations = σ.equations ++ [c] := by
    refine EquationSet.equations_add_singleton hm fun d hd h => ho.apart d hd c hc ?_
    rw [h]
    exact mem_names_self hm
  have hmade : ∀ d ∈ (σ.add [c]).equations, ∀ z : Var, z.marked = false →
      .var z ∈ d.subject.names → V z := by
    intro d hd z hz hfree
    rw [heqs] at hd
    rcases List.mem_append.1 hd with hd | hd
    · exact hg.made d hd z hz hfree
    · rw [List.mem_singleton.1 hd] at hfree
      exact hg.admits.names_of_meets hmeets hm he hfree
  obtain ⟨t, ⟨ha, hassigned⟩ | ⟨ha, -⟩⟩ := ho.assign_pending hc hr
  · refine ⟨t, ha, hassigned, hmeets, hg.admits, fun d' hd' => ?_, hmade, ?_⟩
    · obtain ⟨d, hd, hi⟩ := exists_of_forall₂ hassigned.instantiated d' hd'
      exact ((hmeets.fits hm he).solvedBy_iff hi.applied hi.subject).2 (hg.solved d (mem_of_mem_drop hd))
    · refine hg.spares.instantiate hassigned.instantiated (fun d => mem_of_mem_drop)
        (fun z hz => .inl ⟨c, hc, .inr hz⟩) (fun hnone d hd => ⟨?_, fun _ => ?_, fun h => absurd hplain h⟩)
        hassigned.exclusions (Nat.le_of_eq hassigned.counter.symm)
      · exact List.eq_nil_iff_forall_not_mem.2 fun z hz => hnone ⟨z, d, hd, .inl hz⟩
      · exact List.eq_nil_iff_forall_not_mem.2 fun z hz => hnone ⟨z, c, hc, .inr hz⟩
  · obtain ⟨σ', rest, ds, hσ, -, hfalse, -⟩ := assign_ok ha
    have hsolutions : s.solutions = σ' :: rest := hσ
    rw [ho.solutions] at hsolutions
    cases hsolutions
    exact absurd (hfalse.trans ((hg.drop c).accepts (ho.drop c) hmade)) Bool.false_ne_true

end Guided

namespace Realigned

variable {P : EquationSet}

/-- What is bound after alignment was bound before, or is new. -/
theorem mayBind (h : Realigned R arity s c P d) (ho : Open R arity s σ) (hc : c ∈ s.pending.equations)
    (hz : z ∈ d.pattern.slots ∨ z ∈ d.subject.slots) : s.MayBind z := by
  rcases h.shape with ⟨f, as, g, bs, -, rfl, -⟩ | ⟨f, zs, b, e, rfl, -⟩
  · exact Binds.mayBind ⟨d, hc, hz⟩
  · have hterm := congrFun (h.aligned.denSubject (Valuation.free R)) 0
    obtain ⟨ys, e', hsubject, -⟩ := exists_bind_of_den (ho.patterns c hc).2 hterm.symm
    refine ⟨⟨ys.first, c, hc, .inr ?_⟩, (h.aligned.slots z hz).imp (fun hz => ⟨c, hc, hz⟩) .inr⟩
    rw [hsubject]
    exact mem_slots_bind.2 (.inl List.mem_cons_self)

/-- What is kept out of values after alignment was so before, or may be
bound. -/
theorem outer_mayBind (h : Realigned R arity s c P d) (ho : Open R arity s σ)
    (hc : c ∈ s.pending.equations) {x : Exclusion}
    (hx : x ∈ P.exclusions) : x ∈ s.pending.exclusions ∨ s.MayBind x.outer := by
  rcases h.shape with ⟨f, as, g, bs, -, -, rfl⟩ | ⟨f, zs, b, e, hd, hiff⟩
  · exact .inl hx
  · refine ((hiff x).1 hx).imp_right fun hx => h.mayBind ho hc (.inl ?_)
    obtain ⟨g, ys, b', hnode, -, hout⟩ := EquationSet.mem_exclusionsOf.1 hx
    exact mem_slots_of_mem_nodes hnode _ hout

/-- **The pieces of a solved equation are solved.** -/
theorem solvedBy (h : Realigned R arity s c P d) (hdec : c.decomposes R = true)
    (hs : c.SolvedBy R Θ) : ∀ e ∈ d.pieces, e.SolvedBy R Θ := by
  have hd : d.SolvedBy R Θ := fun ρ =>
    (h.aligned.denPattern _).trans ((hs ρ).trans (h.aligned.denSubject ρ).symm)
  have hp := h.aligned.pattern
  have he := h.aligned.subject
  have hdec := h.decomposes hdec
  rcases h.shape with ⟨f, as, g, bs, rfl, -, -⟩ | ⟨f, zs, b, e, rfl, -⟩
  · rw [Equation.decomposes, Bool.and_eq_true, Bool.not_eq_true'] at hdec
    have hf := (sorted_of_not_isApply hp hdec.1).1.ne_applySym
    have hg := ((ground_of_app he).1 arity).ne_applySym
    exact (solved_app_iff hf hg (eq_of_beq hdec.2)).1 hd
  · intro e' he'
    rcases List.mem_append.1 he' with he' | he'
    · rw [List.zipWith_self] at he'
      obtain ⟨z, hz, rfl⟩ := List.mem_map.1 he'
      have hplain : z.marked = false := not_isMarked_of_mem_slots hp (mem_slots_bind.2 (.inl hz))
      exact fun ρ => Valuation.guide_val_of_not_isMarked hplain
    · rw [List.mem_singleton.1 he']
      exact solvedBy_body hp he hd

/-- The slots of the pieces are slots of the equation. -/
theorem slots_pieces (h : Realigned R arity s c P d) {e : Equation}
    (he : e ∈ d.pieces) (hz : z ∈ e.pattern.slots ∨ z ∈ e.subject.slots) :
    z ∈ d.pattern.slots ∨ z ∈ d.subject.slots := by
  rcases h.shape with ⟨f, as, g, bs, rfl, -, -⟩ | ⟨f, zs, b, e', rfl, -⟩
  · obtain ⟨hep, hes⟩ := mem_zipWith_mk he
    refine hz.imp (fun hz => ?_) fun hz => ?_
    · refine mem_slots_app.2 ((List.mem_cons.1 hep).imp (fun heq => ?_) fun h => ⟨_, h, hz⟩)
      rwa [heq] at hz
    · refine mem_slots_app.2 ((List.mem_cons.1 hes).imp (fun heq => ?_) fun h => ⟨_, h, hz⟩)
      rwa [heq] at hz
  · rcases List.mem_append.1 he with he | he
    · rw [List.zipWith_self] at he
      obtain ⟨y, -, rfl⟩ := List.mem_map.1 he
      exact hz.elim nofun nofun
    · rw [List.mem_singleton.1 he] at hz
      exact hz.imp (fun hz => mem_slots_bind.2 (.inr hz)) fun hz => mem_slots_bind.2 (.inr hz)

end Realigned

namespace Guided

/-- **A step follows the guide.** -/
theorem advance (hg : Guided R arity V Θ s σ) (ho : Open R arity s σ) (hc : c ∈ s.pending.equations)
    (h : Advance R s c t) :
    ∃ σ' new, Open R arity t σ' ∧ σ'.equations = σ.equations ++ new ∧ Guided R arity V Θ t σ' ∧
      ∀ d ∈ new, d.Meets R Θ := by
  cases h with
  | trivial hr => exact ⟨σ, [], ho.drop c, (List.append_nil _).symm, hg.drop c, nofun⟩
  | assign hr ha =>
    obtain ⟨t', ha', hassigned, hmeets, hg'⟩ := hg.assign ho hc hr
    cases ha.symm.trans ha'
    refine ⟨_, [c], hassigned.opened, hassigned.equations, hg', fun d hd => ?_⟩
    exact List.mem_singleton.1 hd ▸ hmeets
  | @align P d hr ha done =>
    have h := ho.realigned_of_align hc hr ha
    refine ⟨σ, [], h.opened ho, (List.append_nil _).symm,
      ⟨hg.admits, fun e he => hg.solved e (h.mem_pending he), hg.made, ?_⟩, nofun⟩
    refine hg.spares.step (fun z hz => ?_) (fun x hx => h.outer_mayBind ho hc hx) h.counter
    obtain ⟨e, he, hz⟩ := hz
    exact Binds.mayBind ⟨e, h.mem_pending he, hz⟩
  | @decompose P d hr ha again =>
    have h := ho.realigned_of_align hc hr ha
    have hdec := decomposes_of_rule hr
    have hbinds (e : Equation) (he : e ∈ (P.add d.pieces).equations) (z : Var)
        (hz : z ∈ e.pattern.slots ∨ z ∈ e.subject.slots) : s.MayBind z := by
      rcases h.mem_add_pieces he with he | he
      · exact Binds.mayBind ⟨e, he, hz⟩
      · exact h.mayBind ho hc (h.slots_pieces he hz)
    refine ⟨σ, [], h.opened_pieces ho hc hdec, (List.append_nil _).symm,
      ⟨hg.admits, fun e he => ?_, hg.made, ?_⟩, nofun⟩
    · exact (h.mem_add_pieces he).elim (hg.solved e) (h.solvedBy hdec (hg.solved c hc) e)
    · refine hg.spares.step (fun z hz => ?_) (fun x hx => ?_)
        (Nat.le_trans h.counter (EquationSet.grows_add P d.pieces).counter)
      · obtain ⟨e, he, hz⟩ := hz
        exact hbinds e he z hz
      · rcases EquationSet.mem_exclusions_add.1 hx with hx | ⟨e, he, hx⟩
        · exact h.outer_mayBind ho hc hx
        · obtain ⟨g, ys, b', hnode, -, hout⟩ := EquationSet.mem_exclusionsOf.1 hx
          exact .inr (hbinds e he _ (.inl (mem_slots_of_mem_nodes hnode _ hout)))
  | contract hr hred hcon =>
    rw [(ho.patterns c hc).1.isRedex_eq_false] at hred
    cases hred

/-- **A run follows the guide.** -/
theorem reaches (hg : Guided R arity V Θ s σ) (ho : Open R arity s σ) (h : Reaches R s t) :
    ∃ σ' new, Open R arity t σ' ∧ σ'.equations = σ.equations ++ new ∧ Guided R arity V Θ t σ' ∧
      ∀ d ∈ new, d.Meets R Θ := by
  induction h generalizing σ with
  | refl => exact ⟨σ, [], ho, (List.append_nil _).symm, hg, nofun⟩
  | step first _ ih =>
    obtain ⟨c, hbest, hadv⟩ := advance_of_step first
    obtain ⟨σ₁, new₁, ho₁, heqs₁, hg₁, hnew₁⟩ := hg.advance ho (EquationSet.mem_of_best? hbest) hadv
    obtain ⟨σ₂, new₂, ho₂, heqs₂, hg₂, hnew₂⟩ := ih hg₁ ho₁
    refine ⟨σ₂, new₁ ++ new₂, ho₂, by rw [heqs₂, heqs₁, List.append_assoc], hg₂, fun d hd => ?_⟩
    exact (List.mem_append.1 hd).elim (hnew₁ d) (hnew₂ d)

/-- **A search that is guided is not refuted.** -/
theorem ended {last : Attempt Search (Option Equation)} (hg : Guided R arity V Θ s σ)
    (ho : Open R arity s σ) (h : s.step R = .stop last) :
    last = ⟨{ s with solvable := some true }, .ok none⟩ ∨
      ∃ c ∈ s.pending.equations, c.rule R = .guess ∧ last = ⟨s, .ok (some c)⟩ := by
  rcases halt_of_step h with ⟨-, rfl⟩ | ⟨c, hbest, hhalt⟩
  · exact .inl rfl
  · have hc := EquationSet.mem_of_best? hbest
    cases hhalt with
    | clash hr => exact absurd hr (rule_ne_clash (ho.patterns c hc).1 (ho.patterns c hc).2 (hg.solved c hc))
    | excluded hr ha =>
      obtain ⟨t', ha', -⟩ := hg.assign ho hc hr
      cases ha.symm.trans ha'
    | branch hr => exact .inr ⟨c, hc, hr, rfl⟩
    | assignFault hr ha =>
      obtain ⟨t', ha', -⟩ := hg.assign ho hc hr
      cases ha.symm.trans ha'
    | alignFault hr ha =>
      obtain ⟨P, d, ha', -⟩ := ho.realigned hc (decomposes_of_rule hr)
      cases ha.symm.trans ha'
    | contractFault hr hred =>
      rw [(ho.patterns c hc).1.isRedex_eq_false] at hred
      cases hred

end Guided

end Search
end SecondOrder
