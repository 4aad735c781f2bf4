/-
# Steps seen from their end

`Search.Finishes` says that a list of assignments completes the solution under
construction: it solves everything pending, respects the exclusions, and its
parameters are new.  What finishes a search after a step finishes it before,
together with the assignment that the step has made, if any
(`Open.finishes_of_advance`).
-/

import SecondOrder.Proofs.Equation.Rule
import SecondOrder.Proofs.Expr.Template
import SecondOrder.Proofs.Search.Invariant

namespace SecondOrder

namespace Expr

variable {R : Reserved} {arity : Arity}

/-- An unknown that stands alone is not a function. -/
theorem Sorted.plain_of_isMarked {m : Expr} (h : Sorted R arity m) (hm : m.isMarked = true) :
    arity m = none := by
  cases h with
  | var plain => exact plain hm
  | sym _ plain => exact plain hm
  | _ => cases hm

/-- What is sorted is no redex: only unknowns are applied in it. -/
theorem Sorted.isRedex_eq_false {p : Expr} (h : Sorted R arity p) : p.isRedex R = false := by
  cases h with
  | app head args => exact isRedex_of_ne head.ne_applySym _
  | apply unknown => exact isRedex_of_isMarked unknown _
  | _ => rfl

end Expr

namespace Equation

open SecondOrder.Expr

variable {R : Reserved} {arity : Arity} {c d : Equation} {S : List Equation}

/-- For an unknown that is no function any sorted value is proper. -/
theorem Proper.of_plain (hm : c.pattern.isMarked = true) (he : Sorted R arity c.subject)
    (hplain : arity c.pattern = none) : Proper R arity c :=
  ⟨hm, he, fun _ hk => by cases hplain.symm.trans hk⟩

/-- An equation between equal nodes is solved by every list of assignments,
since its subject has no unknown in it. -/
theorem solved_of_trivial (hp : Sorted R arity c.pattern) (he : Ground R c.subject)
    (hS : ∀ d ∈ S, d.pattern.isMarked = true) (h : (c.pattern == c.subject) = true) :
    Solved R S c := fun _ =>
  (den_eq_of_same hp h).trans (Valuation.den_under hS he)

/-- An assignment solves the equation that it is. -/
theorem solved_of_assign (he : Ground R c.subject) (hS : ∀ d ∈ S, d.pattern.isMarked = true)
    (hm : c.pattern.isMarked = true) : Solved R (c :: S) c := fun ρ => by
  dsimp only
  rw [den_of_isMarked hm, Valuation.under, Valuation.assign_val_self]
  exact Valuation.den_under hS he

/-- A pattern that decomposes applies no unknown. -/
theorem sorted_of_not_isApply {f : Expr} {as : List Expr} (h : Sorted R arity (.app f as))
    (happly : (Expr.app f as).isApply R = false) :
    Sorted R arity f ∧ ∀ a ∈ as, Sorted R arity a := by
  cases h with
  | app head args => exact ⟨head, args⟩
  | apply unknown nonempty =>
    rw [isApply_of_ne_nil _ nonempty] at happly
    cases happly

/-- An application that is solved decomposes, unless it applies an unknown. -/
theorem decomposes_of_app {V : Valuation → Valuation} {f : Expr} {as : List Expr} {e : Expr}
    (hf : Sorted R arity f) (he : Ground R e) (h : SolvedIn R V ⟨.app f as, e⟩) :
    decomposes R ⟨.app f as, e⟩ = true := by
  have hfree := congrFun (h (Valuation.free R)) 0
  dsimp only at hfree
  rw [den_app hf.ne_applySym] at hfree
  obtain ⟨g, bs, rfl, hlen⟩ := exists_app_of_den he hfree.symm
  exact decomposes_app hf.ne_applySym (hlen.trans (List.length_map _)).symm

/-- What is solved and has to be guessed applies an unknown function. -/
theorem apply_of_guess {V : Valuation → Valuation} (hp : Sorted R arity c.pattern)
    (he : Ground R c.subject) (hr : c.rule R = .guess) (hs : SolvedIn R V c) :
    ∃ m as, c.pattern = .app (.sym R.applySym) (m :: as) ∧ m.isMarked = true ∧ as ≠ [] ∧
      arity m = some as.length := by
  obtain ⟨-, hdec, hflex⟩ := of_guess hr
  obtain ⟨p, e⟩ := c
  cases hp with
  | app head => exact absurd (hdec.symm.trans (decomposes_of_app head he hs)) Bool.false_ne_true
  | apply unknown nonempty takes => exact ⟨_, _, rfl, unknown, nonempty, takes⟩
  | _ => cases hflex

/-- An unknown that is applied heads the pattern. -/
theorem exists_unknownHead? {m : Expr} {as : List Expr}
    (hpattern : c.pattern = .app (.sym R.applySym) (m :: as)) (hm : m.isMarked = true) (has : as ≠ []) :
    ∃ k, c.unknownHead? = some (m, k) := by
  obtain ⟨a, as, rfl⟩ := List.exists_cons_of_ne_nil has
  refine ⟨as.length, ?_⟩
  rw [unknownHead?, hpattern]
  exact if_pos hm

/-- The unknown that is applied, and the number of its arguments. -/
theorem unknownHead?_of_apply {m m' : Expr} {as : List Expr} {k : Nat}
    (hpattern : c.pattern = .app (.sym R.applySym) (m' :: as)) (hm : m'.isMarked = true)
    (h : c.unknownHead? = some (m, k)) : m = m' ∧ as.length = k + 1 := by
  rw [unknownHead?, hpattern] at h
  cases as with
  | nil => cases h
  | cons a as =>
    dsimp only at h
    rw [if_pos hm] at h
    cases h
    exact ⟨rfl, rfl⟩

/-- Both sides of a piece are parts of the two sides. -/
theorem mem_zipWith_mk {ps es : List Expr} (h : d ∈ List.zipWith mk ps es) :
    d.pattern ∈ ps ∧ d.subject ∈ es := by
  induction ps generalizing es with
  | nil => cases h
  | cons p ps ih =>
    cases es with
    | nil => cases h
    | cons e es =>
      rcases List.mem_cons.1 h with rfl | h
      · exact ⟨List.mem_cons_self, List.mem_cons_self⟩
      · exact ⟨List.mem_cons_of_mem _ (ih h).1, List.mem_cons_of_mem _ (ih h).2⟩

/-- Two lists are solved place by place exactly if they mean the same. -/
theorem forall_solved_zipWith {V : Valuation → Valuation} {ps es : List Expr}
    (hlen : ps.length = es.length) : (∀ d ∈ List.zipWith mk ps es, SolvedIn R V d) ↔
      ∀ ρ : Valuation, ps.map (den R (V ρ)) = es.map (den R ρ) := by
  induction ps generalizing es with
  | nil =>
    obtain rfl := List.length_eq_zero_iff.1 hlen.symm
    exact ⟨fun _ _ => rfl, fun _ => nofun⟩
  | cons p ps ih =>
    obtain ⟨e, es, rfl⟩ : ∃ e as, es = e :: as := List.exists_cons_of_length_eq_add_one hlen.symm
    rw [List.zipWith_cons_cons, List.forall_mem_cons, ih (Nat.succ.inj hlen)]
    constructor
    · rintro ⟨h, hs⟩ ρ
      exact congrArg₂ List.cons (h ρ) (hs ρ)
    · intro h
      exact ⟨fun ρ => (List.cons.inj (h ρ)).1, fun ρ => (List.cons.inj (h ρ)).2⟩

/-- **Applications are solved exactly if their parts are.** -/
theorem solved_app_iff {V : Valuation → Valuation} {f g : Expr} {as bs : List Expr}
    (hf : f ≠ .sym R.applySym) (hg : g ≠ .sym R.applySym) (hlen : as.length = bs.length) :
    SolvedIn R V ⟨.app f as, .app g bs⟩ ↔
      ∀ d ∈ pieces ⟨.app f as, .app g bs⟩, SolvedIn R V d := by
  have hpieces : pieces ⟨.app f as, .app g bs⟩ = List.zipWith mk (f :: as) (g :: bs) := rfl
  have hlen' : (f :: as).length = (g :: bs).length := congrArg Nat.succ hlen
  rw [hpieces, forall_solved_zipWith hlen']
  refine forall_congr' fun ρ => ?_
  dsimp only
  rw [den_app hf, den_app hg, List.map_cons, List.map_cons, List.cons.injEq]
  constructor
  · intro h
    refine ⟨funext fun n => (Term.app.inj (congrFun h n)).1, ?_⟩
    refine List.ext_getElem (by rw [List.length_map, List.length_map, hlen]) fun i hi hi' => ?_
    rw [List.getElem_map, List.getElem_map]
    funext n
    have hn := congrArg (·[i]?) (Term.app.inj (congrFun h n)).2
    rw [List.length_map] at hi hi'
    simpa [hi, hi'] using hn
  · rintro ⟨hhead, hargs⟩
    funext n
    have hn := congrArg (List.map (· n)) hargs
    rw [List.map_map, List.map_map] at hn
    rw [hhead]
    exact congrArg _ hn

/-- Bindings with the same variables are solved if their bodies are, and if no
value of an unknown inside holds one of the variables. -/
theorem solved_bind {f : Sym} {zs : Binders} {b e : Expr} (hS : GroundValues R S)
    (hb : Sorted R arity (.bind f zs b))
    (hcapture : ∀ d ∈ S, d.pattern ∈ b.names → ∀ z ∈ zs.toList, .var z ∉ d.subject.names)
    (h : Solved R S ⟨b, e⟩) : Solved R S ⟨.bind f zs b, .bind f zs e⟩ := by
  intro ρ
  cases hb with
  | bind slots distinct body =>
    rw [den, den]
    funext n
    have hlen : zs.toList.length = (Meaning.levels n zs.length).length :=
      (Meaning.length_levels ..).symm
    rw [← Valuation.den_enter_under hS body hlen slots hcapture, h]

end Equation

namespace Search

open SecondOrder.Expr Equation

variable {R : Reserved} {arity : Arity} {s t : Search} {σ : EquationSet} {c d : Equation}
  {S : List Equation}

/-- `A` holds of the variables of the subjects, and of all that may be minted
later. -/
structure Closed (s : Search) (A : Var → Prop) : Prop where
  subjects : ∀ c ∈ s.pending.equations, ∀ z ∈ c.subject.vars, A z
  minted : ∀ z : Var, ¬z.Below s.pending.nextFresh → A z
  fresh : ∀ z : Var, z.Numbered 'x' → A z

/-- The assignments `S` complete the solution under construction. -/
structure Finishes (R : Reserved) (arity : Arity) (s : Search) (S : List Equation) : Prop where
  values : ∀ c ∈ S, Proper R arity c ∧ Ground R c.subject
  occurs : ∀ c ∈ S, ∃ d ∈ s.pending.equations, c.pattern ∈ d.pattern.names
  distinct : (S.map Equation.pattern).Nodup
  solved : ∀ c ∈ s.pending.equations, c.Solved R S
  respects : ∀ x ∈ s.pending.exclusions, ∀ c ∈ S, c.pattern = x.inner →
    .var x.outer ∉ c.subject.names
  params : ∀ c ∈ S, ∀ u, IsParam R arity c u → ¬u.Below s.pending.nextFresh
  apart : S.Pairwise fun c d => (∀ u, IsParam R arity c u → u ∉ d.subject.vars) ∧
    ∀ u, IsParam R arity d u → u ∉ c.subject.vars
  origin : ∀ A : Var → Prop, s.Closed A → ∀ c ∈ S, ∀ z ∈ c.subject.vars, A z
  /-- No function names a variable that is bound in it. -/
  function : ∀ c ∈ S, ∀ k, arity c.pattern = some k →
    ∃ t, c.subject.den R (.free R) 0 = .bind R.lambdaSym k t ∧ t.Below k
  /-- A value names what the subject of some equation for its unknown names. -/
  free : ∀ c ∈ S, ∀ z : Var, .var z ∈ c.subject.names →
    ∃ d ∈ s.pending.equations, c.pattern ∈ d.pattern.names ∧ .var z ∈ d.subject.names
  /-- Where no subject has a binding no value has one. -/
  bare : (∀ d ∈ s.pending.equations, d.subject.slots = []) → ∀ c ∈ S, Bare R arity c

/-- What finishes a search gives ground values to unknowns. -/
theorem Finishes.ground (h : Finishes R arity t S) : GroundValues R S :=
  fun c hc => ⟨(h.values c hc).1.unknown, (h.values c hc).2⟩

/-- What finishes a search finishes one whose pending equations it solves,
too. -/
theorem Finishes.back (h : Finishes R arity t S)
    (hoccurs : ∀ d ∈ t.pending.equations, ∀ n ∈ d.pattern.names, n.isMarked = true →
      ∃ c ∈ s.pending.equations, n ∈ c.pattern.names ∧
        ∀ z : Var, .var z ∈ d.subject.names → .var z ∈ c.subject.names ∨
          ⟨n, z⟩ ∈ t.pending.exclusions)
    (hsolved : ∀ c ∈ s.pending.equations, c.Solved R S)
    (hexclusions : ∀ x ∈ s.pending.exclusions, x ∈ t.pending.exclusions)
    (hcounter : s.pending.nextFresh ≤ t.pending.nextFresh)
    (hvars : ∀ d ∈ t.pending.equations, ∀ z ∈ d.subject.vars,
      (∃ c ∈ s.pending.equations, z ∈ c.subject.vars) ∨ ¬z.Below s.pending.nextFresh)
    (hslots : (∀ c ∈ s.pending.equations, c.subject.slots = []) →
      ∀ d ∈ t.pending.equations, d.subject.slots = []) : Finishes R arity s S where
  values := h.values
  occurs c hc := by
    obtain ⟨d, hd, hfree⟩ := h.occurs c hc
    obtain ⟨e, he, hfree, -⟩ := hoccurs d hd _ hfree (h.values c hc).1.unknown
    exact ⟨e, he, hfree⟩
  distinct := h.distinct
  solved := hsolved
  respects x hx := h.respects x (hexclusions x hx)
  params c hc u hu hb := h.params c hc u hu (hb.mono hcounter)
  apart := h.apart
  origin A hA := by
    refine h.origin A ⟨fun d hd z hz => ?_, fun z hz => hA.minted z fun hb => hz (hb.mono hcounter),
      hA.fresh⟩
    rcases hvars d hd z hz with ⟨c, hc, hz⟩ | hz
    · exact hA.subjects c hc z hz
    · exact hA.minted z hz
  function := h.function
  free c hc z hz := by
    obtain ⟨d, hd, hfree, hzd⟩ := h.free c hc z hz
    obtain ⟨e, he, hfree, hnames⟩ := hoccurs d hd _ hfree (h.values c hc).1.unknown
    refine ⟨e, he, hfree, (hnames z hzd).resolve_right fun hx => ?_⟩
    exact h.respects _ hx c hc rfl hz
  bare hs := h.bare (hslots hs)

/-- To drop an equation adds none. -/
theorem mem_of_mem_drop (hd : d ∈ (s.drop c).pending.equations) : d ∈ s.pending.equations :=
  List.mem_of_mem_eraseP hd

/-- An equation is still pending after `c` has been dropped, or it was the same
as `c`. -/
theorem mem_drop_or (hd : d ∈ s.pending.equations) (c : Equation) :
    d ∈ (s.drop c).pending.equations ∨ (d == c) = true :=
  EquationSet.mem_eraseFirst_or hd c

/-- A search stays open when an equation is dropped. -/
theorem Open.drop (ho : Open R arity s σ) (c : Equation) : Open R arity (s.drop c) σ where
  solutions := ho.solutions
  patterns d hd := ho.patterns d (mem_of_mem_drop hd)
  below d hd := ho.below d (mem_of_mem_drop hd)
  exclusions := ho.exclusions
  made := ho.made
  distinct := ho.distinct
  apart d hd e he := ho.apart d hd e (mem_of_mem_drop he)

/-- What solves `c` and all that is pending without it solves all that is
pending. -/
theorem Open.solved_of_drop (ho : Open R arity s σ) (hc : c ∈ s.pending.equations)
    (hsolved : Solved R S c) (hrest : ∀ d ∈ (s.drop c).pending.equations, Solved R S d) :
    ∀ d ∈ s.pending.equations, Solved R S d := fun d hd =>
  (mem_drop_or hd c).elim (hrest d) fun h =>
    (SolvedIn.congr (ho.patterns d hd) (ho.patterns c hc) h).2 hsolved

/-- Equations that are added keep a search open, if they are like those
pending. -/
theorem Open.add {cs : List Equation} (ho : Open R arity s σ)
    (hcs : ∀ c ∈ cs, Sorted R arity c.pattern ∧ Ground R c.subject)
    (hapart : ∀ c ∈ σ.equations, ∀ d ∈ cs, c.pattern ∉ d.pattern.names) :
    Open R arity { s with pending := s.pending.add cs } σ := by
  have hgrows := EquationSet.grows_add s.pending cs
  obtain ⟨ds, hds, heqs, hbelow⟩ := hgrows.equations
  have hmem (d : Equation) (hd : d ∈ (s.pending.add cs).equations) :
      d ∈ s.pending.equations ∨ d ∈ ds := by
    rw [heqs] at hd
    exact List.mem_append.1 hd
  have hpatterns (d : Equation) (hd : d ∈ (s.pending.add cs).equations) :
      Sorted R arity d.pattern ∧ Ground R d.subject :=
    (hmem d hd).elim (ho.patterns d) fun hd => hcs d (hds.subset hd)
  refine ⟨ho.solutions, hpatterns, fun d hd => ?_, fun x hx => ?_, fun d hd => ?_, ho.distinct,
    fun c hc d hd => ?_⟩
  · exact (hmem d hd).elim (fun hd => (ho.below d hd).mono hgrows.counter) (hbelow d)
  · rcases EquationSet.mem_exclusions_add.1 hx with hx | ⟨d, hd, hx⟩
    · exact ho.exclusions x hx
    · exact EquationSet.outer_of_mem_exclusionsOf (hpatterns d hd).1 hx
  · obtain ⟨hm, hvalue, hbelow⟩ := ho.made d hd
    exact ⟨hm, hvalue, hbelow.mono hgrows.counter⟩
  · exact (hmem d hd).elim (ho.apart c hc d) fun hd => hapart c hc d (hds.subset hd)

/-- The equation `d` is the pending equation `c` after alignment, which has
taken it off and left the set `P`. -/
structure Realigned (R : Reserved) (arity : Arity) (s : Search) (c : Equation) (P : EquationSet)
    (d : Equation) : Prop where
  aligned : Aligned R arity s.pending.nextFresh c d
  below : d.Below P.nextFresh
  counter : s.pending.nextFresh ≤ P.nextFresh
  equations : P.equations = (s.drop c).pending.equations
  shape : (∃ f as g bs, d = ⟨.app f as, .app g bs⟩ ∧ d = c ∧ P = (s.drop c).pending) ∨
    ∃ f zs b e, d = ⟨.bind f zs b, .bind f zs e⟩ ∧
      ∀ x, x ∈ P.exclusions ↔ x ∈ s.pending.exclusions ∨ x ∈ EquationSet.exclusionsOf d.pattern

/-- **An equation that decomposes can be aligned,** and what is left then is
open as before. -/
theorem Open.realigned (ho : Open R arity s σ) (hc : c ∈ s.pending.equations)
    (hdec : c.decomposes R = true) :
    ∃ P d, c.align (s.drop c).pending = ⟨P, .ok d⟩ ∧ Realigned R arity s c P d := by
  obtain ⟨hp, he⟩ := ho.patterns c hc
  obtain ⟨P, d, halign, haligned, hbelow, hcounter, heqs, hshape⟩ :=
    align_spec (s := (s.drop c).pending) hp he (ho.below c hc) hdec
  exact ⟨P, d, halign, haligned, hbelow, hcounter, heqs, hshape⟩

/-- The same read from the step: whatever alignment has returned is so. -/
theorem Open.realigned_of_align {P : EquationSet} (ho : Open R arity s σ) (hc : c ∈ s.pending.equations)
    (hr : c.rule R = .decompose) (ha : c.align (s.drop c).pending = ⟨P, .ok d⟩) : Realigned R arity s c P d := by
  obtain ⟨P', d', ha', h⟩ := ho.realigned hc (decomposes_of_rule hr)
  cases ha.symm.trans ha'
  exact h

namespace Realigned

variable {P : EquationSet}

/-- Alignment gives new names to slots and keeps the outermost nodes, so what
has decomposed still does. -/
theorem decomposes (h : Realigned R arity s c P d) (hdec : c.decomposes R = true) :
    d.decomposes R = true := by
  rcases h.shape with ⟨f, as, g, bs, -, rfl, -⟩ | ⟨f, zs, b, e, rfl, -⟩
  · exact hdec
  · exact Bool.and_eq_true_iff.2 ⟨beq_self_eq_true _, beq_self_eq_true _⟩

/-- Alignment forgets no exclusion. -/
theorem mem_exclusions (h : Realigned R arity s c P d) {x : Exclusion}
    (hx : x ∈ s.pending.exclusions) : x ∈ P.exclusions := by
  rcases h.shape with ⟨f, as, g, bs, -, -, rfl⟩ | ⟨f, zs, b, e, -, hiff⟩
  · exact hx
  · exact (hiff x).2 (.inl hx)

/-- It adds no equation either. -/
theorem mem_pending (h : Realigned R arity s c P d) {e : Equation} (he : e ∈ P.equations) :
    e ∈ s.pending.equations := by
  rw [h.equations] at he
  exact mem_of_mem_drop he

/-- The search from which the equation has been taken is open. -/
theorem opened (h : Realigned R arity s c P d) (ho : Open R arity s σ) :
    Open R arity { s with pending := P } σ := by
  refine ⟨ho.solutions, fun e he => ho.patterns e (h.mem_pending he),
    fun e he => (ho.below e (h.mem_pending he)).mono h.counter, fun x hx => ?_, fun e he => ?_, ho.distinct,
    fun e he e' he' => ho.apart e he e' (h.mem_pending he')⟩
  · rcases h.shape with ⟨f, as, g, bs, -, -, rfl⟩ | ⟨f, zs, b, e, -, hiff⟩
    · exact ho.exclusions x hx
    · rcases (hiff x).1 hx with hx | hx
      · exact ho.exclusions x hx
      · exact EquationSet.outer_of_mem_exclusionsOf h.aligned.pattern hx
  · obtain ⟨hm, hvalue, hbelow⟩ := ho.made e he
    exact ⟨hm, hvalue, hbelow.mono h.counter⟩

/-- The pieces are like the equation they come from. -/
theorem pieces (h : Realigned R arity s c P d) (hdec : c.decomposes R = true) :
    ∀ e ∈ d.pieces, (Sorted R arity e.pattern ∧ Ground R e.subject) ∧
      (∀ n ∈ e.pattern.names, n.isMarked = true → n ∈ d.pattern.names ∧
        ∀ z : Var, .var z ∈ e.subject.names → .var z ∈ d.subject.names ∨ ⟨n, z⟩ ∈ P.exclusions) ∧
      ∀ z ∈ e.subject.vars, z ∈ d.subject.vars := by
  have hp := h.aligned.pattern
  have hs := h.aligned.subject
  have hd := h.decomposes hdec
  intro e he
  rcases h.shape with ⟨f, as, g, bs, rfl, -, -⟩ | ⟨f, zs, b, e', rfl, hiff⟩
  · rw [Equation.decomposes, Bool.and_eq_true, Bool.not_eq_true'] at hd
    obtain ⟨hf, has⟩ := sorted_of_not_isApply hp hd.1
    obtain ⟨hg, hbs⟩ := ground_of_app hs
    obtain ⟨hep, hes⟩ := mem_zipWith_mk he
    refine ⟨⟨?_, ?_⟩, fun n hn _ => ⟨?_, fun z hz => .inl ?_⟩, fun z hz => ?_⟩
    · exact (List.mem_cons.1 hep).elim (fun h => h ▸ hf) (has _)
    · exact (List.mem_cons.1 hes).elim (fun h => h ▸ hg) (hbs _)
    · refine mem_names_app.2 ((List.mem_cons.1 hep).imp (fun heq => ?_) fun h => ⟨_, h, hn⟩)
      rwa [heq] at hn
    · refine mem_names_app.2 ((List.mem_cons.1 hes).imp (fun heq => ?_) fun h => ⟨_, h, hz⟩)
      rwa [heq] at hz
    · refine mem_vars_app.2 ((List.mem_cons.1 hes).imp (fun heq => ?_) fun h => ⟨_, h, hz⟩)
      rwa [heq] at hz
  · -- The pieces of a binding are its slots, each paired with itself, and the bodies.
    cases hp with
    | bind slots distinct body =>
      rcases List.mem_append.1 he with he | he
      · obtain ⟨z, hz, rfl⟩ : ∃ z ∈ zs.toList, e = ⟨.var z, .var z⟩ := by
          rw [List.zipWith_self] at he
          obtain ⟨z, hz, rfl⟩ := List.mem_map.1 he
          exact ⟨z, hz, rfl⟩
        have hplain : z.marked = true → ∀ P : Prop, P := fun hm =>
          absurd ((slots z hz).symm.trans hm) Bool.false_ne_true
        refine ⟨⟨.var fun hm => hplain hm _, fun _ => .var fun hm => hplain hm _⟩, fun n hn hm => ?_,
          fun w hw => ?_⟩
        · rw [List.mem_singleton.1 hn] at hm
          exact hplain hm _
        · rw [List.mem_singleton.1 hw]
          exact mem_vars_bind.2 (.inl hz)
      · obtain rfl := List.mem_singleton.1 he
        refine ⟨⟨body, ground_of_bind hs⟩, fun n hn hm => ?_, fun z hz => mem_vars_bind.2 (.inr hz)⟩
        have hn : n ∈ (Expr.bind f zs b).names := (mem_names_bind_iff slots hm).2 hn
        refine ⟨hn, fun z hz => ?_⟩
        -- A variable bound here may be free in the body, but is excluded for the unknowns in it.
        by_cases hzs : z ∈ zs.toList
        · refine .inr ((hiff _).2 (.inr (EquationSet.mem_exclusionsOf.2 ⟨f, zs, b, ?_, ?_, hzs⟩)))
          · exact List.mem_cons_self
          · exact List.mem_filter.2 ⟨mem_freeNames_of_mem_names hn, hm⟩
        · exact .inl (mem_names_bind.2 ⟨hz, fun y hy h => hzs (var.inj h ▸ hy)⟩)

/-- Where the subject has no binding its pieces have none. -/
theorem flat_pieces (h : Realigned R arity s c P d) (he : Ground R c.subject)
    (hslots : c.subject.slots = []) : ∀ e ∈ d.pieces, e.subject.slots = [] := by
  intro e hmem
  rcases h.shape with ⟨f, as, g, bs, rfl, rfl, -⟩ | ⟨f, zs, b, e', rfl, -⟩
  · obtain ⟨-, hes⟩ := mem_zipWith_mk hmem
    refine List.eq_nil_iff_forall_not_mem.2 fun z hz => ?_
    refine List.eq_nil_iff_forall_not_mem.1 hslots z (mem_slots_app.2 ?_)
    refine (List.mem_cons.1 hes).imp (fun heq => ?_) fun h => ⟨_, h, hz⟩
    rwa [heq] at hz
  · have hterm := congrFun (h.aligned.denSubject (Valuation.free R)) 0
    obtain ⟨ys, d, hsubject, -⟩ := exists_bind_of_den he hterm.symm
    rw [hsubject] at hslots
    cases hslots

/-- The equation is solved if its pieces are and the exclusions are
respected. -/
theorem solved (h : Realigned R arity s c P d) (hdec : c.decomposes R = true)
    (hS : GroundValues R S)
    (hrespects : ∀ x ∈ P.exclusions, ∀ c ∈ S, c.pattern = x.inner →
      .var x.outer ∉ c.subject.names)
    (hpieces : ∀ e ∈ d.pieces, Solved R S e) : Solved R S c := by
  suffices Solved R S d from fun ρ =>
    (h.aligned.denPattern _).symm.trans ((this ρ).trans (h.aligned.denSubject ρ))
  have hp := h.aligned.pattern
  have hs := h.aligned.subject
  have hd := h.decomposes hdec
  rcases h.shape with ⟨f, as, g, bs, rfl, -, -⟩ | ⟨f, zs, b, e, rfl, hiff⟩
  · rw [Equation.decomposes, Bool.and_eq_true, Bool.not_eq_true'] at hd
    have hf := (sorted_of_not_isApply hp hd.1).1.ne_applySym
    have hg := ((ground_of_app hs).1 arity).ne_applySym
    exact (solved_app_iff hf hg (eq_of_beq hd.2)).2 hpieces
  · have hbody : Solved R S ⟨b, e⟩ :=
      hpieces _ (List.mem_append_right _ (List.mem_singleton.2 rfl))
    refine solved_bind hS hp (fun c' hc' hfree z hz => ?_) hbody
    refine hrespects ⟨c'.pattern, z⟩ ((hiff _).2 (.inr ?_)) c' hc' rfl
    have hm := (hS c' hc').1
    refine EquationSet.mem_exclusionsOf.2 ⟨f, zs, b, ?_, ?_, hz⟩
    · exact List.mem_cons_self
    · cases hp with
      | bind slots distinct body =>
        exact List.mem_filter.2
          ⟨mem_freeNames_of_mem_names ((mem_names_bind_iff slots hm).2 hfree), hm⟩

/-- What finishes a search finishes it with a trivial equation, too. -/
theorem finishes_of_trivial (h : Realigned R arity s c P d) (ho : Open R arity s σ)
    (hc : c ∈ s.pending.equations) (hsame : (d.pattern == d.subject) = true)
    (hS : Finishes R arity { s with pending := P } S) : Finishes R arity s S := by
  have hsolved : Solved R S c := fun ρ =>
    (h.aligned.denPattern _).symm.trans ((solved_of_trivial h.aligned.pattern h.aligned.subject
      (fun d hd => (hS.ground d hd).1) hsame ρ).trans (h.aligned.denSubject ρ))
  refine hS.back (fun e he n hn _ => ⟨e, h.mem_pending he, hn, fun _ => .inl⟩)
    (ho.solved_of_drop hc hsolved fun e he => hS.solved e (h.equations ▸ he)) (fun _ hx => h.mem_exclusions hx)
    h.counter (fun e he z hz => .inl ⟨e, h.mem_pending he, hz⟩) fun hs e he => hs e (h.mem_pending he)

/-- What is pending after the pieces have been added was pending or is a
piece. -/
theorem mem_add_pieces (h : Realigned R arity s c P d) {e : Equation} (he : e ∈ (P.add d.pieces).equations) :
    e ∈ s.pending.equations ∨ e ∈ d.pieces := by
  obtain ⟨ds, hds, heqs, -⟩ := (EquationSet.grows_add P d.pieces).equations
  rw [heqs] at he
  exact (List.mem_append.1 he).imp h.mem_pending fun he => hds.subset he

section Pieces

variable (h : Realigned R arity s c P d) (ho : Open R arity s σ) (hc : c ∈ s.pending.equations)
  (hdec : c.decomposes R = true)

include h hdec

/-- The pieces have no other unknowns. -/
theorem mem_names_of_piece {e : Equation} (he : e ∈ d.pieces) {n : Expr} (hn : n ∈ e.pattern.names)
    (hm : n.isMarked = true) : n ∈ c.pattern.names :=
  (h.aligned.unknowns n hm).1 ((h.pieces hdec e he).2.1 n hn hm).1

include ho hc

/-- The search with the pieces of an equation is open. -/
theorem opened_pieces : Open R arity { s with pending := P.add d.pieces } σ := by
  refine Open.add (h.opened ho) (fun e he => (h.pieces hdec e he).1) fun e he e' he' hfree => ?_
  exact ho.apart e he c hc (h.mem_names_of_piece hdec he' hfree (ho.made e he).1)

/-- What finishes it finishes the search with the equation. -/
theorem finishes_of_pieces (hS : Finishes R arity { s with pending := P.add d.pieces } S) :
    Finishes R arity s S := by
  have hpieces := h.pieces hdec
  have hgrows := EquationSet.grows_add P d.pieces
  have hsolved : Solved R S c := by
    refine h.solved hdec hS.ground (fun x hx => hS.respects x ?_) fun e he => ?_
    · exact EquationSet.mem_exclusions_add.2 (.inl hx)
    · obtain ⟨e', he', hee⟩ := hgrows.covers e he
      have hopen := h.opened_pieces ho hc hdec
      exact (SolvedIn.congr (hopen.patterns e' he') (hpieces e he).1 hee).1 (hS.solved e' he')
  refine hS.back (fun e he n hn hm => ?_) (ho.solved_of_drop hc hsolved fun e he => ?_)
    (fun x hx => EquationSet.mem_exclusions_add.2 (.inl (h.mem_exclusions hx)))
    (Nat.le_trans h.counter hgrows.counter) (fun e he z hz => ?_) fun hs e he => ?_
  · rcases h.mem_add_pieces he with he | he
    · exact ⟨e, he, hn, fun _ => .inl⟩
    · refine ⟨c, hc, h.mem_names_of_piece hdec he hn hm, fun z hz => ?_⟩
      refine (((hpieces e he).2.1 n hn hm).2 z hz).imp (fun hz => ?_) fun hx =>
        EquationSet.mem_exclusions_add.2 (.inl hx)
      exact mem_names_of_den_eq (h.aligned.subject arity) ((ho.patterns c hc).2 arity) (.inr ⟨z, rfl⟩)
        (congrFun (h.aligned.denSubject _) 0) hz
  · refine hS.solved e ?_
    obtain ⟨ds, -, heqs, -⟩ := hgrows.equations
    change e ∈ (P.add d.pieces).equations
    rw [heqs, h.equations]
    exact List.mem_append_left _ he
  · rcases h.mem_add_pieces he with he | he
    · exact .inl ⟨e, he, hz⟩
    · exact (h.aligned.vars z ((hpieces e he).2.2 z hz)).imp_left fun hz => ⟨c, hc, hz⟩
  · exact (h.mem_add_pieces he).elim (hs e) (h.flat_pieces (ho.patterns c hc).2 (hs c hc) e)

end Pieces

end Realigned

/-- The assignment that a step carries out. -/
theorem Open.assign_pending (ho : Open R arity s σ) (hc : c ∈ s.pending.equations)
    (hr : c.rule R = .assign) :
    ∃ t, (s.drop c).assign R c = ⟨t, .ok true⟩ ∧ Assigned R arity (s.drop c) σ c t ∨
      (s.drop c).assign R c = ⟨t, .ok false⟩ ∧ t.solutions = [] := by
  obtain ⟨hp, he⟩ := ho.patterns c hc
  have hm := isMarked_of_assign hr
  have hplain := hp.plain_of_isMarked hm
  refine (ho.drop c).assign (.of_plain hm (he arity) hplain) (ho.below c hc) (fun u hu => absurd hplain hu.1)
    (fun d hd h => ho.apart d hd c hc ?_) fun n hn hm => ?_
  · rw [h]
    exact mem_names_self hm
  · exact absurd ((not_isMarked_of_mem_names he hn).symm.trans hm) Bool.false_ne_true

namespace Assigned

variable (ha : Assigned R arity s σ c t) (h : Finishes R arity t S)

include ha h

/-- What is assigned gets no second value. -/
theorem ne_pattern (hd : d ∈ S) : d.pattern ≠ c.pattern := by
  intro heq
  obtain ⟨e, he, hmem⟩ := h.occurs d hd
  refine ha.opened.apart c ?_ e he (heq ▸ hmem)
  rw [ha.equations]
  exact List.mem_append_right _ List.mem_cons_self

/-- The value that is assigned respects the exclusions. -/
theorem respects (hm : c.pattern.isMarked = true) {x : Exclusion} (hx : x ∈ s.pending.exclusions)
    (houter : x.outer.marked = false) : ∀ d ∈ c :: S, d.pattern = x.inner → .var x.outer ∉ d.subject.names := by
  have hexclusions : t.pending.exclusions = s.pending.exclusions := ha.exclusions
  refine List.forall_mem_cons.2 ⟨fun hinner => ?_, h.respects x (hexclusions ▸ hx)⟩
  refine EquationSet.not_mem_of_respects ha.opened.distinct ?_ hm hinner houter
    (List.all_eq_true.1 ha.accepts x hx)
  rw [ha.equations]
  exact List.mem_append_right _ List.mem_cons_self

end Assigned

/-- What finishes a search after an assignment finishes it before, together
with it. -/
theorem Assigned.finishes (ho : Open R arity s σ) (hc : c ∈ s.pending.equations)
    (hr : c.rule R = .assign) (ha : Assigned R arity (s.drop c) σ c t)
    (h : Finishes R arity t S) : Finishes R arity s (c :: S) := by
  obtain ⟨hp, he⟩ := ho.patterns c hc
  have hm := isMarked_of_assign hr
  have hmarked (d : Equation) (hd : d ∈ S) := (h.values d hd).1.unknown
  have hplain := hp.plain_of_isMarked hm
  have hproper : Proper R arity c := .of_plain hm (he arity) hplain
  have hinst (d' : Equation) (hd' : d' ∈ t.pending.equations) :=
    exists_of_forall₂ ha.instantiated d' hd'
  -- The value is ground, so the unknowns that are left have been there before.
  have hbefore (d : Equation) (hd : d ∈ S) (e' : Equation) (he' : e' ∈ t.pending.equations)
      (hfree : d.pattern ∈ e'.pattern.names) :
      ∃ e ∈ s.pending.equations, e'.subject = e.subject ∧ d.pattern ∈ e.pattern.names := by
    obtain ⟨e, hemem, hi⟩ := hinst e' he'
    rcases hi.applied.unknowns _ hfree (hmarked d hd) with hfree | hfree
    · exact ⟨e, mem_of_mem_drop hemem, hi.subject, hfree.1⟩
    · exact absurd ((not_isMarked_of_mem_names he hfree).symm.trans (hmarked d hd))
        Bool.false_ne_true
  have hcounter : t.pending.nextFresh = s.pending.nextFresh := ha.counter
  exact {
    values := List.forall_mem_cons.2 ⟨⟨hproper, he⟩, h.values⟩
    occurs := by
      refine List.forall_mem_cons.2 ⟨⟨c, hc, mem_names_self hm⟩, fun d hd => ?_⟩
      obtain ⟨e', he', hfree⟩ := h.occurs d hd
      obtain ⟨e, hmem, -, hfree⟩ := hbefore d hd e' he' hfree
      exact ⟨e, hmem, hfree⟩
    distinct := by
      refine List.nodup_cons.2 ⟨fun hmem => ?_, h.distinct⟩
      obtain ⟨d, hd, heq⟩ := List.mem_map.1 hmem
      exact ha.ne_pattern h hd heq
    solved := by
      refine ho.solved_of_drop hc (solved_of_assign he hmarked hm) fun d hd => ?_
      obtain ⟨d', hd', hi⟩ := exists_of_forall₂_left ha.instantiated d hd
      have hsolved : Solved R S ⟨d'.pattern, d.subject⟩ := hi.subject ▸ h.solved d' hd'
      exact hi.applied.solved.1 hsolved
    respects := fun x hx => ha.respects h hm hx (ho.exclusions x hx)
    params := List.forall_mem_cons.2 ⟨fun u hu => absurd hplain hu.1, hcounter ▸ h.params⟩
    apart := by
      refine List.pairwise_cons.2 ⟨fun d hd => ⟨fun u hu => absurd hplain hu.1, fun u hu hmem => ?_⟩, h.apart⟩
      refine h.params d hd u hu ?_
      rw [hcounter]
      exact (ho.below c hc).2 u hmem
    origin := by
      refine fun A hA => List.forall_mem_cons.2 ⟨hA.subjects c hc, h.origin A ⟨fun d' hd' z hz => ?_,
        fun z hz => hA.minted z (hcounter ▸ hz), hA.fresh⟩⟩
      obtain ⟨d, hd, hi⟩ := hinst d' hd'
      rw [hi.subject] at hz
      exact hA.subjects d (mem_of_mem_drop hd) z hz
    function := by
      refine List.forall_mem_cons.2 ⟨fun k hk => ?_, h.function⟩
      cases hplain.symm.trans hk
    free := by
      refine List.forall_mem_cons.2 ⟨fun z hz => ⟨c, hc, mem_names_self hm, hz⟩, fun d hd z hz => ?_⟩
      obtain ⟨e', he', hfree, hze⟩ := h.free d hd z hz
      obtain ⟨e, he, hsubject, hfree⟩ := hbefore d hd e' he' hfree
      exact ⟨e, he, hfree, hsubject ▸ hze⟩
    bare := by
      refine fun hs => List.forall_mem_cons.2 ⟨⟨fun _ => hs c hc, fun h => absurd hplain h⟩,
        h.bare fun d' hd' => ?_⟩
      obtain ⟨d, hd, hi⟩ := hinst d' hd'
      rw [hi.subject, hs d (mem_of_mem_drop hd)] }

/-- **A step keeps a search open,** and what finishes the search afterwards
finishes it before, together with what the step has assigned. -/
theorem Open.advance (ho : Open R arity s σ) (hc : c ∈ s.pending.equations) (h : Advance R s c t) :
    ∃ σ' new, Open R arity t σ' ∧ σ'.equations = σ.equations ++ new ∧
      ∀ S, Finishes R arity t S → Finishes R arity s (new ++ S) := by
  obtain ⟨hp, he⟩ := ho.patterns c hc
  cases h with
  | trivial hr =>
    refine ⟨σ, [], ho.drop c, (List.append_nil _).symm, fun S hS => ?_⟩
    have hsolved := solved_of_trivial hp he (fun d hd => (hS.ground d hd).1) (beq_of_trivial hr)
    exact hS.back (fun d hd n hn _ => ⟨d, mem_of_mem_drop hd, hn, fun _ => .inl⟩)
      (ho.solved_of_drop hc hsolved hS.solved) (fun _ hx => hx) (Nat.le_refl _)
      (fun d hd z hz => .inl ⟨d, mem_of_mem_drop hd, hz⟩) fun hs d hd => hs d (mem_of_mem_drop hd)
  | assign hr ha =>
    obtain ⟨t', ⟨ha', hassigned⟩ | ⟨ha', -⟩⟩ := ho.assign_pending hc hr
    · cases ha.symm.trans ha'
      exact ⟨_, [c], hassigned.opened, hassigned.equations, fun S hS => hassigned.finishes ho hc hr hS⟩
    · cases ha.symm.trans ha'
  | @align P d hr ha done =>
    have h := ho.realigned_of_align hc hr ha
    have hsame : (d.pattern == d.subject) = true := by
      refine Classical.byContradiction fun hne => done ?_
      exact rule_of_decomposes (h.decomposes (decomposes_of_rule hr)) (Bool.eq_false_iff.2 hne)
    exact ⟨σ, [], h.opened ho, (List.append_nil _).symm, fun S => h.finishes_of_trivial ho hc hsame⟩
  | @decompose P d hr ha again =>
    have h := ho.realigned_of_align hc hr ha
    have hdec := decomposes_of_rule hr
    exact ⟨σ, [], h.opened_pieces ho hc hdec, (List.append_nil _).symm, fun S => h.finishes_of_pieces ho hc hdec⟩
  | contract hr hred hcon =>
    rw [hp.isRedex_eq_false] at hred
    cases hred

/-- **A run keeps a search open.** -/
theorem Open.reaches (ho : Open R arity s σ) (h : Reaches R s t) :
    ∃ σ' new, Open R arity t σ' ∧ σ'.equations = σ.equations ++ new ∧
      ∀ S, Finishes R arity t S → Finishes R arity s (new ++ S) := by
  induction h generalizing σ with
  | refl => exact ⟨σ, [], ho, (List.append_nil _).symm, fun _ hS => hS⟩
  | step first _ ih =>
    obtain ⟨c, hbest, hadv⟩ := advance_of_step first
    obtain ⟨σ₁, new₁, ho₁, heqs₁, hback₁⟩ := ho.advance (EquationSet.mem_of_best? hbest) hadv
    obtain ⟨σ₂, new₂, ho₂, heqs₂, hback₂⟩ := ih ho₁
    refine ⟨σ₂, new₁ ++ new₂, ho₂, by rw [heqs₂, heqs₁, List.append_assoc], fun S hS => ?_⟩
    rw [List.append_assoc]
    exact hback₁ _ (hback₂ S hS)

end Search
end SecondOrder
