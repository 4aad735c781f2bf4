/-
# What a search names

A search that constructs a solution is confined (`Search.Confined`) if every
name in it is accounted for: its subjects are ground, its patterns hold
unknowns of the user on their own and temporaries only applied, an unknown that
has been assigned occurs no more, and a value applies temporaries and nothing
else.  This is asked of any patterns, also of those with unknowns in binder
slots or with redexes.

Every step keeps a search confined (`Confined.advance`), and the last one does
so, too, or leaves no solution (`Confined.halt`), whether or not it meets a
fault.
-/

import SecondOrder.Proofs.Equation.Vocabulary
import SecondOrder.Proofs.Search.Guesses
import SecondOrder.Proofs.Search.Progress
import SecondOrder.Proofs.Search.Retry

namespace SecondOrder

open SecondOrder.Expr

/-- The unknowns that a set of assignments gives values to. -/
def EquationSet.assigned (σ : EquationSet) : List Expr := σ.equations.map Equation.pattern

/-- The unknowns that satisfy `A` may stand anywhere, those that satisfy `T`
may be applied; but none of `done`. -/
def Vocabulary.pending (A T : Expr → Prop) (done : List Expr) : Vocabulary :=
  unknowns (fun n => A n ∧ n ∉ done) fun g => (A g ∨ T g) ∧ g ∉ done

/-- More unknowns may be named, and fewer need to have been taken out. -/
theorem Expr.Uses.mono_pending {R : Reserved} {A A' T T' : Expr → Prop} {done done' : List Expr}
    {e : Expr} (h : Uses R (.pending A T done) e) (hA : ∀ n, A n → A' n) (hT : ∀ t, T t → T' t)
    (hdone : ∀ n ∈ done', n ∈ done) : Uses R (.pending A' T' done') e :=
  h.mono
    (fun _ (hn : (Vocabulary.pending A T done).atom _) hm =>
      ⟨hA _ (hn hm).1, fun hmem => (hn hm).2 (hdone _ hmem)⟩)
    (fun _ (hg : (Vocabulary.pending A T done).applied _) =>
      ⟨hg.1, hg.2.1.imp (hA _) (hT _), fun hmem => hg.2.2 (hdone _ hmem)⟩)
    fun _ _ => trivial

namespace Equation

variable {R : Reserved} {c d : Equation} {i : Nat} {x : Var} {s Q : EquationSet}

/-- **An assignment takes its unknown out of a pattern** and brings in only
those of its value. -/
theorem Brings.uses_pending {A T : Expr → Prop} {done : List Expr} {p q : Expr}
    (hm : c.pattern.isMarked = true) (hvalue : Uses R (.pending A T (done ++ [c.pattern])) c.subject)
    (hp : Uses R (.pending A T done) p) (h : c.Brings R p q) :
    Uses R (.pending A T (done ++ [c.pattern])) q := by
  have hnew {n : Expr} (hn : n ∉ done) (hne : n ≠ c.pattern) : n ∉ done ++ [c.pattern] := by
    rw [List.mem_append, List.mem_singleton, not_or]
    exact ⟨hn, hne⟩
  exact h.uses hm (fun n hn hne => ⟨hn.1, hnew hn.2 hne⟩) (fun g hg hne => ⟨hg.1, hnew hg.2 hne⟩)
    hvalue hp

/-- The pieces of an equation keep to the vocabularies of its sides. -/
theorem uses_pieces {U U' : Vocabulary} (hp : Uses R U c.pattern) (he : Uses R U' c.subject)
    (happlied : ∀ g, ¬U'.applied g) (hdec : c.decomposes R = true) :
    ∀ d ∈ c.pieces, Uses R U d.pattern ∧ Uses R U' d.subject := by
  obtain ⟨p, e⟩ := c
  rw [decomposes] at hdec
  dsimp only at hdec hp he
  split at hdec
  · next f as g bs =>
    rw [Bool.and_eq_true, Bool.not_eq_true'] at hdec
    have hps : ∀ a ∈ f :: as, Uses R U a := by
      cases hp with
      | app head args => exact List.forall_mem_cons.2 ⟨head, args⟩
      | apply _ nonempty =>
        rw [isApply_of_ne_nil _ nonempty] at hdec
        cases hdec.1
    have hes : ∀ b ∈ g :: bs, Uses R U' b := by
      cases he with
      | app head args => exact List.forall_mem_cons.2 ⟨head, args⟩
      | apply applied => exact (happlied _ applied).elim
    intro d hd
    obtain ⟨hdp, hde⟩ := mem_zipWith_mk hd
    exact ⟨hps _ hdp, hes _ hde⟩
  · next f xs b g ys b' =>
    cases hp with
    | bind _ slots body =>
      cases he with
      | bind _ slots' body' =>
        intro d hd
        rcases List.mem_append.1 hd with hd | hd
        · have hd' : d ∈ List.zipWith Equation.mk (xs.toList.map Expr.var) (ys.toList.map Expr.var) := by
            rwa [List.zipWith_map]
          obtain ⟨hdp, hde⟩ := mem_zipWith_mk hd'
          obtain ⟨x, hx, hxd⟩ := List.mem_map.1 hdp
          obtain ⟨y, hy, hyd⟩ := List.mem_map.1 hde
          exact ⟨hxd ▸ .var (slots x hx), hyd ▸ .var (slots' y hy)⟩
        · rw [List.mem_singleton.1 hd]
          exact ⟨body, body'⟩
  · cases hdec

/-- The sides of the equation keep to what a search with the assigned unknowns
`done` and the counter `n` may name. -/
structure Confined (R : Reserved) (A T : Expr → Prop) (V : Var → Prop) (n : Nat) (done : List Expr)
    (c : Equation) : Prop where
  pattern : Uses R (.pending A T done) c.pattern
  subject : Uses R (.ground R fun x => V x ∧ x.Below n) c.subject

namespace Confined

variable {A T : Expr → Prop} {V : Var → Prop} {m n : Nat} {done : List Expr}

/-- With a later counter an equation may name more. -/
theorem mono (hmn : m ≤ n) (h : c.Confined R A T V m done) : c.Confined R A T V n done :=
  ⟨h.pattern, h.subject.mono_ground fun _ hx => ⟨hx.1, hx.2.mono hmn⟩⟩

/-- A new variable in corresponding slots. -/
theorem renameSlot (hV : ∀ x : Var, x.Numbered 'x' ∨ ¬x.Below n → V x)
    (h : c.Confined R A T V n done) (hd : c.renameSlot i (Var.minted n false) = .ok d) :
    d.Confined R A T V (n + 1) done := by
  have hnew : V (Var.minted n false) := hV _ (.inr fun hlow => Nat.lt_irrefl n (below_numberedName.1 hlow))
  rcases of_renameSlot hd with rfl | ⟨u, v, hpattern, hsubject⟩
  · exact h.mono (Nat.le_succ n)
  · refine ⟨h.pattern.alphaConvert_unknowns rfl hpattern, h.subject.alphaConvert ?_ hsubject⟩
    refine Vocabulary.substitutes_ground (fun y hy => ⟨hV y (.inl hy), hy.below n⟩)
      (fun y hy => ⟨hV y (.inl hy), hy.below _⟩) (fun z hz _ => ⟨hz.1, hz.2.mono (Nat.le_succ n)⟩) ?_
    refine .var ⟨rfl, nofun, fun y hy => ?_⟩
    obtain rfl := Expr.var.inj hy
    exact ⟨hnew, below_numberedName.2 (Nat.lt_succ_self n)⟩

/-- **Alignment keeps an equation confined,** with the counter moved past the
names it has given. -/
theorem align (hV : ∀ x : Var, x.Numbered 'x' ∨ ¬x.Below s.nextFresh → V x)
    (h : c.Confined R A T V s.nextFresh done) (hd : c.align s = ⟨Q, .ok d⟩) :
    d.Confined R A T V Q.nextFresh done := by
  refine (of_align (P := fun n e => s.nextFresh ≤ n ∧ e.Confined R A T V n done) ?_
    ⟨Nat.le_refl _, h⟩ hd).2
  intro n i e e' ⟨hn, he⟩ he'
  refine ⟨Nat.le_succ_of_le hn, he.renameSlot (fun x hx => hV x (hx.imp_right ?_)) he'⟩
  exact mt (Var.Below.mono hn)

/-- The pieces of an equation that decomposes. -/
theorem pieces (h : c.Confined R A T V n done) (hdec : c.decomposes R = true) :
    ∀ d ∈ c.pieces, d.Confined R A T V n done := fun d hd =>
  have hd := uses_pieces h.pattern h.subject (fun _ => id) hdec d hd
  ⟨hd.1, hd.2⟩

/-- A redex that is contracted. -/
theorem contract {p : Expr} (h : c.Confined R A T V n done) (hredex : c.pattern.isRedex R = true)
    (hp : c.pattern.contract R = .ok p) : (⟨p, c.subject⟩ : Equation).Confined R A T V n done :=
  ⟨h.pattern.contract_unknowns hredex hp, h.subject⟩

/-- An assignment that is carried out. -/
theorem apply {a : Equation} (h : c.Confined R A T V n done) (hm : a.pattern.isMarked = true)
    (hvalue : Uses R (.pending A T (done ++ [a.pattern])) a.subject)
    (hd : a.apply R c.pattern = .ok d.pattern) (hsubject : d.subject = c.subject) :
    d.Confined R A T V n (done ++ [a.pattern]) :=
  ⟨(brings_of_apply hd).uses_pending hm hvalue h.pattern, hsubject ▸ h.subject⟩

/-- What an equation assigns is an unknown of the user that has no value
yet. -/
theorem assigned (h : c.Confined R A T V n done) (hm : c.pattern.isMarked = true) :
    A c.pattern ∧ c.pattern ∉ done := by
  obtain ⟨p, e⟩ := c
  obtain ⟨hp, -⟩ := h
  cases hp with
  | var atom | sym atom => exact atom hm
  | _ => cases hm

end Confined

end Equation

namespace Search

open Equation

variable {R : Reserved} {A T : Expr → Prop} {V : Var → Prop} {s t : Search} {σ : EquationSet}
  {c : Equation} {n : Nat}

/-- A search that constructs the solution `σ` names in its patterns unknowns
that satisfy `A`, applies those that satisfy `T`, and has only variables that
satisfy `V` in its subjects. -/
structure Confined (R : Reserved) (A T : Expr → Prop) (V : Var → Prop) (s : Search)
    (σ : EquationSet) : Prop where
  solutions : s.solutions = [σ]
  unknowns : ∀ m, A m ∨ T m → m.isMarked = true ∧ m.Below s.pending.nextFresh
  temporaries : ∀ t, T t → ¬A t ∧ ∃ x, t = .var x
  fresh : ∀ x : Var, x.Numbered 'x' ∨ ¬x.Below s.pending.nextFresh → V x
  equations : ∀ c ∈ s.pending.equations, c.Confined R A T V s.pending.nextFresh σ.assigned
  distinct : σ.assigned.Nodup
  assigned : ∀ m ∈ σ.assigned, A m ∨ T m
  values : ∀ c ∈ σ.equations, Uses R (.inert R T) c.subject

namespace Confined

/-- Only the pending equations change, and the counter may have moved on. -/
theorem congr (h : Confined R A T V s σ) {P : EquationSet}
    (hn : s.pending.nextFresh ≤ P.nextFresh)
    (hP : ∀ c ∈ P.equations, c.Confined R A T V P.nextFresh σ.assigned) :
    Confined R A T V { s with pending := P } σ where
  solutions := h.solutions
  unknowns m hm := ⟨(h.unknowns m hm).1, (h.unknowns m hm).2.mono hn⟩
  temporaries := h.temporaries
  fresh x hx := h.fresh x (hx.imp_right (mt (Var.Below.mono hn)))
  equations := hP
  distinct := h.distinct
  assigned := h.assigned
  values := h.values

/-- To take an equation off leaves a search confined. -/
theorem drop (h : Confined R A T V s σ) (c : Equation) : Confined R A T V (s.drop c) σ :=
  h.congr (Nat.le_refl _) fun d hd => h.equations d (mem_of_mem_drop hd)

/-- Equations that are added. -/
theorem add {cs : List Equation} {P : EquationSet} (h : Confined R A T V { s with pending := P } σ)
    (hcs : ∀ c ∈ cs, c.Confined R A T V P.nextFresh σ.assigned) :
    Confined R A T V { s with pending := P.add cs } σ := by
  have hgrows := EquationSet.grows_add P cs
  obtain ⟨ds, hds, heqs, -⟩ := hgrows.equations
  refine h.congr hgrows.counter fun c hc => ?_
  have hc : c ∈ (P.add cs).equations := hc
  rw [heqs] at hc
  rcases List.mem_append.1 hc with hc | hc
  · exact (h.equations c hc).mono hgrows.counter
  · exact (hcs c (hds.subset hc)).mono hgrows.counter

/-- **An assignment that is carried out takes its unknown out of all
patterns.** -/
theorem assign (h : Confined R A T V s σ) (hm : A c.pattern ∨ T c.pattern)
    (hnew : c.pattern ∉ σ.assigned)
    (hvalue : Uses R (.pending A T (σ.assigned ++ [c.pattern])) c.subject)
    (hinert : Uses R (.inert R T) c.subject) (ht : s.assign R c = ⟨t, .ok true⟩) :
    Confined R A T V t (σ.add [c]) ∧ (σ.add [c]).equations = σ.equations ++ [c] ∧
      t.pending.nextFresh = s.pending.nextFresh ∧
      List.Forall₂ (fun d e => c.apply R d.pattern = .ok e.pattern ∧ e.subject = d.subject)
        s.pending.equations t.pending.equations := by
  obtain ⟨σ', rest, ds, hσ, hds, -, rfl⟩ := assign_ok ht
  obtain ⟨rfl, rfl⟩ := List.cons.inj (h.solutions.symm.trans hσ)
  have hmarked := (h.unknowns _ hm).1
  have heqs : (σ.add [c]).equations = σ.equations ++ [c] :=
    EquationSet.equations_add_singleton hmarked fun d hd heq => hnew (List.mem_map.2 ⟨d, hd, heq⟩)
  have hassigned : (σ.add [c]).assigned = σ.assigned ++ [c.pattern] := by
    rw [EquationSet.assigned, heqs, List.map_append]
    rfl
  have hall := EquationSet.instantiatePatterns_eq_ok.1 hds
  refine ⟨⟨rfl, h.unknowns, h.temporaries, h.fresh, fun d hd => ?_, ?_, ?_, ?_⟩, heqs, rfl, hall⟩
  · obtain ⟨e, he, hed, hsubject⟩ := exists_of_forall₂ hall d hd
    rw [hassigned]
    exact (h.equations e he).apply hmarked hvalue hed hsubject
  · rw [hassigned]
    refine List.nodup_append.2 ⟨h.distinct, List.nodup_singleton _, fun m hm n hn heq => hnew ?_⟩
    rwa [← List.mem_singleton.1 hn, ← heq]
  · rw [hassigned]
    intro m hm'
    rcases List.mem_append.1 hm' with hm' | hm'
    · exact h.assigned m hm'
    · exact List.mem_singleton.1 hm' ▸ hm
  · rw [heqs]
    intro d hd
    rcases List.mem_append.1 hd with hd | hd
    · exact h.values d hd
    · exact List.mem_singleton.1 hd ▸ hinert

/-- What an assignment leaves that is refused half-way. -/
theorem assign_error {fault : Fault} (h : Confined R A T V s σ) (hc : c ∈ s.pending.equations)
    (hm : c.pattern.isMarked = true) (ht : (s.drop c).assign R c = ⟨t, .error fault⟩) :
    Confined R A T V t σ := by
  obtain ⟨ds, rfl, hds⟩ := Search.assign_error ht
  have hstate : (EquationSet.instantiatePatterns R c (s.drop c).pending.equations).state = ds := by
    rcases hds with h | ⟨-, h⟩ <;> rw [h]
  refine (h.drop c).congr (Nat.le_refl _) fun d hd => ?_
  rcases EquationSet.mem_instantiatePatterns (hstate.symm ▸ hd) with hd | ⟨e, he, hed, hsubject⟩
  · exact (h.drop c).equations d hd
  · have hd := ((h.drop c).equations e he).apply hm
      ((h.equations c hc).subject.unknowns_of_ground _ _) hed hsubject
    exact ⟨hd.pattern.mono_pending (fun _ => id) (fun _ => id) fun n hn => List.mem_append_left _ hn,
      hd.subject⟩

/-- A pending equation that is assigned. -/
theorem assign_pending (h : Confined R A T V s σ) (hc : c ∈ s.pending.equations)
    (hm : c.pattern.isMarked = true) (ht : (s.drop c).assign R c = ⟨t, .ok true⟩) :
    Confined R A T V t (σ.add [c]) ∧ (σ.add [c]).equations = σ.equations ++ [c] ∧
      t.pending.nextFresh = s.pending.nextFresh ∧
      List.Forall₂ (fun d e => c.apply R d.pattern = .ok e.pattern ∧ e.subject = d.subject)
        (s.drop c).pending.equations t.pending.equations := by
  obtain ⟨hA, hnew⟩ := (h.equations c hc).assigned hm
  have hground := (h.equations c hc).subject
  exact (h.drop c).assign (.inl hA) hnew (hground.unknowns_of_ground _ _) (hground.inert_of_ground T) ht

/-- A search from which an equation has been taken to be aligned stays
confined, and so does the aligned equation. -/
theorem align {P : EquationSet} {d : Equation} (h : Confined R A T V s σ)
    (hc : c ∈ s.pending.equations) (hd : c.align (s.drop c).pending = ⟨P, .ok d⟩) :
    Confined R A T V { s with pending := P } σ ∧ d.Confined R A T V P.nextFresh σ.assigned := by
  have hn : s.pending.nextFresh ≤ P.nextFresh := nextFresh_of_align (s := (s.drop c).pending) hd
  refine ⟨h.congr hn fun e he => ?_, Equation.Confined.align (s := (s.drop c).pending) h.fresh
    (h.equations c hc) hd⟩
  exact ((h.drop c).equations e (equations_of_align hd ▸ he)).mono hn

end Confined

/-- What a search assigns in the end: a ground value to an unknown of the user,
or a function with a ground body. -/
inductive Final (R : Reserved) (A T : Expr → Prop) (V : Var → Prop) : Equation → Prop
  | ground {c : Equation} (unknown : A c.pattern) (value : Uses R (.ground R V) c.subject) :
      Final R A T V c
  | function {m b : Expr} {us : Binders} (unknown : A m ∨ T m) (distinct : us.toList.Nodup)
      (params : ∀ u ∈ us.toList, u.marked = false ∧ V u) (body : Uses R (.ground R V) b) :
      Final R A T V ⟨m, R.lambda us b⟩

/-- The solution `τ` goes on from `σ` with final values. -/
def Completed (R : Reserved) (A T : Expr → Prop) (V : Var → Prop) (σ τ : EquationSet) : Prop :=
  ∃ S, τ.equations = σ.equations ++ S ∧ ∀ d ∈ S, Final R A T V d

/-- Nothing need be added. -/
theorem Completed.refl (σ : EquationSet) : Completed R A T V σ σ :=
  ⟨[], (List.append_nil _).symm, nofun⟩

/-- What is added in two stages is added. -/
theorem Completed.trans {τ υ : EquationSet} (h : Completed R A T V σ τ)
    (h' : Completed R A T V τ υ) : Completed R A T V σ υ := by
  obtain ⟨S, hS, hfinal⟩ := h
  obtain ⟨S', hS', hfinal'⟩ := h'
  refine ⟨S ++ S', by rw [hS', hS, List.append_assoc], fun d hd => ?_⟩
  exact (List.mem_append.1 hd).elim (hfinal d) (hfinal' d)

namespace Confined

/-- **Every step keeps a search confined,** and assigns final values only. -/
theorem advance (h : Confined R A T V s σ) (hc : c ∈ s.pending.equations) (ha : Advance R s c t) :
    ∃ τ, Confined R A T V t τ ∧ Completed R A T V σ τ := by
  cases ha with
  | trivial => exact ⟨σ, h.drop c, .refl σ⟩
  | assign rule assigned =>
    have hm := isMarked_of_assign rule
    obtain ⟨ht, heqs, -⟩ := h.assign_pending hc hm assigned
    refine ⟨_, ht, [c], heqs, fun d hd => ?_⟩
    obtain rfl := List.mem_singleton.1 hd
    exact .ground ((h.equations d hc).assigned hm).1
      ((h.equations d hc).subject.mono_ground fun _ hx => hx.1)
  | align _ aligned => exact ⟨σ, (h.align hc aligned).1, .refl σ⟩
  | decompose _ aligned again =>
    obtain ⟨hP, hd⟩ := h.align hc aligned
    exact ⟨σ, hP.add (hd.pieces (decomposes_of_rule again)), .refl σ⟩
  | contract _ redex contracted =>
    refine ⟨σ, (h.drop c).add fun d hd => ?_, .refl σ⟩
    rw [List.mem_singleton.1 hd]
    exact (h.equations c hc).contract redex contracted

/-- **A step that meets a fault keeps a search confined, too.** -/
theorem fault {fault : Fault} (h : Confined R A T V s σ) (hc : c ∈ s.pending.equations)
    (hl : Halt R s c ⟨t, .error fault⟩) : Confined R A T V t σ := by
  cases hl with
  | assignFault rule assigned => exact h.assign_error hc (isMarked_of_assign rule) assigned
  | alignFault _ aligned =>
    have hn := nextFresh_of_align aligned
    exact h.congr hn fun e he => ((h.drop c).equations e (equations_of_align aligned ▸ he)).mono hn
  | contractFault => exact h.drop c

/-- **The last step keeps a search confined or leaves it without a
solution.** -/
theorem halt {last : Attempt Search (Option Equation)} (h : Confined R A T V s σ)
    (hc : c ∈ s.pending.equations) (hl : Halt R s c last) :
    Confined R A T V last.state σ ∨ last.state.solutions = [] ∧
      last.state.pending.nextFresh = s.pending.nextFresh ∧
      ∀ d ∈ last.state.pending.equations, d.Confined R A T V s.pending.nextFresh [] := by
  have hweak {d : Equation} {n : Nat} {done : List Expr} (hd : d.Confined R A T V n done) :
      d.Confined R A T V n [] :=
    ⟨hd.pattern.mono_pending (fun _ => id) (fun _ => id) nofun, hd.subject⟩
  cases hl with
  | clash => exact .inr ⟨rfl, rfl, fun d hd => hweak (h.equations d hd)⟩
  | excluded rule assigned =>
    obtain ⟨σ', rest, ds, -, hds, -, rfl⟩ := assign_ok assigned
    refine .inr ⟨rfl, rfl, fun d hd => ?_⟩
    obtain ⟨e, he, hed, hsubject⟩ :=
      exists_of_forall₂ (EquationSet.instantiatePatterns_eq_ok.1 hds) d hd
    exact hweak (((h.drop c).equations e he).apply (isMarked_of_assign rule)
      ((h.equations c hc).subject.unknowns_of_ground _ _) hed hsubject)
  | branch => exact .inl h
  | assignFault rule assigned => exact .inl (h.fault hc (.assignFault rule assigned))
  | alignFault rule aligned => exact .inl (h.fault hc (.alignFault rule aligned))
  | contractFault rule redex contracted => exact .inl (h.fault hc (.contractFault rule redex contracted))

end Confined

end Search
end SecondOrder
