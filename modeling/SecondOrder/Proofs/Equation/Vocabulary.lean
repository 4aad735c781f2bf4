/-
# Vocabularies of a search

Subjects are concrete: they have no unknown and none of the reserved symbols
(`Expr.Concrete`, `Vocabulary.ground`).  A pattern may use some unknowns on
their own and others only applied (`Vocabulary.unknowns`); to carry out an
assignment takes the unknown out of it and brings in what the value uses
(`Equation.Brings.uses`).  A value under construction applies temporaries and
nothing else (`Vocabulary.inert`), so that no other assignment changes it
(`Equation.Brings.eq_of_inert`).
-/

import SecondOrder.Proofs.Equation.Apply
import SecondOrder.Proofs.Expr.Uses

namespace SecondOrder

open SecondOrder.Expr

namespace Vocabulary

/-- The unknowns that satisfy `P` may stand on their own, those that satisfy
`F` may be applied.  Everything that is no unknown may stand anywhere. -/
def unknowns (P F : Expr → Prop) : Vocabulary where
  atom n := n.isMarked = true → P n
  applied g := g.isMarked = true ∧ F g
  head _ := True

/-- No unknown, no reserved symbol, and only variables that satisfy `W`. -/
def ground (R : Reserved) (W : Var → Prop) : Vocabulary where
  atom n := n.isMarked = false ∧ n ≠ .sym R.applySym ∧ ∀ x, n = .var x → W x
  applied _ := False
  head f := f.marked = false ∧ f ≠ R.lambdaSym

/-- The unknowns that satisfy `T` may be applied, and nothing else. -/
def inert (R : Reserved) (T : Expr → Prop) : Vocabulary where
  atom n := n.isMarked = false ∧ n ≠ .sym R.applySym
  applied g := g.isMarked = true ∧ T g
  head f := f.marked = false

variable {R : Reserved} {P P' F F' T : Expr → Prop} {W W' : Var → Prop} {U : Vocabulary}
  {e q r v : Expr} {x y : Var}

/-- To rename a bound variable changes nothing about the unknowns that may be
used. -/
theorem renames_unknowns (P F : Expr → Prop) : (unknowns P F).Renames R where
  atom y hy _ := fun hm => absurd (hy.symm.trans hm) Bool.false_ne_true
  applied x y g hy _ hg := by
    have hy : (unknowns P F).atom (.var y) := fun hm => absurd (hy.symm.trans hm) Bool.false_ne_true
    cases g with
    | var z =>
      rw [rename]
      split
      · exact .inr ⟨fun h => (by cases h), .var hy⟩
      · exact .inl hg
    | sym f => exact .inl hg
    | _ => cases hg.1

/-- To replace a name takes it out, and brings in what the value may use.  So
the unknowns that may be used afterwards are the others and those of the
value. -/
theorem substitutes_unknowns (hv : IsName v) (hne : v ≠ .sym R.applySym)
    (hP : ∀ n, P n → n ≠ v → P' n) (hF : ∀ g, F g → g ≠ v → F' g)
    (hr : Uses R (unknowns P' F') r) : (unknowns P F).Substitutes R (unknowns P' F') v r where
  renames := renames_unknowns P F
  fresh y hy hx := (renames_unknowns (R := R) P' F').atom y hy hx
  name := hv
  unreserved := hne
  atom n hn hnv := fun hm => hP n (hn hm) hnv
  applied g q hg h := by
    rw [subst_atom (isCompound_of_isMarked hg.1)] at h
    cases h
    split
    · exact .inr ⟨fun h => (by cases h), hr⟩
    · next hgv => exact .inl ⟨hg.1, hF g hg.2 fun heq => hgv ((beq_name_iff hv).2 heq)⟩
  head _ _ := trivial
  value := hr

/-- To contract a redex brings no unknown in. -/
theorem contracts_unknowns (P F : Expr → Prop) : (unknowns P F).Contracts R (unknowns P F) where
  atom _ h := h
  head _ h := h
  applied _ g q hg _ h := by
    rw [contractFrom_atom (isCompound_of_isMarked hg.1)] at h
    cases h
    exact .inl hg
  redex _ _ _ _ _ _ _ hg := by cases hg.1
  params _ x a ha :=
    substitutes_unknowns (.inl ⟨x, rfl⟩) nofun (fun _ h _ => h) (fun _ h _ => h) ha

/-- A bound variable may be renamed to any `x<N>`, so the variables that may be
used have to include these. -/
theorem renames_ground (hW : ∀ y : Var, y.Numbered 'x' → W y) : (ground R W).Renames R where
  atom y hy hx := ⟨hy, nofun, fun _ hz => Expr.var.inj hz ▸ hW y hx⟩
  applied _ _ _ _ _ hg := hg.elim

/-- To replace a variable takes it out, and brings in the variables of the
value. -/
theorem substitutes_ground (hW : ∀ y : Var, y.Numbered 'x' → W y)
    (hW' : ∀ y : Var, y.Numbered 'x' → W' y) (hmono : ∀ z, W z → z ≠ x → W' z)
    (hr : Uses R (ground R W') r) : (ground R W).Substitutes R (ground R W') (.var x) r where
  renames := renames_ground hW
  fresh y hy hx := (renames_ground (R := R) hW').atom y hy hx
  name := .inl ⟨x, rfl⟩
  unreserved := nofun
  atom _ hn hnx := ⟨hn.1, hn.2.1, fun z hz => hmono z (hn.2.2 z hz) fun h => hnx (hz.trans (h ▸ rfl))⟩
  applied _ _ hg := hg.elim
  head _ h := h
  value := hr

end Vocabulary

open Vocabulary

namespace Expr

variable {R : Reserved} {P F T : Expr → Prop} {W W' : Var → Prop} {U : Vocabulary} {e : Expr}

/-- No unknown and no reserved symbol in it, heads of bindings and binder slots
included. -/
def Concrete (R : Reserved) (e : Expr) : Prop :=
  ∀ n ∈ e.nodes, n.isMarked = false ∧ n ≠ .sym R.lambdaSym ∧ n ≠ .sym R.applySym

/-- What is said of the names in an expression makes it keep to a
vocabulary. -/
theorem uses_of_nodes (hvar : ∀ x ∈ e.vars, U.atom (.var x))
    (hsym : ∀ f, .sym f ∈ e.nodes → U.atom (.sym f)) (hhead : ∀ f, .sym f ∈ e.nodes → U.head f) :
    Uses R U e := by
  induction e with
  | var x => exact .var (hvar x List.mem_cons_self)
  | sym f => exact .sym (hsym f List.mem_cons_self)
  | int | float | str => constructor
  | app f as ihf ihas =>
    refine .app (ihf (fun x hx => hvar x (mem_vars_app.2 (.inl hx)))
      (fun g hg => hsym g (mem_nodes_of_head hg))
      fun g hg => hhead g (mem_nodes_of_head hg)) fun a ha => ?_
    exact ihas a ha (fun x hx => hvar x (mem_vars_app.2 (.inr ⟨a, ha, hx⟩)))
      (fun g hg => hsym g (mem_nodes_of_arg ha hg))
      fun g hg => hhead g (mem_nodes_of_arg ha hg)
  | bind f xs b ih =>
    refine .bind (hhead f (mem_nodes_bind.2 (.inr (.inl rfl))))
      (fun x hx => hvar x (mem_vars_bind.2 (.inl hx))) (ih ?_ ?_ ?_)
    · exact fun x hx => hvar x (mem_vars_bind.2 (.inr hx))
    · exact fun g hg => hsym g (mem_nodes_of_body hg)
    · exact fun g hg => hhead g (mem_nodes_of_body hg)

/-- A concrete expression has no unknown and no reserved symbol, and so keeps
to the ground vocabulary of its variables. -/
theorem Concrete.uses (h : Concrete R e) (hW : ∀ x ∈ e.vars, W x) : Uses R (ground R W) e := by
  refine uses_of_nodes (fun x hx => ⟨(h _ (var_mem_nodes hx)).1, nofun, ?_⟩)
    (fun f hf => ⟨(h _ hf).1, (h _ hf).2.2, nofun⟩)
    fun f hf => ⟨(h _ hf).1, fun heq => (h _ hf).2.1 (congrArg _ heq)⟩
  exact fun y hy => Expr.var.inj hy ▸ hW x hx

/-- An expression that uses no unknown has none. -/
theorem Uses.isMarked_of_mem_nodes (h : Uses R U e) (hatom : ∀ n, U.atom n → n.isMarked = false)
    (happlied : ∀ g, ¬U.applied g) (hhead : ∀ f, U.head f → f.marked = false) :
    ∀ n ∈ e.nodes, n.isMarked = false := by
  induction h with
  | var h | sym h => exact fun n hn => List.mem_singleton.1 hn ▸ hatom _ h
  | int | float | str => exact fun n hn => List.mem_singleton.1 hn ▸ rfl
  | app _ _ ihf ihas =>
    intro n hn
    rcases mem_nodes_app.1 hn with rfl | hn | ⟨a, ha, hn⟩
    · rfl
    · exact ihf n hn
    · exact ihas a ha n hn
  | apply hg => exact (happlied _ hg).elim
  | bind hf slots _ ih =>
    intro n hn
    rcases mem_nodes_bind.1 hn with rfl | rfl | ⟨x, hx, rfl⟩ | hn
    · rfl
    · exact hhead _ hf
    · exact hatom _ (slots x hx)
    · exact ih n hn

section Unknowns

variable {v q : Expr} {x y : Var} (h : Uses R (unknowns P F) e)

include h

/-- A bound variable that gives way to an ordinary one brings no unknown in. -/
theorem Uses.alphaConvert_unknowns (hy : y.marked = false) (hq : e.alphaConvert (.var x) (.var y) = .ok q) :
    Uses R (unknowns P F) q := by
  refine h.alphaConvert (substitutes_unknowns (.inl ⟨x, rfl⟩) nofun (fun _ h _ => h) (fun _ h _ => h) ?_) hq
  exact .var fun hm => absurd (hy.symm.trans hm) Bool.false_ne_true

/-- Neither does a redex that is contracted. -/
theorem Uses.contract_unknowns (hredex : e.isRedex R = true) (hq : e.contract R = .ok q) :
    Uses R (unknowns P F) q := by
  obtain ⟨us, b, a, as, rfl⟩ := isRedex_iff.1 hredex
  have hparts : Uses R (unknowns P F) b ∧ ∀ e ∈ a :: as, Uses R (unknowns P F) e := by
    cases h with
    | app _ args =>
      rw [List.forall_mem_cons] at args
      cases args.1 with
      | bind _ _ body => exact ⟨body, args.2⟩
    | apply applied => cases applied.1
  refine hparts.1.substEach (fun pair hpair => ?_) (of_contract_lambda hq).2
  exact (contracts_unknowns _ _).params nofun pair.1 pair.2 (hparts.2 _ (List.of_mem_zip hpair).2)

/-- The unknown variables in an expression are those that it may use. -/
theorem Uses.of_mem_freeNames (hx : .var x ∈ e.freeNames) (hm : x.marked = true) : P (.var x) ∨ F (.var x) := by
  induction h with
  | var hatom =>
    rw [← List.mem_singleton.1 hx] at hatom
    exact .inl (hatom hm)
  | sym => cases List.mem_singleton.1 hx
  | int | float | str => cases hx
  | app _ _ ihf ihas =>
    rcases mem_freeNames_app.1 hx with hx | ⟨a, ha, hx⟩
    · exact ihf hx
    · exact ihas a ha hx
  | @apply g as applied _ _ ihas =>
    rcases (mem_freeNames_apply applied.1).1 hx with hx | rfl | ⟨a, ha, hxa⟩
    · cases hx
    · exact .inr applied.2
    · exact ihas a ha hxa
  | bind _ _ _ ih =>
    rcases List.mem_cons.1 hx with hx | hx
    · cases hx
    · exact ih (List.mem_filter.1 hx).1

/-- So are those in its slots. -/
theorem Uses.of_mem_slots (hx : x ∈ e.slots) (hm : x.marked = true) : P (.var x) := by
  induction h with
  | var | sym | int | float | str => cases hx
  | app _ _ ihf ihas =>
    rcases mem_slots_app.1 hx with hx | ⟨a, ha, hx⟩
    · exact ihf hx
    · exact ihas a ha hx
  | apply applied _ _ ihas =>
    obtain ⟨a, ha, hxa⟩ := (mem_slots_apply applied.1).1 hx
    exact ihas a ha hxa
  | bind _ slots _ ih =>
    rcases mem_slots_bind.1 hx with hx | hx
    · exact slots x hx hm
    · exact ih hx

end Unknowns

section Ground

variable (h : Uses R (ground R W) e)

include h

/-- More variables may be allowed. -/
theorem Uses.mono_ground (hW : ∀ x, W x → W' x) : Uses R (ground R W') e :=
  h.mono (fun _ (hn : (ground R W).atom _) => ⟨hn.1, hn.2.1, fun x hx => hW x (hn.2.2 x hx)⟩)
    (fun _ hg => hg) fun _ hf => hf

/-- A ground expression keeps to every vocabulary of unknowns, as it has
none. -/
theorem Uses.unknowns_of_ground (P F : Expr → Prop) : Uses R (unknowns P F) e :=
  h.mono (fun _ (hn : (ground R W).atom _) hm => absurd (hn.1.symm.trans hm) Bool.false_ne_true)
    (fun _ hg => False.elim hg) fun _ _ => trivial

/-- A ground expression applies nothing, temporaries or other. -/
theorem Uses.inert_of_ground (T : Expr → Prop) : Uses R (inert R T) e :=
  h.mono (fun _ (hn : (ground R W).atom _) => ⟨hn.1, hn.2.1⟩) (fun _ hg => False.elim hg)
    fun _ (hf : (ground R W).head _) => hf.1

/-- The variables of a ground expression are among those allowed, bound or
free. -/
theorem Uses.ground_vars : ∀ x ∈ e.vars, W x := by
  induction h with
  | var h => exact fun x hx => h.2.2 x (congrArg _ (List.mem_singleton.1 hx).symm)
  | sym | int | float | str => exact fun x hx => absurd hx List.not_mem_nil
  | app _ _ ihf ihas =>
    intro x hx
    rcases mem_vars_app.1 hx with hx | ⟨a, ha, hx⟩
    · exact ihf x hx
    · exact ihas a ha x hx
  | apply hg => exact hg.elim
  | bind _ slots _ ih =>
    intro x hx
    rcases mem_vars_bind.1 hx with hx | hx
    · exact (slots x hx).2.2 x rfl
    · exact ih x hx

/-- The variables of an expression may be confined afterwards. -/
theorem Uses.ground_of_vars (hW' : ∀ x ∈ e.vars, W' x) : Uses R (ground R W') e :=
  h.of_vars (fun _ (hn : (ground R W).atom _) hvars => ⟨hn.1, hn.2.1, fun x hx =>
      hW' x (hvars x (hx ▸ List.mem_singleton.2 rfl))⟩)
    (fun _ hg _ => hg) fun _ hf => hf

/-- A ground expression is no unknown. -/
theorem Uses.not_isMarked : e.isMarked = false := by
  cases h with
  | var h | sym h => exact h.1
  | _ => rfl

end Ground

/-- Nothing is applied in a ground expression. -/
theorem Uses.not_ground_apply {as : List Expr}
    (h : Uses R (ground R W) (.app (.sym R.applySym) as)) : False := by
  cases h with
  | app head =>
    cases head with
    | sym hatom => exact hatom.2.1 rfl
  | apply applied => exact applied

/-- A function is no ground expression. -/
theorem Uses.not_ground_lambda {us : Binders} {b : Expr}
    (h : Uses R (ground R W) (R.lambda us b)) : False := by
  cases h with
  | bind head => exact head.2 rfl

section Inert

variable {v r : Expr} {depth : Nat} (h : Uses R (Vocabulary.inert R T) e)

include h

/-- More temporaries may be applied. -/
theorem Uses.mono_inert {T' : Expr → Prop} (hT : ∀ t, T t → T' t) : Uses R (Vocabulary.inert R T') e :=
  h.mono (fun _ (hn : (Vocabulary.inert R T).atom _) => hn)
    (fun _ (hg : (Vocabulary.inert R T).applied _) => ⟨hg.1, hT _ hg.2⟩) fun _ hf => hf

/-- No slot in a value under construction holds an unknown. -/
theorem Uses.slots_of_inert : ∀ x ∈ e.slots, x.marked = false := by
  induction h with
  | var | sym | int | float | str => nofun
  | app _ _ ihf ihas =>
    intro x hx
    rcases mem_slots_app.1 hx with hx | ⟨a, ha, hx⟩
    · exact ihf x hx
    · exact ihas a ha x hx
  | apply applied _ _ ihas =>
    intro x hx
    obtain ⟨a, ha, hxa⟩ := (mem_slots_apply applied.1).1 hx
    exact ihas a ha x hxa
  | bind _ slots _ ih => exact fun x hx => (mem_slots_bind.1 hx).elim (fun hx => (slots x hx).1) (ih x)

/-- The unknowns in an inert expression are those that it applies. -/
theorem Uses.applied_of_inert : ∀ n ∈ e.freeNames, n.isMarked = true → T n := by
  have hatom {n : Expr} {Q : Prop} (hn : n.isMarked = false) (hm : n.isMarked = true) : Q :=
    absurd (hn.symm.trans hm) Bool.false_ne_true
  induction h with
  | var h | sym h => exact fun n hn => List.mem_singleton.1 hn ▸ hatom h.1
  | int | float | str => nofun
  | app _ _ ihf ihas =>
    intro n hn
    rcases mem_freeNames_app.1 hn with hn | ⟨a, ha, hn⟩
    · exact ihf n hn
    · exact ihas a ha n hn
  | @apply g as applied _ _ ihas =>
    intro n hn
    rcases (mem_freeNames_apply applied.1).1 hn with rfl | rfl | ⟨a, ha, hna⟩
    · exact hatom rfl
    · exact fun _ => applied.2
    · exact ihas a ha n hna
  | bind hf _ _ ih =>
    intro n hn
    rcases List.mem_cons.1 hn with rfl | hn
    · exact hatom hf
    · exact ih n (List.mem_filter.1 hn).1

/-- **A value under construction keeps out of other assignments:** an unknown
that is none of its temporaries occurs nowhere in it. -/
theorem Uses.subst_of_inert (hv : v.isMarked = true) (hT : ¬T v) : e.subst v r = .ok e := by
  refine subst_of_not_mem (isName_of_isMarked hv) (fun x hx heq => ?_)
    fun hfree => hT (h.applied_of_inert v hfree hv)
  rw [heq] at hv
  exact Bool.false_ne_true ((h.slots_of_inert x hx).symm.trans hv)

/-- Nothing is contracted in an inert expression. -/
theorem Uses.contractFrom_of_inert : Expr.contractFrom R depth e = .ok e := by
  have hself {as : List Expr} (h : ∀ a ∈ as, ∀ depth, Expr.contractFrom R depth a = .ok a) :
      List.Forall₂ (fun a b => ∀ depth, Expr.contractFrom R depth a = .ok b) as as :=
    List.forall₂_same.2 h
  induction h generalizing depth with
  | var | sym | int | float | str => rfl
  | @app f as head _ ihf ihas =>
    refine contractFrom_app (isRedex_of_ne ?_ _) (fun _ => ihf) (hself fun a ha _ => ihas a ha) depth
    rintro rfl
    cases head with
    | sym hatom => exact hatom.2 rfl
  | apply applied _ _ ihas =>
    refine contractFrom_app (isRedex_of_isMarked applied.1 _) (fun _ => rfl) (hself ?_) depth
    exact List.forall_mem_cons.2 ⟨contractFrom_of_isMarked applied.1, fun a ha _ => ihas a ha⟩
  | bind _ _ _ ih =>
    rw [Expr.contractFrom, ih]
    rfl

/-- Nothing in a value under construction can be contracted, since its
temporaries wait for their values. -/
theorem Uses.contractFrom_lambda_of_inert {xs : Binders} :
    Expr.contractFrom R depth (R.lambda xs e) = .ok (R.lambda xs e) := by
  rw [Reserved.lambda, Expr.contractFrom, h.contractFrom_of_inert]
  rfl

end Inert

end Expr

namespace Equation

variable {R : Reserved} {c : Equation} {P P' F F' T : Expr → Prop} {p q : Expr}

/-- To assign what is not applied in an inert expression does not change it. -/
theorem Brings.eq_of_inert (hm : c.pattern.isMarked = true) (hT : ¬T c.pattern)
    (hp : Uses R (inert R T) p) (h : c.Brings R p q) : q = p := by
  obtain ⟨p', depth, hp', hq⟩ := h
  rw [hp.subst_of_inert hm hT] at hp'
  cases hp'
  rw [hp.contractFrom_of_inert] at hq
  exact (Except.ok.inj hq).symm

/-- To give an unknown its value takes the unknown out of the patterns and
brings in what the value uses. -/
theorem substitutes_of_isMarked (hm : c.pattern.isMarked = true)
    (hP : ∀ n, P n → n ≠ c.pattern → P' n) (hF : ∀ g, F g → g ≠ c.pattern → F' g)
    (hvalue : Uses R (unknowns P' F') c.subject) :
    (unknowns P F).Substitutes R (unknowns P' F') c.pattern c.subject :=
  substitutes_unknowns (isName_of_isMarked hm) (ne_applySym_of_isMarked hm) hP hF hvalue

/-- **To carry out an assignment takes its unknown out of a pattern,** and
brings in what the value uses. -/
theorem Brings.uses (hm : c.pattern.isMarked = true)
    (hP : ∀ n, P n → n ≠ c.pattern → P' n) (hF : ∀ g, F g → g ≠ c.pattern → F' g)
    (hvalue : Uses R (unknowns P' F') c.subject) (hp : Uses R (unknowns P F) p)
    (h : c.Brings R p q) : Uses R (unknowns P' F') q := by
  obtain ⟨p', depth, hp', hq⟩ := h
  exact (hp.subst (substitutes_of_isMarked hm hP hF hvalue) hp').contractFrom
    (contracts_unknowns P' F') hq

end Equation
end SecondOrder
