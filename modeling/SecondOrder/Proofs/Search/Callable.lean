/-
# Patterns that apply nothing but unknowns

In the patterns of a search the symbol for application stands for nothing but
the application of unknowns (`Vocabulary.calls`).  An assignment keeps this
nearly so.  What is applied is an unknown still, or has become a function, and
then its application is contracted, or a ground expression, which is no
function (`Vocabulary.callable`, `Equation.Brings.callable`).  So no redex is
ever left (`Expr.Uses.isRedex_eq_false`).
-/

import SecondOrder.Proofs.Search.Confined

namespace SecondOrder

open SecondOrder.Expr

namespace Vocabulary

/-- The symbol for application stands only where it applies an unknown. -/
def calls (R : Reserved) : Vocabulary where
  atom n := n ≠ .sym R.applySym
  applied g := g.isMarked = true
  head _ := True

/-- Unknowns among `us` are applied, and ground expressions with variables that
satisfy `W`. -/
def callable (R : Reserved) (us : List Expr) (W : Var → Prop) : Vocabulary where
  atom n := n ≠ .sym R.applySym
  applied g := g.isMarked = true ∧ g ∈ us ∨ Uses R (ground R W) g
  head _ := True

/-- And `r` may be applied. -/
def supplied (R : Reserved) (us : List Expr) (W : Var → Prop) (r : Expr) : Vocabulary where
  atom n := n ≠ .sym R.applySym
  applied g := (callable R us W).applied g ∨ g = r
  head _ := True

end Vocabulary

open Vocabulary

/-- A value that an unknown may be given: a ground one, or a function whose
parameters are new and whose body applies unknowns among `us`. -/
inductive Value (R : Reserved) (us : List Expr) (W : Var → Prop) : Expr → Prop
  | ground {e : Expr} (uses : Uses R (.ground R W) e) : Value R us W e
  | function {xs : Binders} {b : Expr} (params : ∀ x ∈ xs.toList, x.marked = false ∧ ¬W x)
      (body : Uses R (.inert R (· ∈ us)) b) : Value R us W (R.lambda xs b)

namespace Expr

variable {R : Reserved} {us us' : List Expr} {W W' : Var → Prop} {e : Expr}

/-- More unknowns and more variables may be used. -/
theorem Uses.mono_callable (hus : ∀ n ∈ us, n ∈ us') (hW : ∀ x, W x → W' x)
    (h : Uses R (callable R us W) e) : Uses R (callable R us' W') e :=
  h.mono (fun _ (hn : (callable R us W).atom _) => hn)
    (fun _ (hg : (callable R us W).applied _) =>
      hg.imp (fun hg => ⟨hg.1, hus _ hg.2⟩) fun hg => hg.mono_ground hW)
    fun _ hf => hf

/-- A ground expression applies nothing, so it may stand in any pattern. -/
theorem Uses.callable_of_ground (h : Uses R (ground R W) e) : Uses R (callable R us W) e :=
  h.mono (fun _ (hn : (ground R W).atom _) => hn.2.1) (fun _ hg => False.elim hg) fun _ _ => trivial

/-- The body of a function that is guessed applies its temporaries only. -/
theorem Uses.callable_of_inert (h : Uses R (inert R (· ∈ us)) e) : Uses R (callable R us W) e :=
  h.mono (fun _ (hn : (inert R (· ∈ us)).atom _) => hn.2)
    (fun _ (hg : (inert R (· ∈ us)).applied _) => .inl hg) fun _ _ => trivial

/-- **No redex is left.** -/
theorem Uses.isRedex_eq_false (h : Uses R (callable R us W) e) : e.isRedex R = false := by
  refine Bool.eq_false_iff.2 fun hredex => ?_
  obtain ⟨xs, b, a, as, rfl⟩ := isRedex_iff.1 hredex
  cases h with
  | app head =>
    cases head with
    | sym hatom => exact hatom rfl
  | apply applied => exact applied.elim (fun h => Bool.false_ne_true h.1) Uses.not_ground_lambda

end Expr

namespace Vocabulary

variable {R : Reserved} {us us' : List Expr} {W W' : Var → Prop} {v r a : Expr} {x y : Var}

/-- The variables that substitution makes up may stand in a pattern that calls
unknowns, and what is applied stays callable when they come in. -/
theorem renames_callable (hW : ∀ z : Var, z.Numbered 'x' → W z) : (callable R us W).Renames R where
  atom _ _ _ := nofun
  applied x y g hy hx hg := by
    refine .inl ?_
    rcases hg with ⟨hm, hg⟩ | hg
    · rcases isName_of_isMarked hm with ⟨z, rfl⟩ | ⟨f, rfl⟩
      · rw [rename]
        split
        · exact .inr (.var ((renames_ground (R := R) hW).atom y hy hx))
        · exact .inl ⟨hm, hg⟩
      · exact .inl ⟨hm, hg⟩
    · exact .inr (hg.rename (renames_ground hW) hy hx)

/-- A value takes the place of an unknown. -/
theorem substitutes_supplied (hm : v.isMarked = true) (hW : ∀ z : Var, z.Numbered 'x' → W z)
    (hus : ∀ n ∈ us, n ≠ v → n ∈ us') (hr : Value R us' W r) :
    (callable R us W).Substitutes R (supplied R us' W r) v r where
  renames := renames_callable hW
  fresh _ _ _ := nofun
  name := isName_of_isMarked hm
  unreserved := ne_applySym_of_isMarked hm
  atom _ h _ := h
  applied g q hg h := by
    refine .inl ?_
    rcases hg with ⟨hmarked, hg⟩ | hg
    · rw [subst_atom (isCompound_of_isMarked hmarked)] at h
      cases h
      split
      · exact .inr rfl
      · next hne => exact .inl (.inl ⟨hmarked, hus g hg fun heq =>
          hne ((beq_name_iff (isName_of_isMarked hm)).2 heq)⟩)
    · rw [(hg.inert_of_ground fun _ => False).subst_of_inert hm not_false] at h
      cases h
      exact .inl (.inr hg)
  head _ h := h
  value := by
    have hmono {e : Expr} (h : Uses R (callable R us' W) e) : Uses R (supplied R us' W r) e :=
      h.mono (fun _ (hn : (callable R us' W).atom _) => hn) (fun _ => .inl) fun _ _ => trivial
    cases hr with
    | ground h => exact hmono h.callable_of_ground
    | function params body => exact hmono (.bind trivial (fun _ _ => nofun) body.callable_of_inert)

/-- An argument takes the place of a parameter, which is nowhere applied. -/
theorem substitutes_param (hx : x.marked = false ∧ ¬W x) (hW : ∀ z : Var, z.Numbered 'x' → W z)
    (ha : Uses R (callable R us W) a) : (callable R us W).Substitutes R (callable R us W) (.var x) a where
  renames := renames_callable hW
  fresh _ _ _ := nofun
  name := .inl ⟨x, rfl⟩
  unreserved := nofun
  atom _ h _ := h
  applied g q hg h := by
    refine .inl ?_
    rcases hg with ⟨hmarked, hg⟩ | hg
    · have hne : g ≠ .var x := by
        rintro rfl
        exact Bool.false_ne_true (hx.1.symm.trans hmarked)
      rw [subst_of_ne (isName_of_isMarked hmarked) hne (.inl ⟨x, rfl⟩)] at h
      cases h
      exact .inl ⟨hmarked, hg⟩
    · have hvars : x ∉ g.vars := fun hmem => hx.2 (hg.ground_vars x hmem)
      rw [subst_of_not_mem (.inl ⟨x, rfl⟩) (fun z hz heq => hvars (Expr.var.inj heq ▸ mem_vars_of_mem_slots hz))
        fun hfree => hvars (mem_vars_of_mem_names (var_mem_freeNames_iff.1 hfree))] at h
      cases h
      exact .inr hg
  head _ h := h
  value := ha

/-- A new variable takes the place of another. -/
theorem substitutes_slot (hW : ∀ z : Var, z.Numbered 'x' → W z) (hW' : ∀ z : Var, z.Numbered 'x' → W' z)
    (hmono : ∀ z, W z → W' z) (hy : y.marked = false ∧ W' y) :
    (callable R us W).Substitutes R (callable R us W') (.var x) (.var y) where
  renames := renames_callable hW
  fresh _ _ _ := nofun
  name := .inl ⟨x, rfl⟩
  unreserved := nofun
  atom _ h _ := h
  applied g q hg h := by
    have hground : Uses R (ground R W') (.var y) :=
      .var ⟨hy.1, nofun, fun z hz => Expr.var.inj hz ▸ hy.2⟩
    refine .inl ?_
    rcases hg with ⟨hmarked, hg⟩ | hg
    · rw [subst_atom (isCompound_of_isMarked hmarked)] at h
      cases h
      split
      · exact .inr hground
      · exact .inl ⟨hmarked, hg⟩
    · exact .inr (hg.subst (substitutes_ground hW hW' (fun z hz _ => hmono z hz) hground) h)
  head _ h := h
  value := .var nofun

/-- Where the value is applied, it is a function and contracted, or ground. -/
theorem contracts_supplied (hW : ∀ z : Var, z.Numbered 'x' → W z) (hr : Value R us W r) :
    (supplied R us W r).Contracts R (callable R us W) where
  atom _ h := h
  head _ h := h
  applied depth g q hg hfun h := by
    refine .inl ?_
    have hground (hg : Uses R (ground R W) g) : (callable R us W).applied q := by
      rw [(hg.inert_of_ground fun _ => False).contractFrom_of_inert] at h
      cases h
      exact .inr hg
    rcases hg with (⟨hmarked, hg⟩ | hg) | rfl
    · rw [contractFrom_atom (isCompound_of_isMarked hmarked)] at h
      cases h
      exact .inl ⟨hmarked, hg⟩
    · exact hground hg
    · cases hr with
      | ground hg => exact hground hg
      | function => exact absurd (hfun.symm.trans (beq_self_eq_true R.lambdaSym)) Bool.false_ne_true
  redex depth xs b g a as q hg hcontracted hargs h := by
    have hfunction (hg : Uses R (ground R W) (R.lambda xs b)) : Uses R (callable R us W) q :=
      hg.not_ground_lambda.elim
    rcases hg with (⟨hmarked, -⟩ | hg) | rfl
    · cases hmarked
    · exact hfunction hg
    · generalize hv : R.lambda xs b = v at hr
      cases hr with
      | ground hg => exact hfunction (hv ▸ hg)
      | function params body =>
        cases hv
        obtain ⟨c, hc, rfl⟩ := of_contractFrom_bind hcontracted
        rw [body.contractFrom_of_inert] at hc
        cases hc
        refine body.callable_of_inert.substEach (fun pair hpair => ?_) (of_contract_lambda h).2
        obtain ⟨hx, ha⟩ := List.of_mem_zip hpair
        exact substitutes_param (params _ hx) hW (hargs _ ha)
  params h := absurd rfl h

end Vocabulary

namespace Equation

variable {R : Reserved} {us us' : List Expr} {W : Var → Prop} {a c d : Equation} {p q : Expr} {m n : Nat}

/-- **An assignment leaves nothing applied but unknowns and ground
expressions.** -/
theorem Brings.callable (hm : c.pattern.isMarked = true) (hW : ∀ z : Var, z.Numbered 'x' → W z)
    (hus : ∀ n ∈ us, n ≠ c.pattern → n ∈ us') (hvalue : Value R us' W c.subject)
    (hp : Uses R (.callable R us W) p) (h : c.Brings R p q) : Uses R (.callable R us' W) q := by
  obtain ⟨p', depth, hp', hq⟩ := h
  exact (hp.subst (substitutes_supplied hm hW hus hvalue) hp').contractFrom (contracts_supplied hW hvalue) hq

/-- The pattern applies unknowns among `us` and ground expressions, and the
subject is ground; the variables there have numbers below `n`. -/
structure Callable (R : Reserved) (us : List Expr) (n : Nat) (c : Equation) : Prop where
  pattern : Uses R (.callable R us (Var.Below n)) c.pattern
  subject : Uses R (.ground R (Var.Below n)) c.subject

namespace Callable

variable {s Q : EquationSet} {i : Nat}

/-- More unknowns may be applied, and the counter may be later. -/
theorem mono (hus : ∀ m ∈ us, m ∈ us') (hmn : m ≤ n) (h : c.Callable R us m) : c.Callable R us' n :=
  ⟨h.pattern.mono_callable hus fun _ hx => hx.mono hmn, h.subject.mono_ground fun _ hx => hx.mono hmn⟩

/-- To give one slot a new name keeps the equation callable, with the counter
moved past that name. -/
theorem renameSlot (h : c.Callable R us n) (hd : c.renameSlot i (Var.minted n false) = .ok d) :
    d.Callable R us (n + 1) := by
  have hx (k : Nat) (z : Var) (hz : z.Numbered 'x') : z.Below k := hz.below k
  have hmono (z : Var) (hz : z.Below n) : z.Below (n + 1) := hz.mono (Nat.le_succ n)
  have hnew : (Var.minted n false).Below (n + 1) := below_numberedName.2 (Nat.lt_succ_self n)
  rcases of_renameSlot hd with rfl | ⟨u, v, hpattern, hsubject⟩
  · exact h.mono (fun _ hm => hm) (Nat.le_succ n)
  · refine ⟨h.pattern.alphaConvert (substitutes_slot (hx n) (hx _) hmono ⟨rfl, hnew⟩) hpattern,
      h.subject.alphaConvert (substitutes_ground (hx n) (hx _) (fun z hz _ => hmono z hz) ?_) hsubject⟩
    exact .var ⟨rfl, nofun, fun z hz => Expr.var.inj hz ▸ hnew⟩

/-- **Alignment keeps an equation callable,** slot after slot. -/
theorem align (h : c.Callable R us s.nextFresh) (hd : c.align s = ⟨Q, .ok d⟩) :
    d.Callable R us Q.nextFresh :=
  of_align (P := fun n e => e.Callable R us n) (fun _ _ _ _ he he' => he.renameSlot he') h hd

/-- The pieces of a callable equation are callable, the slots of bindings
included. -/
theorem pieces (h : c.Callable R us n) (hdec : c.decomposes R = true) :
    ∀ d ∈ c.pieces, d.Callable R us n := fun d hd =>
  have hd := uses_pieces h.pattern h.subject (fun _ => id) hdec d hd
  ⟨hd.1, hd.2⟩

/-- **An assignment keeps an equation callable,** for the unknowns that are
left and those of the value. -/
theorem apply (h : c.Callable R us n) (hm : a.pattern.isMarked = true)
    (hus : ∀ n ∈ us, n ≠ a.pattern → n ∈ us') (hvalue : Value R us' (Var.Below n) a.subject)
    (hd : a.apply R c.pattern = .ok d.pattern) (hsubject : d.subject = c.subject) :
    d.Callable R us' n :=
  ⟨(brings_of_apply hd).callable hm (fun _ hz => hz.below n) hus hvalue h.pattern, hsubject ▸ h.subject⟩

end Callable

end Equation
end SecondOrder
