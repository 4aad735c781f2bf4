/-
# What is applied

In an expression as it is meant to be, nothing is applied but an unknown or a
function, the symbol for application stands nowhere else, and no function binds
an unknown (`Expr.WellApplied`).  When an assignment is carried out, every
applied function is contracted, and what is left applies nothing but unknowns
and variables that a binding around binds (`Expr.Normal`).

A variable is applied only in the place of an unknown that an ordinary binding
binds: the binding may have to give way to a value, and its unknown is then
renamed to a variable.  An expression stays well applied under a substitution
if no binding gives way that way (`Expr.WellApplied.subst`).  Contraction turns
it into a normal one (`Expr.WellApplied.contractFrom`): no parameter is
applied, so no argument comes into the place of what is applied.
-/

import SecondOrder.Proofs.Equation.Apply
import SecondOrder.Proofs.Expr.Capture

namespace SecondOrder
namespace Expr

variable {R : Reserved} {S S' : List Var} {e b c g n q r v a : Expr} {f : Sym} {xs ys : Binders}
  {as : List Expr} {x y z : Var} {depth : Nat}

/-! ## Applied names -/

/-- Somewhere in `e`, bound or not, `n` is applied. -/
def AppliedIn (R : Reserved) (n e : Expr) : Prop := ∃ as, app (sym R.applySym) (n :: as) ∈ e.nodes

/-- A name is applied in an application if the application itself applies it,
or if it is applied somewhere in what is applied or in the arguments. -/
theorem appliedIn_app : AppliedIn R n (app g as) ↔
    (g = sym R.applySym ∧ ∃ bs, as = n :: bs) ∨ AppliedIn R n g ∨ ∃ a ∈ as, AppliedIn R n a := by
  simp only [AppliedIn, mem_nodes_app, app.injEq]
  grind

/-- A binding applies nothing by itself. -/
theorem appliedIn_bind : AppliedIn R n (bind f xs b) ↔ AppliedIn R n b := by
  simp only [AppliedIn, mem_nodes_bind, reduceCtorEq, false_or]
  simp

/-- A renaming reaches all nodes, the slots of bindings included, and adds
none. -/
theorem nodes_rename (x y : Var) (e : Expr) : (e.rename x y).nodes = e.nodes.map (rename x y) := by
  induction e with
  | app g as ihg ihas =>
    have has : (renameAll x y as).flatMap nodes = (as.flatMap nodes).map (rename x y) := by
      rw [renameAll_eq_map, List.flatMap_map, List.map_flatMap, List.flatMap_def, List.flatMap_def,
        List.map_congr_left ihas]
    rw [rename, nodes, nodes, nodesAll_eq_flatMap, nodesAll_eq_flatMap, ihg, has, List.map_cons,
      List.map_append, rename]
  | bind f xs b ih =>
    have hslots : (xs.rename x y).toList.map var = (xs.toList.map var).map (rename x y) := by
      rw [toList_rename, List.map_map, List.map_map]
      rfl
    rw [rename, nodes, nodes, ih, hslots]
    simp [rename]
  | _ => rfl

/-- A name that has no part in a renaming is made of nothing else. -/
theorem rename_eq_iff (hn : IsName n) (hx : n ≠ var x) (hy : n ≠ var y) : e.rename x y = n ↔ e = n := by
  rcases hn with ⟨u, rfl⟩ | ⟨g, rfl⟩
  · have hne {w : Var} (h : var u ≠ var w) : u ≠ w := fun heq => h (congrArg var heq)
    cases e with
    | var z => simpa [rename, Var.renamed] using Var.renamed_eq_iff (z := z) (hne hx) (hne hy)
    | _ => simp [rename]
  · cases e <;> simp [rename]

/-- A renaming that the name has no part in neither makes it applied nor keeps
it from being so. -/
theorem appliedIn_rename (hn : IsName n) (hx : n ≠ var x) (hy : n ≠ var y) :
    AppliedIn R n (e.rename x y) ↔ AppliedIn R n e := by
  have hsym (g : Expr) : g.rename x y = sym R.applySym ↔ g = sym R.applySym :=
    rename_eq_iff (.inr ⟨_, rfl⟩) nofun nofun
  have hnode (d : Expr) : (∃ bs, d.rename x y = app (sym R.applySym) (n :: bs)) ↔
      ∃ as, d = app (sym R.applySym) (n :: as) := by
    cases d with
    | app g as => cases as with
      | nil => simp [rename, renameAll]
      | cons a as => simp [rename, renameAll, hsym, rename_eq_iff hn hx hy]
    | _ => simp [rename]
  simp only [AppliedIn, nodes_rename, List.mem_map]
  constructor
  · rintro ⟨bs, d, hd, hdn⟩
    obtain ⟨as, rfl⟩ := (hnode d).1 ⟨bs, hdn⟩
    exact ⟨as, hd⟩
  · rintro ⟨as, has⟩
    obtain ⟨bs, hbs⟩ := (hnode _).2 ⟨as, rfl⟩
    exact ⟨bs, _, has, hbs⟩

/-- Whether a node is a slot of a binding, and which one, is not changed by a
renaming it has no part in. -/
theorem bound?_rename (hx : n ≠ var x) (hy : n ≠ var y) : (xs.rename x y).bound? n = xs.bound? n := by
  cases n with
  | var u =>
    have hne {w : Var} (h : var u ≠ var w) : u ≠ w := fun heq => h (congrArg var heq)
    simp only [Binders.bound?, mem_toList_rename_iff (hne hx) (hne hy)]
  | _ => rfl

/-- The same for the test of membership alone, which is what a replacement
asks. -/
theorem binds_rename (hx : n ≠ var x) (hy : n ≠ var y) : (xs.rename x y).binds n = xs.binds n := by
  rw [Binders.binds, Binders.binds, bound?_rename hx hy]

/-- A renaming keeps the free names that have no part in it, heads of bindings
included. -/
theorem mem_freeNames_rename (hn : IsName n) (hx : n ≠ var x) (hy : n ≠ var y) :
    n ∈ (e.rename x y).freeNames ↔ n ∈ e.freeNames := by
  induction e with
  | var z =>
    have hz := rename_eq_iff (e := var z) hn hx hy
    simp only [rename] at hz
    simpa [rename, freeNames, eq_comm] using hz
  | app g as ihg ihas =>
    simp only [rename, renameAll_eq_map, mem_freeNames_app, List.mem_map, exists_exists_and_eq_and, ihg]
    exact or_congr_right (exists_congr fun a => and_congr_right fun ha => ihas a ha)
  | bind f xs b ih =>
    simp only [rename, freeNames, List.mem_cons, List.mem_filter, ih, binds_rename hx hy]
  | _ => rfl

/-- What is kept by the renamings that clear the way for a value of `v`: as `v`
stays free in the binding, it has no part in any of them, and the binding does
not come to bind it. -/
theorem clearOf_keeps {P : Binders → Expr → Prop} (hv : IsName v) (hb : xs.bound? v = none)
    (step : ∀ x, var x ∈ r.names → ∀ zs d y, x ∈ zs.toList → IsFresh f zs d r y → v ≠ var x → v ≠ var y →
      zs.bound? v = none → v ∈ d.freeNames → P zs d → P (zs.rename x y) (d.rename x y))
    (hP : P xs b) (h : clearOf f v r xs b = .ok (ys, c)) : P ys c ∧ ys.bound? v = none := by
  by_cases hfree : v ∈ b.freeNames
  · rw [clearOf, if_pos ((occursFree_iff hv).2 hfree)] at h
    have hkeeps := freshen_keeps (P := fun ys c => P ys c ∧ ys.bound? v = none ∧ v ∈ c.freeNames)
      (fun x hx zs d y hxz hy hkept => ?_) ⟨hP, hb, hfree⟩ h
    · exact ⟨hkeeps.1, hkeeps.2.1⟩
    · obtain ⟨hd, hbound, hvd⟩ := hkept
      have hvx : v ≠ var x := by
        rintro rfl
        cases hbound.symm.trans (Binders.bound?_eq_some.2 ⟨rfl, hxz⟩)
      have hvy : v ≠ var y := by
        rintro rfl
        have hmem := mem_vars_of_mem_names (var_mem_freeNames_iff.1 hvd)
        exact hy.not_mem (mem_vars_bind.2 (.inr hmem))
      refine ⟨step x (mem_filter_occursFree.1 hx).2 zs d y hxz hy hvx hvy hbound hvd hd, ?_, ?_⟩
      · rw [bound?_rename hvx hvy, hbound]
      · exact (mem_freeNames_rename hv hvx hvy).2 hvd
  · rw [clearOf_of_not_free hfree hv] at h
    cases h
    exact ⟨hP, hb⟩

/-- Clearing the way makes no binding of `v`. -/
theorem bound?_of_clearOf (hv : IsName v) (hb : xs.bound? v = none)
    (h : clearOf f v r xs b = .ok (ys, c)) : ys.bound? v = none :=
  (clearOf_keeps (P := fun _ _ => True) hv hb (fun _ _ _ _ _ _ _ _ _ _ _ _ => trivial) trivial h).2

/-- Nor does it bring `v` into the place of what is applied. -/
theorem appliedIn_of_clearOf (hv : IsName v) (hb : xs.bound? v = none)
    (h : clearOf f v r xs b = .ok (ys, c)) (happ : AppliedIn R v c) : AppliedIn R v b := by
  refine (clearOf_keeps (P := fun _ d => AppliedIn R v d → AppliedIn R v b) hv hb ?_ id h).1 happ
  exact fun x _ zs d y _ _ hvx hvy _ _ hd happ => hd ((appliedIn_rename hv hvx hvy).1 happ)

/-! ## Well applied expressions -/

/-- Nothing is applied but unknowns and functions, and that to one argument at
least; the symbol for application stands nowhere else, and no function binds an
unknown. -/
inductive WellApplied (R : Reserved) : Expr → Prop
  | var (x : Var) : WellApplied R (.var x)
  | sym {f : Sym} (unreserved : f ≠ R.applySym) : WellApplied R (.sym f)
  | int (n : Int) : WellApplied R (.int n)
  | float (x : FloatLit) : WellApplied R (.float x)
  | str (s : String) : WellApplied R (.str s)
  | app {f : Expr} {as : List Expr} (head : WellApplied R f) (args : ∀ a ∈ as, WellApplied R a) :
      WellApplied R (.app f as)
  | apply {m : Expr} {as : List Expr} (unknown : m.isMarked = true) (nonempty : as ≠ [])
      (args : ∀ a ∈ as, WellApplied R a) : WellApplied R (.app (.sym R.applySym) (m :: as))
  | redex {us : Binders} {b : Expr} {as : List Expr} (params : ∀ u ∈ us.toList, u.marked = false)
      (body : WellApplied R b) (nonempty : as ≠ []) (args : ∀ a ∈ as, WellApplied R a) :
      WellApplied R (.app (.sym R.applySym) (R.lambda us b :: as))
  | bind {f : Sym} {xs : Binders} {b : Expr}
      (slots : f = R.lambdaSym → ∀ x ∈ xs.toList, x.marked = false) (body : WellApplied R b) :
      WellApplied R (.bind f xs b)

/-- The symbol for application is not well applied by itself, so nothing well
applied is taken for it. -/
theorem WellApplied.ne_applySym (h : WellApplied R e) : e ≠ .sym R.applySym := by
  rintro rfl
  cases h
  next hne => exact hne rfl

/-- A function may be applied. -/
theorem WellApplied.call (hg : WellApplied R g) (hl : g.isLambda R = true) (nonempty : as ≠ [])
    (args : ∀ a ∈ as, WellApplied R a) : WellApplied R (.app (.sym R.applySym) (g :: as)) := by
  cases hg with
  | bind slots body =>
    obtain rfl := eq_of_beq hl
    exact .redex (slots rfl) body nonempty args
  | _ => cases hl

/-- A variable that is not applied may be renamed to any unmarked one. -/
theorem WellApplied.rename (he : WellApplied R e) (hx : ¬AppliedIn R (.var x) e) (hy : y.marked = false) :
    WellApplied R (e.rename x y) := by
  induction he with
  | var | sym | int | float | str => constructor <;> assumption
  | app _ _ ihf ihas =>
    simp only [appliedIn_app, not_or, not_exists, not_and] at hx
    rw [Expr.rename, renameAll_eq_map]
    exact .app (ihf hx.2.1) (List.forall_mem_map.2 fun a ha => ihas a ha (hx.2.2 a ha))
  | @apply m as unknown nonempty _ ihas =>
    simp only [appliedIn_app, not_or, not_exists, not_and, List.forall_mem_cons] at hx
    have hm : m.rename x y = m := by
      cases m with
      | var z => rw [Expr.rename, if_neg fun h : z = x => hx.1 trivial as (h ▸ rfl)]
      | _ => first | rfl | cases unknown
    rw [Expr.rename, renameAll_eq_map, List.map_cons, hm]
    refine .apply unknown (mt List.map_eq_nil_iff.1 nonempty) ?_
    exact List.forall_mem_map.2 fun a ha => ihas a ha (hx.2.2.2 a ha)
  | redex params _ nonempty _ ihb ihas =>
    simp only [appliedIn_app, appliedIn_bind, Reserved.lambda, not_or, not_exists, not_and,
      List.forall_mem_cons] at hx
    rw [Expr.rename, renameAll_eq_map, List.map_cons]
    refine .redex (fun z hz => ?_) (ihb hx.2.2.1) (mt List.map_eq_nil_iff.1 nonempty)
      (List.forall_mem_map.2 fun a ha => ihas a ha (hx.2.2.2 a ha))
    rcases mem_toList_rename hz with rfl | ⟨hz, -⟩
    · exact hy
    · exact params z hz
  | bind slots _ ih =>
    rw [appliedIn_bind] at hx
    refine .bind (fun hf z hz => ?_) (ih hx)
    rcases mem_toList_rename hz with rfl | ⟨hz, -⟩
    · exact hy
    · exact slots hf z hz

/-- The bound variable `x` of a binding `xs, b` has to give way when `r` takes
the place of `v`. -/
structure GivesWay (v r : Expr) (xs : Binders) (b : Expr) (x : Var) : Prop where
  mem : x ∈ xs.toList
  unbound : xs.binds v = false
  occurs : occursFree v b = true
  free : occursFree (.var x) r = true

/-- No binding of `e` has to give way with a variable that is applied. -/
def Yields (R : Reserved) (v r e : Expr) : Prop :=
  ∀ f xs b x, bind f xs b ∈ e.nodes → GivesWay v r xs b x → ¬AppliedIn R (.var x) b

/-- It is enough to look at all bindings of a larger expression. -/
theorem Yields.of_nodes (h : Yields R v r e) (hsub : ∀ n ∈ q.nodes, n ∈ e.nodes) : Yields R v r q :=
  fun f xs b x hb => h f xs b x (hsub _ hb)

/-- If no binding gives way with an applied variable, none does after a
renaming either.  The new name must not be free in what is put in, for then
more bindings would have to give way than before. -/
theorem Yields.rename (h : Yields R v r e) (hv : IsName v) (hx : v ≠ .var x) (hy : v ≠ .var y)
    (hyr : y ∉ r.vars) : Yields R v r (e.rename x y) := by
  intro f ws d u hd hway happ
  rw [nodes_rename] at hd
  obtain ⟨n, hn, hnd⟩ := List.mem_map.1 hd
  cases n with
  | bind f zs b =>
    rw [Expr.rename] at hnd
    cases hnd
    have hur := mem_vars_of_mem_names (occursFree_var_iff.1 hway.free)
    rcases mem_toList_rename hway.mem with rfl | ⟨hu, hne⟩
    · exact hyr hur
    · have huy : u ≠ y := fun heq => hyr (heq ▸ hur)
      refine h f zs b u hn ⟨hu, ?_, ?_, hway.free⟩ ?_
      · rw [← binds_rename hx hy]
        exact hway.unbound
      · rw [occursFree_iff hv, ← mem_freeNames_rename hv hx hy]
        exact (occursFree_iff hv).1 hway.occurs
      · refine (appliedIn_rename (.inl ⟨u, rfl⟩) ?_ ?_).1 happ
        · exact fun heq => hne (Expr.var.inj heq)
        · exact fun heq => huy (Expr.var.inj heq)
  | _ => cases hnd

/-- What is well applied stays so when the way is cleared. -/
theorem WellApplied.clearOf (hb : WellApplied R b) (hv : IsName v) (hbound : xs.bound? v = none)
    (hway : Yields R v r (.bind f xs b)) (h : clearOf f v r xs b = .ok (ys, c)) :
    WellApplied R c ∧ Yields R v r c := by
  have hkeeps := clearOf_keeps (P := fun ys c => WellApplied R c ∧ Yields R v r (.bind f ys c)) hv hbound
    (fun x hx zs d y hxz hy hvx hvy hbound hvd ⟨hd, hyields⟩ => ⟨hd.rename ?_ hy.unmarked, ?_⟩) ⟨hb, hway⟩ h
  · exact ⟨hkeeps.1.1, hkeeps.1.2.of_nodes fun n hn => mem_nodes_of_body hn⟩
  · have hbinds : zs.binds v = false := by
      rw [Binders.binds, hbound]
      rfl
    exact hyields f zs d x (self_mem_nodes _)
      ⟨hxz, hbinds, (occursFree_iff hv).2 hvd, occursFree_var_iff.2 hx⟩
  · have hrename := hyields.rename hv hvx hvy hy.not_mem_value
    rwa [Expr.rename] at hrename

/-- **A well applied expression stays well applied** when a value takes the
place of an unknown: a function, if the unknown is applied. -/
theorem WellApplied.subst (he : WellApplied R e) (hv : v.isMarked = true) (hr : WellApplied R r)
    (hfn : AppliedIn R v e → r.isLambda R = true) (hway : Yields R v r e) (h : e.subst v r = .ok q) :
    WellApplied R q := by
  have hname := isName_of_isMarked hv
  induction e using sizedInduct generalizing q with
  | atom e hatom =>
    rw [subst_atom hatom] at h
    cases h
    split
    · exact hr
    · exact he
  | app f as ihf ihas =>
    obtain ⟨f', as', hf, has, rfl⟩ := of_subst_app h
    rw [appliedIn_app] at hfn
    have hway' {a : Expr} (ha : a = f ∨ a ∈ as) : Yields R v r a := hway.of_nodes fun n hn =>
      mem_nodes_app.2 (.inr (ha.imp (fun heq : a = f => heq ▸ hn) fun ha => ⟨a, ha, hn⟩))
    have hargs {bs bs' : List Expr} (hsub : ∀ a ∈ bs, a ∈ as) (hbs : ∀ a ∈ bs, WellApplied R a)
        (h : List.Forall₂ (fun a a' => a.subst v r = .ok a') bs bs') : ∀ a' ∈ bs', WellApplied R a' := by
      intro a' ha'
      obtain ⟨a, ha, haa'⟩ := exists_of_forall₂ h a' ha'
      exact ihas a (hsub a ha) (hbs a ha) (fun happ => hfn (.inr (.inr ⟨a, hsub a ha, happ⟩)))
        (hway' (.inr (hsub a ha))) haa'
    cases he with
    | app head args =>
      exact .app (ihf head (fun happ => hfn (.inr (.inl happ))) (hway' (.inl rfl)) hf)
        (hargs (fun _ => id) args has)
    | @apply m as unknown nonempty args =>
      cases (subst_applySym hv).symm.trans hf
      cases has with
      | @cons _ m' _ as' hm has =>
        have has' := hargs (fun a ha => List.mem_cons_of_mem _ ha) args has
        have hne := ne_nil_of_forall₂ has nonempty
        rw [subst_atom (isCompound_of_isMarked unknown)] at hm
        cases hm
        split
        · next heq =>
          obtain rfl := (beq_name_iff hname).1 heq
          exact hr.call (hfn (.inl ⟨rfl, as, rfl⟩)) hne has'
        · exact .apply unknown hne has'
    | @redex us b as params body nonempty args =>
      cases (subst_applySym hv).symm.trans hf
      cases has with
      | @cons _ g' _ as' hg has =>
        have has' := hargs (fun a ha => List.mem_cons_of_mem _ ha) args has
        have hlam : WellApplied R (R.lambda us b) := .bind (fun _ => params) body
        have hl : (R.lambda us b).isLambda R = true := beq_self_eq_true R.lambdaSym
        have hg' : WellApplied R g' := hargs (List.forall_mem_singleton.2 List.mem_cons_self)
          (List.forall_mem_singleton.2 hlam) (.cons hg .nil) g' List.mem_cons_self
        exact hg'.call (isLambda_of_subst hl hg) (ne_nil_of_forall₂ has nonempty) has'
  | bind f xs b ih =>
    rw [appliedIn_bind] at hfn
    cases he with
    | bind slots body =>
      rcases of_subst_bind h with ⟨x, y, d, rfl, hx, rfl, hd, rfl⟩ | ⟨hbound, ys, c, d, hc, hd, rfl⟩
      · have hb : Yields R (.var x) (.var y) b :=
          hway.of_nodes fun n hn => mem_nodes_of_body hn
        refine .bind (fun hf => ?_) (ih b rfl body hfn hb hd)
        -- a function binds no unknown
        exact absurd ((slots hf x hx).symm.trans hv) Bool.false_ne_true
      · obtain ⟨hc', hyields⟩ := body.clearOf hname hbound hway hc
        have hfn' (h : AppliedIn R v c) : r.isLambda R = true := hfn (appliedIn_of_clearOf hname hbound hc h)
        refine .bind (fun hf z hz => ?_) (ih c (size_of_clearOf hc) hc' hfn' hyields hd)
        have hys := (of_clearOf (P := fun _ => True) (fun _ _ _ _ _ _ _ => trivial) trivial hc).2.2.1 z hz
        exact hys.elim (slots hf z) And.left

/-! ## Normal expressions -/

/-- What may be applied where the variables `S` are bound around: an unknown or
one of them. -/
def Callable (S : List Var) (g : Expr) : Prop := g.isMarked = true ∨ ∃ x ∈ S, g = .var x

/-- No function is applied, but only unknowns and variables that are bound
around, be it in `e` or among `S`. -/
inductive Normal (R : Reserved) : List Var → Expr → Prop
  | var {S : List Var} (x : Var) : Normal R S (.var x)
  | sym {S : List Var} {f : Sym} (unreserved : f ≠ R.applySym) : Normal R S (.sym f)
  | int {S : List Var} (n : Int) : Normal R S (.int n)
  | float {S : List Var} (x : FloatLit) : Normal R S (.float x)
  | str {S : List Var} (s : String) : Normal R S (.str s)
  | app {S : List Var} {f : Expr} {as : List Expr} (head : Normal R S f) (args : ∀ a ∈ as, Normal R S a) :
      Normal R S (.app f as)
  | apply {S : List Var} {g : Expr} {as : List Expr} (applied : Callable S g) (nonempty : as ≠ [])
      (args : ∀ a ∈ as, Normal R S a) : Normal R S (.app (.sym R.applySym) (g :: as))
  | bind {S : List Var} {f : Sym} {xs : Binders} {b : Expr} (body : Normal R (xs.toList ++ S) b) :
      Normal R S (.bind f xs b)

/-- Where more is bound around, more may be applied. -/
theorem Callable.mono (hS : ∀ x ∈ S, x ∈ S') (h : Callable S g) : Callable S' g :=
  h.imp_right fun ⟨x, hx, hg⟩ => ⟨x, hS x hx, hg⟩

/-- Only names are callable, so no callable node is a function that is left to
contract. -/
theorem Callable.isName (h : Callable S g) : IsName g :=
  h.elim isName_of_isMarked fun ⟨x, _, hg⟩ => .inl ⟨x, hg⟩

namespace Normal

/-- The symbol for application is not normal by itself either. -/
theorem ne_applySym (h : Normal R S e) : e ≠ .sym R.applySym := by
  rintro rfl
  cases h
  next hne => exact hne rfl

/-- A normal expression stays normal where more variables are bound around
it. -/
theorem mono (hS : ∀ x ∈ S, x ∈ S') (h : Normal R S e) : Normal R S' e := by
  induction h generalizing S' with
  | var | sym | int | float | str => constructor <;> assumption
  | app _ _ ihf ihas => exact .app (ihf hS) fun a ha => ihas a ha hS
  | apply applied nonempty _ ihas => exact .apply (applied.mono hS) nonempty fun a ha => ihas a ha hS
  | bind _ ih =>
    exact .bind (ih fun x hx => List.mem_append.2 ((List.mem_append.1 hx).imp_right (hS x)))

/-- **A normal expression contains no redex.** -/
theorem not_isRedex (h : Normal R S e) : ∀ n ∈ e.nodes, n.isRedex R = false := by
  induction h with
  | var | sym | int | float | str => exact fun n hn => List.mem_singleton.1 hn ▸ rfl
  | app head _ ihf ihas =>
    intro n hn
    rcases mem_nodes_app.1 hn with rfl | hn | ⟨a, ha, hn⟩
    · exact isRedex_of_ne head.ne_applySym _
    · exact ihf n hn
    · exact ihas a ha n hn
  | @apply S g as applied _ _ ihas =>
    intro n hn
    rcases mem_nodes_app.1 hn with rfl | hn | ⟨a, ha, hna⟩
    · refine Bool.eq_false_iff.2 fun hredex => ?_
      obtain ⟨us, b, _, _, heq⟩ := isRedex_iff.1 hredex
      cases heq
      rcases applied.isName with ⟨_, h⟩ | ⟨_, h⟩ <;> cases h
    · exact List.mem_singleton.1 hn ▸ rfl
    · rcases List.mem_cons.1 ha with rfl | ha
      · rcases applied.isName with ⟨_, rfl⟩ | ⟨_, rfl⟩ <;> exact List.mem_singleton.1 hna ▸ rfl
      · exact ihas a ha n hna
  | bind _ ih =>
    intro n hn
    rcases mem_nodes_bind.1 hn with rfl | rfl | ⟨x, -, rfl⟩ | hn
    · rfl
    · rfl
    · rfl
    · exact ih n hn

/-- A variable may be renamed to one that is bound around. -/
theorem rename (h : Normal R S e) (hS : ∀ z ∈ S, z ≠ x → z ∈ S') (hy : y ∈ S') :
    Normal R S' (e.rename x y) := by
  induction h generalizing S' with
  | var | sym | int | float | str => constructor <;> assumption
  | app _ _ ihf ihas =>
    rw [Expr.rename, renameAll_eq_map]
    exact .app (ihf hS hy) (List.forall_mem_map.2 fun a ha => ihas a ha hS hy)
  | @apply S g as applied nonempty _ ihas =>
    rw [Expr.rename, renameAll_eq_map, List.map_cons]
    refine .apply ?_ (mt List.map_eq_nil_iff.1 nonempty) (List.forall_mem_map.2 fun a ha => ihas a ha hS hy)
    rcases applied.isName with ⟨z, rfl⟩ | ⟨g, rfl⟩
    · rw [Expr.rename]
      split
      · exact .inr ⟨y, hy, rfl⟩
      · next hne =>
        refine applied.imp_right fun hbound => ?_
        obtain ⟨w, hw, hzw⟩ := hbound
        exact ⟨w, hS w hw fun heq => hne ((Expr.var.inj hzw).trans heq), hzw⟩
    · refine applied.imp_right fun hbound => ?_
      obtain ⟨w, -, h⟩ := hbound
      cases h
  | @bind S f xs b _ ih =>
    refine .bind (ih (fun z hz hne => ?_) (List.mem_append_right _ hy))
    rw [toList_rename, List.mem_append]
    refine (List.mem_append.1 hz).imp (fun hz => ?_) fun hz => hS z hz hne
    exact Var.mem_map_renamed_of_ne hz hne

/-- What is normal stays so when the way is cleared. -/
theorem clearOf (hb : Normal R (xs.toList ++ S) b) (h : clearOf f v r xs b = .ok (ys, c)) :
    Normal R (ys.toList ++ S) c := by
  rw [Expr.clearOf] at h
  split at h
  · refine freshen_keeps (P := fun ys c => Normal R (ys.toList ++ S) c) (fun x _ zs d y hx _ hd => ?_) hb h
    refine hd.rename (fun z hz hne => ?_) (List.mem_append_left _ ?_)
    · rw [toList_rename, List.mem_append]
      exact (List.mem_append.1 hz).imp_left fun hz => Var.mem_map_renamed_of_ne hz hne
    · rw [toList_rename]
      exact List.mem_map.2 ⟨x, hx, Var.renamed_self x y⟩
  · cases h
    exact hb

/-- **A normal expression stays normal** when a value takes the place of a name
that may be applied only if the value may. -/
theorem subst (he : Normal R S e) (hv : IsName v) (hne : v ≠ .sym R.applySym) (hr : Normal R S' r)
    (hS : ∀ x ∈ S, v ≠ .var x → x ∈ S') (hcall : Callable S v → Callable S' r)
    (h : e.subst v r = .ok q) : Normal R S' q := by
  induction e using sizedInduct generalizing q S S' with
  | atom e hatom =>
    rw [subst_atom hatom] at h
    cases h
    split
    · exact hr
    · cases he with
      | app | apply | bind => cases hatom
      | sym unreserved => exact .sym unreserved
      | _ => constructor
  | app f as ihf ihas =>
    obtain ⟨f', as', hf, has, rfl⟩ := of_subst_app h
    have hargs {bs bs' : List Expr} (hsub : ∀ a ∈ bs, a ∈ as) (hbs : ∀ a ∈ bs, Normal R S a)
        (h : List.Forall₂ (fun a a' => a.subst v r = .ok a') bs bs') : ∀ a' ∈ bs', Normal R S' a' := by
      intro a' ha'
      obtain ⟨a, ha, haa'⟩ := exists_of_forall₂ h a' ha'
      exact ihas a (hsub a ha) (hbs a ha) hr hS hcall haa'
    cases he with
    | app head args => exact .app (ihf head hr hS hcall hf) (hargs (fun _ => id) args has)
    | @apply _ g as applied nonempty args =>
      cases (subst_of_ne (.inr ⟨_, rfl⟩) hne.symm hv).symm.trans hf
      cases has with
      | @cons _ g' _ as' hg has =>
        refine .apply ?_ (ne_nil_of_forall₂ has nonempty) (hargs (fun a ha => List.mem_cons_of_mem _ ha) args has)
        by_cases hgv : g = v
        · rw [hgv, subst_self hv] at hg
          cases hg
          exact hcall (hgv ▸ applied)
        · cases (subst_of_ne applied.isName hgv hv).symm.trans hg
          exact applied.imp_right fun ⟨x, hx, hgx⟩ => ⟨x, hS x hx fun hvx => hgv (hgx.trans hvx.symm), hgx⟩
  | bind f xs b ih =>
    cases he with
    | bind body =>
      -- A binding that binds `v` takes the new name; any other one makes way and is entered.
      rcases of_subst_bind h with ⟨x, y, d, rfl, hx, rfl, hd, rfl⟩ | ⟨hbound, ys, c, d, hc, hd, rfl⟩
      · have hy : y ∈ (xs.rename x y).toList := by
          rw [toList_rename]
          exact List.mem_map.2 ⟨x, hx, Var.renamed_self x y⟩
        refine .bind (ih b rfl body (.var y) (fun z hz hxz => ?_) (fun _ => ?_) hd)
        · refine List.mem_append.2 ((List.mem_append.1 hz).imp (fun hz => ?_) fun hz => hS z hz hxz)
          rw [toList_rename]
          exact Var.mem_map_renamed_of_ne hz fun heq => hxz (congrArg Expr.var heq.symm)
        · exact .inr ⟨y, List.mem_append_left _ hy, rfl⟩
      · have hys : ∀ y ∈ ys.toList, v ≠ .var y := fun y hy heq => by
          cases (bound?_of_clearOf hv hbound hc).symm.trans (Binders.bound?_eq_some.2 ⟨heq, hy⟩)
        refine .bind (ih c (size_of_clearOf hc) (body.clearOf hc) (hr.mono fun x hx => List.mem_append_right _ hx)
          (fun z hz hvz => ?_) (fun happ => ?_) hd)
        · exact List.mem_append.2 ((List.mem_append.1 hz).imp_right fun hz => hS z hz hvz)
        · refine (hcall (happ.imp_right fun ⟨x, hx, hvx⟩ => ⟨x, ?_, hvx⟩)).mono fun x hx =>
            List.mem_append_right _ hx
          exact (List.mem_append.1 hx).resolve_left fun hx => hys x hx hvx

end Normal

/-- **Contraction makes a well applied expression normal.**  Only unknowns are
applied in what stands inside a redex when its turn comes, so no parameter
is. -/
theorem WellApplied.contractFrom (he : WellApplied R e) (h : contractFrom R depth e = .ok q) :
    Normal R [] q := by
  have hargs {as bs : List Expr} {depth : Nat}
      (ih : ∀ a ∈ as, ∀ {q depth}, Expr.contractFrom R depth a = .ok q → Normal R [] q)
      (h : List.Forall₂ (fun a b => Expr.contractFrom R depth a = .ok b) as bs) :
      ∀ b ∈ bs, Normal R [] b := by
    intro b hb
    obtain ⟨a, ha, hab⟩ := exists_of_forall₂ h b hb
    exact ih a ha hab
  induction he generalizing depth q with
  | var x =>
    cases h
    exact .var x
  | sym unreserved =>
    cases h
    exact .sym unreserved
  | int | float | str =>
    cases h
    constructor
  | app head _ ihf ihas =>
    obtain ⟨f', as', hf, has, ⟨hredex, -⟩ | ⟨-, rfl⟩⟩ := of_contractFrom_app h
    · exact absurd hredex (Bool.eq_false_iff.1 (isRedex_of_ne head.ne_applySym _))
    · exact .app (ihf hf) (hargs ihas has)
  | @apply m as unknown nonempty _ ihas =>
    obtain ⟨f', as', hf, has, ⟨hredex, -⟩ | ⟨-, rfl⟩⟩ := of_contractFrom_app h
    · exact absurd hredex (Bool.eq_false_iff.1 (isRedex_of_isMarked unknown _))
    · cases hf
      cases has with
      | cons hm has =>
        cases (contractFrom_atom (isCompound_of_isMarked unknown)).symm.trans hm
        exact .apply (.inl unknown) (ne_nil_of_forall₂ has nonempty) (hargs ihas has)
  | @redex us b as params _ nonempty _ ihb ihas =>
    obtain ⟨f', as', hf, has, hq⟩ := of_contractFrom_app h
    obtain ⟨a, rest, rfl⟩ := List.exists_cons_of_ne_nil nonempty
    have hredex : (Expr.app (.sym R.applySym) (R.lambda us b :: a :: rest)).isRedex R = true :=
      isRedex_iff.2 ⟨us, b, a, rest, rfl⟩
    obtain ⟨-, hq⟩ := hq.resolve_right fun h => by cases hredex.symm.trans h.1
    cases hf
    cases has with
    | cons hg has =>
      obtain ⟨b', hb, rfl⟩ := of_contractFrom_bind hg
      have hbs := hargs ihas has
      cases has with
      | @cons _ a' _ rest' ha hrest =>
        refine of_substEach (fun pair hpair e q he hq => ?_) (ihb hb) (of_contract_lambda hq).2
        obtain ⟨hu, ha⟩ := List.of_mem_zip hpair
        refine he.subst (.inl ⟨_, rfl⟩) nofun (hbs _ ha) (fun x hx => absurd hx List.not_mem_nil) ?_ hq
        -- a parameter is no unknown
        rintro (hm | ⟨x, hx, -⟩)
        · exact absurd ((params _ hu).symm.trans hm) Bool.false_ne_true
        · cases hx
  | bind _ _ ih =>
    obtain ⟨c, hb, rfl⟩ := of_contractFrom_bind h
    exact .bind ((ih hb).mono fun x hx => absurd hx List.not_mem_nil)

end Expr
end SecondOrder
