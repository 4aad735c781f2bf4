/-
# Substitution is replacement in the nameless form

In a nameless form no name can be captured, so to put forms in the place of
names is to replace leaves (`Nameless.replace`); heads of bindings are no
leaves.  Substitution comes to that: where nothing of `r` is bound around `e`,
the form of `e.subst v r` is the form of `e` with the form of `r` in the place
of `v` (`Expr.namelessIn_subst`).

A binding that has to give way is renamed, which keeps its form
(`Expr.clearOf_keeps`), so the induction goes through under the new variables.
Giving way is decided by `Expr.occursFree`, which counts heads of bindings; a
binding may therefore be renamed where nothing is replaced (`Expr.subst_head`).
-/

import Mathlib
import SecondOrder.Proofs.Expr.Inversion
import SecondOrder.Proofs.Expr.Nameless

namespace SecondOrder

namespace Nameless

mutual

/-- The names in a form, heads of bindings aside. -/
def names : Nameless → List Expr
  | .var x => [.var x]
  | .sym f => [.sym f]
  | .app t ts => names t ++ namesAll ts
  | .bind _ _ t => names t
  | _ => []

def namesAll : List Nameless → List Expr
  | [] => []
  | t :: ts => names t ++ namesAll ts

end

mutual

/-- Each name that is the first of a pair replaced by the second; of two pairs
for one name the earlier counts. -/
def replace (pairs : List (Expr × Nameless)) : Nameless → Nameless
  | .var x => (pairs.lookup (.var x)).getD (.var x)
  | .sym f => (pairs.lookup (.sym f)).getD (.sym f)
  | .app t ts => .app (replace pairs t) (replaceAll pairs ts)
  | .bind f k t => .bind f k (replace pairs t)
  | t => t

def replaceAll (pairs : List (Expr × Nameless)) : List Nameless → List Nameless
  | [] => []
  | t :: ts => replace pairs t :: replaceAll pairs ts

end

variable {pairs : List (Expr × Nameless)} {s t : Nameless} {ts : List Nameless} {n v : Expr}

/-- Names are replaced in arguments one by one. -/
theorem replaceAll_eq_map (pairs : List (Expr × Nameless)) (ts : List Nameless) :
    replaceAll pairs ts = ts.map (replace pairs) := by
  induction ts with
  | nil => rfl
  | cons t ts ih => rw [replaceAll, ih, List.map_cons]

/-- The names of a form are those of its parts. -/
theorem mem_names_app : n ∈ (app t ts).names ↔ n ∈ t.names ∨ ∃ u ∈ ts, n ∈ u.names := by
  have hall : n ∈ namesAll ts ↔ ∃ u ∈ ts, n ∈ u.names := by
    induction ts with
    | nil => simp [namesAll]
    | cons u ts ih => simp [namesAll, ih]
  rw [names, List.mem_append, hall]

/-- A name that no pair is for has nothing to be replaced by. -/
theorem lookup_of_ne (hpairs : ∀ p ∈ pairs, Expr.IsName p.1 ∧ n ≠ p.1) : pairs.lookup n = none := by
  induction pairs with
  | nil => rfl
  | cons p pairs ih =>
    rw [List.forall_mem_cons] at hpairs
    rw [List.lookup_cons, Bool.eq_false_iff.2 (mt (Expr.beq_name_iff hpairs.1.1).1 hpairs.1.2)]
    exact ih hpairs.2

/-- What is looked up comes from one of the pairs. -/
theorem exists_of_lookup (h : pairs.lookup n = some s) : ∃ pair ∈ pairs, pair.2 = s := by
  induction pairs with
  | nil => cases h
  | cons pair pairs ih =>
    rw [List.lookup_cons] at h
    split at h
    · exact ⟨pair, List.mem_cons_self, Option.some.inj h⟩
    · obtain ⟨pair', hpair', h⟩ := ih h
      exact ⟨pair', List.mem_cons_of_mem _ hpair', h⟩

/-- A form stays as it is if none of the names occurs in it. -/
theorem replace_of_not_mem (hpairs : ∀ p ∈ pairs, Expr.IsName p.1 ∧ p.1 ∉ t.names) :
    t.replace pairs = t := by
  induction t with
  | var x =>
    rw [replace, lookup_of_ne fun p hp => ⟨(hpairs p hp).1, fun h => (hpairs p hp).2 (by simp [names, h])⟩]
    rfl
  | sym f =>
    rw [replace, lookup_of_ne fun p hp => ⟨(hpairs p hp).1, fun h => (hpairs p hp).2 (by simp [names, h])⟩]
    rfl
  | app t ts iht ihts =>
    simp only [mem_names_app, not_or] at hpairs
    rw [replace, replaceAll_eq_map, iht fun p hp => ⟨(hpairs p hp).1, (hpairs p hp).2.1⟩]
    refine congrArg _ ((List.map_congr_left fun u hu => ihts u hu fun p hp => ?_).trans (List.map_id _))
    exact ⟨(hpairs p hp).1, fun h => (hpairs p hp).2.2 ⟨u, hu, h⟩⟩
  | bind f k t ih =>
    rw [replace]
    exact congrArg _ (ih hpairs)
  | _ => rfl

/-- The names after one name has been replaced. -/
theorem mem_names_replace (hv : Expr.IsName v) : n ∈ (t.replace [(v, s)]).names ↔
    n ∈ t.names ∧ n ≠ v ∨ v ∈ t.names ∧ n ∈ s.names := by
  induction t with
  | var x =>
    by_cases hx : v = .var x
    · simp [hx, replace, names]
    · rw [replace_of_not_mem (by simpa [hv, names] using hx)]
      simp only [names, List.mem_singleton, hx, false_and, or_false]
      exact ⟨fun h => ⟨h, h.trans_ne (Ne.symm hx)⟩, And.left⟩
  | sym f =>
    by_cases hf : v = .sym f
    · simp [hf, replace, names]
    · rw [replace_of_not_mem (by simpa [hv, names] using hf)]
      simp only [names, List.mem_singleton, hf, false_and, or_false]
      exact ⟨fun h => ⟨h, h.trans_ne (Ne.symm hf)⟩, And.left⟩
  | app t ts iht ihts =>
    have hts : (∃ u ∈ ts, n ∈ (u.replace [(v, s)]).names) ↔
        ∃ u ∈ ts, n ∈ u.names ∧ n ≠ v ∨ v ∈ u.names ∧ n ∈ s.names :=
      exists_congr fun u => and_congr_right fun hu => ihts u hu
    simp only [replace, replaceAll_eq_map, mem_names_app, List.mem_map, exists_exists_and_eq_and, iht, hts]
    grind
  | bind f k t ih => exact ih
  | _ => simp [replace, names]

end Nameless

namespace Expr

variable {S : List Var} {x y : Var} {f : Sym} {xs ys : Binders} {e b c v r q n : Expr}

/-- The names of a form are the free names of the expression, heads of bindings
aside. -/
theorem mem_names_namelessIn :
    n ∈ (e.namelessIn S).names ↔ n ∈ e.names ∧ ∀ x ∈ S, n ≠ var x := by
  induction e generalizing S with
  | var x =>
    rw [namelessIn, place]
    split
    · next hx =>
      simp only [Nameless.names, names, List.not_mem_nil, List.mem_singleton, false_iff, not_and]
      exact fun h hS => hS x hx h
    · next hx =>
      simp only [Nameless.names, names, List.mem_singleton]
      refine ⟨fun h => ⟨h, ?_⟩, And.left⟩
      rintro y hy rfl
      cases h
      exact hx hy
  | app f as ihf ihas =>
    have has : (∃ a ∈ as, n ∈ (a.namelessIn S).names) ↔
        ∃ a ∈ as, n ∈ a.names ∧ ∀ x ∈ S, n ≠ var x :=
      exists_congr fun a => and_congr_right fun ha => ihas a ha
    simp only [namelessIn, namelessAllIn_eq_map, Nameless.mem_names_app, List.mem_map,
      exists_exists_and_eq_and, ihf, has, mem_names_app]
    grind
  | bind f xs b ih =>
    simp only [namelessIn, Nameless.names, ih, mem_names_bind, List.mem_append, List.mem_reverse]
    grind
  | sym f => simp [namelessIn, Nameless.names, names]; grind
  | _ => simp [namelessIn, Nameless.names, names]

/-- The free variables are the variables among the free names. -/
theorem mem_freeVars_iff : x ∈ e.freeVars ↔ var x ∈ e.names :=
  mem_freeVars.trans var_mem_freeNames_iff

/-- The variable `y` is as the one that a bound variable of `f[xs, b]` is
renamed to when it gives way to `r`. -/
structure IsFresh (f : Sym) (xs : Binders) (b r : Expr) (y : Var) : Prop where
  unmarked : y.marked = false
  numbered : y.Numbered 'x'
  not_mem : y ∉ (bind f xs b).vars
  not_mem_value : y ∉ r.vars

/-- The variable that is made up for a binding and a value is new for both. -/
theorem isFresh_freshVar (f : Sym) (xs : Binders) (b r : Expr) :
    IsFresh f xs b r (freshVar [bind f xs b, r]) where
  unmarked := marked_freshVar _
  numbered := numbered_freshVar _
  not_mem := freshVar_not_mem List.mem_cons_self
  not_mem_value := freshVar_not_mem (List.mem_cons_of_mem _ List.mem_cons_self)

/-- Giving way keeps what is kept when one of the given variables is renamed to
a new one. -/
theorem freshen_keeps {P : Binders → Expr → Prop} {zs : List Var}
    (step : ∀ x ∈ zs, ∀ (xs : Binders) (b : Expr) (y : Var), x ∈ xs.toList → IsFresh f xs b r y →
      P xs b → P (xs.rename x y) (b.rename x y))
    (hP : P xs b) (h : freshen f r zs xs b = .ok (ys, c)) : P ys c := by
  induction zs generalizing xs b with
  | nil =>
    cases h
    exact hP
  | cons x zs ih =>
    rw [List.forall_mem_cons] at step
    rw [freshen] at h
    split at h
    · next hx => exact ih step.2 (step.1 xs b _ hx (isFresh_freshVar ..) hP) h
    · contradiction

/-- What clearing the way for `r` keeps of the binding `f[xs, b]`, and what it
achieves. -/
structure Cleared (v r : Expr) (f : Sym) (xs : Binders) (b : Expr) (ys : Binders) (c : Expr) :
    Prop where
  form : ∀ S, (bind f ys c).namelessIn S = (bind f xs b).namelessIn S
  /-- A name that no slot holds stays out of the slots. -/
  slots : (∀ x ∈ (bind f xs b).slots, v ≠ var x) → ∀ x ∈ (bind f ys c).slots, v ≠ var x
  apart : v ∈ b.freeNames → ∀ y ∈ ys.toList, var y ∉ r.names

/-- **A binding that is cleared has the form it had,** and binds nothing that
the value names, if that matters at all. -/
theorem cleared_of_clearOf (hv : IsName v) (h : clearOf f v r xs b = .ok (ys, c)) :
    Cleared v r f xs b ys c := by
  by_cases hfree : v ∈ b.freeNames
  · have hocc := (occursFree_iff hv).2 hfree
    have hapart := (of_clearOf (P := fun _ => True) (fun _ _ _ _ _ _ _ => trivial) trivial h).2.2.2 hocc
    rw [clearOf, if_pos hocc] at h
    refine ⟨?form, ?slots, fun _ => hapart⟩
    case form =>
      refine freshen_keeps (P := fun ys c => ∀ S, (bind f ys c).namelessIn S = (bind f xs b).namelessIn S)
        (fun x _ zs d y hx hy hP S => ?_) (fun _ => rfl) h
      exact (namelessIn_rename_bind hx hy.not_mem).trans (hP S)
    case slots =>
      intro hslot
      have hvar (z : Var) (hz : v = var z) : z ∈ (bind f xs b).vars :=
        mem_vars_bind.2 (.inr (mem_vars_of_mem_names (var_mem_freeNames_iff.1 (hz ▸ hfree))))
      refine (freshen_keeps (P := fun ys c => (∀ z, v = var z → z ∈ (bind f ys c).vars) ∧
        ∀ z ∈ (bind f ys c).slots, v ≠ var z) (fun x _ zs d y hx hy hP => ?_) ⟨hvar, hslot⟩ h).2
      have hne : v ≠ var x := hP.2 x (mem_slots_bind.2 (.inl hx))
      rw [← rename, vars_rename, slots_rename]
      constructor
      · rintro z rfl
        refine Var.mem_map_renamed_of_ne (hP.1 z rfl) ?_
        rintro rfl
        exact hne rfl
      · rintro z hz rfl
        rcases Var.of_mem_map_renamed hz with rfl | ⟨hz, -⟩
        · exact hy.not_mem (hP.1 z rfl)
        · exact hP.2 z hz rfl
  · rw [clearOf_of_not_free hfree hv] at h
    cases h
    exact ⟨fun _ => rfl, id, fun hmem => absurd hmem hfree⟩

/-- The names stay. -/
theorem Cleared.mem_names (h : Cleared v r f xs b ys c) :
    n ∈ (bind f ys c).names ↔ n ∈ (bind f xs b).names := by
  have hform := congrArg (n ∈ Nameless.names ·) (h.form [])
  simpa [mem_names_namelessIn] using hform

/-- An atom under bound variables that are apart from what is put into it. -/
theorem namelessIn_atom (he : e.isCompound = false) (hv : IsName v) (hS : ∀ x ∈ S, v ≠ var x)
    (hr : v ∈ e.names → ∀ x ∈ S, var x ∉ r.names) :
    (if e == v then r else e).namelessIn S = (e.namelessIn S).replace [(v, r.nameless)] := by
  by_cases h : e = v
  · have hself : v ∈ e.names := by
      rcases hv with ⟨x, rfl⟩ | ⟨f, rfl⟩ <;> simp [h, names]
    have hform : r.namelessIn S = r.nameless := namelessIn_congr fun x hx => by
      rw [place_of_not_mem fun hxS => hr hself x hxS hx]
      rfl
    rw [if_pos ((beq_name_iff hv).2 h), hform, h]
    rcases hv with ⟨x, rfl⟩ | ⟨f, rfl⟩
    · rw [namelessIn, place_of_not_mem fun hxS => hS x hxS rfl]
      simp [Nameless.replace]
    · simp [namelessIn, Nameless.replace]
  · have hnot : v ∉ e.names := by
      cases e <;> simp_all [names, isCompound, isApp, isBind, eq_comm]
    rw [if_neg (mt (beq_name_iff hv).1 h), Nameless.replace_of_not_mem]
    simp [hv, mem_names_namelessIn, hnot]

/-- **Substitution is replacement in the nameless form.** -/
theorem namelessIn_subst (hv : IsName v) (hslot : ∀ x ∈ e.slots, v ≠ var x)
    (hS : ∀ x ∈ S, v ≠ var x) (hr : v ∈ e.names → ∀ x ∈ S, var x ∉ r.names)
    (h : e.subst v r = .ok q) :
    q.namelessIn S = (e.namelessIn S).replace [(v, r.nameless)] := by
  induction e using sizedInduct generalizing S q with
  | atom e he =>
    rw [subst_atom he] at h
    cases h
    exact namelessIn_atom he hv hS hr
  | app g as ihg ihas =>
    obtain ⟨g', as', hg, has, rfl⟩ := of_subst_app h
    have hg' := ihg (fun x hx => hslot x (mem_slots_app.2 (.inl hx))) hS
      (fun hmem => hr (mem_names_app.2 (.inl hmem))) hg
    have has' : as'.map (namelessIn S) =
        as.map fun a => (a.namelessIn S).replace [(v, r.nameless)] := by
      refine map_eq_of_forall₂ (forall₂_imp_of_mem has fun a ha a' _ haa' => ?_)
      exact ihas a ha (fun x hx => hslot x (mem_slots_app.2 (.inr ⟨a, ha, hx⟩))) hS
        (fun hmem => hr (mem_names_app.2 (.inr ⟨a, ha, hmem⟩))) haa'
    simp only [namelessIn, namelessAllIn_eq_map, Nameless.replace, Nameless.replaceAll_eq_map,
      List.map_map, hg', has', Function.comp_def]
  | bind f xs b ih =>
    rcases of_subst_bind h with ⟨x, y, c, rfl, hx, -⟩ | ⟨-, ys, c, d, hc, hd, rfl⟩
    · exact absurd rfl (hslot x (mem_slots_bind.2 (.inl hx)))
    · have hcleared := cleared_of_clearOf hv hc
      have hslot' := hcleared.slots hslot
      have hys (x : Var) (hx : x ∈ ys.toList) : v ≠ var x := hslot' x (mem_slots_bind.2 (.inl hx))
      have hmem (hvc : v ∈ c.names) : v ∈ (bind f xs b).names :=
        hcleared.mem_names.1 (mem_names_bind.2 ⟨hvc, hys⟩)
      have hd' := ih c (size_of_clearOf hc) (S := ys.toList.reverse ++ S)
        (fun x hx => hslot' x (mem_slots_bind.2 (.inr hx)))
        (by simpa [or_imp, forall_and] using ⟨hys, hS⟩) (fun hvc => ?_) hd
      · have hform := hcleared.form S
        rw [namelessIn, hd', ← hform, namelessIn, Nameless.replace]
      · have hvb := (mem_names_bind.1 (hmem hvc)).1
        have hapart := hcleared.apart (mem_freeNames_of_mem_names hvb)
        simpa [or_imp, forall_and] using ⟨hapart, hr (hmem hvc)⟩

/-- The free variables after a substitution. -/
theorem mem_freeVars_subst (hv : IsName v) (hslot : ∀ x ∈ e.slots, v ≠ var x)
    (h : e.subst v r = .ok q) :
    x ∈ q.freeVars ↔ x ∈ e.freeVars ∧ v ≠ var x ∨ v ∈ e.names ∧ x ∈ r.freeVars := by
  have hform := namelessIn_subst (S := []) hv hslot (by simp) (by simp) h
  have hnames := Nameless.mem_names_replace (s := r.nameless) (t := e.nameless) (n := var x) hv
  simp only [mem_freeVars_iff]
  rw [← nameless, ← nameless] at hform
  rw [← hform] at hnames
  simp only [nameless, mem_names_namelessIn] at hnames
  grind

/-- **Substitution replaces the free occurrences of a name and captures
nothing.**  What it returns has the form of `e` with the form of `r` in the
place of `v`; its free variables are those of `e` but `v`, and those of `r` if
`v` is free outside heads of bindings.  Where `v` is not free, not even as the
head of a binding, `e` stays as it is. -/
theorem subst_exactly (hv : IsName v) (hslot : ∀ x ∈ e.slots, v ≠ var x)
    (h : e.subst v r = .ok q) :
    q.nameless = e.nameless.replace [(v, r.nameless)] ∧
      (∀ x, x ∈ q.freeVars ↔ x ∈ e.freeVars ∧ v ≠ var x ∨ v ∈ e.names ∧ x ∈ r.freeVars) ∧
      (occursFree v e = false → q = e) := by
  refine ⟨?form, fun x => mem_freeVars_subst hv hslot h, fun hfree => ?kept⟩
  case form => exact namelessIn_subst hv hslot (by simp) (by simp) h
  case kept =>
    have hnot : v ∉ e.freeNames := fun hmem =>
      Bool.false_ne_true (hfree.symm.trans ((occursFree_iff hv).2 hmem))
    rw [subst_of_not_mem hv hslot hnot] at h
    exact (Except.ok.inj h).symm

/-- The bound `y` of `q[y. p(x, q[x0. p(x, y)])]` gives way to `x1` when
`p(y, x0)` takes the place of `x`, and the inner `x0` to `x2`. -/
theorem subst_exactly_nested :
    let var (name : String) : Expr := var ⟨name, false⟩
    let q (x : String) (b : Expr) : Expr := bind ⟨"q", "base", false⟩ ⟨⟨x, false⟩, []⟩ b
    let p (a b : Expr) : Expr := app (sym ⟨"p", "base", false⟩) [a, b]
    let e := q "y" (p (var "x") (q "x0" (p (var "x") (var "y"))))
    let r := p (var "y") (var "x0")
    let e' := q "x1" (p r (q "x2" (p r (var "x1"))))
    (∀ z ∈ e.slots, var "x" ≠ .var z) ∧ e.subst (var "x") r = .ok e' ∧
      e'.nameless = e.nameless.replace [(var "x", r.nameless)] := by
  intro var q p e r e'
  have hslot : ∀ z ∈ e.slots, var "x" ≠ .var z := by
    simp [e, q, p, var, slots, slotsAll, Binders.toList]
  have h : e.subst (var "x") r = .ok e' := by cbv
  exact ⟨hslot, h, (subst_exactly (.inl ⟨_, rfl⟩) hslot h).1⟩

/-- The head of the inner binding of `q[x. v[y. y]]` counts as a free
occurrence of `v`: when `x` takes the place of `v`, the outer binding gives
way, and nothing is replaced.  So `v` can neither be called free, for `x` is
not free in the result, nor not free, for `e` has changed. -/
theorem subst_head :
    let f : Sym := ⟨"v", "base", false⟩
    let x : Var := ⟨"x", false⟩
    let y : Var := ⟨"y", false⟩
    let e : Expr := bind ⟨"q", "base", false⟩ ⟨x, []⟩ (bind f ⟨y, []⟩ (var y))
    ∃ e', e.subst (sym f) (var x) = .ok e' ∧ ∀ free : Prop,
      ¬((∀ z, z ∈ e'.freeVars ↔ z ∈ e.freeVars ∧ sym f ≠ var z ∨ free ∧ z ∈ (var x).freeVars) ∧
        (¬free → e' = e)) := by
  intro f x y e
  let e' : Expr := bind ⟨"q", "base", false⟩ ⟨⟨"x0", false⟩, []⟩ (bind f ⟨y, []⟩ (var y))
  have h : e.subst (sym f) (var x) = .ok e' := by cbv
  refine ⟨e', h, fun free hboth => ?_⟩
  obtain ⟨hvars, hkept⟩ := hboth
  by_cases hfree : free
  · have hx : x ∈ e'.freeVars := (hvars x).2 (.inr ⟨hfree, by decide⟩)
    exact absurd hx (by decide)
  · have he : e' = e := hkept hfree
    simp [e, e', x] at he

end Expr
end SecondOrder
