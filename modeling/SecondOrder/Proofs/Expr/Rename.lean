/-
# Renaming bound variables

To change a bound variable for one that does not occur keeps the meaning of a
binding.  `Rebound` collects what a renaming keeps: sorts, size, meaning and
unknowns; the only new names are numbered with `x`, the stem of fresh
variables, or the name chosen by the caller.
-/

import Mathlib.Data.List.Nodup
import SecondOrder.Expr.Alpha
import SecondOrder.Proofs.Expr.Denotation

namespace SecondOrder

/-- The name that `z` has after `x` has been renamed to `y`. -/
def Var.renamed (x y z : Var) : Var := if z = x then y else z

namespace Var

variable {x y z w : Var}

/-- The variable that is renamed gets the new name. -/
theorem renamed_self (x y : Var) : renamed x y x = y := if_pos rfl

/-- All other variables keep their names. -/
theorem renamed_of_ne (h : z ≠ x) : renamed x y z = z := if_neg h

/-- What a renaming leaves of a list: the other members, and the new name. -/
theorem of_mem_map_renamed {l : List Var} (h : z ∈ l.map (renamed x y)) : z = y ∨ z ∈ l ∧ z ≠ x := by
  obtain ⟨w, hw, rfl⟩ := List.mem_map.1 h
  by_cases hx : w = x
  · exact .inl (hx ▸ renamed_self x y)
  · rw [renamed_of_ne hx]
    exact .inr ⟨hw, hx⟩

/-- Another variable stays in the list. -/
theorem mem_map_renamed_of_ne {l : List Var} (h : z ∈ l) (hx : z ≠ x) : z ∈ l.map (renamed x y) :=
  List.mem_map.2 ⟨z, h, renamed_of_ne hx⟩

/-- Renaming to a new name tells names apart. -/
theorem renamed_injective (hz : z ≠ y) (hw : w ≠ y) (h : renamed x y z = renamed x y w) : z = w := by
  rw [renamed, renamed] at h
  split at h <;> split at h
  · next hzx hwx => rw [hzx, hwx]
  · exact absurd h.symm hw
  · exact absurd h hz
  · exact h

/-- To exchange ordinary names keeps unknowns apart from ordinary variables. -/
theorem marked_renamed (hx : x.marked = false) (hy : y.marked = false) :
    (renamed x y z).marked = z.marked := by
  rw [renamed]
  split
  · next hz => rw [hz, hx, hy]
  · rfl

end Var

namespace Expr

variable {R : Reserved} {arity : Arity} {ρ ρ' : Valuation} {x y : Var}

/-- To rename a variable in slots renames it in their list. -/
theorem toList_rename (xs : Binders) (x y : Var) :
    (xs.rename x y).toList = xs.toList.map (Var.renamed x y) := Binders.toList_map ..

/-- A renaming concerns every variable of the expression, bound or free. -/
theorem vars_rename (x y : Var) (e : Expr) : (e.rename x y).vars = e.vars.map (Var.renamed x y) := by
  induction e with
  | var z => rfl
  | app f as ihf ihas =>
    have has : (renameAll x y as).flatMap vars = (as.flatMap vars).map (Var.renamed x y) := by
      rw [renameAll_eq_map, List.flatMap_map, List.map_flatMap, List.flatMap_def, List.flatMap_def,
        List.map_congr_left ihas]
    rw [rename, vars, vars, varsAll_eq_flatMap, varsAll_eq_flatMap, ihf, has, List.map_append]
  | bind f xs b ih => rw [rename, vars, vars, ih, toList_rename, List.map_append]
  | _ => rfl

/-- A renaming concerns every slot. -/
theorem slots_rename (x y : Var) (e : Expr) :
    (e.rename x y).slots = e.slots.map (Var.renamed x y) := by
  induction e with
  | app f as ihf ihas =>
    have has : (renameAll x y as).flatMap slots = (as.flatMap slots).map (Var.renamed x y) := by
      rw [renameAll_eq_map, List.flatMap_map, List.map_flatMap, List.flatMap_def, List.flatMap_def,
        List.map_congr_left ihas]
    rw [rename, slots, slots, slotsAll_eq_flatMap, slotsAll_eq_flatMap, ihf, has, List.map_append]
  | bind f xs b ih => rw [rename, slots, slots, ih, toList_rename, List.map_append]
  | _ => rfl

/-- A variable after a renaming is the new one or one of the others, and the
old one is gone. -/
theorem mem_vars_of_rename {e : Expr} {z : Var} (h : z ∈ (e.rename x y).vars) :
    z = y ∨ z ∈ e.vars ∧ z ≠ x := Var.of_mem_map_renamed (vars_rename x y e ▸ h)

/-- So it is with slots. -/
theorem mem_slots_of_rename {e : Expr} {z : Var} (h : z ∈ (e.rename x y).slots) :
    z = y ∨ z ∈ e.slots ∧ z ≠ x := Var.of_mem_map_renamed (slots_rename x y e ▸ h)

/-- The free variables after a renaming. -/
theorem var_mem_names_rename {e : Expr} {z : Var} (h : .var z ∈ (e.rename x y).names) :
    z = y ∨ .var z ∈ e.names ∧ z ≠ x := by
  induction e with
  | var w =>
    obtain rfl : z = Var.renamed x y w := Expr.var.inj (List.mem_singleton.1 h)
    by_cases hw : w = x
    · exact .inl (hw ▸ Var.renamed_self x y)
    · rw [Var.renamed_of_ne hw]
      exact .inr ⟨List.mem_singleton.2 rfl, hw⟩
  | app f as ihf ihas =>
    rw [rename, renameAll_eq_map, mem_names_app] at h
    rcases h with h | ⟨a, ha, h⟩
    · exact (ihf h).imp_right fun h => ⟨mem_names_app.2 (.inl h.1), h.2⟩
    · obtain ⟨a', ha', rfl⟩ := List.mem_map.1 ha
      exact (ihas a' ha' h).imp_right fun h => ⟨mem_names_app.2 (.inr ⟨a', ha', h.1⟩), h.2⟩
  | bind f xs b ih =>
    obtain ⟨hb, hslots⟩ := mem_names_bind.1 h
    refine (ih hb).imp_right fun h => ⟨mem_names_bind.2 ⟨h.1, fun w hw heq => ?_⟩, h.2⟩
    refine hslots w ?_ heq
    obtain rfl := Expr.var.inj heq
    rw [toList_rename]
    exact Var.mem_map_renamed_of_ne hw h.2
  | sym => cases List.mem_singleton.1 h
  | int | float | str => cases h

/-- An unknown keeps its name when an ordinary variable is renamed. -/
theorem rename_of_isMarked {m : Expr} (hx : x.marked = false) (hm : m.isMarked = true) :
    m.rename x y = m := by
  cases m with
  | var z =>
    rw [rename, if_neg]
    rintro rfl
    exact Bool.false_ne_true (hx.symm.trans hm)
  | _ => first | rfl | cases hm

/-- Renaming an unmarked variable to a new one keeps the sorts. -/
theorem Sorted.rename {e : Expr} (he : Sorted R arity e) (hx : x.marked = false)
    (hy : y.marked = false) (hfresh : y ∉ e.vars) : Sorted R arity (e.rename x y) := by
  induction he with
  | @var z plain =>
    rw [Expr.rename]
    split
    · exact .var fun h => absurd (hy.symm.trans h) Bool.false_ne_true
    · exact .var plain
  | sym unreserved plain => exact .sym unreserved plain
  | int n => exact .int n
  | float x => exact .float x
  | str s => exact .str s
  | app head args ihf ihas =>
    rw [mem_vars_app, not_or] at hfresh
    rw [Expr.rename, renameAll_eq_map]
    refine .app (ihf hfresh.1) (List.forall_mem_map.2 fun a ha => ihas a ha fun hya => ?_)
    exact hfresh.2 ⟨a, ha, hya⟩
  | @apply m as unknown nonempty takes args ihas =>
    rw [mem_vars_app, not_or] at hfresh
    rw [Expr.rename, renameAll, renameAll_eq_map, rename_of_isMarked hx unknown]
    refine .apply unknown (mt List.map_eq_nil_iff.1 nonempty) ?_
      (List.forall_mem_map.2 fun a ha => ihas a ha fun hya => ?_)
    · rw [List.length_map]
      exact takes
    · exact hfresh.2 ⟨a, List.mem_cons_of_mem _ ha, hya⟩
  | @bind f xs b slots distinct body ih =>
    rw [mem_vars_bind, not_or] at hfresh
    rw [Expr.rename]
    refine .bind ?_ ?_ (ih hfresh.2)
    · rw [toList_rename, List.forall_mem_map]
      exact fun z hz => (Var.marked_renamed hx hy).trans (slots z hz)
    · rw [toList_rename]
      refine distinct.map_on fun z hz w hw h => Var.renamed_injective ?_ ?_ h
      · rintro rfl; exact hfresh.1 hz
      · rintro rfl; exact hfresh.1 hw

/-- A name that is free in the same arguments as before is free in their list
as before. -/
theorem mem_names_map_rename {n : Expr} {as : List Expr}
    (h : ∀ a ∈ as, n ∈ (a.rename x y).names ↔ n ∈ a.names) :
    (∃ b ∈ as.map (·.rename x y), n ∈ b.names) ↔ ∃ a ∈ as, n ∈ a.names := by
  simp only [List.mem_map, exists_exists_and_eq_and]
  exact exists_congr fun a => and_congr_right (h a)

/-- Renaming an unmarked variable keeps the unknowns. -/
theorem mem_names_rename {e n : Expr} (he : Sorted R arity e) (hx : x.marked = false)
    (hy : y.marked = false) (hn : n.isMarked = true) :
    n ∈ (e.rename x y).names ↔ n ∈ e.names := by
  induction he with
  | @var z =>
    have hne {w : Var} (hw : w.marked = false) : n ≠ .var w := by
      rintro rfl
      exact Bool.false_ne_true (hw.symm.trans hn)
    rw [rename]
    split
    · next hz =>
      rw [hz, names, names, List.mem_singleton, List.mem_singleton]
      exact ⟨fun h => absurd h (hne hy), fun h => absurd h (hne hx)⟩
    · rfl
  | app head args ihf ihas =>
    rw [rename, renameAll_eq_map, mem_names_app, mem_names_app, ihf]
    exact or_congr_right (mem_names_map_rename ihas)
  | @apply m as unknown nonempty takes args ihas =>
    rw [rename, renameAll, renameAll_eq_map, rename_of_isMarked hx unknown]
    refine (mem_names_apply unknown).trans (Iff.trans ?_ (mem_names_apply unknown).symm)
    exact or_congr_right (or_congr_right (mem_names_map_rename ihas))
  | @bind f xs b slots distinct body ih =>
    have slots' : ∀ z ∈ (xs.rename x y).toList, z.marked = false := by
      rw [toList_rename, List.forall_mem_map]
      exact fun z hz => (Var.marked_renamed hx hy).trans (slots z hz)
    rw [rename, mem_names_bind_iff slots' hn, mem_names_bind_iff slots hn, ih]
  | _ => rfl

/-- Entering renamed variables gives them the meanings that they had before. -/
theorem enter_renamed {xs : List Var} {ds : List Meaning} (hlen : xs.length = ds.length)
    (hfresh : y ∉ xs) {z : Var} (hz : z ≠ y)
    (h : z ∈ xs ∨ ρ'.val (.var z) = ρ.val (.var (Var.renamed x y z))) :
    (ρ'.enter xs ds).val (.var z) =
      (ρ.enter (xs.map (Var.renamed x y)) ds).val (.var (Var.renamed x y z)) := by
  induction xs generalizing ρ ρ' ds with
  | nil => exact h.resolve_left nofun
  | cons u xs ih => cases ds with
    | nil => cases hlen
    | cons d ds =>
      rw [List.mem_cons, not_or] at hfresh
      refine ih (Nat.succ.inj hlen) hfresh.2 ?_
      by_cases hu : z = u
      · refine .inr ?_
        rw [hu, Valuation.update_val_self, Valuation.update_val_self]
      · refine h.imp (fun h => (List.mem_cons.1 h).resolve_left hu) fun h => ?_
        rw [Valuation.update_val_of_ne fun e => hu (Expr.var.inj e), Valuation.update_val_of_ne, h]
        exact fun e => hu (Var.renamed_injective hz (Ne.symm hfresh.1) (Expr.var.inj e))

/-- An expression with a variable renamed means under `ρ` what it meant under a
valuation that agrees with `ρ` up to the renaming. -/
theorem den_rename {e : Expr} (he : Sorted R arity e) (hx : x.marked = false)
    (hy : y.marked = false) (hfresh : y ∉ e.vars)
    (hvar : ∀ z ∈ e.vars, ρ'.val (.var z) = ρ.val (.var (Var.renamed x y z)))
    (hsym : ∀ f, ρ'.val (.sym f) = ρ.val (.sym f)) (hfn : ρ'.fn = ρ.fn) :
    den R ρ (e.rename x y) = den R ρ' e := by
  induction he generalizing ρ ρ' with
  | @var z => exact (hvar z (List.mem_singleton.2 rfl)).symm
  | @sym f =>
    change den R ρ (.sym f) = den R ρ' (.sym f)
    rw [den, den, hsym]
  | int | float | str => rfl
  | @app f as head args ihf ihas =>
    rw [mem_vars_app, not_or] at hfresh
    have hhead := ihf hfresh.1 (fun z hz => hvar z (mem_vars_app.2 (.inl hz))) hsym hfn
    have has (a : Expr) (ha : a ∈ as) : den R ρ (a.rename x y) = den R ρ' a :=
      ihas a ha (fun hya => hfresh.2 ⟨a, ha, hya⟩)
        (fun z hz => hvar z (mem_vars_app.2 (.inr ⟨a, ha, hz⟩))) hsym hfn
    rw [rename, renameAll_eq_map, den_app (head.rename hx hy hfresh.1).ne_applySym,
      den_app head.ne_applySym, hhead]
    funext n
    rw [List.map_map]
    exact congrArg _ (List.map_congr_left fun a ha => congrFun (has a ha) n)
  | @apply m as unknown nonempty takes args ihas =>
    rw [mem_vars_app, not_or] at hfresh
    have has (a : Expr) (ha : a ∈ as) : den R ρ (a.rename x y) = den R ρ' a :=
      ihas a ha (fun hya => hfresh.2 ⟨a, List.mem_cons_of_mem _ ha, hya⟩)
        (fun z hz => hvar z (mem_vars_app.2 (.inr ⟨a, List.mem_cons_of_mem _ ha, hz⟩))) hsym hfn
    rw [rename, renameAll, renameAll_eq_map, rename_of_isMarked hx unknown, den_apply unknown nonempty, hfn]
    change den R ρ (.app (.sym R.applySym) _) = _
    rw [den_apply unknown (mt List.map_eq_nil_iff.1 nonempty), List.map_map]
    exact congrArg _ (List.map_congr_left has)
  | @bind f xs b slots distinct body ih =>
    rw [mem_vars_bind, not_or] at hfresh
    rw [rename, den, den]
    funext n
    have hlen : xs.toList.length = (Meaning.levels n xs.length).length := by
      rw [Meaning.length_levels, Binders.length_toList]
    rw [Binders.length_rename, toList_rename]
    refine congrArg _ (congrFun (ih hfresh.2 (fun z hz => ?_) (fun g => ?_) ?_) _)
    · refine enter_renamed hlen hfresh.1 ?_ (.inr (hvar z (mem_vars_bind.2 (.inr hz))))
      rintro rfl
      exact hfresh.2 hz
    · rw [Valuation.enter_val_sym, Valuation.enter_val_sym, hsym]
    · rw [Valuation.enter_fn, Valuation.enter_fn, hfn]

/-- The binders `ys` and the body `c` are `xs` and `b` with bound variables
renamed. -/
structure Rebound (R : Reserved) (arity : Arity) (f : Sym) (xs : Binders) (b : Expr)
    (ys : Binders) (c : Expr) : Prop where
  sorted : Sorted R arity (.bind f ys c)
  size : c.size = b.size
  length : ys.length = xs.length
  den : ∀ (ρ : Valuation) (ds : List Meaning), xs.length = ds.length →
    den R (ρ.enter ys.toList ds) c = den R (ρ.enter xs.toList ds) b
  unknowns : ∀ n, n.isMarked = true → (n ∈ c.names ↔ n ∈ b.names)
  /-- Variables that the binders do not touch stay where they are. -/
  kept : ∀ z ∈ (Expr.bind f xs b).vars, z ∉ (Expr.bind f xs b).slots →
    z ∈ (Expr.bind f ys c).vars ∧ z ∉ (Expr.bind f ys c).slots

namespace Rebound

variable {f : Sym} {xs ys zs : Binders} {b c d : Expr}

/-- A binding may stay as it is. -/
theorem refl (h : Sorted R arity (.bind f xs b)) : Rebound R arity f xs b xs b :=
  ⟨h, rfl, rfl, fun _ _ _ => rfl, fun _ _ => Iff.rfl, fun _ hv hs => ⟨hv, hs⟩⟩

/-- Slots may be renamed one after another. -/
theorem trans (h : Rebound R arity f xs b ys c) (h' : Rebound R arity f ys c zs d) :
    Rebound R arity f xs b zs d where
  sorted := h'.sorted
  size := h'.size.trans h.size
  length := h'.length.trans h.length
  den ρ ds hds := (h'.den ρ ds (h.length.trans hds)).trans (h.den ρ ds hds)
  unknowns n hn := (h'.unknowns n hn).trans (h.unknowns n hn)
  kept z hv hs :=
    have hz := h.kept z hv hs
    h'.kept z hz.1 hz.2

/-- **To rename a bound variable to a new one keeps the binding as it is.** -/
theorem rename (h : Sorted R arity (.bind f xs b)) (hxs : x ∈ xs.toList) (hy : y.marked = false)
    (hfresh : y ∉ (Expr.bind f xs b).vars) :
    Rebound R arity f xs b (xs.rename x y) (b.rename x y) where
  sorted := by
    cases h with
    | bind slots distinct body =>
      exact Sorted.rename (.bind slots distinct body) (slots x hxs) hy hfresh
  size := size_rename x y b
  length := Binders.length_rename xs x y
  den ρ ds hds := by
    cases h with
    | bind slots distinct body =>
      rw [mem_vars_bind, not_or] at hfresh
      have hds : xs.toList.length = ds.length := hds
      rw [toList_rename]
      refine den_rename body (slots x hxs) hy hfresh.2 (fun z hz => ?_) (fun g => ?_) ?_
      · refine enter_renamed hds hfresh.1 (fun e => hfresh.2 (e ▸ hz)) ?_
        by_cases hzx : z = x
        · exact .inl (hzx ▸ hxs)
        · exact .inr (by rw [Var.renamed_of_ne hzx])
      · rw [Valuation.enter_val_sym, Valuation.enter_val_sym]
      · rw [Valuation.enter_fn, Valuation.enter_fn]
  unknowns n hn := by
    cases h with
    | bind slots distinct body => exact mem_names_rename body (slots x hxs) hy hn
  kept z hv hs := by
    have hne : z ≠ x := by
      rintro rfl
      exact hs (mem_slots_bind.2 (.inl hxs))
    have hvars := vars_rename x y (.bind f xs b)
    have hslots := slots_rename x y (.bind f xs b)
    rw [Expr.rename] at hvars hslots
    rw [hvars, hslots]
    refine ⟨Var.mem_map_renamed_of_ne hv hne, fun hmem => ?_⟩
    rcases Var.of_mem_map_renamed hmem with rfl | ⟨hz, -⟩
    · exact hfresh hv
    · exact hs hz

/-- **A binding whose slots have been renamed means the same.** What is entered
for its slots is the same in both, and the bodies cannot tell the names. -/
theorem den_bind (h : Rebound R arity f xs b ys c) (ρ : Valuation) :
    Expr.den R ρ (.bind f ys c) = Expr.den R ρ (.bind f xs b) := by
  rw [Expr.den, Expr.den]
  funext n
  rw [h.length, h.den _ _ (Meaning.length_levels ..).symm]

end Rebound

end Expr
end SecondOrder
