/-
# Similar expressions

Two expressions are similar exactly if they are equal up to bound names
(`Expr.similar_iff_alphaEq`), whatever stands in their binder slots; so
similarity is symmetric.

To rename corresponding bound variables on both sides to new ones changes
nothing (`Expr.alphaIn_rename`), and neither do pairs of bound variables that
occur on neither side (`Expr.alphaIn_of_apart`).  Hence what two functions give
for the same new variables tells the functions apart
(`Expr.alphaIn_of_renameEach`).
-/

import Mathlib.Data.List.Zip
import SecondOrder.Proofs.Equation.Align
import SecondOrder.Proofs.Expr.Alpha

namespace SecondOrder
namespace Expr

variable {env inner E : List (Var × Var)} {a b c e : Expr} {x y z w x' y' : Var}

/-- What corresponds to a variable that no binding on the left binds is itself,
and no binding on the right binds it either. -/
theorem eq_of_sameVarIn (hx : ∀ p ∈ env, p.1 ≠ x) (h : sameVarIn env x y = true) :
    x = y ∧ ∀ p ∈ env, p.2 ≠ y := by
  induction env with
  | nil => exact ⟨eq_of_beq h, nofun⟩
  | cons p env ih =>
    obtain ⟨u, v⟩ := p
    rw [List.forall_mem_cons] at hx
    rw [sameVarIn] at h
    split at h
    · rw [Bool.and_eq_true] at h
      exact absurd (eq_of_beq h.1).symm hx.1
    · next huv =>
      obtain ⟨hxy, henv⟩ := ih hx.2 h
      exact ⟨hxy, List.forall_mem_cons.2 ⟨fun hvy => huv (.inr hvy.symm), henv⟩⟩

/-- Where both sides have bound the same variables, a variable corresponds to
itself. -/
theorem sameVarIn_of_diagonal (henv : ∀ p ∈ env, p.1 = p.2) :
    sameVarIn env x y = (x == y) := by
  induction env with
  | nil => rfl
  | cons p env ih =>
    obtain ⟨u, v⟩ := p
    rw [List.forall_mem_cons] at henv
    obtain rfl : u = v := henv.1
    rw [sameVarIn]
    split
    · next h =>
      rcases h with rfl | rfl
      · rw [beq_self_eq_true, Bool.true_and, BEq.comm]
      · rw [beq_self_eq_true, Bool.and_true]
    · exact ih henv.2

/-- A binding that is compared with itself adds pairs of equal variables
only. -/
theorem diagonal_append {xs : List Var} (henv : ∀ p ∈ env, p.1 = p.2) :
    ∀ p ∈ (xs.zip xs).reverse ++ env, p.1 = p.2 := by
  intro p hp
  rcases List.mem_append.1 hp with hp | hp
  · rw [List.mem_reverse, List.zip_eq_zipWith, List.zipWith_self] at hp
    obtain ⟨x, -, rfl⟩ := List.mem_map.1 hp
    rfl
  · exact henv p hp

/-- Lists whose members are equal nodes are equal up to bound names, if that is
known of each member. -/
theorem alphaInAll_of_sameAll {as bs : List Expr}
    (h : ∀ a ∈ as, ∀ b, a.same b = true → alphaIn env a b = true) (hs : sameAll as bs = true) :
    alphaInAll env as bs = true :=
  alphaInAll_iff.2 (forall₂_imp_of_mem (sameAll_iff.1 hs) fun a ha b _ => h a ha b)

/-- Equal nodes are equal up to bound names. -/
theorem alphaIn_of_same (henv : ∀ p ∈ env, p.1 = p.2) (h : a.same b = true) :
    alphaIn env a b = true := by
  induction a generalizing b env with
  | var x =>
    cases b with
    | var y =>
      rw [alphaIn, sameVarIn_of_diagonal henv]
      exact h
    | _ => cases h
  | app f as ihf ihas =>
    cases b with
    | app g bs =>
      rw [same, Bool.and_eq_true] at h
      rw [alphaIn, Bool.and_eq_true]
      exact ⟨ihf henv h.1, alphaInAll_of_sameAll (fun a ha b => ihas a ha henv) h.2⟩
    | _ => cases h
  | bind f xs d ih =>
    cases b with
    | bind g ys d' =>
      rw [same, Bool.and_eq_true, Bool.and_eq_true] at h
      obtain rfl := eq_of_beq h.1.2
      rw [alphaIn, Bool.and_eq_true, Bool.and_eq_true]
      exact ⟨⟨h.1.1, beq_self_eq_true _⟩, ih (diagonal_append henv) h.2⟩
    | _ => cases h
  | _ => cases b <;> exact h

/-- **To be similar is to be equal up to bound names.** -/
theorem similar_iff_alphaEq : a.similar b = true ↔ alphaEq a b = true := by
  rw [similar, alphaEquivalent, Bool.or_eq_true]
  constructor
  · rintro (h | h)
    · exact alphaIn_of_same (List.forall_mem_nil _) h
    · rw [Bool.and_eq_true] at h
      exact h.2
  · intro h
    cases hatom : a.isCompound && b.isCompound with
    | true => exact .inr (by rw [Bool.true_and]; exact h)
    | false => exact .inl (same_of_alphaEq h hatom)

/-! ## Both sides exchanged -/

/-- To correspond does not depend on which side is the left one. -/
theorem sameVarIn_swap (env : List (Var × Var)) (x y : Var) :
    sameVarIn (env.map Prod.swap) y x = sameVarIn env x y := by
  induction env with
  | nil => exact BEq.comm
  | cons p env ih =>
    obtain ⟨u, v⟩ := p
    rw [List.map_cons, Prod.swap_prod_mk, sameVarIn, sameVarIn, ih]
    by_cases h : x = u ∨ y = v
    · rw [if_pos h, if_pos h.symm, Bool.and_comm]
    · rw [if_neg h, if_neg (mt Or.symm h)]

/-- The same for the arguments of an application, member by member. -/
theorem alphaInAll_swap {as bs : List Expr}
    (h : ∀ a ∈ as, ∀ b, alphaIn env a b = true → alphaIn (env.map Prod.swap) b a = true)
    (hs : alphaInAll env as bs = true) : alphaInAll (env.map Prod.swap) bs as = true := by
  rw [alphaInAll_iff] at hs ⊢
  exact List.Forall₂.flip (forall₂_imp_of_mem hs fun a ha b _ => h a ha b)

/-- To be equal up to bound names does not depend on it, with the pairs of
bound variables exchanged too. -/
theorem alphaIn_swap (h : alphaIn env a b = true) : alphaIn (env.map Prod.swap) b a = true := by
  induction a generalizing b env with
  | var x =>
    cases b with
    | var y =>
      rw [alphaIn, sameVarIn_swap]
      exact h
    | _ => cases h
  | app f as ihf ihas =>
    cases b with
    | app g bs =>
      rw [alphaIn, Bool.and_eq_true] at h ⊢
      exact ⟨ihf h.1, alphaInAll_swap (fun a ha b => ihas a ha) h.2⟩
    | _ => cases h
  | bind f xs d ih =>
    cases b with
    | bind g ys d' =>
      rw [alphaIn, Bool.and_eq_true, Bool.and_eq_true] at h ⊢
      have hbody := ih h.2
      rw [List.map_append, List.map_reverse, List.zip_swap] at hbody
      exact ⟨⟨BEq.symm h.1.1, BEq.symm h.1.2⟩, hbody⟩
    | _ => cases h
  | _ =>
    cases b <;> first | cases h | exact BEq.symm h

/-- **To be similar is symmetric.** -/
theorem similar_symm (h : a.similar b = true) : b.similar a = true := by
  rw [similar_iff_alphaEq] at h ⊢
  exact alphaIn_swap h

/-! ## Bound variables renamed on both sides -/

/-- Lists can be compared through the images of their members. -/
theorem alphaInAll_of_map {env' : List (Var × Var)} {as bs : List Expr} {f g : Expr → Expr}
    (h : ∀ a ∈ as, ∀ b ∈ bs, alphaIn env' (f a) (g b) = true → alphaIn env a b = true)
    (hs : alphaInAll env' (as.map f) (bs.map g) = true) : alphaInAll env as bs = true := by
  rw [alphaInAll_iff, List.forall₂_map_left_iff, List.forall₂_map_right_iff] at hs
  exact alphaInAll_iff.2 (forall₂_imp_of_mem hs h)

/-- The pairs of bound variables with one variable renamed on either side. -/
def renamedPairs (x y x' y' : Var) (env : List (Var × Var)) : List (Var × Var) :=
  env.map (Prod.map (Var.renamed x y) (Var.renamed x' y'))

/-- Two variables correspond after the renamings exactly if they do before.
Each renaming is of a bound variable to one that is new on its side, so that no
two variables become one. -/
theorem sameVarIn_renamedPairs (hx : z = x → x ∈ env.map Prod.fst)
    (hx' : w = x' → x' ∈ env.map Prod.snd) (hz : z ≠ y) (hw : w ≠ y')
    (hy : y ∉ env.map Prod.fst) (hy' : y' ∉ env.map Prod.snd) :
    sameVarIn (renamedPairs x y x' y' env) (Var.renamed x y z) (Var.renamed x' y' w) =
      sameVarIn env z w := by
  induction env with
  | nil =>
    rw [Var.renamed_of_ne fun h => List.not_mem_nil (hx h),
      Var.renamed_of_ne fun h => List.not_mem_nil (hx' h)]
    rfl
  | cons p env ih =>
    obtain ⟨u, v⟩ := p
    rw [List.map_cons, List.mem_cons, not_or] at hy hy'
    have hzu : Var.renamed x y z = Var.renamed x y u ↔ z = u :=
      ⟨Var.renamed_injective hz (Ne.symm hy.1), congrArg _⟩
    have hwv : Var.renamed x' y' w = Var.renamed x' y' v ↔ w = v :=
      ⟨Var.renamed_injective hw (Ne.symm hy'.1), congrArg _⟩
    rw [renamedPairs, List.map_cons, Prod.map_apply, sameVarIn, sameVarIn]
    by_cases h : z = u ∨ w = v
    · rw [if_pos h, if_pos (by rwa [hzu, hwv]), Bool.eq_iff_iff, Bool.and_eq_true, Bool.and_eq_true,
        beq_iff_eq, beq_iff_eq, beq_iff_eq, beq_iff_eq, hzu, hwv]
    · rw [if_neg h, if_neg (by rwa [hzu, hwv])]
      rw [not_or] at h
      refine ih (fun hzx => ?_) (fun hwx => ?_) hy.2 hy'.2
      · exact (List.mem_cons.1 (hx hzx)).resolve_left fun hxu => h.1 (hzx.trans hxu)
      · exact (List.mem_cons.1 (hx' hwx)).resolve_left fun hxv => h.2 (hwx.trans hxv)

/-- The pairs that a renamed binding adds are the renamed ones of the
binding. -/
theorem renamedPairs_append (xs ys : Binders) :
    ((xs.rename x y).toList.zip (ys.rename x' y').toList).reverse ++ renamedPairs x y x' y' env =
      renamedPairs x y x' y' ((xs.toList.zip ys.toList).reverse ++ env) := by
  rw [toList_rename, toList_rename, List.zip_map, renamedPairs, renamedPairs, List.map_append,
    List.map_reverse]

/-- Renamings of variables that a pair does not have leave it alone. -/
theorem renamedPairs_of_not_mem {xs ys : List Var} (hx : x ∉ xs) (hx' : x' ∉ ys) :
    renamedPairs x y x' y' (xs.zip ys) = xs.zip ys := by
  refine (List.map_congr_left fun p hp => ?_).trans (List.map_id _)
  obtain ⟨u, v⟩ := p
  obtain ⟨hu, hv⟩ := List.of_mem_zip hp
  have hux : u ≠ x := fun h => hx (h ▸ hu)
  have hvx : v ≠ x' := fun h => hx' (h ▸ hv)
  rw [Prod.map_apply, Var.renamed_of_ne hux, Var.renamed_of_ne hvx]
  rfl

/-- What is bound on the left under a binding, the innermost slot first. -/
theorem map_fst_zip_reverse {xs ys : List Var} (h : xs.length = ys.length) :
    ((xs.zip ys).reverse ++ env).map Prod.fst = xs.reverse ++ env.map Prod.fst := by
  rw [List.map_append, List.map_reverse, List.map_fst_zip (Nat.le_of_eq h)]

/-- What is bound on the right under a binding of the same length. -/
theorem map_snd_zip_reverse {xs ys : List Var} (h : xs.length = ys.length) :
    ((xs.zip ys).reverse ++ env).map Prod.snd = ys.reverse ++ env.map Prod.snd := by
  rw [List.map_append, List.map_reverse, List.map_snd_zip (Nat.le_of_eq h.symm)]

/-- **To rename bound variables to new ones changes nothing,** as long as what
is renamed is bound. -/
theorem alphaIn_rename (hx : x ∈ env.map Prod.fst) (hx' : x' ∈ env.map Prod.snd)
    (hy : y ∉ env.map Prod.fst) (hy' : y' ∉ env.map Prod.snd) (ha : y ∉ a.vars) (hb : y' ∉ b.vars)
    (h : alphaIn (renamedPairs x y x' y' env) (a.rename x y) (b.rename x' y') = true) :
    alphaIn env a b = true := by
  induction a generalizing b env with
  | var z =>
    cases b with
    | var w =>
      have hz : z ≠ y := fun heq => ha (List.mem_singleton.2 heq.symm)
      have hw : w ≠ y' := fun heq => hb (List.mem_singleton.2 heq.symm)
      rw [alphaIn, ← sameVarIn_renamedPairs (fun _ => hx) (fun _ => hx') hz hw hy hy']
      exact h
    | _ => cases h
  | app f as ihf ihas =>
    cases b with
    | app g bs =>
      rw [mem_vars_app, not_or] at ha hb
      rw [rename, rename, alphaIn, Bool.and_eq_true, renameAll_eq_map, renameAll_eq_map] at h
      rw [alphaIn, Bool.and_eq_true]
      refine ⟨ihf hx hx' hy hy' ha.1 hb.1 h.1, alphaInAll_of_map (fun a ha' b hb' => ?_) h.2⟩
      exact ihas a ha' hx hx' hy hy' (fun h => ha.2 ⟨a, ha', h⟩) fun h => hb.2 ⟨b, hb', h⟩
    | _ => cases h
  | bind f xs d ih =>
    cases b with
    | bind g ys d' =>
      rw [mem_vars_bind, not_or] at ha hb
      rw [rename, rename, alphaIn, Bool.and_eq_true, Bool.and_eq_true, Binders.length_rename,
        Binders.length_rename, renamedPairs_append] at h
      rw [alphaIn, Bool.and_eq_true, Bool.and_eq_true]
      have hlen : xs.toList.length = ys.toList.length := eq_of_beq h.1.2
      refine ⟨h.1, ih ?_ ?_ ?_ ?_ ha.2 hb.2 h.2⟩
      · rw [map_fst_zip_reverse hlen]
        exact List.mem_append_right _ hx
      · rw [map_snd_zip_reverse hlen]
        exact List.mem_append_right _ hx'
      · rw [map_fst_zip_reverse hlen, List.mem_append, List.mem_reverse, not_or]
        exact ⟨ha.1, hy⟩
      · rw [map_snd_zip_reverse hlen, List.mem_append, List.mem_reverse, not_or]
        exact ⟨hb.1, hy'⟩
    | _ => cases h
  | _ => cases b <;> exact h

/-! ## Pairs of bound variables that do not occur -/

/-- Pairs between the inner and the outer ones can be left out if neither
variable is in one of them, unless an inner pair hides it. -/
theorem sameVarIn_of_apart
    (hE : ∀ p ∈ E, (z = p.1 → z ∈ inner.map Prod.fst) ∧ (w = p.2 → w ∈ inner.map Prod.snd))
    (h : sameVarIn (inner ++ (E ++ env)) z w = true) : sameVarIn (inner ++ env) z w = true := by
  induction inner with
  | nil =>
    rw [List.nil_append] at h ⊢
    induction E with
    | nil => exact h
    | cons p E ih =>
      obtain ⟨u, v⟩ := p
      rw [List.forall_mem_cons] at hE
      rw [List.cons_append, sameVarIn, if_neg] at h
      · exact ih hE.2 h
      · rintro (rfl | rfl)
        · exact List.not_mem_nil (hE.1.1 rfl)
        · exact List.not_mem_nil (hE.1.2 rfl)
  | cons p inner ih =>
    obtain ⟨u, v⟩ := p
    rw [List.cons_append, sameVarIn] at h ⊢
    split at h
    · next huv => rw [if_pos huv]; exact h
    · next huv =>
      rw [if_neg huv]
      rw [not_or] at huv
      refine ih (fun q hq => ⟨fun hz => ?_, fun hw => ?_⟩) h
      · exact (List.mem_cons.1 ((hE q hq).1 hz)).resolve_left huv.1
      · exact (List.mem_cons.1 ((hE q hq).2 hw)).resolve_left huv.2

/-- **Bound variables that occur free on neither side do not matter.** -/
theorem alphaIn_of_apart
    (ha : ∀ p ∈ E, .var p.1 ∈ a.names → p.1 ∈ inner.map Prod.fst)
    (hb : ∀ p ∈ E, .var p.2 ∈ b.names → p.2 ∈ inner.map Prod.snd)
    (h : alphaIn (inner ++ (E ++ env)) a b = true) : alphaIn (inner ++ env) a b = true := by
  induction a generalizing b inner with
  | var z =>
    cases b with
    | var w =>
      refine sameVarIn_of_apart (fun p hp => ⟨fun hz => ?_, fun hw => ?_⟩) h
      · exact hz ▸ ha p hp (List.mem_singleton.2 (congrArg _ hz.symm))
      · exact hw ▸ hb p hp (List.mem_singleton.2 (congrArg _ hw.symm))
    | _ => cases h
  | app f as ihf ihas =>
    cases b with
    | app g bs =>
      rw [alphaIn, Bool.and_eq_true] at h ⊢
      have hf (p : Var × Var) (hp : p ∈ E) (hn : var p.1 ∈ f.names) :=
        ha p hp (mem_names_app.2 (.inl hn))
      have hg (p : Var × Var) (hp : p ∈ E) (hn : var p.2 ∈ g.names) :=
        hb p hp (mem_names_app.2 (.inl hn))
      have hall := h.2
      rw [← List.map_id as, ← List.map_id bs] at hall
      refine ⟨ihf hf hg h.1, alphaInAll_of_map (fun c hc d hd hcd => ?_) hall⟩
      exact ihas c hc (fun p hp hn => ha p hp (mem_names_app.2 (.inr ⟨c, hc, hn⟩)))
        (fun p hp hn => hb p hp (mem_names_app.2 (.inr ⟨d, hd, hn⟩))) hcd
    | _ => cases h
  | bind f xs d ih =>
    cases b with
    | bind g ys d' =>
      rw [alphaIn, Bool.and_eq_true, Bool.and_eq_true, ← List.append_assoc] at h
      rw [alphaIn, Bool.and_eq_true, Bool.and_eq_true, ← List.append_assoc]
      have hlen : xs.toList.length = ys.toList.length := eq_of_beq h.1.2
      refine ⟨h.1, ih (fun p hp hn => ?_) (fun p hp hn => ?_) h.2⟩
      · rw [map_fst_zip_reverse hlen, List.mem_append, List.mem_reverse]
        by_cases hx : p.1 ∈ xs.toList
        · exact .inl hx
        · exact .inr (ha p hp (mem_names_bind.2 ⟨hn, fun x hxs heq => hx (Expr.var.inj heq ▸ hxs)⟩))
      · rw [map_snd_zip_reverse hlen, List.mem_append, List.mem_reverse]
        by_cases hx : p.2 ∈ ys.toList
        · exact .inl hx
        · exact .inr (hb p hp (mem_names_bind.2 ⟨hn, fun x hxs heq => hx (Expr.var.inj heq ▸ hxs)⟩))
    | _ => cases h
  | _ => cases b <;> exact h

/-! ## The parameters of functions -/

/-- Variables renamed one after another. -/
def renameEach (e : Expr) : List (Var × Var) → Expr
  | [] => e
  | (x, y) :: pairs => (e.rename x y).renameEach pairs

/-- To put new variables into the place of others is to rename them: no
substitution is refused, as a variable may take a slot, and no binding has to
give way. -/
theorem substEach_eq_renameEach {xs us : List Var} (hnodup : us.Nodup) (he : ∀ u ∈ us, u ∉ e.vars)
    (hxs : ∀ u ∈ us, u ∉ xs) :
    e.substEach (xs.zip (us.map var)) = .ok (e.renameEach (xs.zip us)) := by
  induction xs generalizing e us with
  | nil => rfl
  | cons x xs ih => cases us with
    | nil => rfl
    | cons u us =>
      obtain ⟨hu, hnodup⟩ := List.nodup_cons.1 hnodup
      rw [List.forall_mem_cons] at he hxs
      rw [List.map_cons, List.zip_cons_cons, List.zip_cons_cons, substEach, subst_eq_rename he.1,
        renameEach]
      refine ih hnodup (fun w hw hmem => ?_) fun w hw hmem =>
        hxs.2 w hw (List.mem_cons_of_mem _ hmem)
      rcases mem_vars_of_rename hmem with rfl | ⟨hmem, -⟩
      · exact hu hw
      · exact he.2 w hw hmem

/-- The first pair of parameters renamed to `u` moves to the pairs that have
been renamed. -/
theorem renamedPairs_zip_cons {y z u : Var} {ys zs done : List Var} (hy : y ∉ ys) (hz : z ∉ zs)
    (hdone : y ∉ done) (hdone' : z ∉ done) :
    renamedPairs y u z u (((y :: ys).zip (z :: zs)).reverse ++ done.zip done) =
      (ys.zip zs).reverse ++ (u :: done).zip (u :: done) := by
  have hsplit (A B : List (Var × Var)) : renamedPairs y u z u (A ++ B) =
      renamedPairs y u z u A ++ renamedPairs y u z u B := List.map_append
  have hkeep : renamedPairs y u z u (ys.zip zs).reverse = (ys.zip zs).reverse := by
    rw [renamedPairs, List.map_reverse, ← renamedPairs, renamedPairs_of_not_mem hy hz]
  have hself : renamedPairs y u z u [(y, z)] = [(u, u)] := by
    rw [renamedPairs, List.map_singleton, Prod.map_apply, Var.renamed_self, Var.renamed_self]
  rw [List.zip_cons_cons, List.reverse_cons, hsplit, hsplit, renamedPairs_of_not_mem hdone hdone',
    List.append_assoc, hkeep, hself]
  rfl

/-- **What two functions give for the same new variables tells them apart.** -/
theorem alphaIn_of_renameEach {ys zs us : List Var} (hlen : ys.length = us.length)
    (hlen' : zs.length = us.length) (hys : ys.Nodup) (hzs : zs.Nodup) (hus : us.Nodup)
    (hb : ∀ u ∈ us, u ∉ b.vars ∧ u ∉ ys) (hc : ∀ u ∈ us, u ∉ c.vars ∧ u ∉ zs)
    (h : alphaIn (us.zip us).reverse (b.renameEach (ys.zip us)) (c.renameEach (zs.zip us)) = true) :
    alphaIn (ys.zip zs).reverse b c = true := by
  -- the pairs that have been renamed already stand to the right
  suffices ∀ done : List Var, (∀ u ∈ us, u ∉ done) → (∀ y ∈ ys, y ∉ done) → (∀ z ∈ zs, z ∉ done) →
      alphaIn ((us.zip us).reverse ++ done.zip done) (b.renameEach (ys.zip us))
        (c.renameEach (zs.zip us)) = true →
      alphaIn ((ys.zip zs).reverse ++ done.zip done) b c = true by
    have h := this [] (fun _ _ => List.not_mem_nil) (fun _ _ => List.not_mem_nil)
      (fun _ _ => List.not_mem_nil) (by simpa using h)
    simpa using h
  clear h
  induction us generalizing b c ys zs with
  | nil =>
    obtain rfl := List.length_eq_zero_iff.1 hlen
    obtain rfl := List.length_eq_zero_iff.1 hlen'
    exact fun _ _ _ _ h => h
  | cons u us ih =>
    obtain ⟨y, ys, rfl⟩ := List.exists_cons_of_length_eq_add_one hlen
    obtain ⟨z, zs, rfl⟩ := List.exists_cons_of_length_eq_add_one hlen'
    intro done hus' hys' hzs' h
    obtain ⟨hu, hus⟩ := List.nodup_cons.1 hus
    obtain ⟨hy, hys⟩ := List.nodup_cons.1 hys
    obtain ⟨hz, hzs⟩ := List.nodup_cons.1 hzs
    rw [List.forall_mem_cons] at hb hc hus' hys' hzs'
    have hrest (w : Var) (hw : w ∈ us) {e : Expr} {v : Var} (he : w ∉ e.vars) :
        w ∉ (e.rename v u).vars := by
      intro hmem
      rcases mem_vars_of_rename hmem with rfl | ⟨hmem, -⟩
      · exact hu hw
      · exact he hmem
    have hlater {w : Var} (hw : w ≠ u) (hd : w ∉ done) : w ∉ u :: done := by
      rw [List.mem_cons, not_or]
      exact ⟨hw, hd⟩
    have hrenamed := ih (Nat.succ.inj hlen) (Nat.succ.inj hlen') hys hzs hus
      (fun w hw => ⟨hrest w hw (hb.2 w hw).1, fun h => (hb.2 w hw).2 (List.mem_cons_of_mem _ h)⟩)
      (fun w hw => ⟨hrest w hw (hc.2 w hw).1, fun h => (hc.2 w hw).2 (List.mem_cons_of_mem _ h)⟩)
      (u :: done)
      (fun w hw => hlater (fun h => hu (h ▸ hw)) (hus'.2 w hw))
      (fun w hw => hlater (fun h => hb.1.2 (h ▸ List.mem_cons_of_mem _ hw)) (hys'.2 w hw))
      (fun w hw => hlater (fun h => hc.1.2 (h ▸ List.mem_cons_of_mem _ hw)) (hzs'.2 w hw))
      (by simpa [renameEach] using h)
    rw [← renamedPairs_zip_cons hy hz hys'.1 hzs'.1] at hrenamed
    have hfst : (((y :: ys).zip (z :: zs)).reverse ++ done.zip done).map Prod.fst = _ :=
      map_fst_zip_reverse (hlen.trans hlen'.symm)
    have hsnd : (((y :: ys).zip (z :: zs)).reverse ++ done.zip done).map Prod.snd = _ :=
      map_snd_zip_reverse (hlen.trans hlen'.symm)
    rw [List.map_fst_zip (Nat.le_refl _)] at hfst
    rw [List.map_snd_zip (Nat.le_refl _)] at hsnd
    refine alphaIn_rename ?_ ?_ ?_ ?_ hb.1.1 hc.1.1 hrenamed
    · rw [hfst, List.mem_append, List.mem_reverse]
      exact .inl List.mem_cons_self
    · rw [hsnd, List.mem_append, List.mem_reverse]
      exact .inl List.mem_cons_self
    · rw [hfst, List.mem_append, List.mem_reverse, not_or]
      exact ⟨hb.1.2, hus'.1⟩
    · rw [hsnd, List.mem_append, List.mem_reverse, not_or]
      exact ⟨hc.1.2, hus'.1⟩

end Expr
end SecondOrder
