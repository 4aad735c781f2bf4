/-
# Arguments for parameters

What becomes of a body when arguments that hold no parameter take the places of
the parameters one after another, told exactly and not only up to bound names:
a body without parameters stays as it is, a parameter becomes its argument, and
an application becomes that of what its children become (`Expr.substEach_app`).

A binding may have to give way several times, and a new variable may meet the
next argument.  But it never meets a parameter that is still to come, as all of
them stand in the body (`Expr.Awaits.subst`).  So a binding over an application
to all parameters becomes, up to bound names, one over the application to the
arguments (`Expr.of_substEach_bind`).
-/

import SecondOrder.Proofs.Expr.Provenance
import SecondOrder.Proofs.Expr.Reduction

namespace SecondOrder

namespace Expr

variable {V : List Var} {f g k : Sym} {xs ys : Binders} {a b e h q r : Expr} {as bs ds : List Expr} {v x y : Var}
  {pairs : List (Var × Expr)}

/-- A variable that does not occur is not replaced. -/
theorem subst_of_not_mem_vars (hx : x ∉ e.vars) : e.subst (var x) r = .ok e :=
  subst_of_not_mem (.inl ⟨x, rfl⟩) (fun _ hy heq => hx (Expr.var.inj heq ▸ mem_vars_of_mem_slots hy))
    fun hmem => hx (mem_vars_of_mem_names (var_mem_freeNames_iff.1 hmem))

/-- Where no parameter occurs nothing is put in. -/
theorem substEach_of_not_mem (he : ∀ pair ∈ pairs, pair.1 ∉ e.vars) : e.substEach pairs = .ok e := by
  induction pairs with
  | nil => rfl
  | cons pair pairs ih =>
    rw [List.forall_mem_cons] at he
    rw [substEach, subst_of_not_mem_vars he.1]
    exact ih he.2

/-- **A parameter becomes its argument.** -/
theorem substEach_var {i : Nat} (hnodup : V.Nodup) (has : ∀ v ∈ V, ∀ a ∈ as, v ∉ a.vars)
    (hv : V[i]? = some v) (ha : as[i]? = some a) : (var v).substEach (V.zip as) = .ok a := by
  induction V generalizing as i with
  | nil => cases hv
  | cons w V ih =>
    rw [List.nodup_cons] at hnodup
    rw [List.forall_mem_cons] at has
    obtain ⟨a₀, as, rfl⟩ := List.exists_cons_of_ne_nil (l := as) (by rintro rfl; cases ha)
    rw [List.zip_cons_cons, substEach]
    cases i with
    | zero =>
      cases hv
      cases ha
      rw [subst_self (.inl ⟨_, rfl⟩)]
      exact substEach_of_not_mem fun pair hpair => has.2 _ (List.of_mem_zip hpair).1 a List.mem_cons_self
    | succ i =>
      have hv : V[i]? = some v := hv
      have hne : w ∉ (var v).vars := by
        rintro hw
        cases List.mem_singleton.1 hw
        exact hnodup.1 (List.mem_of_getElem? hv)
      rw [subst_of_not_mem_vars hne]
      exact ih hnodup.2 (fun v hv a ha => has.2 v hv a (List.mem_cons_of_mem _ ha)) hv ha

/-- **An application becomes that of what its children become.** -/
theorem substEach_app (he : e.substEach pairs = .ok r)
    (has : List.Forall₂ (fun a b => a.substEach pairs = .ok b) as bs) :
    (app e as).substEach pairs = .ok (app r bs) := by
  induction pairs generalizing e as with
  | nil =>
    cases he
    rw [eq_of_forall₂ has fun _ _ _ h => (Except.ok.inj h).symm]
    rfl
  | cons pair pairs ih =>
    obtain ⟨e', he', he⟩ := bind_eq_ok.1 he
    obtain ⟨as', has', has⟩ := exists_forall₂_between (has.imp fun _ _ h => bind_eq_ok.1 h)
    rw [substEach, subst_app, he', mapM_eq_ok.2 has']
    exact ih he has

/-- Parameters become the arguments. -/
theorem forall₂_substEach_var (hnodup : V.Nodup) (hlen : V.length = as.length)
    (has : ∀ v ∈ V, ∀ a ∈ as, v ∉ a.vars) :
    List.Forall₂ (fun v a => (var v).substEach (V.zip as) = .ok a) V as := by
  refine List.forall₂_iff_get.2 ⟨hlen, fun i hi hi' => ?_⟩
  exact substEach_var hnodup has (List.getElem?_eq_getElem hi) (List.getElem?_eq_getElem hi')

/-- An application of `h` to the parameters becomes that to the arguments. -/
theorem substEach_apply (hnodup : V.Nodup) (hlen : V.length = as.length)
    (has : ∀ v ∈ V, ∀ a ∈ as, v ∉ a.vars) (hh : ∀ v ∈ V, v ∉ h.vars) :
    (app (sym k) (h :: V.map var)).substEach (V.zip as) = .ok (app (sym k) (h :: as)) := by
  refine substEach_app (substEach_of_not_mem fun _ _ => List.not_mem_nil) (.cons ?_ ?_)
  · exact substEach_of_not_mem fun pair hpair => hh _ (List.of_mem_zip hpair).1
  · rw [List.forall₂_map_left_iff]
    exact forall₂_substEach_var hnodup hlen has

/-! ## Bindings -/

/-- A binding over an application of a symbol whose last arguments are the
parameters `V`, which stand nowhere else. -/
def Awaits (V : List Var) (e : Expr) : Prop :=
  ∃ g ys k ds, e = bind g ys (app (sym k) (ds ++ V.map var)) ∧ ∀ v ∈ V, v ∉ ys.toList ∧ ∀ d ∈ ds, v ∉ d.vars

/-- No slot holds a parameter. -/
theorem Awaits.not_mem_slots (he : Awaits V e) (hv : v ∈ V) : v ∉ e.slots := by
  obtain ⟨g, ys, k, ds, rfl, hV⟩ := he
  rw [mem_slots_bind, mem_slots_app]
  rintro (hmem | hmem | ⟨d, hd, hmem⟩)
  · exact (hV v hv).1 hmem
  · cases hmem
  · rcases List.mem_append.1 hd with hd | hd
    · exact (hV v hv).2 d hd (mem_vars_of_mem_slots hmem)
    · obtain ⟨w, -, rfl⟩ := List.mem_map.1 hd
      cases hmem

/-- A variable that the binding binds may give way to a new one. -/
theorem Awaits.rename (he : Awaits V (bind g ys b)) (hx : x ∈ ys.toList) (hy : y ∉ (bind g ys b).vars) :
    Awaits V (bind g (ys.rename x y) (b.rename x y)) := by
  obtain ⟨_, _, k, ds, heq, hV⟩ := he
  cases heq
  have hyV : y ∉ V := fun hmem =>
    hy (mem_vars_bind.2 (.inr (mem_vars_app.2 (.inr ⟨_, List.mem_append_right _ (List.mem_map_of_mem hmem),
      List.mem_singleton.2 rfl⟩))))
  have hparams : (V.map var).map (Expr.rename x y) = V.map var := by
    rw [List.map_map]
    refine List.map_congr_left fun w hw => congrArg var (if_neg ?_)
    rintro rfl
    exact (hV w hw).1 hx
  refine ⟨g, ys.rename x y, k, ds.map (Expr.rename x y), ?_, fun v hv => ⟨fun hmem => ?_, ?_⟩⟩
  · rw [Expr.rename, renameAll_eq_map, List.map_append, hparams]
    rfl
  · rcases mem_toList_rename hmem with rfl | ⟨hmem, -⟩
    · exact hyV hv
    · exact (hV v hv).1 hmem
  · refine List.forall_mem_map.2 fun d hd => ?_
    have hd : d.AllVars (· ≠ v) := by
      rintro w hw rfl
      exact (hV w hv).2 d hd hw
    have hne : y ≠ v := by
      rintro rfl
      exact hyV hv
    exact fun hmem => hd.rename hne v hmem rfl

/-- **The next argument.**  The binding may give way, but to no parameter to
come. -/
theorem Awaits.subst (he : Awaits (v :: V) e) (hv : v ∉ V) (ha : ∀ w ∈ V, w ∉ a.vars)
    (hq : e.subst (var v) a = .ok q) : Awaits V q := by
  have hshape := he
  obtain ⟨g, ys, _, _, rfl, hys⟩ := hshape
  rcases of_subst_bind hq with ⟨x, _, _, hx, hmem, -⟩ | ⟨-, zs, c, d, hclear, hd, rfl⟩
  · cases hx
    exact absurd hmem (hys v List.mem_cons_self).1
  · have hc : Awaits (v :: V) (bind g zs c) := by
      rw [clearOf] at hclear
      split at hclear
      · exact freshen_keeps (P := fun zs c => Awaits (v :: V) (bind g zs c))
          (fun x _ zs c y hx hy hP => hP.rename hx hy.not_mem) he hclear
      · cases hclear
        exact he
    obtain ⟨_, _, k, ds, heq, hV⟩ := hc
    cases heq
    rw [List.forall_mem_cons] at hV
    have hhead : (sym k).subst (var v) a = .ok (sym k) := subst_of_not_mem_vars List.not_mem_nil
    have hargs : List.Forall₂ (fun a' b => a'.subst (var v) a = .ok b) (ds ++ (v :: V).map var)
        (ds ++ a :: V.map var) := by
      refine List.rel_append (List.forall₂_same.2 fun d hd => subst_of_not_mem_vars (hV.1.2 d hd))
        (.cons (subst_self (.inl ⟨v, rfl⟩)) (List.forall₂_same.2 fun w hw => subst_of_not_mem_vars ?_))
      obtain ⟨u, hu, rfl⟩ := List.mem_map.1 hw
      rintro hmem
      cases List.mem_singleton.1 hmem
      exact hv hu
    rw [subst_app, hhead, mapM_eq_ok.2 hargs] at hd
    cases hd
    refine ⟨g, zs, k, ds ++ [a], by rw [List.append_assoc]; rfl, fun w hw => ⟨(hV.2 w hw).1, ?_⟩⟩
    exact List.forall_mem_append.2 ⟨(hV.2 w hw).2, List.forall_mem_singleton.2 (ha w hw)⟩

/-- The arguments take the places of the parameters. -/
theorem Awaits.substEach (he : Awaits (pairs.map Prod.fst) e) (hnodup : (pairs.map Prod.fst).Nodup)
    (ha : ∀ pair ∈ pairs, ∀ w ∈ pairs.map Prod.fst, w ∉ pair.2.vars) (hq : e.substEach pairs = .ok q) :
    Awaits [] q ∧ q.nameless = e.nameless.replace (assigned pairs) := by
  induction pairs generalizing e with
  | nil =>
    cases hq
    exact ⟨he, (Nameless.replace_of_not_mem (by simp [assigned])).symm⟩
  | cons pair pairs ih =>
    obtain ⟨v, a⟩ := pair
    obtain ⟨e', he', hq⟩ := bind_eq_ok.1 hq
    rw [List.forall_mem_cons] at ha
    rw [List.map_cons, List.nodup_cons] at hnodup
    have hlater : ∀ w ∈ pairs.map Prod.fst, w ∉ a.vars := fun w hw => ha.1 w (List.mem_cons_of_mem _ hw)
    obtain ⟨hawaits, hform⟩ := ih (he.subst hnodup.1 hlater he') hnodup.2
      (fun pair hpair w hw => ha.2 pair hpair w (List.mem_cons_of_mem _ hw)) hq
    exact ⟨hawaits, nameless_of_subst (he.not_mem_slots List.mem_cons_self) hlater he' hform⟩

/-- What is not bound has its own form. -/
theorem namelessIn_of_apart (hV : ∀ x ∈ V, var x ∉ e.names) : e.namelessIn V = e.nameless :=
  namelessIn_congr fun x hx => by
    rw [place_of_not_mem fun hmem => hV x hmem hx]
    rfl

/-- If the binding binds nothing in the children, its form is over theirs. -/
theorem nameless_bind_app (has : ∀ a ∈ as, ∀ y ∈ ys.toList, var y ∉ a.names) :
    (bind g ys (app (sym k) as)).nameless = .bind g ys.length (.app (.sym k) (as.map nameless)) := by
  have hforms : as.map (namelessIn ys.toList.reverse) = as.map nameless :=
    List.map_congr_left fun a ha => namelessIn_of_apart fun y hy => has a ha y (List.mem_reverse.1 hy)
  rw [nameless, namelessIn, List.append_nil, namelessIn, namelessAllIn_eq_map, hforms]
  rfl

/-- A binding with such a form binds nothing in the children. -/
theorem apart_of_nameless_bind {n : Nat}
    (h : (bind f ys b).nameless = .bind g n (.app (.sym k) (as.map nameless))) :
    f = g ∧ ys.length = n ∧ ∀ a ∈ as, ∀ y ∈ ys.toList, var y ∉ a.names := by
  rw [nameless, namelessIn, List.append_nil, Nameless.bind.injEq] at h
  refine ⟨h.1, h.2.1, fun a ha y hy hmem => ?_⟩
  have hform : var y ∈ (Nameless.app (.sym k) (as.map nameless)).names :=
    Nameless.mem_names_app.2 (.inr ⟨a.nameless, List.mem_map_of_mem ha,
      mem_names_namelessIn.2 ⟨hmem, List.forall_mem_nil _⟩⟩)
  have hbody : var y ∈ (b.namelessIn ys.toList.reverse).names := h.2.2 ▸ hform
  exact (mem_names_namelessIn.1 hbody).2 y (List.mem_reverse.2 hy) rfl

/-- The form of such a binding with arguments in the place of the
parameters. -/
theorem replace_nameless_bind (hnodup : V.Nodup) (hlen : V.length = as.length)
    (hV : ∀ v ∈ V, v ∉ ys.toList ∧ v ∉ h.vars) (hys : ∀ y ∈ ys.toList, var y ∉ h.names) :
    (bind g ys (app (sym k) (h :: V.map var))).nameless.replace (assigned (V.zip as)) =
      .bind g ys.length (.app (.sym k) ((h :: as).map nameless)) := by
  have hlen' : V.length = (as.map nameless).length := by rw [List.length_map, hlen]
  have hhead : Nameless.replace (assigned (V.zip as)) (.sym k) = .sym k := by
    rw [assigned_zip, Nameless.replace, lookup_zip_eq_none (n := sym k) (by simp)]
    rfl
  have hfirst : (h.namelessIn ys.toList.reverse).replace (assigned (V.zip as)) = h.nameless := by
    rw [namelessIn_of_apart (by simpa using hys)]
    refine Nameless.replace_of_not_mem fun pair hpair => ?_
    obtain ⟨⟨v, a⟩, hva, rfl⟩ := List.mem_map.1 hpair
    refine ⟨.inl ⟨v, rfl⟩, fun hmem => ?_⟩
    exact (hV v (List.of_mem_zip hva).1).2 (mem_vars_of_mem_names (mem_names_namelessIn.1 hmem).1)
  have hparam (i : Nat) (hi : i < V.length) (hi' : i < as.length) :
      ((var V[i]).namelessIn ys.toList.reverse).replace (assigned (V.zip as)) = as[i].nameless := by
    rw [namelessIn, place_of_not_mem fun hmem => (hV _ (List.getElem_mem hi)).1 (List.mem_reverse.1 hmem),
      Nameless.replace, assigned_zip, lookup_zip hnodup hlen' (List.getElem?_eq_getElem hi),
      List.getElem?_map, List.getElem?_eq_getElem hi']
    rfl
  have hparams : (V.map var).map (fun e => (e.namelessIn ys.toList.reverse).replace (assigned (V.zip as))) =
      as.map nameless := by
    rw [List.map_map]
    refine List.ext_getElem (by simpa using hlen) fun i hi hi' => ?_
    simpa using hparam i (by simpa using hi) (by simpa using hi')
  rw [nameless, namelessIn, List.append_nil, namelessIn, namelessAllIn_eq_map, List.map_cons, Nameless.replace,
    Nameless.replace, Nameless.replaceAll_eq_map, List.map_cons, List.map_map]
  exact congrArg _ (congrArg₂ _ hhead (congrArg₂ _ hfirst hparams))

/-- **A binding over an application of `h` to the parameters** becomes one with
as many variables, none of them free in an argument, and up to bound names over
the application of `h` to the arguments. -/
theorem of_substEach_bind (hnodup : V.Nodup) (hlen : V.length = as.length) (has : ∀ v ∈ V, ∀ a ∈ as, v ∉ a.vars)
    (hh : IsName h) (hV : ∀ v ∈ V, v ∉ ys.toList ∧ v ∉ h.vars) (hys : ∀ y ∈ ys.toList, h ≠ var y)
    (hq : (bind g ys (app (sym k) (h :: V.map var))).substEach (V.zip as) = .ok q) :
    ∃ zs c, q = bind g zs c ∧ zs.length = ys.length ∧ (∀ z ∈ zs.toList, ∀ a ∈ as, z ∉ a.freeVars) ∧
      q.alphaEq (bind g zs (app (sym k) (h :: as))) = true := by
  have hmap : (V.zip as).map Prod.fst = V := List.map_fst_zip (Nat.le_of_eq hlen)
  have hawaits : Awaits ((V.zip as).map Prod.fst) (bind g ys (app (sym k) ([h] ++ V.map var))) := by
    rw [hmap]
    exact ⟨g, ys, k, [h], rfl, fun v hv => ⟨(hV v hv).1, List.forall_mem_singleton.2 (hV v hv).2⟩⟩
  obtain ⟨⟨g', zs, k', ds, rfl, -⟩, hform⟩ := hawaits.substEach (hmap.symm ▸ hnodup)
    (fun pair hpair w hw => has w (hmap ▸ hw) _ (List.of_mem_zip hpair).2) hq
  have hys' : ∀ y ∈ ys.toList, var y ∉ h.names := by
    rintro y hy hmem
    rcases hh with ⟨x, rfl⟩ | ⟨f, rfl⟩
    · exact hys y hy (List.mem_singleton.1 hmem).symm
    · cases List.mem_singleton.1 hmem
  have hform : (bind g' zs (app (sym k') (ds ++ [].map var))).nameless =
      .bind g ys.length (.app (.sym k) ((h :: as).map nameless)) :=
    hform.trans (replace_nameless_bind hnodup hlen hV hys')
  obtain ⟨rfl, hlength, hapart⟩ := apart_of_nameless_bind hform
  refine ⟨zs, _, rfl, hlength, fun z hz a ha hfree => ?_, alphaEq_iff_nameless.2 (hform.trans ?_)⟩
  · exact hapart a (List.mem_cons_of_mem _ ha) z hz (mem_freeVars_iff.1 hfree)
  · rw [nameless_bind_app hapart, hlength]

end Expr

end SecondOrder
