/-
# Exchanging a bound variable

To exchange the bound `w` of a binding for `r` is to put `r` into the slots
that hold `w` and in the place of the free `w` of the body.  Bindings in the
body that bind `r` around a free `w` give way; those that bind `w` themselves
take `r` in their slots as well, whatever `r` means below them.  There the
slots that held `w` and `r` become one: `Expr.Confuses` says that the last of
them is not the one that a variable below refers to, and `Expr.Clashes` that
such a binding is reached.

A clash is never undone further down (`Expr.place_of_namelessIn_eq`), so the
result is the same binding up to bound names exactly if there is none
(`Expr.alphaConvert_preserves`).
-/

import SecondOrder.Proofs.Expr.Capture

namespace SecondOrder

/-- Where two lists of results agree, they agree member by member. -/
theorem forall₂_and_of_map_eq {α β γ : Type} {P : α → β → Prop} {f : α → γ} {g : β → γ} {as : List α}
    {bs : List β} (h : List.Forall₂ P as bs) (hmap : bs.map g = as.map f) :
    List.Forall₂ (fun a b => P a b ∧ g b = f a) as bs := by
  induction h with
  | nil => exact .nil
  | cons first _ ih =>
    rw [List.map_cons, List.map_cons, List.cons.injEq] at hmap
    exact .cons ⟨first, hmap.1⟩ (ih hmap.2)

namespace Nameless

variable {pairs : List (Expr × Nameless)} {t : Nameless} {i : Nat} {x : Var} {f : Sym}

/-- The pairs give variables forms that are not the place of a slot.  The form
of a whole expression is none, as all its slots are inside. -/
def Unplaced (pairs : List (Expr × Nameless)) : Prop :=
  ∀ pair ∈ pairs, (∃ x, pair.1 = .var x) ∧ ∀ i, pair.2 ≠ .bound i

/-- Where nothing is replaced there is nothing to ask. -/
theorem unplaced_nil : Unplaced [] := List.forall_mem_nil _

/-- A form stays as it is where nothing is replaced. -/
theorem replace_nil : t.replace [] = t := replace_of_not_mem (List.forall_mem_nil _)

/-- A name does not become a slot. -/
theorem replace_var_ne_bound (hpairs : Unplaced pairs) : (var x).replace pairs ≠ .bound i := by
  rw [replace]
  cases h : pairs.lookup (.var x) with
  | none => exact fun heq => by cases heq
  | some s =>
    obtain ⟨pair, hpair, rfl⟩ := exists_of_lookup h
    exact (hpairs pair hpair).2 i

/-- Only variables are replaced. -/
theorem replace_sym (hpairs : Unplaced pairs) : (sym f).replace pairs = .sym f := by
  rw [replace, lookup_of_ne fun pair hpair => ?_]
  · rfl
  · obtain ⟨x, hx⟩ := (hpairs pair hpair).1
    rw [hx]
    exact ⟨.inl ⟨x, rfl⟩, fun heq => by cases heq⟩

end Nameless

namespace Expr

variable {S T I : List Var} {w r z y u v : Var} {e b c q : Expr} {f : Sym} {xs ys : Binders}
  {pairs : List (Expr × Nameless)}

/-! ## Places of variables that become one -/

/-- Where free names are replaced, too, places agree if both are the innermost
slot, or neither is and they agree further out. -/
theorem place_cons_eq_replace_iff (hpairs : Nameless.Unplaced pairs) :
    place (u :: T) y = (place (v :: S) z).replace pairs ↔
      y = u ∧ z = v ∨ y ≠ u ∧ z ≠ v ∧ place T y = (place S z).replace pairs := by
  by_cases hz : z ∈ v :: S
  · have hself (S : List Var) (hz : z ∈ S) : (place S z).replace pairs = place S z := by
      rw [place_of_mem hz]
      rfl
    rw [hself _ hz, place_cons_eq_iff]
    refine or_congr_right (and_congr_right fun _ => and_congr_right fun hzv => ?_)
    rw [hself S ((List.mem_cons.1 hz).resolve_left hzv)]
  · have hne (i : Nat) := Nameless.replace_var_ne_bound (x := z) (i := i) hpairs
    rw [place_of_not_mem hz, place_of_not_mem fun h => hz (List.mem_cons_of_mem _ h)]
    have hzv : z ≠ v := fun h => hz (h ▸ List.mem_cons_self)
    simp only [hzv, and_false, false_or, ne_eq, not_false_eq_true, true_and]
    by_cases hyu : y = u
    · rw [place_of_mem (hyu ▸ List.mem_cons_self)]
      exact iff_of_false (fun h => hne _ h.symm) fun h => h.1 hyu
    · rw [and_iff_right hyu]
      by_cases hy : y ∈ T
      · rw [place_of_mem (List.mem_cons_of_mem _ hy), place_of_mem hy]
        exact iff_of_false (fun h => hne _ h.symm) fun h => hne _ h.symm
      · rw [place_of_not_mem hy, place_of_not_mem fun h => hy ((List.mem_cons.1 h).resolve_left hyu)]

/-- Slots around both variables that hold neither make no difference. -/
theorem place_append_eq_iff_of_not_mem (hpairs : Nameless.Unplaced pairs) (hy : y ∉ I) (hz : z ∉ I) :
    place (I ++ T) y = (place (I ++ S) z).replace pairs ↔ place T y = (place S z).replace pairs := by
  induction I with
  | nil => rfl
  | cons u I ih =>
    rw [List.mem_cons, not_or] at hy hz
    rw [List.cons_append, List.cons_append, place_cons_eq_replace_iff hpairs, ih hy.2 hz.2]
    simp [hy.1, hz.1]

/-- Other variables keep their places. -/
theorem place_map_renamed (hpairs : Nameless.Unplaced pairs) (hw : z ≠ w) (hr : z ≠ r)
    (h : z ∉ I → place T z = (place S z).replace pairs) :
    place (I.map (Var.renamed w r) ++ T) z = (place (I ++ S) z).replace pairs := by
  induction I with
  | nil => exact h List.not_mem_nil
  | cons u I ih =>
    rw [List.map_cons, List.cons_append, List.cons_append, place_cons_eq_replace_iff hpairs]
    by_cases hzu : z = u
    · exact .inl ⟨hzu ▸ (Var.renamed_of_ne hw).symm, hzu⟩
    · refine .inr ⟨fun heq => hzu ((Var.renamed_eq_iff hw hr).1 heq.symm).symm, hzu, ih fun hI => h ?_⟩
      simp [hzu, hI]

/-- Where `w` becomes `r`, only the variable of the innermost slot that holds
one of the two keeps its place. -/
theorem place_map_renamed_eq_iff (hpairs : Nameless.Unplaced pairs) (hI : w ∈ I) (hz : z = w ∨ z = r) :
    place (I.map (Var.renamed w r) ++ T) r = (place (I ++ S) z).replace pairs ↔
      I.find? (fun u => u = w ∨ u = r) = some z := by
  induction I with
  | nil => cases hI
  | cons u I ih =>
    rw [List.map_cons, List.cons_append, List.cons_append, place_cons_eq_replace_iff hpairs, List.find?_cons]
    by_cases hu : u = w ∨ u = r
    · have hrenamed : Var.renamed w r u = r := by grind [Var.renamed]
      rw [hrenamed, decide_eq_true hu]
      simp [eq_comm]
    · have hrenamed : Var.renamed w r u = u := Var.renamed_of_ne fun h => hu (.inl h)
      have hmem : w ∈ I := (List.mem_cons.1 hI).resolve_left fun h => hu (.inl h.symm)
      have hne : r ≠ u ∧ z ≠ u := by grind
      simp [hu, hrenamed, hne, ih hmem]

/-! ## Clashes -/

/-- The binding `xs, b` binds `w`, and when `w` becomes `r` in it, the slots
that held the two do not keep apart what one of them bound below: of these
slots, the last one binds. -/
def Confuses (w r : Var) (xs : Binders) (b : Expr) : Prop :=
  w ∈ xs.toList ∧ ∃ z, (z = w ∨ z = r) ∧ var z ∈ b.names ∧
    xs.toList.reverse.find? (fun u => u = w ∨ u = r) ≠ some z

/-- Some binding of `e` confuses `w` and `r` when `r` takes the place of
`w`. -/
def Clashes (w r : Var) : Expr → Prop := Exposed (Confuses w r) w r

/-- An application clashes if one of its parts does. -/
theorem clashes_app {g : Expr} {as : List Expr} :
    Clashes w r (app g as) ↔ Clashes w r g ∨ ∃ a ∈ as, Clashes w r a := exposed_app

/-- A binding clashes if it confuses the two itself, or further in, unless it
shields what is further in. -/
theorem clashes_bind : Clashes w r (bind f xs b) ↔
    Confuses w r xs b ∨ (var w ∈ (bind f xs b).names → r ∉ xs.toList) ∧ Clashes w r b := exposed_bind

/-- Where no slot but those of `w` holds `r`, the last of them holds `w`. -/
theorem find?_eq_some_self (hw : w ∈ I) (hr : r ∈ I → r = w) :
    I.find? (fun u => u = w ∨ u = r) = some w := by
  have hsome : (I.find? (fun u => u = w ∨ u = r)).isSome := List.find?_isSome.2 ⟨w, hw, by simp⟩
  obtain ⟨u, hu⟩ := Option.isSome_iff_exists.1 hsome
  have hmem := List.mem_of_find?_eq_some hu
  have hor : u = w ∨ u = r := by simpa using List.find?_some hu
  rcases hor with rfl | rfl
  · exact hu
  · rw [hu, hr hmem]

/-- A binding can only confuse a name with another that it has. -/
theorem Confuses.mem_vars (h : Confuses w r xs b) : r ∈ (bind f xs b).vars := by
  obtain ⟨hw, z, hz, hfree, hlast⟩ := h
  rw [mem_vars_bind]
  by_contra hr
  rw [not_or] at hr
  rcases hz with rfl | rfl
  · refine hlast (find?_eq_some_self (List.mem_reverse.2 hw) fun hmem => ?_)
    exact absurd (List.mem_reverse.1 hmem) hr.1
  · exact hr.2 (mem_vars_of_mem_names hfree)

/-- Hence to a new name any name may be converted without a clash. -/
theorem Clashes.mem_vars (h : Clashes w r e) : r ∈ e.vars := by
  obtain ⟨f, xs, b, hb, hconfuses⟩ := h.exists_node
  exact mem_vars_of_mem_nodes hb hconfuses.mem_vars

/-- Only a binding of `r` around a free `w` gives way to `r`. -/
theorem clearOf_var (h : clearOf f (var w) (var r) xs b = .ok (ys, c)) :
    (var w ∈ b.names → r ∉ xs.toList) ∧ ys = xs ∧ c = b ∨
      (var w ∈ b.names ∧ r ∈ xs.toList) ∧ r ∉ (bind f ys c).vars := by
  by_cases hfree : var w ∈ b.names
  · by_cases hr : r ∈ xs.toList
    · rw [clearOf, if_pos (occursFree_var_iff.2 hfree)] at h
      have hself : var r ∈ (var r).names := List.mem_singleton.2 rfl
      have hgone := not_mem_of_freshen (mem_vars_of_mem_names hself) (mem_filter_occursFree.2 ⟨hr, hself⟩) h
      exact .inr ⟨⟨hfree, hr⟩, hgone⟩
    · have hapart : ∀ x ∈ xs.toList, var x ∉ (var r).names := fun x hx hmem =>
        hr (Expr.var.inj (List.mem_singleton.1 hmem) ▸ hx)
      rw [clearOf_of_apart hapart] at h
      cases h
      exact .inl ⟨fun _ => hr, rfl, rfl⟩
  · rw [clearOf_of_not_free (mt var_mem_freeNames_iff.1 hfree) (.inl ⟨w, rfl⟩)] at h
    cases h
    exact .inl ⟨fun hmem => absurd hmem hfree, rfl, rfl⟩

/-- A variable is renamed or stays what it is. -/
theorem subst_var (u w r : Var) : (var u).subst (var w) (var r) = .ok (var (Var.renamed w r u)) := by
  have hif : (var u == var w) = true ↔ u = w :=
    (beq_name_iff (.inl ⟨w, rfl⟩)).trans ⟨Expr.var.inj, congrArg var⟩
  rw [subst_atom rfl, Var.renamed, apply_ite var]
  exact congrArg _ (if_congr hif rfl rfl)

/-- A name of `e` that becomes `r` refers to what it referred to before, if the
form is kept. -/
theorem place_of_namelessIn_eq (hpairs : Nameless.Unplaced pairs) (hz : z = w ∨ z = r)
    (hmem : var z ∈ e.names) (h : e.subst (var w) (var r) = .ok q)
    (hform : q.namelessIn T = (e.namelessIn S).replace pairs) :
    place T r = (place S z).replace pairs := by
  induction e using sizedInduct generalizing S T q with
  | atom e he =>
    cases e with
    | var u =>
      obtain rfl : z = u := Expr.var.inj (List.mem_singleton.1 hmem)
      rw [subst_var] at h
      cases h
      have hr : Var.renamed w r z = r := by grind [Var.renamed]
      rw [hr] at hform
      exact hform
    | sym => cases List.mem_singleton.1 hmem
    | app | bind => cases he
    | _ => cases hmem
  | app g as ihg ihas =>
    obtain ⟨g', as', hg, has, rfl⟩ := of_subst_app h
    simp only [namelessIn, namelessAllIn_eq_map, Nameless.replace, Nameless.replaceAll_eq_map, List.map_map,
      Nameless.app.injEq] at hform
    rcases mem_names_app.1 hmem with hmem | ⟨a, ha, hmem⟩
    · exact ihg hmem hg hform.1
    · obtain ⟨a', -, ha', hforma⟩ := exists_of_forall₂_left (forall₂_and_of_map_eq has hform.2) a ha
      exact ihas a ha hmem ha' hforma
  | bind f xs b ih =>
    obtain ⟨hb, hne⟩ := var_mem_names_bind.1 hmem
    rcases of_subst_bind h with ⟨x, y, c, hx, hxs, hy, hc, rfl⟩ | ⟨-, ys, c, d, hc, hd, rfl⟩
    · cases hx
      cases hy
      simp only [namelessIn, Nameless.replace, Nameless.bind.injEq, toList_rename, ← List.map_reverse] at hform
      have hplace := ih b rfl hb hc hform.2.2
      -- the slot of `w` would capture `z`
      rw [place_map_renamed_eq_iff hpairs (List.mem_reverse.2 hxs) hz] at hplace
      exact absurd (List.mem_reverse.1 (List.mem_of_find?_eq_some hplace)) hne
    · have hcleared := cleared_of_clearOf (.inl ⟨w, rfl⟩) hc
      obtain ⟨hzc, hzys⟩ := var_mem_names_bind.1 (hcleared.mem_names.2 hmem)
      rw [← hcleared.form S] at hform
      simp only [namelessIn, Nameless.replace, Nameless.bind.injEq] at hform
      have hplace := ih c (size_of_clearOf hc) hzc hd hform.2.2
      have hr : r ∉ ys.toList := by
        rcases hz with rfl | rfl
        · exact fun hr => hcleared.apart (var_mem_freeNames_iff.2 hb) r hr (List.mem_singleton.2 rfl)
        · exact hzys
      refine (place_append_eq_iff_of_not_mem hpairs ?_ ?_).1 hplace
      · rwa [List.mem_reverse]
      · rwa [List.mem_reverse]

/-- Below a binding that takes `r` in its slots of `w` and confuses nothing,
names keep their places. -/
theorem place_of_not_confuses (hpairs : Nameless.Unplaced pairs) (hxs : w ∈ xs.toList)
    (hconfuses : ¬Confuses w r xs b) (hz : var z ∈ b.names)
    (hplace : z ∉ xs.toList → place T (Var.renamed w r z) = (place S z).replace pairs) :
    place (xs.toList.reverse.map (Var.renamed w r) ++ T) (Var.renamed w r z) =
      (place (xs.toList.reverse ++ S) z).replace pairs := by
  by_cases hzwr : z = w ∨ z = r
  · have hr : Var.renamed w r z = r := by grind [Var.renamed]
    rw [hr, place_map_renamed_eq_iff hpairs (List.mem_reverse.2 hxs) hzwr]
    by_contra hlast
    exact hconfuses ⟨hxs, z, hzwr, hz, hlast⟩
  · rw [not_or] at hzwr
    rw [Var.renamed_of_ne hzwr.1] at hplace ⊢
    exact place_map_renamed hpairs hzwr.1 hzwr.2 fun hzxs => hplace (mt List.mem_reverse.2 hzxs)

/-- Below a binding without slots for `w` that has given way to `r`, names keep
their places. -/
theorem place_of_cleared (hpairs : Nameless.Unplaced pairs) (hys : w ∉ ys.toList)
    (hapart : var w ∈ c.names → r ∉ ys.toList) (hz : var z ∈ c.names)
    (hplace : z ∉ ys.toList → place T (Var.renamed w r z) = (place S z).replace pairs) :
    place (ys.toList.reverse ++ T) (Var.renamed w r z) = (place (ys.toList.reverse ++ S) z).replace pairs := by
  by_cases hzys : z ∈ ys.toList
  · have hI := List.mem_reverse.2 hzys
    rw [Var.renamed_of_ne (ne_of_mem_of_not_mem hzys hys), place_of_mem (S := _ ++ T) (List.mem_append_left _ hI),
      place_of_mem (List.mem_append_left _ hI), List.idxOf_append_of_mem hI, List.idxOf_append_of_mem hI]
    rfl
  · have hrenamed : Var.renamed w r z ∉ ys.toList := by
      rw [Var.renamed]
      split
      · next hzw => exact hapart (hzw ▸ hz)
      · exact hzys
    refine (place_append_eq_iff_of_not_mem hpairs ?_ ?_).2 (hplace hzys)
    · rwa [List.mem_reverse]
    · rwa [List.mem_reverse]

/-- What gives way to a value gets no slot for the variable that the value
takes the place of. -/
theorem not_mem_of_clearOf (hw : w ∉ xs.toList) (h : clearOf f (var w) e xs b = .ok (ys, c)) :
    w ∉ ys.toList := by
  by_cases hfree : var w ∈ b.names
  · have hmem : var w ∈ (bind f ys c).names :=
      (cleared_of_clearOf (.inl ⟨w, rfl⟩) h).mem_names.2 (var_mem_names_bind.2 ⟨hfree, hw⟩)
    exact (var_mem_names_bind.1 hmem).2
  · rw [clearOf_of_not_free (mt var_mem_freeNames_iff.1 hfree) (.inl ⟨w, rfl⟩)] at h
    cases h
    exact hw

/-- Once it has given way, a binding that does not bind `w` clashes where it
did before. -/
theorem clashes_iff_of_clearOf (hw : w ∉ xs.toList) (h : clearOf f (var w) (var r) xs b = .ok (ys, c)) :
    Clashes w r c ↔ Clashes w r (bind f xs b) := by
  rw [clashes_bind, or_iff_right fun h => hw h.1]
  rcases clearOf_var h with ⟨hr, -, rfl⟩ | ⟨⟨hfree, hr⟩, hgone⟩
  · exact ⟨fun h => ⟨fun hmem => hr (var_mem_names_bind.1 hmem).1, h⟩, And.right⟩
  · refine iff_of_false (fun h => hgone (mem_vars_bind.2 (.inr h.mem_vars))) fun h => ?_
    exact h.1 (var_mem_names_bind.2 ⟨hfree, hw⟩) hr

/-- Lists are equal under two readings where what tells so holds of each
member. -/
theorem map_eq_map_iff_of_forall₂ {α β γ : Type} {P : α → β → Prop} {Q : α → Prop} {f : α → γ} {g : β → γ}
    {as : List α} {bs : List β} (h : List.Forall₂ P as bs)
    (hiff : ∀ a ∈ as, ∀ b, P a b → (g b = f a ↔ Q a)) : bs.map g = as.map f ↔ ∀ a ∈ as, Q a := by
  induction h with
  | nil => simp
  | cons first _ ih =>
    rw [List.forall_mem_cons] at hiff
    rw [List.map_cons, List.map_cons, List.cons.injEq, List.forall_mem_cons, hiff.1 _ first, ih hiff.2]

/-- **Where `r` takes the place of `w`, the form is what it should be exactly
if nothing clashes.** -/
theorem namelessIn_eq_iff_not_clashes (hpairs : Nameless.Unplaced pairs) (h : e.subst (var w) (var r) = .ok q)
    (hplace : ∀ z, var z ∈ e.names → place T (Var.renamed w r z) = (place S z).replace pairs) :
    q.namelessIn T = (e.namelessIn S).replace pairs ↔ ¬Clashes w r e := by
  induction e using sizedInduct generalizing S T q with
  | atom e he =>
    refine iff_of_true ?_ (not_exposed_atom he)
    cases e with
    | var u =>
      rw [subst_var] at h
      cases h
      exact hplace u (List.mem_singleton.2 rfl)
    | app | bind => cases he
    | _ =>
      rw [subst_atom rfl] at h
      cases h
      simp [beq_eq_same, same, namelessIn, Nameless.replace, Nameless.replace_sym hpairs]
  | app g as ihg ihas =>
    obtain ⟨g', as', hg, has, rfl⟩ := of_subst_app h
    have hg' := ihg hg fun z hz => hplace z (mem_names_app.2 (.inl hz))
    have hall := map_eq_map_iff_of_forall₂ (f := fun a => (a.namelessIn S).replace pairs) (g := namelessIn T) has
      fun a ha a' haa' => ihas a ha haa' fun z hz => hplace z (mem_names_app.2 (.inr ⟨a, ha, hz⟩))
    simp only [namelessIn, namelessAllIn_eq_map, Nameless.replace, Nameless.replaceAll_eq_map, List.map_map,
      Nameless.app.injEq, hg', Function.comp_def, hall, clashes_app]
    grind
  | bind f xs b ih =>
    rcases of_subst_bind h with ⟨x, y, c, hx, hxs, hy, hc, rfl⟩ | ⟨hbound, ys, c, d, hc, hd, rfl⟩
    · cases hx
      cases hy
      simp only [namelessIn, Nameless.replace, Binders.length_rename, Nameless.bind.injEq, true_and,
        toList_rename, ← List.map_reverse]
      -- Where the slots are confused, a name refers to another one of them in the result.
      by_cases hconfuses : Confuses w r xs b
      · refine iff_of_false (fun hform => ?_) (not_not.2 (.here hconfuses))
        obtain ⟨-, z, hz, hmem, hlast⟩ := hconfuses
        have hsame := place_of_namelessIn_eq hpairs hz hmem hc hform
        exact hlast ((place_map_renamed_eq_iff hpairs (List.mem_reverse.2 hxs) hz).1 hsame)
      · have hw : var w ∉ (bind f xs b).names := fun hmem => (var_mem_names_bind.1 hmem).2 hxs
        rw [clashes_bind, or_iff_right hconfuses, and_iff_right fun hmem => absurd hmem hw]
        exact ih b rfl hc fun z hz => place_of_not_confuses hpairs hxs hconfuses hz fun hzxs =>
          hplace z (var_mem_names_bind.2 ⟨hz, hzxs⟩)
    · have hw : w ∉ xs.toList := fun hw => by
        rw [Binders.bound?_eq_some.2 ⟨rfl, hw⟩] at hbound
        cases hbound
      have hcleared := cleared_of_clearOf (.inl ⟨w, rfl⟩) hc
      have hwys : w ∉ ys.toList := not_mem_of_clearOf hw hc
      have hapart (hmem : var w ∈ c.names) : r ∉ ys.toList := fun hr => by
        have hfree := (var_mem_names_bind.1 (hcleared.mem_names.1 (var_mem_names_bind.2 ⟨hmem, hwys⟩))).1
        exact hcleared.apart (var_mem_freeNames_iff.2 hfree) r hr (List.mem_singleton.2 rfl)
      rw [← hcleared.form S, ← clashes_iff_of_clearOf hw hc]
      simp only [namelessIn, Nameless.replace, Nameless.bind.injEq, true_and]
      exact ih c (size_of_clearOf hc) hd fun z hz => place_of_cleared hpairs hwys hapart hz fun hzys =>
        hplace z (hcleared.mem_names.1 (var_mem_names_bind.2 ⟨hz, hzys⟩))

/-- To exchange a bound variable is to put the new one in its place in the
body. -/
theorem alphaConvert_of_mem (hw : w ∈ xs.toList) : (bind f xs b).alphaConvert (var w) (var r) =
    b.subst (var w) (var r) >>= fun c => .ok (bind f (xs.rename w r) c) := by
  rw [alphaConvert, Binders.bound?_eq_some.2 ⟨rfl, hw⟩]
  rfl

/-- Exchanged for a variable that is not free in the body and no other bound
variable, a bound variable leaves the binding as it is exactly if nothing
clashes in the body. -/
theorem alphaEq_iff_not_clashes (hw : w ∈ xs.toList) (hfree : r ∉ b.freeVars)
    (hr : r ∈ xs.toList → r = w) (h : b.subst (var w) (var r) = .ok c) :
    (bind f (xs.rename w r) c).alphaEq (bind f xs b) = true ↔ ¬Clashes w r b := by
  rw [mem_freeVars_iff] at hfree
  rw [alphaEq_iff_nameless, nameless, nameless, namelessIn, namelessIn, Nameless.bind.injEq,
    Binders.length_rename, toList_rename, ← List.map_reverse]
  have hplace (z : Var) (hz : var z ∈ b.names) :
      place (xs.toList.reverse.map (Var.renamed w r) ++ []) (Var.renamed w r z) =
        (place (xs.toList.reverse ++ []) z).replace [] := by
    by_cases hzw : z = w
    · have hI := List.mem_reverse.2 hw
      rw [hzw, Var.renamed_self, place_map_renamed_eq_iff Nameless.unplaced_nil hI (.inl rfl)]
      exact find?_eq_some_self hI fun hmem => hr (List.mem_reverse.1 hmem)
    · have hzr : z ≠ r := fun h => hfree (h ▸ hz)
      rw [Var.renamed_of_ne hzw]
      exact place_map_renamed Nameless.unplaced_nil hzw hzr fun _ => Nameless.replace_nil.symm
  simpa only [Nameless.replace_nil, true_and] using namelessIn_eq_iff_not_clashes Nameless.unplaced_nil h hplace

/-- **When the exchange of a bound variable keeps a binding as it is.**  Let
`w` be a bound variable and `r` one that is not free in the body and no other
bound variable.  The exchange returns a binding that is the same up to bound
names exactly if, when `r` takes the place of `w` in the body, no binding is
jammed or clashes: none that has to give way lists `r` twice, and below none
that is reached and binds `w` itself the one of `w` and `r` is free that its
last slot of the two does not hold. -/
theorem alphaConvert_preserves (hw : w ∈ xs.toList) (hfree : r ∉ b.freeVars)
    (hr : r ∈ xs.toList → r = w) :
    (∃ q, (bind f xs b).alphaConvert (var w) (var r) = .ok q ∧ q.alphaEq (bind f xs b) = true) ↔
      ¬Jammed w r b ∧ ¬Clashes w r b := by
  have houtcome := refused_subst b w (var r)
  rw [alphaConvert_of_mem hw]
  cases h : b.subst (var w) (var r) with
  | error fault =>
    rw [h] at houtcome
    refine iff_of_false (fun ⟨_, herror, _⟩ => nomatch herror) fun hnot => hnot.1 ?_
    rcases houtcome with ⟨-, hvar, -⟩ | ⟨-, x, hx, hjammed⟩
    · cases hvar
    · obtain rfl : x = r := Expr.var.inj (List.mem_singleton.1 hx)
      exact hjammed
  | ok c =>
    rw [h] at houtcome
    have hjammed : ¬Jammed w r b := fun hj => houtcome.2 ⟨r, List.mem_singleton.2 rfl, hj⟩
    rw [and_iff_right hjammed, ← alphaEq_iff_not_clashes (f := f) hw hfree hr h]
    refine ⟨?_, fun heq => ⟨_, rfl, heq⟩⟩
    rintro ⟨q, hq, heq⟩
    cases hq
    exact heq

/-- In `q[w. q[r. p(w, q[w. p(w, w)])]]` the bound `w` may become `r`: the
binding of `r` gives way, and the innermost binding takes `r` in its slot. -/
theorem alphaConvert_preserves_nested :
    let x (name : String) : Var := ⟨name, false⟩
    let q (name : String) (b : Expr) : Expr := bind ⟨"q", "base", false⟩ ⟨x name, []⟩ b
    let p (name : String) (b : Expr) : Expr := app (sym ⟨"p", "base", false⟩) [var (x name), b]
    let b : Expr := q "r" (p "w" (q "w" (p "w" (var (x "w")))))
    x "r" ∉ b.freeVars ∧ ¬Jammed (x "w") (x "r") b ∧ ¬Clashes (x "w") (x "r") b ∧
      ∃ e, (q "w" b).alphaConvert (var (x "w")) (var (x "r")) = .ok e ∧ e.alphaEq (q "w" b) = true := by
  intro x q p b
  have hfree : x "r" ∉ b.freeVars := by decide
  have hway : var (x "w") ∈ b.names := mem_freeVars_iff.1 (by decide)
  have hjammed : ¬Jammed (x "w") (x "r") b := fun h => by
    rcases jammed_bind.1 h with ⟨-, htwice⟩ | ⟨hstays, -⟩
    · exact List.not_duplicate_singleton _ _ htwice
    · exact hstays hway List.mem_cons_self
  have hclashes : ¬Clashes (x "w") (x "r") b := fun h => by
    rcases clashes_bind.1 h with ⟨hw, -⟩ | ⟨hstays, -⟩
    · exact absurd (List.mem_singleton.1 hw) (by decide)
    · exact hstays hway List.mem_cons_self
  exact ⟨hfree, hjammed, hclashes, (alphaConvert_preserves List.mem_cons_self hfree
    fun hr => absurd (List.mem_singleton.1 hr) (by decide)).2 ⟨hjammed, hclashes⟩⟩

/-- In `q[w. q[w, r. p(w, r)]]` it may not: both inner slots become `r`, which
confuses the two. -/
theorem alphaConvert_confuses :
    let x (name : String) : Var := ⟨name, false⟩
    let q (xs : Binders) (b : Expr) : Expr := bind ⟨"q", "base", false⟩ xs b
    let p (a b : String) : Expr := app (sym ⟨"p", "base", false⟩) [var (x a), var (x b)]
    let b : Expr := q ⟨x "w", [x "r"]⟩ (p "w" "r")
    x "r" ∉ b.freeVars ∧ ∃ e, (q ⟨x "w", []⟩ b).alphaConvert (var (x "w")) (var (x "r")) = .ok e ∧
      e.alphaEq (q ⟨x "w", []⟩ b) = false := by
  intro x q p b
  have h : (q ⟨x "w", []⟩ b).alphaConvert (var (x "w")) (var (x "r")) =
      .ok (q ⟨x "r", []⟩ (q ⟨x "r", [x "r"]⟩ (p "r" "r"))) := by cbv
  exact ⟨by decide, _, h, by decide⟩

end Expr
end SecondOrder
