/-
# When a substitution is refused

Putting `r` in the place of a variable `v` can go wrong in two ways.  A slot
that holds `v` takes `r` as well, so `r` has to be a variable if there is one.
And a binding that has to give way to `r` is renamed slot by slot; if it lists
twice a variable that is free in `r`, the first renaming uses up both slots,
and the second finds nothing to rename.  Such a binding is jammed
(`Expr.Jammed`).

Which bindings have to give way depends on the bindings around them: one that
gives way itself takes the variables that it binds out of everything below it.
`Expr.Exposed` says which bindings are reached.  `Expr.subst_refused` tells the
three outcomes apart.
-/

import Mathlib
import SecondOrder.Proofs.Expr.Reduction

namespace SecondOrder

namespace Var

variable {x y z u : Var}

/-- Only the name itself is renamed to a name that has no part in the
renaming. -/
theorem renamed_eq_iff (hx : u ≠ x) (hy : u ≠ y) : renamed x y z = u ↔ z = u := by
  rw [renamed]
  split
  · next hz => exact ⟨fun h => absurd h.symm hy, fun h => absurd (h.symm.trans hz) hx⟩
  · rfl

/-- Renaming other names neither adds nor removes a variable of the list. -/
theorem mem_map_renamed {zs : List Var} (hx : u ≠ x) (hy : u ≠ y) : u ∈ zs.map (renamed x y) ↔ u ∈ zs := by
  simp [renamed_eq_iff hx hy]

/-- Renaming other names does not change whether a variable is listed twice. -/
theorem duplicate_map_renamed {zs : List Var} (hx : u ≠ x) (hy : u ≠ y) :
    List.Duplicate u (zs.map (renamed x y)) ↔ List.Duplicate u zs := by
  induction zs with
  | nil => rfl
  | cons z zs ih =>
    rw [List.map_cons, List.duplicate_cons_iff, List.duplicate_cons_iff, ih, mem_map_renamed hx hy,
      renamed_eq_iff hx hy]

end Var

namespace Expr

variable {P : Binders → Expr → Prop} {v x y z u : Var} {e r b c q : Expr} {f : Sym} {xs ys : Binders}
  {as : List Expr} {zs : List Var}

/-! ## Bindings that are reached -/

/-- A binding `xs, b` with `P xs b` stands in `e` so that it is reached with
its `x` unchanged when a value that `x` is free in takes the place of `v`: no
binding around it binds `x` around a free `v`, without binding `v` too. -/
inductive Exposed (P : Binders → Expr → Prop) (v x : Var) : Expr → Prop
  | here {f : Sym} {xs : Binders} {b : Expr} (holds : P xs b) : Exposed P v x (.bind f xs b)
  | body {f : Sym} {xs : Binders} {b : Expr} (stays : var v ∈ (Expr.bind f xs b).names → x ∉ xs.toList)
      (below : Exposed P v x b) : Exposed P v x (.bind f xs b)
  | head {g : Expr} {as : List Expr} (below : Exposed P v x g) : Exposed P v x (.app g as)
  | arg {g a : Expr} {as : List Expr} (mem : a ∈ as) (below : Exposed P v x a) : Exposed P v x (.app g as)

/-- No binding stands in an atom. -/
theorem not_exposed_atom (he : e.isCompound = false) : ¬Exposed P v x e := by
  rintro (_ | _) <;> cases he

/-- A binding is reached in an application if it is reached in one of its
parts. -/
theorem exposed_app {g : Expr} :
    Exposed P v x (app g as) ↔ Exposed P v x g ∨ ∃ a ∈ as, Exposed P v x a := by
  constructor
  · rintro (_ | _ | h | ⟨ha, h⟩)
    · exact .inl h
    · exact .inr ⟨_, ha, h⟩
  · rintro (h | ⟨a, ha, h⟩)
    · exact .head h
    · exact .arg ha h

/-- A binding is reached as itself, or through a binding around it that leaves
`x` alone: one that binds `x` around a free `v` gives way to the value, and
what it has bound is another variable below. -/
theorem exposed_bind : Exposed P v x (bind f xs b) ↔
    P xs b ∨ (var v ∈ (bind f xs b).names → x ∉ xs.toList) ∧ Exposed P v x b := by
  constructor
  · rintro (h | ⟨hstays, h⟩)
    · exact .inl h
    · exact .inr ⟨hstays, h⟩
  · rintro (h | ⟨hstays, h⟩)
    · exact .here h
    · exact .body hstays h

/-- What is reached is a binding that stands in the expression. -/
theorem Exposed.exists_node (h : Exposed P v x e) : ∃ f xs b, bind f xs b ∈ e.nodes ∧ P xs b := by
  induction h with
  | @here f xs b holds => exact ⟨f, xs, b, self_mem_nodes _, holds⟩
  | body _ _ ih =>
    obtain ⟨f, xs, b, hb, holds⟩ := ih
    exact ⟨f, xs, b, mem_nodes_of_body hb, holds⟩
  | head _ ih =>
    obtain ⟨f, xs, b, hb, holds⟩ := ih
    exact ⟨f, xs, b, mem_nodes_of_head hb, holds⟩
  | arg ha _ ih =>
    obtain ⟨f, xs, b, hb, holds⟩ := ih
    exact ⟨f, xs, b, mem_nodes_of_arg ha hb, holds⟩

/-- A variable is free in a binding if it is free in the body and no slot holds
it. -/
theorem var_mem_names_bind : var x ∈ (bind f xs b).names ↔ var x ∈ b.names ∧ x ∉ xs.toList := by
  rw [mem_names_bind]
  refine and_congr_right fun _ => ⟨fun h hx => h x hx rfl, fun hx y hy heq => hx ?_⟩
  exact Expr.var.inj heq ▸ hy

/-- Slots for other variables stay when a variable is renamed. -/
theorem mem_toList_rename_iff (hx : u ≠ x) (hy : u ≠ y) : u ∈ (xs.rename x y).toList ↔ u ∈ xs.toList := by
  rw [toList_rename, Var.mem_map_renamed hx hy]

/-- A renaming keeps the free variables that have no part in it. -/
theorem var_mem_names_rename_iff (hx : u ≠ x) (hy : u ≠ y) :
    var u ∈ (e.rename x y).names ↔ var u ∈ e.names := by
  induction e with
  | var z =>
    have hz := Var.renamed_eq_iff (z := z) hx hy
    simpa [rename, names, Var.renamed, eq_comm] using hz
  | app g as ihg ihas =>
    simp only [rename, renameAll_eq_map, mem_names_app, List.mem_map, exists_exists_and_eq_and, ihg]
    exact or_congr_right (exists_congr fun a => and_congr_right fun ha => ihas a ha)
  | bind f xs b ih =>
    rw [rename, var_mem_names_bind, var_mem_names_bind, ih, mem_toList_rename_iff hx hy]
  | _ => simp [rename, names]

/-- Which bindings are reached does not change when a variable is renamed that
has no part in the substitution, if the property does not. -/
theorem exposed_rename (hxv : v ≠ z ∧ v ≠ y) (hx : x ≠ z ∧ x ≠ y)
    (hP : ∀ xs b, P (xs.rename z y) (b.rename z y) ↔ P xs b) :
    Exposed P v x (e.rename z y) ↔ Exposed P v x e := by
  induction e with
  | app g as ihg ihas =>
    simp only [rename, renameAll_eq_map, exposed_app, List.mem_map, exists_exists_and_eq_and, ihg]
    exact or_congr_right (exists_congr fun a => and_congr_right fun ha => ihas a ha)
  | bind f xs b ih =>
    have hnames := var_mem_names_rename_iff (e := bind f xs b) hxv.1 hxv.2
    rw [rename] at hnames
    rw [rename, exposed_bind, exposed_bind, hP, hnames, mem_toList_rename_iff hx.1 hx.2, ih]
  | _ => exact iff_of_false (not_exposed_atom rfl) (not_exposed_atom rfl)

/-! ## Bindings that cannot give way -/

/-- Some binding that lists `x` twice has to give way when a value that `x` is
free in takes the place of `v` in `e`. -/
def Jammed (v x : Var) : Expr → Prop :=
  Exposed (fun xs b => (var v ∈ b.names ∧ v ∉ xs.toList) ∧ List.Duplicate x xs.toList) v x

/-- An application is jammed where one of its parts is. -/
theorem jammed_app {g : Expr} : Jammed v x (app g as) ↔ Jammed v x g ∨ ∃ a ∈ as, Jammed v x a :=
  exposed_app

/-- A binding is jammed if it has to give way and lists `x` twice, or if it
leaves `x` alone and its body is jammed. -/
theorem jammed_bind : Jammed v x (bind f xs b) ↔
    (var v ∈ b.names ∧ v ∉ xs.toList) ∧ List.Duplicate x xs.toList ∨
      (var v ∈ (bind f xs b).names → x ∉ xs.toList) ∧ Jammed v x b := exposed_bind

/-- Only a variable that is bound somewhere can jam a binding. -/
theorem Jammed.mem_slots (h : Jammed v x e) : x ∈ e.slots := by
  obtain ⟨f, xs, b, hb, -, htwice⟩ := h.exists_node
  exact mem_slots_of_mem_nodes hb x htwice.mem

/-- To rename a variable that has no part in the substitution neither jams a
binding nor frees one. -/
theorem jammed_rename (hv : v ≠ z ∧ v ≠ y) (hx : x ≠ z ∧ x ≠ y) :
    Jammed v x (e.rename z y) ↔ Jammed v x e := by
  refine exposed_rename hv hx fun xs b => ?_
  rw [var_mem_names_rename_iff hv.1 hv.2, mem_toList_rename_iff hv.1 hv.2, toList_rename,
    Var.duplicate_map_renamed hx.1 hx.2]

/-- Giving way is not refused for another reason than a variable that is not
bound any more. -/
theorem of_freshen_error {fault : Fault} (h : freshen f r zs xs b = .error fault) :
    fault.kind = .unboundVariable := by
  induction zs generalizing xs b with
  | nil => cases h
  | cons z zs ih =>
    rw [freshen] at h
    split at h
    · exact ih h
    · cases h
      rfl

/-- A variable of `r` that has given way is gone. -/
theorem not_mem_of_freshen (hx : x ∈ r.vars) (hzs : x ∈ zs) (h : freshen f r zs xs b = .ok (ys, c)) :
    x ∉ (bind f ys c).vars := by
  induction zs generalizing xs b with
  | nil => cases hzs
  | cons z zs ih =>
    have hrest := h
    rw [freshen] at hrest
    split at hrest
    · rcases List.mem_cons.1 hzs with rfl | hzs
      · -- no later renaming brings it back
        refine freshen_keeps (P := fun ys c => x ∉ (bind f ys c).vars)
          (fun z _ xs b y _ hy hgone hmem => ?_) ?_ hrest
        · rw [← rename] at hmem
          rcases mem_vars_of_rename hmem with rfl | ⟨hmem, -⟩
          · exact hy.not_mem_value hx
          · exact hgone hmem
        · rw [← rename]
          intro hmem
          rcases mem_vars_of_rename hmem with heq | ⟨-, hne⟩
          · exact (isFresh_freshVar f xs b r).not_mem_value (heq ▸ hx)
          · exact hne rfl
      · exact ih hzs hrest
    · cases hrest

/-- A variable of `r` that gives way stands in a slot. -/
theorem mem_of_freshen (hx : x ∈ r.vars) (hzs : x ∈ zs) (h : freshen f r zs xs b = .ok (ys, c)) :
    x ∈ xs.toList := by
  induction zs generalizing xs b with
  | nil => cases hzs
  | cons z zs ih =>
    rw [freshen] at h
    split at h
    · next hz =>
      rcases List.mem_cons.1 hzs with rfl | hzs
      · exact hz
      · rcases mem_toList_rename (ih hzs h) with rfl | ⟨hmem, -⟩
        · exact absurd hx (isFresh_freshVar ..).not_mem_value
        · exact hmem
    · cases h

/-- Giving way goes through only if each variable is given once. -/
theorem nodup_of_freshen (hr : ∀ z ∈ zs, z ∈ r.vars) (h : freshen f r zs xs b = .ok (ys, c)) :
    zs.Nodup := by
  induction zs generalizing xs b with
  | nil => exact List.nodup_nil
  | cons z zs ih =>
    rw [List.forall_mem_cons] at hr
    rw [freshen] at h
    split at h
    · refine List.nodup_cons.2 ⟨fun hz => ?_, ih hr.2 h⟩
      rcases mem_toList_rename (mem_of_freshen hr.1 hz h) with hfresh | ⟨-, hne⟩
      · exact (isFresh_freshVar f xs b r).not_mem_value (hfresh ▸ hr.1)
      · exact hne rfl
    · cases h

/-- What the way being cleared says of a binding, and what it leaves for the
body. -/
structure Unjammed (v : Var) (r : Expr) (xs : Binders) (b : Expr) (c : Expr) : Prop where
  once : var v ∈ b.names → ∀ x, var x ∈ r.names → ¬List.Duplicate x xs.toList
  slots : v ∈ c.slots ↔ v ∈ b.slots
  jammed : ∀ x, var x ∈ r.names →
    (Jammed v x c ↔ (var v ∈ b.names → x ∉ xs.toList) ∧ Jammed v x b)

/-- **A binding that has made way** lists none of the variables twice that it
had to give way to; and the bindings below it are jammed as they were, but for
those variables that it has taken out. -/
theorem unjammed_of_clearOf (hv : v ∉ xs.toList) (h : clearOf f (var v) r xs b = .ok (ys, c)) :
    Unjammed v r xs b c := by
  by_cases hfree : var v ∈ b.names
  · rw [clearOf, if_pos (occursFree_var_iff.2 hfree)] at h
    have hvars (z : Var) (hz : z ∈ xs.toList.filter fun x => occursFree (var x) r) : z ∈ r.vars :=
      mem_vars_of_mem_names (mem_filter_occursFree.1 hz).2
    -- no renaming on the way has a part in `v`, or in a variable that need not give way
    have hkeeps := freshen_keeps (P := fun ys c => v ∈ (bind f ys c).vars ∧ (v ∈ c.slots ↔ v ∈ b.slots) ∧
      ∀ x, var x ∈ r.names → x ∉ xs.toList → (Jammed v x c ↔ Jammed v x b))
      (fun z hz ys c y _ hy hkept => ?_)
      ⟨mem_vars_bind.2 (.inr (mem_vars_of_mem_names hfree)), Iff.rfl, fun _ _ _ => Iff.rfl⟩ h
    · obtain ⟨-, hslots, hjammed⟩ := hkeeps
      refine ⟨fun _ x hx htwice => ?once, hslots, fun x hx => ?jammed⟩
      case once =>
        refine absurd (nodup_of_freshen hvars h) (List.Duplicate.not_nodup (x := x) ?_)
        have hocc : (fun x => occursFree (var x) r) x = true := occursFree_var_iff.2 hx
        rw [List.duplicate_iff_two_le_count] at htwice ⊢
        rwa [List.count_filter (p := fun x => occursFree (var x) r) hocc]
      case jammed =>
        by_cases hxs : x ∈ xs.toList
        · have hgone := not_mem_of_freshen (mem_vars_of_mem_names hx) (mem_filter_occursFree.2 ⟨hxs, hx⟩) h
          refine iff_of_false (fun hj => hgone ?_) fun hj => hj.1 hfree hxs
          exact mem_vars_bind.2 (.inr (mem_vars_of_mem_slots hj.mem_slots))
        · rw [hjammed x hx hxs]
          exact ⟨fun hj => ⟨fun _ => hxs, hj⟩, And.right⟩
    · obtain ⟨hmem, hslots, hjammed⟩ := hkept
      have hvz : v ≠ z := fun heq => hv (heq ▸ (mem_filter_occursFree.1 hz).1)
      have hvy : v ≠ y := fun heq => hy.not_mem (heq ▸ hmem)
      rw [← rename, vars_rename, Var.mem_map_renamed hvz hvy, slots_rename, Var.mem_map_renamed hvz hvy]
      refine ⟨hmem, hslots, fun x hx hxs => ?_⟩
      rw [jammed_rename ⟨hvz, hvy⟩ ⟨?_, ?_⟩, hjammed x hx hxs]
      · exact fun heq => hxs (heq ▸ (mem_filter_occursFree.1 hz).1)
      · exact fun heq => hy.not_mem_value (heq ▸ mem_vars_of_mem_names hx)
  · rw [clearOf_of_not_free (mt var_mem_freeNames_iff.1 hfree) (.inl ⟨v, rfl⟩)] at h
    cases h
    exact ⟨fun h => absurd h hfree, Iff.rfl, fun x _ => ⟨fun h => ⟨fun h => absurd h hfree, h⟩, And.right⟩⟩

/-! ## The three outcomes -/

/-- A binding of `v` takes `r` in its slots. -/
theorem subst_of_mem (hv : v ∈ xs.toList) : (bind f xs b).subst (var v) r =
    match r with
    | var y => b.subst (var v) (var y) >>= fun c => .ok (bind f (xs.rename v y) c)
    | _ => .error (.illegalCapture (bind f xs b) v r) := by
  have hbound : xs.bound? (var v) = some v := Binders.bound?_eq_some.2 ⟨rfl, hv⟩
  rw [subst.eq_def]
  cases r <;> simp only [hbound]
  rfl

/-- Any other binding is cleared first. -/
theorem subst_of_bound?_eq_none (hb : xs.bound? e = none) : (bind f xs b).subst e r =
    clearOf f e r xs b >>= fun p => p.2.subst e r >>= fun d => .ok (bind f p.1 d) := by
  cases hc : clearOf f e r xs b with
  | ok p => exact subst_bind hb hc
  | error fault =>
    rw [subst.eq_def]
    dsimp only
    split
    · cases hb.symm.trans ‹xs.bound? e = some _›
    · cases hb.symm.trans ‹xs.bound? e = some _›
    · split
      · next herr => exact congrArg Except.error (Except.error.inj (herr.symm.trans hc))
      · next hok => cases hc.symm.trans hok

/-- What a computation came to, if it is refused with `illegalCapture` only
where `captures` holds, with `unboundVariable` only where `jams` holds, and
with nothing else, and if it returns only where neither does. -/
def Refused {α : Type} (captures jams : Prop) : Except Fault α → Prop
  | .ok _ => ¬captures ∧ ¬jams
  | .error fault => fault.kind = .illegalCapture ∧ captures ∨ fault.kind = .unboundVariable ∧ jams

section Refused

variable {α β : Type} {captures jams captures' jams' : Prop} {m : Except Fault α}

/-- The two conditions may be stated in other words. -/
theorem Refused.congr (h : Refused captures jams m) (hc : captures ↔ captures') (hj : jams ↔ jams') :
    Refused captures' jams' m := by
  rwa [← hc, ← hj]

/-- A computation in two steps is refused for the reasons of the one and of the
other.  The second step may look at what the first one came to. -/
theorem Refused.bind {g : α → Except Fault β} (h : Refused captures jams m)
    (hg : ∀ a, m = .ok a → Refused captures' jams' (g a)) :
    Refused (captures ∨ captures') (jams ∨ jams') (m >>= g) := by
  cases m with
  | error fault => exact h.imp (And.imp_right .inl) (And.imp_right .inl)
  | ok a =>
    obtain ⟨hc, hj⟩ := h
    exact (hg a rfl).congr (or_iff_right hc).symm (or_iff_right hj).symm

/-- What is made of the result afterwards refuses nothing. -/
theorem Refused.map {g : α → β} (h : Refused captures jams m) :
    Refused captures jams (m >>= fun a => .ok (g a)) := by
  cases m with
  | error => exact h
  | ok => exact h

/-- A computation for each member of a list is refused if one of them is.  Only
the first fault is met, but it has one of the two kinds for one of the two
reasons. -/
theorem Refused.mapM {g : β → Except Fault α} {as : List β} {captures jams : β → Prop}
    (h : ∀ a ∈ as, Refused (captures a) (jams a) (g a)) :
    Refused (∃ a ∈ as, captures a) (∃ a ∈ as, jams a) (as.mapM g) := by
  induction as with
  | nil => exact ⟨nofun, nofun⟩
  | cons a as ih =>
    rw [List.forall_mem_cons] at h
    rw [List.mapM_cons]
    refine (h.1.bind fun b _ => (ih h.2).map (g := (b :: ·))).congr ?_ ?_
    · exact (List.exists_mem_cons_iff ..).symm
    · exact (List.exists_mem_cons_iff ..).symm

end Refused

/-- Some slot of `e` that holds `v` cannot take `r`. -/
def Captures (v : Var) (r e : Expr) : Prop := r.isVar = false ∧ v ∈ e.slots

/-- Some binding of `e` that has to give way to `r` cannot. -/
def Jams (v : Var) (r e : Expr) : Prop := ∃ x, var x ∈ r.names ∧ Jammed v x e

/-- Every binding can give way if none of them lists a variable twice. -/
theorem not_jams_of_nodup (h : ∀ f xs b, bind f xs b ∈ e.nodes → xs.toList.Nodup) : ¬Jams v r e := by
  rintro ⟨x, -, hjammed⟩
  obtain ⟨f, xs, b, hb, -, htwice⟩ := hjammed.exists_node
  exact htwice.not_nodup (h f xs b hb)

/-- Making way is refused only if the parameter occurs below and a variable of
the value is listed twice, and never because of the value being no variable. -/
theorem refused_clearOf (hv : v ∉ xs.toList) : Refused False
    (∃ x, var x ∈ r.names ∧ var v ∈ b.names ∧ List.Duplicate x xs.toList)
    (clearOf f (var v) r xs b) := by
  cases h : clearOf f (var v) r xs b with
  | ok p =>
    refine ⟨not_false, fun ⟨x, hx, hfree, htwice⟩ => ?_⟩
    exact (unjammed_of_clearOf hv h).once hfree x hx htwice
  | error fault =>
    rw [clearOf] at h
    split at h
    · next hocc =>
      refine .inr ⟨of_freshen_error h, ?_⟩
      by_contra hnone
      have hnodup : (xs.toList.filter fun x => occursFree (var x) r).Nodup := by
        refine List.nodup_iff_forall_not_duplicate.2 fun x htwice => hnone ⟨x, ?_⟩
        have hx := mem_filter_occursFree.1 htwice.mem
        exact ⟨hx.2, occursFree_var_iff.1 hocc, htwice.mono_sublist List.filter_sublist⟩
      obtain ⟨ys, c, hok⟩ := exists_freshen (f := f) (r := r) (b := b)
        (fun z hz => (mem_filter_occursFree.1 hz).1) hnodup
      cases h.symm.trans hok
    · cases h

/-- **Why a substitution is refused.** It is `illegalCapture` only where a slot
holds the variable and cannot take the value, and `unboundVariable` only where
a binding is jammed.  It returns only where neither is so.  The induction is on
the size, for a binding that gives way is another one before its body is
entered. -/
theorem refused_subst (e : Expr) (v : Var) (r : Expr) :
    Refused (Captures v r e) (Jams v r e) (e.subst (var v) r) := by
  induction e using sizedInduct with
  | atom e he =>
    rw [subst_atom he]
    refine ⟨fun h => ?_, fun ⟨x, _, h⟩ => not_exposed_atom he h⟩
    cases e with
    | app | bind => cases he
    | _ => cases h.2
  | app g as ihg ihas =>
    rw [subst_app]
    refine (ihg.bind fun g' _ => (Refused.mapM ihas).map).congr ?_ ?_
    · simp only [Captures, mem_slots_app]
      grind
    · simp only [Jams, jammed_app]
      grind
  | bind f xs b ih =>
    by_cases hv : v ∈ xs.toList
    · -- the slot takes `r` too, and nothing gives way
      have hslot : v ∈ (bind f xs b).slots := mem_slots_bind.2 (.inl hv)
      have hfree : var v ∉ (bind f xs b).names := fun h => (var_mem_names_bind.1 h).2 hv
      rw [subst_of_mem hv]
      cases r with
      | var y =>
        refine (ih b rfl).map.congr (iff_of_false ?_ ?_) (exists_congr fun x => and_congr_right fun _ => ?_)
        · exact fun h => Bool.false_ne_true h.1.symm
        · exact fun h => Bool.false_ne_true h.1.symm
        · rw [jammed_bind]
          simp [hv, hfree]
      | _ => exact .inl ⟨rfl, rfl, hslot⟩
    · have hbound : xs.bound? (var v) = none := bound?_eq_none fun x hx heq => hv (Expr.var.inj heq ▸ hx)
      have hfree : var v ∈ (bind f xs b).names ↔ var v ∈ b.names :=
        var_mem_names_bind.trans (and_iff_left hv)
      have hbody (p : Binders × Expr) (hp : clearOf f (var v) r xs b = .ok p) : Refused (Captures v r b)
          (∃ x, var x ∈ r.names ∧ (var v ∈ b.names → x ∉ xs.toList) ∧ Jammed v x b)
          (p.2.subst (var v) r >>= fun d => .ok (bind f p.1 d)) := by
        have hclear := unjammed_of_clearOf hv hp
        refine (ih p.2 (size_of_clearOf hp)).map.congr (and_congr_right fun _ => hclear.slots) ?_
        exact exists_congr fun x => and_congr_right fun hx => hclear.jammed x hx
      rw [subst_of_bound?_eq_none hbound]
      refine ((refused_clearOf hv).bind hbody).congr ?_ ?_
      · simp only [Captures, mem_slots_bind, hv, false_or]
      · simp only [Jams, jammed_bind, hfree, hv, not_false_eq_true, and_true]
        grind

/-- **When a substitution for a variable is refused.**  It returns exactly if
no slot holds `v` that cannot take `r`, and no binding that has to give way is
jammed; it is refused with `illegalCapture` only in the first case and with
`unboundVariable` only in the second, and with nothing else.  So where no
binding is jammed, it is refused exactly if `r` is no variable and some binding
binds `v`. -/
theorem subst_refused (e : Expr) (v : Var) (r : Expr) :
    ((∃ q, e.subst (var v) r = .ok q) ↔ ¬Captures v r e ∧ ¬Jams v r e) ∧
      (∀ fault, e.subst (var v) r = .error fault →
        fault.kind = .illegalCapture ∧ Captures v r e ∨ fault.kind = .unboundVariable ∧ Jams v r e) ∧
      (¬Jams v r e → ((∃ fault, e.subst (var v) r = .error fault ∧ fault.kind = .illegalCapture) ↔
        Captures v r e)) := by
  have h := refused_subst e v r
  cases hq : e.subst (var v) r with
  | ok q =>
    rw [hq] at h
    exact ⟨iff_of_true ⟨q, rfl⟩ h, nofun, fun _ => iff_of_false nofun h.1⟩
  | error fault =>
    rw [hq] at h
    refine ⟨iff_of_false nofun fun hnot => ?returns, ?kinds, fun hjams => ⟨fun _ => ?captures, fun _ => ?refused⟩⟩
    case returns => exact h.elim (fun h => hnot.1 h.2) fun h => hnot.2 h.2
    case kinds =>
      rintro _ ⟨rfl⟩
      exact h
    case captures => exact (h.resolve_right fun h => hjams h.2).2
    case refused => exact ⟨fault, rfl, (h.resolve_right fun h => hjams h.2).1⟩

/-- No binding of `q[x, x. p(v)]` binds `v`, and `x` is a variable, but it
cannot take the place of `v`: the binding that has to give way lists it
twice. -/
theorem subst_refused_twice :
    let x (name : String) : Var := ⟨name, false⟩
    let q (xs : Binders) : Expr := bind ⟨"q", "base", false⟩ xs (app (var (x "p")) [var (x "v")])
    let e : Expr := q ⟨x "x", [x "x"]⟩
    ¬((var (x "x")).isVar = false ∧ x "v" ∈ e.slots) ∧
      ∃ fault, e.subst (var (x "v")) (var (x "x")) = .error fault ∧ fault.kind = .unboundVariable := by
  intro x q e
  have h : e.subst (var (x "v")) (var (x "x")) =
      .error (.unboundVariable (var (x "x")) (q ⟨x "x0", [x "x0"]⟩)) := by
    simp only [e, q, x]
    cbv
  exact ⟨fun hnot => absurd hnot.1.symm Bool.false_ne_true, _, h, rfl⟩

end Expr
end SecondOrder
