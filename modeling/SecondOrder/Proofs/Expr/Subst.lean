/-
# What substitution means

To substitute `r` for a name `v` in a sorted expression is to evaluate the
expression where `v` means what `r` means: `subst_spec`, for a name that is
never applied and that no binder slot holds.  The renaming that keeps `r` from
being captured changes no meaning (`clearOf_spec`), and it is never refused, as
no binding of a sorted expression lists a variable twice.
-/

import SecondOrder.Proofs.Expr.Fresh
import SecondOrder.Proofs.Expr.Rename
import SecondOrder.Proofs.Refusal

namespace SecondOrder
namespace Expr

variable {R : Reserved} {arity : Arity} {ρ ρ' : Valuation} {f : Sym} {xs : Binders}
  {b e v r : Expr}

/-- The bindings that stand in the way of a name are those that bind it. -/
theorem any_freeVars_contains (hv : IsName v) (xs : Binders) :
    xs.toList.any v.freeVars.contains = xs.binds v := by
  rcases hv with ⟨x, rfl⟩ | ⟨g, rfl⟩
  · have hfree : (var x).freeVars = [x] := rfl
    rw [hfree, Bool.eq_iff_iff, List.any_eq_true, Binders.binds_var]
    exact ⟨fun ⟨y, hy, hxy⟩ => by rw [List.contains_iff_mem, List.mem_singleton] at hxy; exact hxy ▸ hy,
      fun hx => ⟨x, hx, by rw [List.contains_iff_mem]; exact List.mem_singleton.2 rfl⟩⟩
  · have hfree : (sym g).freeVars = [] := rfl
    rw [hfree]
    exact List.any_eq_false.2 fun _ _ => Bool.false_ne_true

/-- A name occurs in a list of arguments if it occurs in one of them. -/
theorem occursApartAny_iff {as : List Expr}
    (h : ∀ a ∈ as, occursApart v v.freeVars a = true ↔ v ∈ a.freeNames) :
    occursApartAny v v.freeVars as = true ↔ ∃ a ∈ as, v ∈ a.freeNames := by
  induction as with
  | nil => exact ⟨nofun, nofun⟩
  | cons a as ih =>
    rw [occursApartAny, Bool.or_eq_true, h a List.mem_cons_self,
      ih fun a ha => h a (List.mem_cons_of_mem _ ha), List.exists_mem_cons_iff]

/-- **A name occurs free exactly if it is one of the free names,** heads of
bindings included. -/
theorem occursFree_iff (hv : IsName v) : occursFree v e = true ↔ v ∈ e.freeNames := by
  have hne {a : Expr} (ha : ¬IsName a) : (a == v) = false :=
    Bool.eq_false_iff.2 fun h => ha ((beq_name_iff hv).1 h ▸ hv)
  rw [occursFree]
  induction e with
  | var x =>
    rw [occursApart, beq_name_iff hv, freeNames, List.mem_singleton, eq_comm]
    all_goals simp
  | sym g =>
    rw [occursApart, beq_name_iff hv, freeNames, List.mem_singleton, eq_comm]
    all_goals simp
  | app g as ihg ihas =>
    have ihg : occursApart v v.freeVars g = true ↔ v ∈ g.freeNames := ihg
    rw [occursApart, hne (by rintro (⟨x, h⟩ | ⟨f, h⟩) <;> cases h), Bool.false_or, Bool.or_eq_true,
      ihg, occursApartAny_iff ihas, mem_freeNames_app]
  | bind g xs b ih =>
    have ih : occursApart v v.freeVars b = true ↔ v ∈ b.freeNames := ih
    rw [occursApart, hne (by rintro (⟨x, h⟩ | ⟨f, h⟩) <;> cases h), Bool.false_or,
      any_freeVars_contains hv, freeNames, List.mem_cons, List.mem_filter, Bool.and_eq_true,
      Bool.or_eq_true, ih, beq_name_iff hv, and_or_left, and_comm (a := (!xs.binds v) = true)]
    refine or_congr ⟨fun h => h.1.symm, fun h => ⟨h.symm, ?_⟩⟩ and_comm
    rw [h]
    rfl
  | _ =>
    change (_ == v) = true ↔ v ∈ []
    rw [hne (by rintro (⟨x, h⟩ | ⟨f, h⟩) <;> cases h)]
    simp

/-- Heads of bindings play no part for a variable. -/
theorem occursFree_var_iff {x : Var} : occursFree (var x) e = true ↔ var x ∈ e.names :=
  (occursFree_iff (.inl ⟨x, rfl⟩)).trans var_mem_freeNames_iff

/-- The variables that have to give way. -/
theorem mem_filter_occursFree {x : Var} :
    x ∈ xs.toList.filter (fun x => occursFree (var x) r) ↔ x ∈ xs.toList ∧ var x ∈ r.names := by
  rw [List.mem_filter, occursFree_var_iff]

/-- A name that substitution can take the place of without applying it: an
unknown that is not applied, or an ordinary variable. -/
def Plain (arity : Arity) (v : Expr) : Prop :=
  v.isMarked = true ∧ arity v = none ∨ ∃ x, v = var x ∧ x.marked = false

/-- What can be substituted without being applied is a name. -/
theorem Plain.isName (h : Plain arity v) : IsName v := by
  rcases h with ⟨h, -⟩ | ⟨x, rfl, -⟩
  · exact isName_of_isMarked h
  · exact .inl ⟨x, rfl⟩

/-- Freshening renames the given bound variables, none of which `r` then
holds. -/
theorem freshen_spec {zs : List Var} (h : Sorted R arity (bind f xs b))
    (hzs : ∀ z ∈ zs, z ∈ xs.toList) (hnodup : zs.Nodup) :
    ∃ ys c, freshen f r zs xs b = .ok (ys, c) ∧ Rebound R arity f xs b ys c ∧
      (∀ z ∈ (bind f ys c).vars, z ∈ (bind f xs b).vars ∨ z.Numbered 'x') ∧
      (∀ z ∈ (bind f ys c).slots, z ∈ (bind f xs b).slots ∨ z.Numbered 'x') ∧
      ∀ y ∈ ys.toList, y ∈ xs.toList ∧ y ∉ zs ∨ y ∉ r.vars := by
  induction zs generalizing xs b with
  | nil => exact ⟨xs, b, rfl, .refl h, fun z hz => .inl hz, fun z hz => .inl hz,
      fun y hy => .inl ⟨hy, nofun⟩⟩
  | cons z zs ih =>
    have hz := hzs z List.mem_cons_self
    obtain ⟨hzz, hnodup⟩ := List.nodup_cons.1 hnodup
    let y := freshVar [bind f xs b, r]
    have hyb : y ∉ (bind f xs b).vars := freshVar_not_mem List.mem_cons_self
    have hyr : y ∉ r.vars := freshVar_not_mem (List.mem_cons_of_mem _ List.mem_cons_self)
    have hrename := Rebound.rename h hz (marked_freshVar _) hyb
    obtain ⟨ys, c, hc, hrest, hvars, hslots, hys⟩ := ih hrename.sorted (fun w hw => by
      rw [toList_rename]
      refine Var.mem_map_renamed_of_ne (hzs w (List.mem_cons_of_mem _ hw)) ?_
      rintro rfl
      exact hzz hw) hnodup
    have hnew {P Q : Prop} {w : Var} (hw : w = y ∨ P ∧ Q) : P ∨ w.Numbered 'x' :=
      hw.elim (fun heq => .inr (heq ▸ numbered_freshVar _)) fun h => .inl h.1
    refine ⟨ys, c, ?_, hrename.trans hrest, fun w hw => ?_, fun w hw => ?_, fun w hw => ?_⟩
    · rw [freshen, if_pos hz]
      exact hc
    · refine (hvars w hw).elim (fun hw => ?_) .inr
      rw [← rename] at hw
      exact hnew (mem_vars_of_rename hw)
    · refine (hslots w hw).elim (fun hw => ?_) .inr
      rw [← rename] at hw
      exact hnew (mem_slots_of_rename hw)
    · rcases hys w hw with ⟨hw, hwzs⟩ | hw
      · rw [toList_rename] at hw
        rcases Var.of_mem_map_renamed hw with rfl | ⟨hw, hwz⟩
        · exact .inr hyr
        · exact .inl ⟨hw, by rw [List.mem_cons, not_or]; exact ⟨hwz, hwzs⟩⟩
      · exact .inr hw

/-- **Clearing the way for `r` keeps the binding as it is,** and no bound
variable captures a variable of `r` then. -/
theorem clearOf_spec (hv : IsName v) (h : Sorted R arity (bind f xs b)) :
    ∃ ys c, clearOf f v r xs b = .ok (ys, c) ∧ Rebound R arity f xs b ys c ∧
      (∀ z ∈ (bind f ys c).vars, z ∈ (bind f xs b).vars ∨ z.Numbered 'x') ∧
      (∀ z ∈ (bind f ys c).slots, z ∈ (bind f xs b).slots ∨ z.Numbered 'x') ∧
      (v ∈ b.names → ∀ y ∈ ys.toList, var y ∉ r.names) ∧
      (v ∉ b.freeNames → ys = xs ∧ c = b) := by
  rw [clearOf]
  by_cases hvb : v ∈ b.freeNames
  · rw [if_pos ((occursFree_iff hv).2 hvb)]
    have hdistinct : xs.toList.Nodup := (sorted_bind.1 h).2.1
    obtain ⟨ys, c, hc, hreb, hvars, hslots, hys⟩ := freshen_spec (r := r) h
      (fun z hz => (mem_filter_occursFree.1 hz).1) (hdistinct.filter _)
    refine ⟨ys, c, hc, hreb, hvars, hslots, fun _ y hy hyr => ?_, fun hn => absurd hvb hn⟩
    rcases hys y hy with ⟨hy, hyz⟩ | hy
    · exact hyz (mem_filter_occursFree.2 ⟨hy, hyr⟩)
    · exact hy (mem_vars_of_mem_names hyr)
  · rw [if_neg (mt (occursFree_iff hv).1 hvb)]
    exact ⟨xs, b, rfl, .refl h, fun z hz => .inl hz, fun z hz => .inl hz,
      fun hn => absurd (mem_freeNames_of_mem_names hn) hvb, fun _ => ⟨rfl, rfl⟩⟩

/-- Where the names of `q` come from, if it is `e` with `r` in the place of
`v`. -/
structure NamesFrom (e v r q : Expr) : Prop where
  vars : ∀ z ∈ q.vars,
    z ∈ e.vars ∧ v ≠ .var z ∨ z ∈ r.vars ∨ (∃ x, x ∈ e.slots) ∧ z.Numbered 'x'
  slots : ∀ z ∈ q.slots, z ∈ e.slots ∨ z ∈ r.slots ∨ (∃ x, x ∈ e.slots) ∧ z.Numbered 'x'
  unknowns : ∀ n ∈ q.names, n.isMarked = true → n ∈ e.names ∧ n ≠ v ∨ n ∈ r.names

/-- What putting `r` in the place of `v` makes of `e`. -/
structure Substituted (R : Reserved) (arity : Arity) (e v r q : Expr) : Prop where
  sorted : Sorted R arity q
  den : ∀ ρ, den R ρ q = den R (ρ.update v (den R ρ r)) e
  names : NamesFrom e v r q

/-- What can be put into each argument can be put into all of them. -/
theorem substAll_ok {P : Expr → Expr → Prop} {as : List Expr}
    (h : ∀ a ∈ as, ∃ q, subst a v r = .ok q ∧ P a q) :
    ∃ bs, substAll as v r = .ok bs ∧ List.Forall₂ P as bs := by
  induction as with
  | nil => exact ⟨[], by rw [substAll], .nil⟩
  | cons a as ih =>
    obtain ⟨q, hq, hP⟩ := h a List.mem_cons_self
    obtain ⟨bs, hbs, hall⟩ := ih fun a ha => h a (List.mem_cons_of_mem _ ha)
    refine ⟨q :: bs, ?_, .cons hP hall⟩
    rw [substAll, hq, hbs]
    rfl

/-- A binding that holds the name in no slot makes way, and then the value is
put into its new body. -/
theorem subst_bind {ys : Binders} {c : Expr} (hb : xs.bound? v = none)
    (hc : clearOf f v r xs b = .ok (ys, c)) :
    (bind f xs b).subst v r = c.subst v r >>= fun d => .ok (bind f ys d) := by
  rw [subst.eq_def]
  dsimp only
  split
  · next hsome _ => cases hb.symm.trans ‹xs.bound? v = some _›
  · next hsome _ => cases hb.symm.trans ‹xs.bound? v = some _›
  · split
    · next herr => rw [hc] at herr; cases herr
    · next hok => rw [hc] at hok; cases hok; rfl

/-- Binders none of which holds the name do not bind it. -/
theorem bound?_eq_none (h : ∀ x ∈ xs.toList, v ≠ .var x) : xs.bound? v = none := by
  cases hv : xs.bound? v with
  | none => rfl
  | some x =>
    obtain ⟨hx, hmem⟩ := Binders.bound?_eq_some.1 hv
    exact absurd hx (h x hmem)

/-- Nothing has to give way if `v` is not free in the body. -/
theorem clearOf_of_not_free (h : v ∉ b.freeNames) (hv : IsName v) :
    clearOf f v r xs b = .ok (xs, b) := by
  rw [clearOf, if_neg (mt (occursFree_iff hv).1 h)]

/-- Nothing has to give way that is not free in `r`. -/
theorem clearOf_of_apart (h : ∀ x ∈ xs.toList, .var x ∉ r.names) :
    clearOf f v r xs b = .ok (xs, b) := by
  have hfilter : (xs.toList.filter fun x => occursFree (.var x) r) = [] :=
    List.filter_eq_nil_iff.2 fun x hx hfree => h x hx (occursFree_var_iff.1 hfree)
  rw [clearOf, hfilter]
  split <;> rfl

/-- An argument is smaller than the list of arguments, which counts as a node
of its own. -/
theorem size_lt_of_mem {as : List Expr} {a : Expr} (ha : a ∈ as) : a.size < sizeAll as := by
  induction as with
  | nil => cases ha
  | cons a' as ih =>
    rw [sizeAll]
    rcases List.mem_cons.1 ha with rfl | ha
    · have := sizeAll_pos as
      omega
    · have := ih ha
      omega

/-- A variable that occurs is free or stands in a slot. -/
theorem mem_names_or_slots {x : Var} (h : x ∈ e.vars) : var x ∈ e.names ∨ x ∈ e.slots := by
  induction e with
  | var y => exact .inl (List.mem_singleton.2 (congrArg var (List.mem_singleton.1 h)))
  | app f as ihf ihas =>
    rcases mem_vars_app.1 h with h | ⟨a, ha, h⟩
    · exact (ihf h).imp (fun h => mem_names_app.2 (.inl h)) fun h => mem_slots_app.2 (.inl h)
    · exact (ihas a ha h).imp (fun h => mem_names_app.2 (.inr ⟨a, ha, h⟩)) fun h =>
        mem_slots_app.2 (.inr ⟨a, ha, h⟩)
  | bind f xs b ih =>
    by_cases hx : x ∈ xs.toList
    · exact .inr (mem_slots_bind.2 (.inl hx))
    · refine (ih ((mem_vars_bind.1 h).resolve_left hx)).imp (fun h => ?_) fun h =>
        mem_slots_bind.2 (.inr h)
      exact mem_names_bind.2 ⟨h, fun y hy e => hx (Expr.var.inj e ▸ hy)⟩
  | _ => cases h

namespace NamesFrom

variable {p q : Expr} {as bs : List Expr}

/-- A name that does not occur has nothing taking its place. -/
theorem of_not_mem (hslot : ∀ x ∈ e.slots, v ≠ .var x) (hfree : v ∉ e.names) :
    NamesFrom e v r e where
  vars z hz := by
    refine .inl ⟨hz, ?_⟩
    rintro rfl
    exact (mem_names_or_slots hz).elim hfree fun h => hslot z h rfl
  slots z hz := .inl hz
  unknowns n hn _ := .inl ⟨hn, fun h => hfree (h ▸ hn)⟩

/-- A name other than the one that is replaced is left as it is, and nothing
comes in. -/
theorem of_ne (hm : IsName e) (h : e ≠ v) : NamesFrom e v r e := by
  refine .of_not_mem ?_ fun hv => ?_
  · rcases hm with ⟨x, rfl⟩ | ⟨f, rfl⟩ <;> nofun
  · rcases hm with ⟨x, rfl⟩ | ⟨f, rfl⟩ <;> exact h (List.mem_singleton.1 hv).symm

/-- The name itself gives way to the value, and everything comes from there. -/
theorem self (v r : Expr) : NamesFrom v v r r where
  vars _ hz := .inr (.inl hz)
  slots _ hz := .inr (.inl hz)
  unknowns _ hn _ := .inr hn

/-- What comes into a part comes into the whole. -/
theorem mono (h : NamesFrom p v r q) (hvars : ∀ z ∈ p.vars, z ∈ e.vars)
    (hslots : ∀ z ∈ p.slots, z ∈ e.slots)
    (hnames : ∀ n ∈ p.names, n.isMarked = true → n ∈ e.names) : NamesFrom e v r q where
  vars z hz := (h.vars z hz).imp (fun hz => ⟨hvars z hz.1, hz.2⟩)
    (Or.imp_right fun ⟨⟨x, hx⟩, hz⟩ => ⟨⟨x, hslots x hx⟩, hz⟩)
  slots z hz := (h.slots z hz).imp (hslots z)
    (Or.imp_right fun ⟨⟨x, hx⟩, hz⟩ => ⟨⟨x, hslots x hx⟩, hz⟩)
  unknowns n hn hm := (h.unknowns n hn hm).imp_left fun hn => ⟨hnames n hn.1 hm, hn.2⟩

/-- What an application consists of afterwards comes from its parts, part by
part. -/
theorem app (hq : NamesFrom p v r q) (hall : List.Forall₂ (NamesFrom · v r ·) as bs) :
    NamesFrom (.app p as) v r (.app q bs) := by
  have hhead := hq.mono (e := .app p as) (fun z hz => mem_vars_app.2 (.inl hz))
    (fun z hz => mem_slots_app.2 (.inl hz)) (fun n hn _ => mem_names_app.2 (.inl hn))
  have hargs {b : Expr} (hb : b ∈ bs) : NamesFrom (.app p as) v r b := by
    obtain ⟨a, ha, h⟩ := exists_of_forall₂ hall b hb
    exact h.mono (fun z hz => mem_vars_app.2 (.inr ⟨a, ha, hz⟩))
      (fun z hz => mem_slots_app.2 (.inr ⟨a, ha, hz⟩))
      (fun n hn _ => mem_names_app.2 (.inr ⟨a, ha, hn⟩))
  refine ⟨fun z hz => ?_, fun z hz => ?_, fun n hn => ?_⟩
  · exact (mem_vars_app.1 hz).elim (hhead.vars z) fun ⟨b, hb, hz⟩ => (hargs hb).vars z hz
  · exact (mem_slots_app.1 hz).elim (hhead.slots z) fun ⟨b, hb, hz⟩ => (hargs hb).slots z hz
  · exact (mem_names_app.1 hn).elim (hhead.unknowns n) fun ⟨b, hb, hn⟩ =>
      (hargs hb).unknowns n hn

end NamesFrom

/-- A name that does not occur has nothing taking its place. -/
theorem Substituted.of_not_mem (hv : Plain arity v) (he : Sorted R arity e)
    (hslot : ∀ x ∈ e.slots, v ≠ .var x) (hfree : v ∉ e.names) :
    Substituted R arity e v r e where
  sorted := he
  den ρ := den_congr he fun n hn => ⟨fun _ =>
    ((ρ.update_val hv.isName _ n).2 fun h => hfree (h ▸ hn)).symm, fun _ => rfl⟩
  names := .of_not_mem hslot hfree

/-- A name gives way to `r`. -/
theorem Substituted.self (hv : Plain arity v) (hr : Sorted R arity r) :
    Substituted R arity v v r r where
  sorted := hr
  den ρ := by
    have hval := (ρ.update_val hv.isName (Expr.den R ρ r) v).1 rfl
    rcases hv with ⟨hm, -⟩ | ⟨x, rfl, -⟩
    · cases v with
      | var x => exact hval.symm
      | sym f => exact hval.symm.trans (if_pos hm).symm
      | _ => cases hm
    · exact hval.symm
  names := .self v r

/-- The symbol of application is neither an unknown nor a variable. -/
theorem Plain.ne_applySym (hv : Plain arity v) : v ≠ .sym R.applySym := by
  rintro rfl
  rcases hv with ⟨hm, -⟩ | ⟨x, hx, -⟩
  · cases hm
  · cases hx

/-- A name that is not applied heads no application. -/
theorem Plain.ne_of_takes (hv : Plain arity v) {m : Expr} {k : Nat} (h : arity m = some k)
    (hm : m.isMarked = true) : v ≠ m := by
  rintro rfl
  rcases hv with ⟨-, hnone⟩ | ⟨x, rfl, hx⟩
  · cases hnone.symm.trans h
  · exact Bool.false_ne_true (hx.symm.trans hm)

/-- In place of an atom stands the value if it is the name, and the atom itself
if not. -/
theorem subst_atom (he : e.isCompound = false) :
    e.subst v r = .ok (if e == v then r else e) := by
  cases e with
  | app | bind => cases he
  | _ => rw [subst] <;> simp

/-- Another name is left as it is. -/
theorem subst_of_ne (he : IsName e) (h : e ≠ v) (hv : IsName v) : e.subst v r = .ok e := by
  have hif : (if (e == v) = true then r else e) = e := if_neg (mt (beq_name_iff hv).1 h)
  rcases he with ⟨x, rfl⟩ | ⟨f, rfl⟩
  · rw [subst_atom rfl, hif]
  · rw [subst_atom rfl, hif]

/-- A name is replaced itself. -/
theorem subst_self (hv : IsName v) : v.subst v r = .ok r := by
  have hif : (if (v == v) = true then r else v) = r := if_pos (same_refl v)
  rcases hv with ⟨x, rfl⟩ | ⟨f, rfl⟩
  · rw [subst_atom rfl, hif]
  · rw [subst_atom rfl, hif]

/-- The symbol of application is left as it is. -/
theorem subst_applySym (hv : v.isMarked = true) : (sym R.applySym).subst v r = .ok (sym R.applySym) :=
  subst_of_ne (.inr ⟨_, rfl⟩) (ne_applySym_of_isMarked hv).symm (isName_of_isMarked hv)

/-- Arguments that are left as they are, each by itself, are left as they are
together. -/
theorem substAll_of_forall {as : List Expr} (h : ∀ a ∈ as, subst a v r = .ok a) :
    substAll as v r = .ok as := by
  induction as with
  | nil => rw [substAll]
  | cons a as ih =>
    rw [substAll, h a List.mem_cons_self, ih fun a ha => h a (List.mem_cons_of_mem _ ha)]
    rfl

/-- **What does not occur is not replaced.** -/
theorem subst_of_not_mem (hv : IsName v) (hslot : ∀ x ∈ e.slots, v ≠ .var x)
    (hfree : v ∉ e.freeNames) : e.subst v r = .ok e := by
  have hne {a : Expr} (h : a ≠ v) : (if (a == v) = true then r else a) = a :=
    if_neg (mt (beq_name_iff hv).1 h)
  induction e with
  | var x => exact subst_of_ne (.inl ⟨x, rfl⟩) (fun h => hfree (List.mem_singleton.2 h.symm)) hv
  | sym f => exact subst_of_ne (.inr ⟨f, rfl⟩) (fun h => hfree (List.mem_singleton.2 h.symm)) hv
  | app f as ihf ihas =>
    have hf : f.subst v r = .ok f := ihf (fun x hx => hslot x (mem_slots_app.2 (.inl hx)))
      fun h => hfree (mem_freeNames_app.2 (.inl h))
    have has (a : Expr) (ha : a ∈ as) : a.subst v r = .ok a :=
      ihas a ha (fun x hx => hslot x (mem_slots_app.2 (.inr ⟨a, ha, hx⟩)))
        fun h => hfree (mem_freeNames_app.2 (.inr ⟨a, ha, h⟩))
    rw [subst, hf, substAll_of_forall has]
    rfl
  | bind f xs b ih =>
    have hxs (x : Var) (hx : x ∈ xs.toList) : v ≠ .var x := hslot x (mem_slots_bind.2 (.inl hx))
    have hb : v ∉ b.freeNames := by
      refine fun h => hfree (List.mem_cons_of_mem _ (List.mem_filter.2 ⟨h, ?_⟩))
      rw [Binders.binds, bound?_eq_none hxs]
      rfl
    have hclear : clearOf f v r xs b = .ok (xs, b) := by
      rw [clearOf, if_neg (mt (occursFree_iff hv).1 hb)]
    have hsub : b.subst v r = .ok b := ih (fun x hx => hslot x (mem_slots_bind.2 (.inr hx))) hb
    rw [subst_bind (bound?_eq_none hxs) hclear, hsub]
    rfl
  | _ =>
    rw [subst, hne]
    · rintro rfl
      rcases hv with ⟨x, h⟩ | ⟨f, h⟩ <;> cases h
    all_goals nofun

section Parts

variable {as bs : List Expr} {p q m : Expr}

/-- The new arguments mean what the old ones mean where the name means the
value. -/
theorem map_den_of_substituted (hall : List.Forall₂ (Substituted R arity · v r ·) as bs) :
    bs.map (den R ρ) = as.map (den R (ρ.update v (den R ρ r))) :=
  map_eq_of_forall₂ (hall.imp fun _ _ h => h.den ρ)

/-- The new arguments are sorted. -/
theorem sorted_of_substituted (hall : List.Forall₂ (Substituted R arity · v r ·) as bs) :
    ∀ b ∈ bs, Sorted R arity b := fun b hb =>
  have ⟨_, _, h⟩ := exists_of_forall₂ hall b hb
  h.sorted

/-- An application is substituted in part by part, if its head is none that
applies an unknown. -/
theorem Substituted.app (head : Sorted R arity p) (hq : Substituted R arity p v r q)
    (hall : List.Forall₂ (Substituted R arity · v r ·) as bs) :
    Substituted R arity (.app p as) v r (.app q bs) where
  sorted := .app hq.sorted (sorted_of_substituted hall)
  den ρ := by
    rw [den_app hq.sorted.ne_applySym, den_app head.ne_applySym, hq.den ρ]
    funext n
    have has := congrArg (List.map (· n)) (map_den_of_substituted (ρ := ρ) hall)
    rw [List.map_map, List.map_map] at has
    exact congrArg _ has
  names := hq.names.app (hall.imp fun _ _ h => h.names)

/-- Where an unknown is applied that is not replaced, the value is put into its
arguments. -/
theorem Substituted.apply (hv : Plain arity v) (unknown : m.isMarked = true) (nonempty : as ≠ [])
    (takes : arity m = some as.length)
    (hall : List.Forall₂ (Substituted R arity · v r ·) as bs) :
    Substituted R arity (.app (.sym R.applySym) (m :: as)) v r
      (.app (.sym R.applySym) (m :: bs)) where
  sorted := by
    exact .apply unknown (ne_nil_of_forall₂ hall nonempty) (takes.trans (congrArg some hall.length_eq))
      (sorted_of_substituted hall)
  den ρ := by
    rw [den_apply unknown nonempty, den_apply unknown (ne_nil_of_forall₂ hall nonempty),
      map_den_of_substituted hall]
    rfl
  names := .app (.of_ne (.inr ⟨_, rfl⟩) hv.ne_applySym.symm)
    (.cons (.of_ne (isName_of_isMarked unknown) (hv.ne_of_takes takes unknown).symm)
      (hall.imp fun _ _ h => h.names))

end Parts

/-- A name that does not occur may mean anything. -/
theorem den_update_of_not_mem (hv : IsName v) (he : Sorted R arity e) (hfree : v ∉ e.names)
    (d : Meaning) : den R (ρ.update v d) e = den R ρ e :=
  den_congr he fun n hn => ⟨fun _ => (ρ.update_val hv d n).2 fun h => hfree (h ▸ hn), fun _ => rfl⟩

/-- Variables that are not free in `e` may be entered. -/
theorem den_enter_of_not_mem (he : Sorted R arity e) {ys : List Var}
    (hfree : ∀ y ∈ ys, var y ∉ e.names) (ds : List Meaning) :
    den R (ρ.enter ys ds) e = den R ρ e := by
  refine den_congr he fun n hn => ⟨fun _ => Valuation.enter_val_of_not_mem ?_ ds, fun _ => ?_⟩
  · rintro y hy rfl
    exact hfree y hy hn
  · rw [Valuation.enter_fn]

/-- A binding that has made way is substituted in its new body.  What the body
means does not change by entering the slots first, because none of them is free
in the value where the name occurs. -/
theorem Substituted.bind {ys : Binders} {c d : Expr} (hv : Plain arity v) (hr : Sorted R arity r)
    (hplain : ∀ x ∈ xs.toList, x.marked = false) (hslot : ∀ x ∈ (Expr.bind f ys c).slots, v ≠ .var x)
    (hreb : Rebound R arity f xs b ys c)
    (hvars : ∀ z ∈ (Expr.bind f ys c).vars, z ∈ (Expr.bind f xs b).vars ∨ z.Numbered 'x')
    (hslots : ∀ z ∈ (Expr.bind f ys c).slots, z ∈ (Expr.bind f xs b).slots ∨ z.Numbered 'x')
    (hcapture : v ∈ c.names → ∀ y ∈ ys.toList, .var y ∉ r.names)
    (hd : Substituted R arity c v r d) :
    Substituted R arity (.bind f xs b) v r (.bind f ys d) := by
  obtain ⟨slots, distinct, body⟩ := sorted_bind.1 hreb.sorted
  have hnew {z : Var} (h : z.Numbered 'x') :
      (∃ x, x ∈ (Expr.bind f xs b).slots) ∧ z.Numbered 'x' :=
    ⟨⟨xs.first, mem_slots_bind.2 (.inl List.mem_cons_self)⟩, h⟩
  have hys : ∀ y ∈ ys.toList, v ≠ .var y := fun y hy => hslot y (mem_slots_bind.2 (.inl hy))
  refine ⟨.bind slots distinct hd.sorted, fun ρ => ?_, ⟨fun z hz => ?_, fun z hz => ?_, ?_⟩⟩
  · have hlevels (n : Nat) : xs.length = (Meaning.levels n xs.length).length :=
      (Meaning.length_levels ..).symm
    rw [Expr.den, Expr.den]
    funext n
    rw [hreb.length, hd.den, ← hreb.den _ _ (hlevels n), Valuation.update_enter hv.isName hys]
    by_cases hvc : v ∈ c.names
    · rw [den_enter_of_not_mem hr (hcapture hvc)]
    · rw [den_update_of_not_mem hv.isName body hvc, den_update_of_not_mem hv.isName body hvc]
  · rcases mem_vars_bind.1 hz with hz | hz
    · exact (hvars z (mem_vars_bind.2 (.inl hz))).elim (fun h => .inl ⟨h, hys z hz⟩)
        fun h => .inr (.inr (hnew h))
    · rcases hd.names.vars z hz with ⟨hz, hne⟩ | hz | ⟨-, hz⟩
      · exact (hvars z (mem_vars_bind.2 (.inr hz))).elim (fun h => .inl ⟨h, hne⟩)
          fun h => .inr (.inr (hnew h))
      · exact .inr (.inl hz)
      · exact .inr (.inr (hnew hz))
  · rcases mem_slots_bind.1 hz with hz | hz
    · exact (hslots z (mem_slots_bind.2 (.inl hz))).imp_right fun h => .inr (hnew h)
    · rcases hd.names.slots z hz with hz | hz | ⟨-, hz⟩
      · exact (hslots z (mem_slots_bind.2 (.inr hz))).imp_right fun h => .inr (hnew h)
      · exact .inr (.inl hz)
      · exact .inr (.inr (hnew hz))
  · intro n hn hm
    rw [mem_names_bind_iff slots hm] at hn
    have hb := mem_names_bind_iff (f := f) (b := b) hplain hm
    refine (hd.names.unknowns n hn hm).imp_left fun hn => ⟨hb.2 ?_, hn.2⟩
    exact (hreb.unknowns n hm).1 hn.1

/-- **Substitution is evaluation under a changed valuation.**  It is not
refused, it keeps the sorts, and the only variables it brings in are those of
`r` and fresh ones. -/
theorem subst_spec (hv : Plain arity v) (hr : Sorted R arity r) (he : Sorted R arity e)
    (hslot : ∀ x ∈ e.slots, v ≠ var x) : ∃ q, e.subst v r = .ok q ∧ Substituted R arity e v r q := by
  -- On the size: a binding makes way first, and then has another body than it was built from.
  induction hn : e.size using Nat.strongRecOn generalizing e with
  | ind n ih =>
    have hatom (hatom : e.isCompound = false) (hname : v ∈ e.names → e = v) :
        ∃ q, e.subst v r = .ok q ∧ Substituted R arity e v r q := by
      by_cases h : e = v
      · refine ⟨r, by rw [subst_atom hatom, if_pos ((beq_name_iff hv.isName).2 h)], ?_⟩
        rw [h]
        exact .self hv hr
      · refine ⟨e, by rw [subst_atom hatom, if_neg (mt (beq_name_iff hv.isName).1 h)], ?_⟩
        exact .of_not_mem hv he hslot (mt hname h)
    have hargs {as : List Expr} (hsize : ∀ a ∈ as, a.size < n) (hsorted : ∀ a ∈ as, Sorted R arity a)
        (hslots : ∀ a ∈ as, ∀ x ∈ a.slots, v ≠ var x) :
        ∃ bs, substAll as v r = .ok bs ∧ List.Forall₂ (Substituted R arity · v r ·) as bs :=
      substAll_ok fun a ha => ih a.size (hsize a ha) (hsorted a ha) (hslots a ha) rfl
    cases he with
    | var => exact hatom rfl fun h => (List.mem_singleton.1 h).symm
    | sym => exact hatom rfl fun h => (List.mem_singleton.1 h).symm
    | int | float | str => exact hatom rfl fun h => absurd h List.not_mem_nil
    | @app f as head args =>
      rw [size] at hn
      have hpos := sizeAll_pos as
      obtain ⟨g, hg, hfg⟩ := ih f.size (by omega) head
        (fun x hx => hslot x (mem_slots_app.2 (.inl hx))) rfl
      obtain ⟨bs, hbs, hall⟩ := hargs
        (fun a ha => by have := size_lt_of_mem ha; have := size_pos f; omega) args
        (fun a ha x hx => hslot x (mem_slots_app.2 (.inr ⟨a, ha, hx⟩)))
      exact ⟨app g bs, by rw [subst, hg, hbs]; rfl, .app head hfg hall⟩
    | @apply m as unknown nonempty takes args =>
      rw [size, sizeAll] at hn
      have hpos := size_pos m
      obtain ⟨bs, hbs, hall⟩ := hargs
        (fun a ha => by have := size_lt_of_mem ha; omega) args
        (fun a ha x hx => hslot x (mem_slots_app.2 (.inr ⟨a, List.mem_cons_of_mem _ ha, hx⟩)))
      refine ⟨app (sym R.applySym) (m :: bs), ?_, .apply hv unknown nonempty takes hall⟩
      rw [subst, subst_of_ne (.inr ⟨_, rfl⟩) hv.ne_applySym.symm hv.isName, substAll,
        subst_of_ne (isName_of_isMarked unknown) (hv.ne_of_takes takes unknown).symm hv.isName, hbs]
      rfl
    | @bind f xs b slots distinct body =>
      have hbound : xs.bound? v = none :=
        bound?_eq_none fun x hx => hslot x (mem_slots_bind.2 (.inl hx))
      have hbind : Sorted R arity (.bind f xs b) := .bind slots distinct body
      obtain ⟨ys, c, hc, hreb, hvars, hslots, hcapture, hstay⟩ := clearOf_spec (r := r) hv.isName hbind
      -- If `v` occurs in the body it is not among the new slots, and otherwise no slot is new.
      have hslot' : ∀ x ∈ (bind f ys c).slots, v ≠ var x := by
        rintro x hx rfl
        by_cases hvb : .var x ∈ b.names
        · have hxb : x ∈ (bind f xs b).vars :=
            mem_vars_bind.2 (.inr (mem_vars_of_mem_names hvb))
          exact (hreb.kept x hxb fun h => hslot x h rfl).2 hx
        · obtain ⟨rfl, rfl⟩ := hstay (mt var_mem_freeNames_iff.1 hvb)
          exact hslot x hx rfl
      have hcapture' : v ∈ c.names → ∀ y ∈ ys.toList, var y ∉ r.names := by
        by_cases hvb : v ∈ b.names
        · exact fun _ => hcapture hvb
        · refine fun hvc => absurd ?_ hvb
          rcases hv with ⟨hm, -⟩ | ⟨x, rfl, -⟩
          · exact (hreb.unknowns v hm).1 hvc
          · obtain ⟨rfl, rfl⟩ := hstay (mt var_mem_freeNames_iff.1 hvb)
            exact hvc
      obtain ⟨d, hd, hcd⟩ := ih c.size (by rw [hreb.size, ← hn, size]; omega)
        (by cases hreb.sorted; assumption) (fun x hx => hslot' x (mem_slots_bind.2 (.inr hx))) rfl
      exact ⟨bind f ys d, by rw [subst_bind hbound hc, hd]; rfl,
        .bind hv hr slots hslot' hreb hvars hslots hcapture' hcd⟩

end Expr
end SecondOrder
