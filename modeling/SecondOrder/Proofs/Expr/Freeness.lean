/-
# Freeness by recursion and by paths

The free variables of an expression are defined by recursion on it: a binding
takes its variables from those of its body (`Expr.freeVarSet`).  A walk decides
freeness at every position anew, from the bindings that it passes on the way
down from the root.

Both agree.  The walk lists the free variables, each once and in the order of
their first free occurrences (`Expr.Collected`), and finds a free copy of an
expression exactly where one stands that no binding captures (`Expr.CopyAt`).
The inductions are on the path, for the bindings above a position; on the
expression, for the nodes that no binding hides; and on the part of the walk
that lies behind, for the variables found.
-/

import Mathlib
import SecondOrder.Proofs.Expr.Occurrence

namespace SecondOrder

namespace Expr

variable {e f b n s part : Expr} {h : Sym} {xs : Binders} {as : List Expr} {p q : Path} {i : Nat} {x y : Var}

mutual

/-- The free variables, by recursion. -/
def freeVarSet : Expr → Finset Var
  | var x => {x}
  | app f as => freeVarSet f ∪ freeVarSetAll as
  | bind _ xs b => freeVarSet b \ xs.toList.toFinset
  | _ => ∅

def freeVarSetAll : List Expr → Finset Var
  | [] => ∅
  | a :: as => freeVarSet a ∪ freeVarSetAll as

end

/-- A variable is free in a list of arguments if it is free in one of them. -/
theorem mem_freeVarSetAll : x ∈ freeVarSetAll as ↔ ∃ a ∈ as, x ∈ a.freeVarSet := by
  induction as with
  | nil => simp [freeVarSetAll]
  | cons a as ih => simp [freeVarSetAll, ih]

/-- **The free variables stand free somewhere.** -/
theorem mem_freeVarSet : x ∈ e.freeVarSet ↔ ∃ q, e.FreeAt q (var x) := by
  rw [← mem_freeNames_iff (.inl ⟨x, rfl⟩)]
  induction e with
  | var y => simp [freeVarSet, freeNames]
  | app f as ihf ihas =>
    rw [freeVarSet, freeNames, freeNamesAll_eq_flatMap, Finset.mem_union, mem_freeVarSetAll, List.mem_append,
      List.mem_flatMap, ihf]
    exact or_congr_right (exists_congr fun a => and_congr_right fun ha => ihas a ha)
  | bind h xs b ih =>
    rw [freeVarSet, freeNames, Finset.mem_sdiff, List.mem_toFinset, ih, List.mem_cons, List.mem_filter,
      Bool.not_eq_true', ← Bool.not_eq_true, Binders.binds_var]
    simp
  | _ => simp [freeVarSet, freeNames]

/-! ## Bindings above a position -/

/-- The path ends in a slot of a binding. -/
def EndsInSlot (e : Expr) (q : Path) : Prop :=
  ∃ p i f xs b, q = p ++ [i] ∧ e.at? p = some (bind f xs b) ∧ 1 ≤ i ∧ i ≤ xs.length

/-- **The test for slots is right:** it holds of the paths that end in a slot
of a binding, and of no others. -/
theorem isBinderSlot_iff : e.isBinderSlot q = true ↔ e.EndsInSlot q := by
  rcases List.eq_nil_or_concat' q with rfl | ⟨p, i, rfl⟩
  · refine iff_of_false Bool.false_ne_true ?_
    rintro ⟨p, i, f, xs, b, hq, -⟩
    simp at hq
  · rw [isBinderSlot, List.getLast?_concat, List.dropLast_concat, Option.any_some]
    constructor
    · intro h
      cases hparent : e.at? p with
      | none =>
        rw [hparent] at h
        cases h
      | some parent =>
        rw [hparent, Option.any_some] at h
        cases parent with
        | bind f xs b =>
          rw [isSlotStep_bind, decide_eq_true_eq] at h
          exact ⟨p, i, f, xs, b, rfl, hparent, h⟩
        | _ => cases h
    · rintro ⟨p', i', f, xs, b, hq, hparent, hi⟩
      obtain ⟨rfl, hi'⟩ := List.append_inj' hq rfl
      obtain rfl := List.singleton_inj.1 hi'
      rw [hparent, Option.any_some, isSlotStep_bind]
      exact decide_eq_true hi

/-- A binding above the position lists `x`. -/
def BoundAbove (e : Expr) (q : Path) (x : Var) : Prop :=
  ∃ p f xs b, p <+: q ∧ p ≠ q ∧ e.at? p = some (bind f xs b) ∧ x ∈ xs.toList

/-- What a node binds by itself are the slots of a binding. -/
theorem mem_boundHere : x ∈ e.boundHere ↔ ∃ f xs b, e = bind f xs b ∧ x ∈ xs.toList := by
  cases e <;> simp [boundHere]

/-- A variable is bound above a position if the root binds it, or a binding
inside the part that leads there does. -/
theorem boundAbove_cons : e.BoundAbove (i :: q) x ↔
    x ∈ e.boundHere ∨ ∃ part, e.parts[i]? = some part ∧ part.BoundAbove q x := by
  rw [mem_boundHere]
  constructor
  · rintro ⟨p, f, xs, b, hprefix, hne, hp, hx⟩
    rcases List.prefix_cons_iff.1 hprefix with rfl | ⟨p, rfl, hpq⟩
    · exact .inl ⟨f, xs, b, Option.some.inj hp, hx⟩
    · obtain ⟨part, hpart, hp⟩ := at?_cons_eq_some.1 hp
      exact .inr ⟨part, hpart, p, f, xs, b, hpq, fun heq => hne (heq ▸ rfl), hp, hx⟩
  · rintro (⟨f, xs, b, rfl, hx⟩ | ⟨part, hpart, p, f, xs, b, hpq, hne, hp, hx⟩)
    · exact ⟨[], f, xs, b, List.nil_prefix, List.cons_ne_nil _ _ ∘ Eq.symm, rfl, hx⟩
    · exact ⟨i :: p, f, xs, b, List.prefix_cons_iff.2 (.inr ⟨p, rfl, hpq⟩),
        fun heq => hne (List.cons.inj heq).2, (at?_cons hpart p).trans hp, hx⟩

/-- **The variables collected along a path** are those that some binding above
the position lists. -/
theorem mem_bindersAlong : x ∈ e.bindersAlong q ↔ e.BoundAbove q x := by
  induction q generalizing e with
  | nil =>
    refine iff_of_false List.not_mem_nil ?_
    rintro ⟨p, f, xs, b, hp, hne, -⟩
    exact hne (List.prefix_nil.1 hp)
  | cons i q ih =>
    rw [boundAbove_cons]
    cases hpart : e.parts[i]? with
    | none => cases e <;> simp [bindersAlong, boundHere, hpart]
    | some part => simp [bindersAlong_cons hpart, ih]

/-- A copy of `s` stands at the position `q`, in no slot and under no binding
of a free variable of `s`. -/
structure CopyAt (e : Expr) (q : Path) (s : Expr) : Prop where
  copy : ∃ n, e.at? q = some n ∧ (n == s) = true
  outside : ¬e.EndsInSlot q
  uncaptured : ∀ x, e.BoundAbove q x → x ∉ s.freeVarSet

/-- A free copy in the sense of positions is one in the sense of the recursion:
it stands apart from the bindings of its free variables. -/
theorem copyAt_iff : e.CopyAt q s ↔ ∃ n, ApartAt (· ∈ s.freeVarSet) e q n ∧ (n == s) = true := by
  constructor
  · rintro ⟨⟨n, hn, hns⟩, houtside, huncaptured⟩
    refine ⟨n, ⟨hn, ?_, fun x hx => huncaptured x (mem_bindersAlong.1 hx)⟩, hns⟩
    exact Bool.eq_false_iff.2 (mt isBinderSlot_iff.1 houtside)
  · rintro ⟨n, happart, hns⟩
    refine ⟨⟨n, happart.node, hns⟩, fun hslot => ?_, fun x hx => happart.apart x (mem_bindersAlong.2 hx)⟩
    exact Bool.eq_false_iff.1 happart.outside (isBinderSlot_iff.2 hslot)

/-- A copy of a variable is the variable itself. -/
theorem copyAt_var : e.CopyAt q (var x) ↔ e.FreeAt q (var x) := by
  have hbound (y : Var) : y ∈ (var x).freeVarSet ↔ var y = var x := by simp [freeVarSet]
  rw [copyAt_iff, freeAt_iff, funext fun y => propext (hbound y)]
  constructor
  · rintro ⟨n, happart, hn⟩
    exact (beq_name_iff (.inl ⟨x, rfl⟩)).1 hn ▸ happart
  · exact fun happart => ⟨var x, happart, (beq_name_iff (.inl ⟨x, rfl⟩)).2 rfl⟩

/-! ## Copies on a walk and by recursion -/

/-- A walk passes every position. -/
theorem any_walk_iff {P : Path × Expr → Bool} :
    e.walk.any P = true ↔ ∃ q n, e.at? q = some n ∧ P (q, n) = true := by
  rw [List.any_eq_true]
  constructor
  · rintro ⟨⟨q, n⟩, hq, hP⟩
    exact ⟨q, n, mem_walk.1 hq, hP⟩
  · rintro ⟨q, n, hq, hP⟩
    exact ⟨(q, n), mem_walk.2 hq, hP⟩

/-- A copy of `s` stands in no slot and under no binding of a variable with the
property `P`. -/
def HasCopy (P : Var → Prop) (e s : Expr) : Prop := ∃ n, (∃ q, ApartAt P e q n) ∧ (n == s) = true

section HasCopy

variable {P : Var → Prop}

/-- An atom holds a copy only if it is one. -/
theorem hasCopy_of_parts (hparts : e.parts = []) : HasCopy P e s ↔ (e == s) = true := by
  simp only [HasCopy, exists_apartAt_of_parts hparts, exists_eq_left']

/-- An application holds a copy if it is one or if one of its parts holds
one. -/
theorem hasCopy_app : HasCopy P (app f as) s ↔
    (app f as == s) = true ∨ HasCopy P f s ∨ ∃ a ∈ as, HasCopy P a s := by
  have hargs : (∃ n, (∃ a ∈ as, ∃ q, ApartAt P a q n) ∧ (n == s) = true) ↔ ∃ a ∈ as, HasCopy P a s := by
    constructor
    · rintro ⟨n, ⟨a, ha, hq⟩, hns⟩
      exact ⟨a, ha, n, hq, hns⟩
    · rintro ⟨a, ha, n, hq, hns⟩
      exact ⟨n, ⟨a, ha, hq⟩, hns⟩
  rw [← hargs]
  simp only [HasCopy, exists_apartAt_app, or_and_right, exists_or, exists_eq_left']

/-- A binding holds a copy if it is one, or if its head is one or its body
holds one, and no slot binds a free variable of it.  Its slots do not count. -/
theorem hasCopy_bind : HasCopy P (bind h xs b) s ↔
    (bind h xs b == s) = true ∨ (∀ x ∈ xs.toList, ¬P x) ∧ ((sym h == s) = true ∨ HasCopy P b s) := by
  simp only [HasCopy, exists_apartAt_bind, or_and_right, exists_or, exists_eq_left', and_assoc, exists_and_left]

end HasCopy

/-- The recursion over arguments asks each of them. -/
theorem occursApartAny_eq_any (s : Expr) (free : List Var) (as : List Expr) :
    occursApartAny s free as = as.any (occursApart s free) := by
  induction as with
  | nil => rfl
  | cons a as ih => rw [occursApartAny, List.any_cons, ih]

/-- Recursion finds the copies under no binding of the given variables. -/
theorem occursApart_iff {free : List Var} : occursApart s free e = true ↔ HasCopy (· ∈ free) e s := by
  induction e with
  | app f as ihf ihas =>
    have hany : occursApartAny s free as = true ↔ ∃ a ∈ as, HasCopy (· ∈ free) a s := by
      rw [occursApartAny_eq_any, List.any_eq_true]
      exact exists_congr fun a => and_congr_right fun ha => ihas a ha
    rw [hasCopy_app, occursApart, Bool.or_eq_true, Bool.or_eq_true, hany, or_assoc]
    exact or_congr_right (or_congr_left ihf)
  | bind h xs b ih =>
    have hapart : (!xs.toList.any free.contains) = true ↔ ∀ x ∈ xs.toList, x ∉ free := by
      simp
    rw [hasCopy_bind, occursApart, Bool.or_eq_true, Bool.and_eq_true, Bool.or_eq_true, hapart]
    exact or_congr_right (and_congr_right fun _ => or_congr_right ih)
  | _ => rw [hasCopy_of_parts rfl, occursApart] <;> simp

/-- **A free copy that recursion finds stands somewhere,** and every one is
found. -/
theorem occursFree_iff_copyAt : occursFree s e = true ↔ ∃ q, e.CopyAt q s := by
  have hfree : (· ∈ s.freeVars) = (· ∈ s.freeVarSet) := funext fun x => propext <| by
    rw [mem_freeVars, mem_freeVarSet, mem_freeNames_iff (.inl ⟨x, rfl⟩)]
  simp only [occursFree, occursApart_iff, hfree, HasCopy, copyAt_iff]
  rw [exists_comm]
  simp only [exists_and_right]

/-! ## Variables on a walk -/

/-- The variable at a place of the walk if it is free there. -/
def freeVar? (e : Expr) (q : Path × Expr) : Option Var := if e.isFreeAt q.1 then q.2.var? else none

/-- On the walk, a variable is noted where it stands free. -/
theorem freeVar?_eq_some (hwalk : (q, n) ∈ e.walk) :
    e.freeVar? (q, n) = some x ↔ n = var x ∧ e.FreeAt q (var x) := by
  have hnode := mem_walk.1 hwalk
  rw [freeVar?, Option.ite_none_right_eq_some]
  constructor
  · rintro ⟨hfree, hvar⟩
    cases n <;> cases hvar
    exact ⟨rfl, (isFreeAt_iff (.inl ⟨x, rfl⟩) hnode).1 hfree⟩
  · rintro ⟨rfl, hfree⟩
    exact ⟨(isFreeAt_iff (.inl ⟨x, rfl⟩) hnode).2 hfree, rfl⟩

/-- A place where no variable is free adds nothing. -/
theorem noteFree_of_none {found : List Var} {r : Path × Expr} (hr : e.freeVar? r = none) :
    e.noteFree found r = found := by
  obtain ⟨q, n⟩ := r
  cases n with
  | var x =>
    have hfree : e.isFreeAt q = false := by simpa [freeVar?, var?] using hr
    simp [noteFree, hfree]
  | _ => rfl

/-- A place where a variable is free adds it behind those found so far, unless
it is one of them. -/
theorem noteFree_of_some {found : List Var} {r : Path × Expr} (hr : e.freeVar? r = some x) :
    e.noteFree found r = if x ∈ found then found else found ++ [x] := by
  obtain ⟨q, n⟩ := r
  rw [freeVar?, Option.ite_none_right_eq_some] at hr
  obtain ⟨hfree, hvar⟩ := hr
  cases n <;> cases hvar
  by_cases hx : x ∈ found <;> simp [noteFree, hfree, hx]

/-- `found` are the free variables of the places seen, each once and in the
order of their first occurrences. -/
structure Collected (e : Expr) (seen : List (Path × Expr)) (found : List Var) : Prop where
  erased : found = (seen.filterMap e.freeVar?).eraseDups
  order : found.Pairwise fun x y => ∃ r ∈ seen, e.freeVar? r = some x ∧
    ∀ r' ∈ seen, e.freeVar? r' = some y → r.1 < r'.1

section Collected

variable {seen ps : List (Path × Expr)} {found : List Var} {r : Path × Expr}

/-- What has been found is free at a place that has been seen, and everything
that is has been found. -/
theorem Collected.mem (h : Collected e seen found) : x ∈ found ↔ ∃ r ∈ seen, e.freeVar? r = some x := by
  rw [h.erased, List.mem_eraseDups, List.mem_filterMap]

/-- **A place to the right of those seen** adds its variable at the end, if at
all. -/
theorem Collected.step (h : Collected e seen found) (hlast : ∀ r' ∈ seen, r'.1 < r.1) :
    Collected e (seen ++ [r]) (e.noteFree found r) := by
  have horder : found.Pairwise fun x y => ∃ r' ∈ seen ++ [r], e.freeVar? r' = some x ∧
      ∀ r'' ∈ seen ++ [r], e.freeVar? r'' = some y → r'.1 < r''.1 := by
    refine h.order.imp ?_
    rintro x y ⟨r', hr', hx, hbefore⟩
    refine ⟨r', List.mem_append_left _ hr', hx, fun r'' hr'' hy => ?_⟩
    rcases List.mem_append.1 hr'' with hr'' | hr''
    · exact hbefore r'' hr'' hy
    · obtain rfl := List.mem_singleton.1 hr''
      exact hlast r' hr'
  cases hr : e.freeVar? r with
  | none =>
    rw [noteFree_of_none hr]
    refine ⟨?_, horder⟩
    rw [List.filterMap_append, List.filterMap_cons_none hr, List.filterMap_nil, List.append_nil]
    exact h.erased
  | some x =>
    have herased : ((seen ++ [r]).filterMap e.freeVar?).eraseDups =
        found ++ ([x].removeAll (seen.filterMap e.freeVar?)).eraseDups := by
      rw [List.filterMap_append, List.filterMap_cons_some hr, List.filterMap_nil,
        List.eraseDups_append, ← h.erased]
    have hseen : x ∈ seen.filterMap e.freeVar? ↔ x ∈ found := by rw [h.erased, List.mem_eraseDups]
    rw [noteFree_of_some hr]
    by_cases hx : x ∈ found
    · rw [if_pos hx]
      refine ⟨?_, horder⟩
      rw [herased]
      simp [List.removeAll, hseen.2 hx]
    · rw [if_neg hx]
      refine ⟨?_, List.pairwise_append.2 ⟨horder, List.pairwise_singleton .., fun y hy x' hx' => ?_⟩⟩
      · rw [herased]
        simp [List.removeAll, mt hseen.1 hx, List.eraseDups_cons]
      · obtain rfl := List.mem_singleton.1 hx'
        obtain ⟨r', hr', hy⟩ := h.mem.1 hy
        refine ⟨r', List.mem_append_left _ hr', hy, fun r'' hr'' hx'' => ?_⟩
        rcases List.mem_append.1 hr'' with hr'' | hr''
        · exact absurd (h.mem.2 ⟨r'', hr'', hx''⟩) hx
        · obtain rfl := List.mem_singleton.1 hr''
          exact hlast r' hr'

/-- **A walk to the right goes on collecting.** The induction is on the places
still to come; the order of the positions tells that what is found later occurs
first further right. -/
theorem Collected.run (h : Collected e seen found) (hsorted : ((seen ++ ps).map Prod.fst).Pairwise (· < ·)) :
    Collected e (seen ++ ps) (ps.foldl e.noteFree found) := by
  induction ps generalizing seen found with
  | nil => simpa using h
  | cons r ps ih =>
    rw [List.append_cons] at hsorted ⊢
    refine ih (h.step fun r' hr' => ?_) hsorted
    rw [List.map_append, List.map_append] at hsorted
    have hfirst := (List.pairwise_append.1 (List.pairwise_append.1 hsorted).1).2.2
    exact hfirst _ (List.mem_map_of_mem hr') _ List.mem_cons_self

/-- **A walk collects the free variables.** -/
theorem collected_walk (e : Expr) : Collected e e.walk e.freeVarsOnWalk := by
  have hstart : Collected e [] [] := ⟨rfl, .nil⟩
  exact hstart.run (pairwise_walk e)

end Collected

/-- **The walk finds the free variables,** all of them and nothing else. -/
theorem mem_freeVarsOnWalk : x ∈ e.freeVarsOnWalk ↔ x ∈ e.freeVarSet := by
  rw [(collected_walk e).mem, mem_freeVarSet]
  constructor
  · rintro ⟨⟨q, n⟩, hq, hx⟩
    exact ⟨q, ((freeVar?_eq_some hq).1 hx).2⟩
  · rintro ⟨q, hfree⟩
    have hq := mem_walk.2 hfree.node
    exact ⟨_, hq, (freeVar?_eq_some hq).2 ⟨rfl, hfree⟩⟩

/-- The first free occurrence of `x` is to the left of all those of `y`. -/
def FreeBefore (e : Expr) (x y : Var) : Prop :=
  ∃ p, e.CopyAt p (var x) ∧ ∀ q, e.CopyAt q (var y) → p < q

/-- The walk lists the free variables in the order of their first free
occurrences. -/
theorem pairwise_freeVarsOnWalk (e : Expr) : e.freeVarsOnWalk.Pairwise e.FreeBefore := by
  refine (collected_walk e).order.imp ?_
  rintro x y ⟨⟨p, n⟩, hp, hx, hbefore⟩
  refine ⟨p, copyAt_var.2 ((freeVar?_eq_some hp).1 hx).2, fun q hq => ?_⟩
  have hfree := copyAt_var.1 hq
  have hq := mem_walk.2 hfree.node
  exact hbefore _ hq ((freeVar?_eq_some hq).2 ⟨rfl, hfree⟩)

/-- **A free copy that a walk finds stands somewhere,** and every one is
found. -/
theorem occursOnWalk_iff : occursOnWalk s e = true ↔ ∃ q, e.CopyAt q s := by
  simp only [copyAt_iff]
  rw [occursOnWalk, any_walk_iff]
  refine exists_congr fun q => exists_congr fun n => ?_
  have hapart : (!s.freeVarsOnWalk.any (e.bindersAlong q).contains) = true ↔
      ∀ x ∈ e.bindersAlong q, x ∉ s.freeVarSet := by
    simp only [Bool.not_eq_true', List.any_eq_false, List.contains_iff_mem, mem_freeVarsOnWalk]
    exact ⟨fun h x hx hfree => h x hfree hx, fun h x hfree hx => h x hx hfree⟩
  rw [Bool.and_eq_true, Bool.and_eq_true, hapart, Bool.not_eq_true']
  constructor
  · rintro ⟨hnode, ⟨hns, houtside⟩, hx⟩
    exact ⟨⟨hnode, houtside, hx⟩, hns⟩
  · rintro ⟨⟨hnode, houtside, hx⟩, hns⟩
    exact ⟨hnode, ⟨hns, houtside⟩, hx⟩

/-! ## The walk lists what recursion lists -/

/-- Inside a part that is no slot the walk finds what it finds in the part
alone, without what the node above binds. -/
theorem filterMap_under (hpart : e.parts[i]? = some part) (hstep : e.isSlotStep i = false) :
    (under i part.walk).filterMap e.freeVar? =
      (part.walk.filterMap part.freeVar?).filter fun x => decide (x ∉ e.boundHere) := by
  rw [under, List.filterMap_map, List.filter_filterMap]
  refine List.filterMap_congr ?_
  rintro ⟨q, n⟩ hq
  have hwalk : (i :: q, n) ∈ e.walk := mem_walk.2 ((at?_cons hpart q).trans (mem_walk.1 hq))
  refine Option.ext fun x => ?_
  have hfree : e.FreeAt (i :: q) (var x) ↔ part.FreeAt q (var x) ∧ x ∉ e.boundHere := by
    rw [freeAt_iff, freeAt_iff, apartAt_cons]
    constructor
    · rintro ⟨a, ha, hapart, -, hbound⟩
      obtain rfl := Option.some.inj (hpart.symm.trans ha)
      exact ⟨hapart, fun hx => hbound x hx rfl⟩
    · rintro ⟨hapart, hbound⟩
      exact ⟨part, hpart, hapart, fun _ => hstep, fun y hy hyx => hbound (Expr.var.inj hyx ▸ hy)⟩
  rw [Function.comp_apply, freeVar?_eq_some hwalk, hfree, Option.filter_eq_some_iff, freeVar?_eq_some hq,
    decide_eq_true_eq, and_assoc]

/-- The same for neighbouring parts. -/
theorem filterMap_walkAll (hparts : ∀ j a, as[j]? = some a → e.parts[i + j]? = some a)
    (hstep : ∀ j, e.isSlotStep j = false) :
    (walkAll i as).filterMap e.freeVar? =
      as.flatMap fun a => (a.walk.filterMap a.freeVar?).filter fun x => decide (x ∉ e.boundHere) := by
  induction as generalizing i with
  | nil => rfl
  | cons a as ih =>
    have hfirst : e.parts[i]? = some a := hparts 0 a rfl
    rw [walkAll, List.filterMap_append, filterMap_under hfirst (hstep _), List.flatMap_cons, ih fun j b hb => ?_]
    rw [Nat.add_assoc, Nat.add_comm 1]
    exact hparts (j + 1) b hb

/-- No variable in a slot is free, -/
theorem filterMap_slots (h : Sym) (xs : Binders) (b : Expr) :
    (walkAll 1 (xs.toList.map var)).filterMap (bind h xs b).freeVar? = [] := by
  refine List.filterMap_eq_nil_iff.2 ?_
  rintro ⟨p, n⟩ hp
  obtain ⟨j, q, a, rfl, ha, hq⟩ := mem_walkAll.1 hp
  obtain ⟨hj, rfl⟩ := List.getElem?_eq_some_iff.1 ha
  rw [List.getElem_map] at hq
  obtain ⟨rfl, rfl⟩ := Prod.mk.inj (List.mem_singleton.1 hq)
  have hslot : (bind h xs b).isBinderSlot [1 + j] = true := by
    rw [isBinderSlot_singleton, isSlotStep_bind, decide_eq_true_eq]
    simp at hj
    omega
  simp [freeVar?, isFreeAt, hslot]

/-- and in the body those are that the slots do not hold. -/
theorem filterMap_body (h : Sym) (xs : Binders) (b : Expr) :
    (under (1 + (xs.toList.map var).length) b.walk).filterMap (bind h xs b).freeVar? =
      (b.walk.filterMap b.freeVar?).filter fun x => decide (x ∉ xs.toList) := by
  have hlength : 1 + (xs.toList.map var).length = xs.length + 1 := by
    rw [List.length_map, Binders.length_toList, Nat.add_comm]
  rw [hlength]
  refine filterMap_under (getElem?_parts_body h xs b) ?_
  rw [isSlotStep_bind, decide_eq_false_iff_not]
  omega

/-- The variables among the names that a binding lets through are those that no
slot holds. -/
theorem filterMap_filter_binds (xs : Binders) (ns : List Expr) :
    (ns.filter fun e => !xs.binds e).filterMap var? =
      (ns.filterMap var?).filter fun x => decide (x ∉ xs.toList) := by
  rw [List.filterMap_filter, List.filter_filterMap]
  refine List.filterMap_congr fun n _ => ?_
  cases n with
  | var x =>
    have hbinds : xs.binds (var x) = decide (x ∈ xs.toList) := by
      rw [Bool.eq_iff_iff, Binders.binds_var, decide_eq_true_eq]
    by_cases hx : x ∈ xs.toList <;> simp [var?, hbinds, hx, Option.filter]
  | _ => simp [var?]

/-- **From left to right the walk finds the free variables that recursion
lists.** -/
theorem filterMap_walk (e : Expr) : e.walk.filterMap e.freeVar? = e.freeNames.filterMap var? := by
  induction e with
  | app f as ihf ihas =>
    have hall : ∀ a ∈ f :: as, a.walk.filterMap a.freeVar? = a.freeNames.filterMap var? :=
      List.forall_mem_cons.2 ⟨ihf, ihas⟩
    have hparts (j : Nat) (a : Expr) (ha : (f :: as)[j]? = some a) : (app f as).parts[0 + j]? = some a := by
      rwa [Nat.zero_add]
    have hchildren : (walkAll 0 (f :: as)).filterMap (app f as).freeVar? = (f :: as).flatMap fun a =>
        (a.walk.filterMap a.freeVar?).filter fun x => decide (x ∉ (app f as).boundHere) :=
      filterMap_walkAll hparts fun _ => rfl
    have hnames : (app f as).freeNames = (f :: as).flatMap freeNames := by
      rw [freeNames, freeNamesAll_eq_flatMap, List.flatMap_cons]
    rw [walk_eq, List.filterMap_cons_none (by simp [freeVar?, var?]), hnames, List.filterMap_flatMap]
    refine hchildren.trans (List.flatMap_congr fun a ha => ?_)
    simp [boundHere, hall a ha]
  | bind h xs b ih =>
    have hparts : (bind h xs b).parts = sym h :: (xs.toList.map var ++ [b]) := rfl
    rw [walk_eq, hparts, walkAll, walkAll_append, walkAll, walkAll, List.append_nil, freeNames,
      List.filterMap_cons_none (by simp [freeVar?, var?]), List.filterMap_append, List.filterMap_append,
      filterMap_slots, filterMap_body, ih, List.filterMap_cons_none rfl, filterMap_filter_binds]
    simp [walk, under, freeVar?, var?]
  | _ => rfl

/-- **Freeness by paths is freeness by recursion.**  A walk through an
expression lists the variables in the recursively defined set of its free
variables, each once and in the order of their first free occurrences; it finds
a variable to occur free exactly if that is in the set; and it finds a free
copy of another expression exactly if one stands outside the slots and under no
binding that lists a free variable of it.  The list and the answers are those
that recursion on the expression gives. -/
theorem free_on_walk (e s : Expr) :
    e.freeVarsOnWalk.Nodup ∧ e.freeVarsOnWalk.Pairwise e.FreeBefore ∧
    (∀ x, x ∈ e.freeVarsOnWalk ↔ x ∈ e.freeVarSet) ∧
    (∀ x, occursOnWalk (var x) e = true ↔ x ∈ e.freeVarSet) ∧
    (occursOnWalk s e = true ↔ ∃ q, e.CopyAt q s) ∧
    e.freeVarsOnWalk = e.freeVars ∧ occursOnWalk s e = occursFree s e := by
  have hnodup : e.freeVarsOnWalk.Nodup := by
    refine (pairwise_freeVarsOnWalk e).imp ?_
    rintro x _ ⟨p, hp, hbefore⟩ rfl
    exact lt_irrefl p (hbefore p hp)
  refine ⟨hnodup, pairwise_freeVarsOnWalk e, fun x => mem_freeVarsOnWalk, fun x => ?_, occursOnWalk_iff, ?_, ?_⟩
  · rw [occursOnWalk_iff, mem_freeVarSet]
    exact exists_congr fun q => copyAt_var
  · rw [(collected_walk e).erased, filterMap_walk, freeVars]
  · rw [Bool.eq_iff_iff, occursOnWalk_iff, occursFree_iff_copyAt]

end Expr
end SecondOrder
