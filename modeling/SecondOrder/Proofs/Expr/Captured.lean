/-
# What a substitution captures

A substitution of a variable for a variable goes on below bindings that bind
the one or the other, and may capture there what it puts in, or what was in the
body before.  What goes wrong goes wrong in one direction: an occurrence that
is captured refers to a slot further in than it should, or to a slot where it
should be free.  `Nameless.Captured` orders forms in this way.

So nothing that is captured can be released by a substitution that comes later.
The order is antisymmetric (`Nameless.Captured.antisymm`), it is kept when
names are replaced on both sides (`Nameless.Captured.replace`), and it is
strict there as long as it is strict anywhere
(`Nameless.Captured.eq_of_replace_eq`).  Every substitution moves down in it
(`Expr.captured_subst`), and stays where it is exactly if no binding clashes
(`Expr.nameless_subst_eq_iff`).
-/

import Mathlib
import SecondOrder.Proofs.Expr.Conversion

namespace SecondOrder

namespace Nameless

variable {pairs : List (Expr × Nameless)} {s t u : Nameless} {ts us : List Nameless}
  {i k n : Nat} {x y : Var} {f : Sym}

/-- The form `u` is the form `t`, but that some parts of it have been captured:
in their places stand slots further in than the slots they may have been. -/
inductive Captured : Nameless → Nameless → Prop
  | slot {t : Nameless} {k : Nat} (inner : ∀ i, t = .bound i → k ≤ i) : Captured t (.bound k)
  | var (x : Var) : Captured (.var x) (.var x)
  | sym (f : Sym) : Captured (.sym f) (.sym f)
  | int (n : Int) : Captured (.int n) (.int n)
  | float (key : String) : Captured (.float key) (.float key)
  | str (s : String) : Captured (.str s) (.str s)
  | app {t u : Nameless} {ts us : List Nameless} (head : Captured t u) (length : ts.length = us.length)
      (args : ∀ p ∈ ts.zip us, Captured p.1 p.2) : Captured (.app t ts) (.app u us)
  | bind {f : Sym} {n : Nat} {t u : Nameless} (body : Captured t u) : Captured (.bind f n t) (.bind f n u)

/-- An application from its parts, with its arguments member by member. -/
theorem Captured.of_forall₂ (head : Captured t u) (args : List.Forall₂ Captured ts us) :
    Captured (.app t ts) (.app u us) := by
  obtain ⟨length, args⟩ := List.forall₂_iff_zip.1 args
  exact .app head length fun _ hp => args hp

/-- An application that stays one has parts that are captured in turn. -/
theorem Captured.of_app (h : Captured (.app t ts) (.app u us)) : Captured t u ∧ List.Forall₂ Captured ts us := by
  cases h with
  | app head length args => exact ⟨head, List.forall₂_iff_zip.2 ⟨length, fun hp => args _ hp⟩⟩

/-- What has become a variable has been that variable. -/
theorem Captured.eq_var (h : Captured t (.var x)) : t = .var x := by
  cases h
  rfl

/-- A slot can only be captured further in. -/
theorem Captured.exists_bound (h : Captured (.bound i) u) : ∃ k, u = .bound k ∧ k ≤ i := by
  cases h with
  | slot inner => exact ⟨_, rfl, inner i rfl⟩

/-- Nothing needs to have been captured. -/
theorem Captured.refl (t : Nameless) : Captured t t := by
  induction t with
  | bound i => exact .slot fun j h => by cases h; exact le_rfl
  | var x => exact .var x
  | sym f => exact .sym f
  | int n => exact .int n
  | float key => exact .float key
  | str s => exact .str s
  | app t ts iht ihts => exact .of_forall₂ iht (List.forall₂_same.2 ihts)
  | bind f n t ih => exact .bind ih

/-- What is captured twice is captured. -/
theorem Captured.trans (h : Captured s t) (h' : Captured t u) : Captured s u := by
  induction h generalizing u with
  | @slot s k inner =>
    obtain ⟨j, rfl, hj⟩ := h'.exists_bound
    exact .slot fun i hi => hj.trans (inner i hi)
  | @app s t ss ts _ length _ ih ihs =>
    have hargs : List.Forall₂ (fun s t => ∀ u, Captured t u → Captured s u) ss ts :=
      List.forall₂_iff_zip.2 ⟨length, fun hp _ => ihs _ hp⟩
    cases h' with
    | slot => exact .slot fun i hi => by cases hi
    | app head length' args =>
      exact .of_forall₂ (ih head)
        (forall₂_trans (fun _ _ _ hst => hst _) hargs (List.forall₂_iff_zip.2 ⟨length', fun hp => args _ hp⟩))
  | bind _ ih =>
    cases h' with
    | slot => exact .slot fun i hi => by cases hi
    | bind body => exact .bind (ih body)
  | _ => exact h'

/-- **What is captured stays captured:** forms of which each is the other but
for captures are the same. -/
theorem Captured.antisymm (h : Captured t u) (h' : Captured u t) : t = u := by
  induction h with
  | slot inner =>
    obtain ⟨i, rfl, hi⟩ := h'.exists_bound
    rw [hi.antisymm (inner i rfl)]
  | @app t u ts us _ length _ ih ihs =>
    obtain ⟨head, args⟩ := h'.of_app
    have hargs : List.Forall₂ (fun t u => Captured u t → t = u) ts us :=
      List.forall₂_iff_zip.2 ⟨length, fun hp => ihs _ hp⟩
    have hback : List.Forall₂ (fun t u => Captured u t) ts us := .flip (R := fun t u => Captured u t) args
    have hts : ts = us := by
      rw [← List.forall₂_eq_eq_eq]
      exact hargs.mp (fun _ _ heq hcaptured => heq hcaptured) hback
    rw [ih head, hts]
  | bind _ ih =>
    cases h' with
    | bind body => rw [ih body]
  | _ => rfl

/-- The place of a slot is one after names have been replaced only if it has
been one before. -/
theorem eq_bound_of_replace (hpairs : Unplaced pairs) (h : t.replace pairs = .bound k) : t = .bound k := by
  cases t with
  | var x => exact absurd h (replace_var_ne_bound hpairs)
  | sym f => exact absurd ((replace_sym hpairs).symm.trans h) fun h => by cases h
  | app | bind => cases h
  | _ => exact h

/-- Where names are replaced on both sides, what has been captured before is
captured. -/
theorem Captured.replace (hpairs : Unplaced pairs) (h : Captured t u) :
    Captured (t.replace pairs) (u.replace pairs) := by
  induction h with
  | slot inner => exact .slot fun i hi => inner i (eq_bound_of_replace hpairs hi)
  | app _ length _ ih ihs =>
    rw [Nameless.replace, Nameless.replace, replaceAll_eq_map, replaceAll_eq_map]
    refine .of_forall₂ ih (List.forall₂_map_left_iff.2 (List.forall₂_map_right_iff.2 ?_))
    exact List.forall₂_iff_zip.2 ⟨length, fun hp => ihs _ hp⟩
  | bind _ ih => exact .bind ih
  | _ => exact .refl _

/-- **A capture cannot be undone:** where names are replaced on both sides, and
the results are the same, nothing has been captured before. -/
theorem Captured.eq_of_replace_eq (hpairs : Unplaced pairs) (h : Captured t u)
    (heq : t.replace pairs = u.replace pairs) : t = u := by
  induction h with
  | slot => exact eq_bound_of_replace hpairs heq
  | @app t u ts us _ length _ ih ihs =>
    rw [Nameless.replace, Nameless.replace, replaceAll_eq_map, replaceAll_eq_map, app.injEq] at heq
    have hargs : List.Forall₂ (fun t u => t.replace pairs = u.replace pairs → t = u) ts us :=
      List.forall₂_iff_zip.2 ⟨length, fun hp => ihs _ hp⟩
    have hts : ts = us := by
      rw [← List.forall₂_eq_eq_eq]
      exact (forall₂_and_of_map_eq hargs heq.2.symm).imp fun _ _ h => h.1 h.2.symm
    rw [ih heq.1, hts]
  | bind _ ih =>
    rw [Nameless.replace, Nameless.replace, bind.injEq] at heq
    rw [ih heq.2.2]
  | _ => rfl

end Nameless

namespace Expr

variable {S T I : List Var} {u v w r x y z : Var} {a c e q : Expr}
  {xs ys : Binders} {pairs : List (Expr × Nameless)}

/-! ## Places -/

/-- One more slot on both sides: where it binds the variable on the right, it
has to bind the one on the left, and else the captures lie further out. -/
theorem captured_place_cons (hpairs : Nameless.Unplaced pairs) (hself : z = v → y = u)
    (h : y ≠ u → Nameless.Captured ((place S z).replace pairs) (place T y)) :
    Nameless.Captured ((place (v :: S) z).replace pairs) (place (u :: T) y) := by
  by_cases hy : y = u
  · rw [hy, place_of_mem List.mem_cons_self, List.idxOf_cons_self]
    exact .slot fun i _ => Nat.zero_le i
  · have hz : z ≠ v := fun hz => hy (hself hz)
    have h := h hy
    by_cases hyT : y ∈ T
    · rw [place_of_mem hyT] at h
      rw [place_of_mem (List.mem_cons_of_mem _ hyT), List.idxOf_cons_ne _ (Ne.symm hy)]
      refine .slot fun i hi => ?_
      have hi := Nameless.eq_bound_of_replace hpairs hi
      by_cases hzS : z ∈ S
      · rw [place_of_mem hzS] at h
        rw [place_of_mem (List.mem_cons_of_mem _ hzS), List.idxOf_cons_ne _ (Ne.symm hz)] at hi
        cases hi
        obtain ⟨k, hk, hle⟩ := h.exists_bound
        cases hk
        exact Nat.succ_le_succ hle
      · rw [place_of_not_mem (by simp [hz, hzS])] at hi
        cases hi
    · have hyT' : y ∉ u :: T := by simp [hy, hyT]
      rw [place_of_not_mem hyT] at h
      rw [place_of_not_mem hyT']
      have heq := h.eq_var
      by_cases hzS : z ∈ S
      · rw [place_of_mem hzS] at heq
        cases heq
      · rw [place_of_not_mem hzS] at heq
        rw [place_of_not_mem (by simp [hz, hzS]), heq]
        exact .refl _

/-- Where the slots of `w` become slots of `r`, along with the variable,
occurrences are captured at most. -/
theorem captured_place_map_renamed (hpairs : Nameless.Unplaced pairs)
    (h : z ∉ I → Nameless.Captured ((place S z).replace pairs) (place T (Var.renamed w r z))) :
    Nameless.Captured ((place (I ++ S) z).replace pairs)
      (place (I.map (Var.renamed w r) ++ T) (Var.renamed w r z)) := by
  induction I with
  | nil => exact h List.not_mem_nil
  | cons u I ih =>
    refine captured_place_cons hpairs (congrArg _) fun hne => ih fun hz => h ?_
    rintro (_ | ⟨_, hmem⟩)
    · exact hne rfl
    · exact hz hmem

/-- The same slots on both sides, none of which holds `w`. -/
theorem captured_place_append (hpairs : Nameless.Unplaced pairs) (hw : w ∉ I)
    (h : z ∉ I → Nameless.Captured ((place S z).replace pairs) (place T (Var.renamed w r z))) :
    Nameless.Captured ((place (I ++ S) z).replace pairs) (place (I ++ T) (Var.renamed w r z)) := by
  have hmap : I.map (Var.renamed w r) = I :=
    (List.map_congr_left fun u hu => Var.renamed_of_ne (ne_of_mem_of_not_mem hu hw)).trans (List.map_id _)
  have hplace := captured_place_map_renamed (w := w) (r := r) (I := I) (T := T) hpairs h
  rwa [hmap] at hplace

/-! ## Substitution -/

/-- Where a variable takes the place of a variable, occurrences are captured at
most. -/
theorem captured_subst_var (hpairs : Nameless.Unplaced pairs) (h : e.subst (var w) (var r) = .ok q)
    (hplace : ∀ z, var z ∈ e.names →
      Nameless.Captured ((place S z).replace pairs) (place T (Var.renamed w r z))) :
    Nameless.Captured ((e.namelessIn S).replace pairs) (q.namelessIn T) := by
  induction e using sizedInduct generalizing S T q with
  | atom e he =>
    cases e with
    | var z =>
      rw [subst_var] at h
      cases h
      exact hplace z (List.mem_singleton.2 rfl)
    | sym f =>
      rw [subst_atom rfl] at h
      cases h
      rw [namelessIn, Nameless.replace_sym hpairs]
      exact .refl _
    | app | bind => cases he
    | _ =>
      rw [subst_atom rfl] at h
      cases h
      exact .refl _
  | app g as ihg ihas =>
    obtain ⟨g', as', hg, has, rfl⟩ := of_subst_app h
    rw [namelessIn, namelessIn, namelessAllIn_eq_map, namelessAllIn_eq_map, Nameless.replace,
      Nameless.replaceAll_eq_map, List.map_map]
    refine .of_forall₂ (ihg hg fun z hz => hplace z (mem_names_app.2 (.inl hz)))
      (List.forall₂_map_left_iff.2 (List.forall₂_map_right_iff.2 ?_))
    exact forall₂_imp_of_mem has fun a ha a' _ haa' =>
      ihas a ha haa' fun z hz => hplace z (mem_names_app.2 (.inr ⟨a, ha, hz⟩))
  | bind f xs b ih =>
    rcases of_subst_bind h with ⟨x, y, c, hx, hxs, hy, hc, rfl⟩ | ⟨hbound, ys, c, d, hc, hd, rfl⟩
    · cases hx
      cases hy
      rw [namelessIn, namelessIn, Nameless.replace, Binders.length_rename, toList_rename, ← List.map_reverse]
      refine .bind (ih b rfl hc fun z hz => captured_place_map_renamed hpairs fun hzxs => hplace z ?_)
      exact var_mem_names_bind.2 ⟨hz, mt List.mem_reverse.2 hzxs⟩
    · have hw : w ∉ xs.toList := fun hw => by
        rw [Binders.bound?_eq_some.2 ⟨rfl, hw⟩] at hbound
        cases hbound
      have hcleared := cleared_of_clearOf (.inl ⟨w, rfl⟩) hc
      have hwys : w ∉ ys.toList.reverse := mt List.mem_reverse.1 (not_mem_of_clearOf hw hc)
      rw [← hcleared.form S, namelessIn, namelessIn, Nameless.replace]
      refine .bind (ih c (size_of_clearOf hc) hd fun z hz => captured_place_append hpairs hwys fun hzys =>
        hplace z (hcleared.mem_names.1 (var_mem_names_bind.2 ⟨hz, mt List.mem_reverse.2 hzys⟩)))

/-- What an expression without bindings around it stands for is not the place
of a slot. -/
theorem nameless_ne_bound (e : Expr) (i : Nat) : e.nameless ≠ .bound i := by
  cases e with
  | var x =>
    rw [nameless, namelessIn, place_of_not_mem List.not_mem_nil]
    exact fun h => by cases h
  | _ => exact fun h => by cases h

/-- The forms of arguments are forms of whole expressions. -/
theorem unplaced_assigned (pairs : List (Var × Expr)) : Nameless.Unplaced (assigned pairs) := by
  refine List.forall_mem_map.2 fun pair _ => ⟨⟨pair.1, rfl⟩, nameless_ne_bound pair.2⟩

/-- Where a variable takes the place of a variable, a variable by itself
becomes what it is renamed to. -/
theorem replace_place_nil (w r z : Var) :
    (place [] z).replace (assigned [(w, var r)]) = place [] (Var.renamed w r z) := by
  by_cases hz : z = w
  · rw [hz, Var.renamed_self]
    simp [place, assigned, Nameless.replace, nameless, namelessIn]
  · rw [Var.renamed_of_ne hz, Nameless.replace_of_not_mem]
    refine List.forall_mem_singleton.2 ⟨.inl ⟨w, rfl⟩, ?_⟩
    simpa [place, Nameless.names, eq_comm] using hz

/-- What is put in that is no variable is not captured. -/
theorem nameless_subst_of_isVar_eq_false (ha : a.isVar = false) (h : e.subst (var v) a = .ok q) :
    q.nameless = e.nameless.replace (assigned [(v, a)]) := by
  have hslot : ∀ x ∈ e.slots, var v ≠ var x := by
    rintro x hx ⟨rfl⟩
    exact ((subst_refused e v a).1.1 ⟨q, h⟩).1 ⟨ha, hx⟩
  exact namelessIn_subst (.inl ⟨v, rfl⟩) hslot (List.forall_mem_nil _) (fun _ => List.forall_mem_nil _) h

/-- **A substitution captures at most.**  Whatever it returns is, but for
captures, the expression with the value in the place of the variable. -/
theorem captured_subst (h : e.subst (var v) a = .ok q) :
    Nameless.Captured (e.nameless.replace (assigned [(v, a)])) q.nameless := by
  cases a with
  | var y =>
    refine captured_subst_var (unplaced_assigned _) h fun z _ => ?_
    rw [replace_place_nil]
    exact .refl _
  | _ =>
    rw [nameless_subst_of_isVar_eq_false rfl h]
    exact .refl _

/-- **A substitution captures nothing exactly if no binding clashes.** -/
theorem nameless_subst_eq_iff (h : e.subst (var v) a = .ok q) :
    q.nameless = e.nameless.replace (assigned [(v, a)]) ↔ ∀ y, a = var y → ¬Clashes v y e := by
  cases a with
  | var y =>
    have hclash : (∀ y', var y = var y' → ¬Clashes v y' e) ↔ ¬Clashes v y e :=
      ⟨fun hnot => hnot y rfl, fun hnot y' heq => Expr.var.inj heq ▸ hnot⟩
    rw [hclash]
    exact namelessIn_eq_iff_not_clashes (unplaced_assigned _) h fun z _ => (replace_place_nil v y z).symm
  | _ => exact iff_of_true (nameless_subst_of_isVar_eq_false rfl h) fun y heq => by cases heq

end Expr
end SecondOrder
