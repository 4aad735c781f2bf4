/-
# Reduction is simultaneous substitution

To reduce `λx₁…x_k. b` is to put one argument after another into the body
(`Expr.substEach`), and so a later argument may get into what an earlier one
has brought in.  This module says when that makes no difference.

Two things can go wrong.  A step may be refused, or capture something, in a
binding that it meets at its turn: `Expr.Receives` says that none does.  And a
later step may replace a parameter inside an earlier argument: `Expr.Lasts`
says that the parameters of the body come to their arguments all the same.
Nothing else can go wrong, and one of the two cannot make up for the other
(`Expr.betaReduce_eq_replace_iff`).  For the first, what has been captured
stays captured (`Nameless.Captured`, with which
`Nameless.replaceEach_eq_replace_of_captured` goes from the result back to the
steps).  For the second, names replaced one after another are compared with
names replaced at once, variable by variable
(`Nameless.replaceEach_eq_replace_iff`).

`Expr.Undisturbed` asks this of the arguments up to those that the body itself
cannot take: if a binding of the body binds the parameter of an argument that
is no variable, the reduction has to be refused (`Expr.Receives.refused`).
That no earlier argument removes this binding is a matter of size: an argument
in which something else than a variable is put in for a variable becomes
heavier (`Nameless.weight_lt_replace`), and so does not last
(`Expr.Lasts.not_mem_names`).  `Expr.betaReduce_simultaneous` puts the two
outcomes together.
-/

import Mathlib
import SecondOrder.Proofs.Expr.Captured

namespace SecondOrder

namespace Nameless

variable {pair : Expr × Nameless} {pairs : List (Expr × Nameless)} {s t u : Nameless} {ts us : List Nameless}
  {n k : Nat} {x v : Var} {f : Sym}

/-! ## Names replaced one after another -/

/-- Names replaced one after another.  What has been put in for one is not
spared by those that come later. -/
def replaceEach : List (Expr × Nameless) → Nameless → Nameless
  | [], t => t
  | pair :: pairs, t => replaceEach pairs (t.replace [pair])

/-- What each replacement leaves as it is stays as it is. -/
theorem replaceEach_of_forall (h : ∀ pair ∈ pairs, t.replace [pair] = t) : t.replaceEach pairs = t := by
  induction pairs with
  | nil => rfl
  | cons pair pairs ih =>
    rw [List.forall_mem_cons] at h
    rw [replaceEach, h.1]
    exact ih h.2

/-- In an application, names are replaced in its parts. -/
theorem replaceEach_app : (app t ts).replaceEach pairs =
    .app (t.replaceEach pairs) (ts.map (replaceEach pairs)) := by
  induction pairs generalizing t ts with
  | nil => exact congrArg (Nameless.app t) (List.map_id ts).symm
  | cons pair pairs ih =>
    rw [replaceEach, replace, replaceAll_eq_map, ih, List.map_map]
    rfl

/-- In a binding, names are replaced in its body. -/
theorem replaceEach_bind : (bind f n t).replaceEach pairs = .bind f n (t.replaceEach pairs) := by
  induction pairs generalizing t with
  | nil => rfl
  | cons pair pairs ih => exact ih

/-- A condition on pairs is one on each of them. -/
theorem unplaced_cons : Unplaced (pair :: pairs) ↔ Unplaced [pair] ∧ Unplaced pairs := by
  rw [Unplaced, Unplaced, List.forall_mem_cons, List.forall_mem_singleton]
  rfl

/-- Symbols are not replaced, neither at once nor one after another. -/
theorem replaceEach_sym (hpairs : Unplaced pairs) : (sym f).replaceEach pairs = .sym f :=
  replaceEach_of_forall fun pair hpair => replace_sym (List.forall_mem_singleton.2 (hpairs pair hpair))

/-- Where names are replaced on both sides, one after another, what has been
captured before is captured. -/
theorem Captured.replaceEach (hpairs : Unplaced pairs) (h : Captured t u) :
    Captured (t.replaceEach pairs) (u.replaceEach pairs) := by
  induction pairs generalizing t u with
  | nil => exact h
  | cons pair pairs ih =>
    obtain ⟨hpair, hpairs⟩ := unplaced_cons.1 hpairs
    exact ih hpairs (h.replace hpair)

/-- No later replacement undoes a capture. -/
theorem Captured.eq_of_replaceEach_eq (hpairs : Unplaced pairs) (h : Captured t u)
    (heq : t.replaceEach pairs = u.replaceEach pairs) : t = u := by
  induction pairs generalizing t u with
  | nil => exact heq
  | cons pair pairs ih =>
    obtain ⟨hpair, hpairs⟩ := unplaced_cons.1 hpairs
    exact h.eq_of_replace_eq hpair (ih hpairs (h.replace hpair) heq)

/-- Where captures alone lead back to a form from what it has become, it has
become nothing else. -/
theorem replaceEach_eq_of_captured_self (hpairs : Unplaced pairs) (h : Captured (t.replaceEach pairs) t) :
    t.replaceEach pairs = t := by
  induction t with
  | var x => exact h.eq_var
  | sym f => exact replaceEach_sym hpairs
  | app t ts iht ihts =>
    rw [replaceEach_app] at h ⊢
    obtain ⟨head, args⟩ := h.of_app
    rw [iht head]
    refine congrArg _ ((List.map_congr_left fun u hu => ihts u hu ?_).trans (List.map_id _))
    rw [List.forall₂_map_left_iff, List.forall₂_same] at args
    exact args u hu
  | bind f n t ih =>
    rw [replaceEach_bind] at h ⊢
    cases h with
    | bind body => rw [ih body]
  | _ => exact replaceEach_of_forall fun _ _ => rfl

/-- Of the pairs for a variable the first counts. -/
theorem replace_var_cons : (var x).replace ((.var v, s) :: pairs) =
    if x = v then s else (var x).replace pairs := by
  rw [replace, replace, List.lookup_cons]
  split
  · next h => simp [Expr.var.inj ((Expr.beq_name_iff (.inl ⟨v, rfl⟩)).1 h)]
  · next h =>
    rw [if_neg]
    rintro rfl
    exact Bool.false_ne_true (h.symm.trans ((Expr.beq_name_iff (.inl ⟨x, rfl⟩)).2 rfl))

/-- What a variable becomes at the first pair for it is replaced further by the
pairs that follow. -/
theorem replaceEach_var_cons : (var x).replaceEach ((.var v, s) :: pairs) =
    if x = v then s.replaceEach pairs else (var x).replaceEach pairs := by
  rw [replaceEach, replace_var_cons, replace_nil, apply_ite (replaceEach pairs)]

/-- **Replaced one after another, names become what they become at once,** if
captures lead from the one to the other. -/
theorem replaceEach_eq_replace_of_captured (hpairs : Unplaced pairs)
    (h : Captured (t.replaceEach pairs) (t.replace pairs)) : t.replaceEach pairs = t.replace pairs := by
  induction t with
  | var x =>
    induction pairs with
    | nil => exact replace_nil.symm
    | cons pair pairs ih =>
      obtain ⟨hpair, hrest⟩ := unplaced_cons.1 hpairs
      obtain ⟨⟨v, hv⟩, -⟩ := hpair pair (List.mem_singleton.2 rfl)
      obtain ⟨n, s⟩ := pair
      cases hv
      rw [replaceEach_var_cons, replace_var_cons] at h ⊢
      split
      · next hx =>
        rw [if_pos hx, if_pos hx] at h
        exact replaceEach_eq_of_captured_self hrest h
      · next hx =>
        rw [if_neg hx, if_neg hx] at h
        exact ih hrest h
  | sym f => rw [replaceEach_sym hpairs, replace_sym hpairs]
  | app t ts iht ihts =>
    rw [replaceEach_app, replace, replaceAll_eq_map] at h ⊢
    obtain ⟨head, args⟩ := h.of_app
    rw [iht head]
    refine congrArg _ (List.map_congr_left fun u hu => ihts u hu ?_)
    rw [List.forall₂_map_left_iff, List.forall₂_map_right_iff, List.forall₂_same] at args
    exact args u hu
  | bind f n t ih =>
    rw [replaceEach_bind, replace] at h ⊢
    cases h with
    | bind body => rw [ih body]
  | _ => exact replaceEach_of_forall fun _ _ => rfl

/-- **Replaced one after another, names become what they become at once,** if
that is so for each of them. -/
theorem replaceEach_eq_replace_iff (hpairs : Unplaced pairs) : t.replaceEach pairs = t.replace pairs ↔
    ∀ x, .var x ∈ t.names → (var x).replaceEach pairs = (var x).replace pairs := by
  induction t with
  | var x => simp [names]
  | sym f => simp [names, replaceEach_sym hpairs, replace_sym hpairs]
  | app t ts iht ihts =>
    have hts : ts.map (replaceEach pairs) = ts.map (replace pairs) ↔
        ∀ u ∈ ts, ∀ x, .var x ∈ u.names → (var x).replaceEach pairs = (var x).replace pairs := by
      rw [List.map_inj_left]
      exact forall₂_congr fun u hu => ihts u hu
    rw [replaceEach_app, replace, replaceAll_eq_map, app.injEq, iht, hts]
    simp only [mem_names_app]
    grind
  | bind f n t ih =>
    rw [replaceEach_bind, replace, bind.injEq]
    simpa [names] using ih
  | _ => exact iff_of_true (replaceEach_of_forall fun _ _ => rfl) fun _ h => absurd h List.not_mem_nil

/-- What has been replaced together and then what is left. -/
theorem replaceEach_append {before after : List (Expr × Nameless)} :
    t.replaceEach (before ++ after) = (t.replaceEach before).replaceEach after := by
  induction before generalizing t with
  | nil => rfl
  | cons pair before ih => exact ih

/-- A variable in what comes of a form comes of one of its variables. -/
theorem exists_of_mem_names_replaceEach (hpairs : Unplaced pairs) (h : .var v ∈ (t.replaceEach pairs).names) :
    ∃ x, .var x ∈ t.names ∧ .var v ∈ ((var x).replaceEach pairs).names := by
  induction t with
  | var x => exact ⟨x, List.mem_singleton.2 rfl, h⟩
  | sym f =>
    rw [replaceEach_sym hpairs] at h
    cases List.mem_singleton.1 h
  | app t ts iht ihts =>
    rw [replaceEach_app, mem_names_app] at h
    rcases h with h | ⟨u, hu, h⟩
    · obtain ⟨x, hx, h⟩ := iht h
      exact ⟨x, mem_names_app.2 (.inl hx), h⟩
    · obtain ⟨w, hw, rfl⟩ := List.mem_map.1 hu
      obtain ⟨x, hx, h⟩ := ihts w hw h
      exact ⟨x, mem_names_app.2 (.inr ⟨w, hw, hx⟩), h⟩
  | bind f n t ih =>
    rw [replaceEach_bind] at h
    exact ih h
  | _ =>
    rw [replaceEach_of_forall fun _ _ => rfl] at h
    cases h

/-! ## Weight -/

mutual

/-- The weight of a form.  Nothing is lighter than a variable, and only slots
are as light. -/
def weight : Nameless → Nat
  | .bound _ => 1
  | .var _ => 1
  | .app t ts => weight t + weightAll ts + 1
  | .bind _ _ t => weight t + 1
  | _ => 2

/-- The weight of arguments together. -/
def weightAll : List Nameless → Nat
  | [] => 0
  | t :: ts => weight t + weightAll ts

end

/-- Every node counts for something, so a part weighs less than the whole. -/
theorem weight_pos (t : Nameless) : 0 < t.weight := by
  cases t <;> simp [weight]

/-- If none of the arguments becomes lighter, neither do they together. -/
theorem weightAll_le_map {g : Nameless → Nameless} (h : ∀ u ∈ ts, u.weight ≤ (g u).weight) :
    weightAll ts ≤ weightAll (ts.map g) := by
  induction ts with
  | nil => exact le_rfl
  | cons u ts ih =>
    rw [List.forall_mem_cons] at h
    exact Nat.add_le_add h.1 (ih h.2)

/-- If one of them becomes heavier besides, so do they together. -/
theorem weightAll_lt_map {g : Nameless → Nameless} (h : ∀ u ∈ ts, u.weight ≤ (g u).weight) (hu : u ∈ ts)
    (hlt : u.weight < (g u).weight) : weightAll ts < weightAll (ts.map g) := by
  induction ts with
  | nil => cases hu
  | cons w ts ih =>
    rw [List.forall_mem_cons] at h
    rcases List.mem_cons.1 hu with rfl | hu
    · exact Nat.add_lt_add_of_lt_of_le hlt (weightAll_le_map h.2)
    · exact Nat.add_lt_add_of_le_of_lt h.1 (ih h.2 hu)

/-- A replacement makes nothing lighter. -/
theorem weight_le_replace : t.weight ≤ (t.replace [(.var v, s)]).weight := by
  induction t with
  | var x =>
    rw [replace_var_cons, replace_nil]
    split
    · exact weight_pos s
    · exact le_rfl
  | sym f => rw [replace_of_not_mem (by simp [names, Expr.IsName])]
  | app t ts iht ihts =>
    rw [replace, replaceAll_eq_map, weight, weight]
    exact Nat.succ_le_succ (Nat.add_le_add iht (weightAll_le_map ihts))
  | bind f n t ih => exact Nat.succ_le_succ ih
  | _ => exact le_rfl

/-- A variable that something heavier takes the place of makes the form
heavier. -/
theorem weight_lt_replace (hv : .var v ∈ t.names) (hs : 1 < s.weight) :
    t.weight < (t.replace [(.var v, s)]).weight := by
  induction t with
  | var x =>
    cases List.mem_singleton.1 hv
    rwa [replace_var_cons, if_pos rfl]
  | sym f => cases List.mem_singleton.1 hv
  | app t ts iht ihts =>
    rw [replace, replaceAll_eq_map, weight, weight]
    rcases mem_names_app.1 hv with hv | ⟨u, hu, hv⟩
    · exact Nat.succ_lt_succ (Nat.add_lt_add_of_lt_of_le (iht hv) (weightAll_le_map fun _ _ => weight_le_replace))
    · exact Nat.succ_lt_succ (Nat.add_lt_add_of_le_of_lt weight_le_replace
        (weightAll_lt_map (fun _ _ => weight_le_replace) hu (ihts u hu hv)))
  | bind f n t ih => exact Nat.succ_lt_succ (ih hv)
  | _ => cases hv

end Nameless

namespace Expr

variable {R : Reserved} {P Q : Var → Prop} {pairs before : List (Var × Expr)} {v x y : Var} {a b c e q : Expr}
  {as : List Expr} {f : Sym} {xs ys : Binders} {t : Nameless}

/-! ## Arguments that last -/

/-- Every parameter that is free in `e` becomes its argument in the end, up to
bound names, though all of `pairs` are put in one after another: what is put in
later does not change it. -/
def Lasts (e : Expr) (pairs : List (Var × Expr)) : Prop :=
  ∀ pair ∈ pairs, var pair.1 ∈ e.names →
    (Nameless.var pair.1).replaceEach (assigned pairs) = pair.2.nameless

/-- A parameter becomes its argument at once. -/
theorem replace_var_assigned (hnodup : (pairs.map Prod.fst).Nodup) (h : (v, a) ∈ pairs) :
    (Nameless.var v).replace (assigned pairs) = a.nameless := by
  induction pairs with
  | nil => cases h
  | cons pair pairs ih =>
    rw [List.map_cons, List.nodup_cons] at hnodup
    rw [assigned, List.map_cons, Nameless.replace_var_cons]
    rcases List.mem_cons.1 h with rfl | h
    · rw [if_pos rfl]
    · rw [if_neg (ne_of_mem_of_not_mem (List.mem_map_of_mem h) hnodup.1)]
      exact ih hnodup.2 h

/-- What is no parameter is not replaced. -/
theorem replace_var_assigned_of_not_mem (h : v ∉ pairs.map Prod.fst) :
    (Nameless.var v).replace (assigned pairs) = .var v ∧
      (Nameless.var v).replaceEach (assigned pairs) = .var v := by
  induction pairs with
  | nil => exact ⟨Nameless.replace_nil, rfl⟩
  | cons pair pairs ih =>
    rw [List.map_cons, List.mem_cons, not_or] at h
    rw [assigned, List.map_cons, Nameless.replace_var_cons, Nameless.replaceEach_var_cons, if_neg h.1, if_neg h.1]
    exact ih h.2

/-- **Where arguments last, to put them in one after another is to put them in
at once.** -/
theorem lasts_iff (hnodup : (pairs.map Prod.fst).Nodup) : Lasts e pairs ↔
    e.nameless.replaceEach (assigned pairs) = e.nameless.replace (assigned pairs) := by
  rw [Nameless.replaceEach_eq_replace_iff (unplaced_assigned pairs)]
  simp only [nameless, mem_names_namelessIn, List.not_mem_nil, false_imp_iff, implies_true, and_true]
  constructor
  · intro h x hx
    by_cases hmem : x ∈ pairs.map Prod.fst
    · obtain ⟨⟨_, a⟩, hpair, rfl⟩ := List.mem_map.1 hmem
      exact (h _ hpair hx).trans (replace_var_assigned hnodup hpair).symm
    · obtain ⟨hreplace, heach⟩ := replace_var_assigned_of_not_mem hmem
      rw [hreplace, heach]
  · intro h pair hpair hx
    exact (h pair.1 hx).trans (replace_var_assigned hnodup hpair)

/-! ## Arguments that are received -/

/-- The expression `e` takes all arguments of `pairs`, one after another.  At
its turn none of them meets a binding that has to give way to it and cannot, or
one that clashes; and it meets no slot of its parameter that it cannot take,
unless `P` holds of the parameter. -/
inductive Receives (P : Var → Prop) : Expr → List (Var × Expr) → Prop
  | nil {e : Expr} : Receives P e []
  | cons {e a : Expr} {v : Var} {pairs : List (Var × Expr)} (captures : Captures v a e → P v)
      (unjammed : ¬Jams v a e) (unclashed : ∀ y, a = .var y → ¬Clashes v y e)
      (rest : ∀ q, e.subst (.var v) a = .ok q → Receives P q pairs) : Receives P e ((v, a) :: pairs)

/-- What may be met on the way may be allowed for other reasons. -/
theorem Receives.mono (h : Receives P e pairs)
    (hPQ : ∀ pair ∈ pairs, pair.2.isVar = false → P pair.1 → Q pair.1) : Receives Q e pairs := by
  induction h with
  | nil => exact .nil
  | cons captures unjammed unclashed _ ih =>
    rw [List.forall_mem_cons] at hPQ
    exact .cons (fun h => hPQ.1 h.1 (captures h)) unjammed unclashed fun q hq => ih q hq hPQ.2

/-- Whatever comes of arguments that are put in one after another is, but for
captures, what it should be. -/
theorem captured_substEach (h : e.substEach pairs = .ok q) :
    Nameless.Captured (e.nameless.replaceEach (assigned pairs)) q.nameless := by
  induction pairs generalizing e with
  | nil =>
    cases h
    exact .refl _
  | cons pair pairs ih =>
    obtain ⟨d, hd, h⟩ := bind_eq_ok.1 h
    exact ((captured_subst hd).replaceEach (unplaced_assigned pairs)).trans (ih h)

/-- **Arguments that are received are put in.** -/
theorem Receives.substEach (h : Receives (fun _ => False) e pairs) :
    ∃ q, e.substEach pairs = .ok q ∧ q.nameless = e.nameless.replaceEach (assigned pairs) := by
  induction h with
  | nil => exact ⟨_, rfl, rfl⟩
  | @cons e a v pairs captures unjammed unclashed _ ih =>
    obtain ⟨d, hd⟩ := (subst_refused e v a).1.2 ⟨captures, unjammed⟩
    obtain ⟨q, hq, hform⟩ := ih d hd
    refine ⟨q, by rw [Expr.substEach, hd]; exact hq, hform.trans ?_⟩
    rw [(nameless_subst_eq_iff hd).2 unclashed]
    rfl

/-- **Only arguments that are received are put in,** as no step undoes what a
step before has captured. -/
theorem receives_of_substEach (h : e.substEach pairs = .ok q)
    (hform : q.nameless = e.nameless.replaceEach (assigned pairs)) : Receives (fun _ => False) e pairs := by
  induction pairs generalizing e with
  | nil => exact .nil
  | cons pair pairs ih =>
    obtain ⟨v, a⟩ := pair
    obtain ⟨d, hd, h⟩ := bind_eq_ok.1 h
    have hunplaced := unplaced_assigned pairs
    have hstep := captured_subst hd
    have hform : q.nameless = (e.nameless.replace (assigned [(v, a)])).replaceEach (assigned pairs) := hform
    have heq : (e.nameless.replace (assigned [(v, a)])).replaceEach (assigned pairs) =
        d.nameless.replaceEach (assigned pairs) :=
      (hstep.replaceEach hunplaced).antisymm (hform ▸ captured_substEach h)
    obtain ⟨hcaptures, hjams⟩ := (subst_refused e v a).1.1 ⟨d, hd⟩
    refine .cons hcaptures hjams ((nameless_subst_eq_iff hd).1 ?_) fun d' hd' => ?_
    · exact (hstep.eq_of_replaceEach_eq hunplaced heq).symm
    · cases hd.symm.trans hd'
      exact ih h (hform.trans heq)

/-! ## Arguments that are refused -/

/-- The slots of a binding that gives way stay, but for those of variables that
it gives way to. -/
theorem mem_slots_of_clearOf_of_mem (hx : x ∈ (bind f xs b).slots) (h : clearOf f (var v) a xs b = .ok (ys, c)) :
    x ∈ (bind f ys c).slots ∨ var x ∈ a.names ∧ var v ∈ b.names := by
  by_cases hfree : var v ∈ b.names
  · by_cases hxa : var x ∈ a.names
    · exact .inr ⟨hxa, hfree⟩
    · rw [clearOf, if_pos (occursFree_var_iff.2 hfree)] at h
      refine .inl (freshen_keeps (P := fun ys c => x ∈ (bind f ys c).slots) (fun z hz zs d y _ _ hmem => ?_) hx h)
      rw [← rename, slots_rename]
      refine Var.mem_map_renamed_of_ne hmem ?_
      rintro rfl
      exact hxa (mem_filter_occursFree.1 hz).2
  · rw [clearOf_of_not_free (mt var_mem_freeNames_iff.1 hfree) (.inl ⟨v, rfl⟩)] at h
    cases h
    exact .inl hx

/-- Slots stay when an argument is put in, unless the argument comes to a place
below them that it would be captured in. -/
theorem mem_slots_subst_of_mem (hx : x ∈ e.slots) (hne : x ≠ v) (h : e.subst (var v) a = .ok q) :
    x ∈ q.slots ∨ var x ∈ a.names ∧ var v ∈ e.names := by
  induction e using sizedInduct generalizing q with
  | atom e he =>
    cases e with
    | app | bind => cases he
    | _ => cases hx
  | app g as ihg ihas =>
    obtain ⟨g', as', hg, has, rfl⟩ := of_subst_app h
    rcases mem_slots_app.1 hx with hx | ⟨d, hd, hx⟩
    · exact (ihg hx hg).imp (fun hx => mem_slots_app.2 (.inl hx))
        (And.imp_right fun hv => mem_names_app.2 (.inl hv))
    · obtain ⟨d', hd', hdd'⟩ := exists_of_forall₂_left has d hd
      exact (ihas d hd hx hdd').imp (fun hx => mem_slots_app.2 (.inr ⟨d', hd', hx⟩))
        (And.imp_right fun hv => mem_names_app.2 (.inr ⟨d, hd, hv⟩))
  | bind f xs b ih =>
    rcases of_subst_bind h with ⟨w, y, c, hw, hwxs, rfl, hc, rfl⟩ | ⟨hbound, ys, c, d, hc, hd, rfl⟩
    · cases hw
      rw [mem_slots_bind, toList_rename]
      rcases mem_slots_bind.1 hx with hx | hx
      · exact .inl (.inl (Var.mem_map_renamed_of_ne hx hne))
      · rcases ih b rfl hx hc with hx | ⟨hxy, -⟩
        · exact .inl (.inr hx)
        · -- the slot that takes the argument now holds `x`
          cases List.mem_singleton.1 hxy
          exact .inl (.inl (List.mem_map.2 ⟨v, hwxs, Var.renamed_self v x⟩))
    · have hv : v ∉ xs.toList := fun hv => by
        rw [Binders.bound?_eq_some.2 ⟨rfl, hv⟩] at hbound
        cases hbound
      rcases mem_slots_of_clearOf_of_mem hx hc with hx | ⟨hxa, hvb⟩
      · rw [mem_slots_bind]
        rcases mem_slots_bind.1 hx with hx | hx
        · exact .inl (.inl hx)
        · refine (ih c (size_of_clearOf hc) hx hd).imp .inr (And.imp_right fun hvc => ?_)
          have hmem := (cleared_of_clearOf (.inl ⟨v, rfl⟩) hc).mem_names.1
            (var_mem_names_bind.2 ⟨hvc, not_mem_of_clearOf hv hc⟩)
          exact hmem
      · exact .inr ⟨hxa, var_mem_names_bind.2 ⟨hvb, hv⟩⟩

/-- Nothing that is put in makes a form lighter. -/
theorem weight_le_replaceEach : t.weight ≤ (t.replaceEach (assigned pairs)).weight := by
  induction pairs generalizing t with
  | nil => exact le_rfl
  | cons pair pairs ih => exact Nameless.weight_le_replace.trans ih

/-- What a parameter has become weighs at least what its argument does. -/
theorem weight_le_replaceEach_var (hnodup : (pairs.map Prod.fst).Nodup) (h : (v, a) ∈ pairs) :
    a.nameless.weight ≤ ((Nameless.var v).replaceEach (assigned pairs)).weight := by
  induction pairs with
  | nil => cases h
  | cons pair pairs ih =>
    rw [List.map_cons, List.nodup_cons] at hnodup
    rw [assigned, List.map_cons, Nameless.replaceEach_var_cons]
    rcases List.mem_cons.1 h with rfl | h
    · rw [if_pos rfl]
      exact weight_le_replaceEach
    · rw [if_neg (ne_of_mem_of_not_mem (List.mem_map_of_mem h) hnodup.1)]
      exact ih hnodup.2 h

/-- Everything but a variable is heavier than a variable. -/
theorem one_lt_weight (ha : a.isVar = false) : 1 < a.nameless.weight := by
  cases a with
  | var => cases ha
  | app f as => exact Nat.succ_lt_succ (Nat.add_pos_left (Nameless.weight_pos _) _)
  | bind f xs b => exact Nat.succ_lt_succ (Nameless.weight_pos _)
  | _ => exact Nat.one_lt_two

/-- A form becomes heavier if something else than a variable is put in for one
of its variables. -/
theorem weight_lt_replaceEach (hnodup : (pairs.map Prod.fst).Nodup) (h : (x, c) ∈ pairs) (hc : c.isVar = false)
    (hx : .var x ∈ t.names) : t.weight < (t.replaceEach (assigned pairs)).weight := by
  induction pairs generalizing t with
  | nil => cases h
  | cons pair pairs ih =>
    rw [List.map_cons, List.nodup_cons] at hnodup
    rcases List.mem_cons.1 h with rfl | h
    · exact (Nameless.weight_lt_replace hx (one_lt_weight hc)).trans_le weight_le_replaceEach
    · refine Nameless.weight_le_replace.trans_lt (ih hnodup.2 h ?_)
      have hne : x ≠ pair.1 := ne_of_mem_of_not_mem (List.mem_map_of_mem h) hnodup.1
      exact (Nameless.mem_names_replace (.inl ⟨pair.1, rfl⟩)).2 (.inl ⟨hx, fun heq => hne (Expr.var.inj heq)⟩)

/-- **An argument that comes into the body holds no parameter that something
else than a variable is put in for later,** if the arguments last: it would
become heavier than it was. -/
theorem Lasts.not_mem_names (h : Lasts b (before ++ (v, a) :: pairs))
    (hnodup : ((before ++ (v, a) :: pairs).map Prod.fst).Nodup)
    (hv : .var v ∈ (b.nameless.replaceEach (assigned before)).names) (hx : (x, c) ∈ pairs) (hc : c.isVar = false) :
    var x ∉ a.names := by
  intro hxa
  rw [List.map_append, List.nodup_append] at hnodup
  obtain ⟨hbefore, hafter, hapart⟩ := hnodup
  rw [List.map_cons, List.nodup_cons] at hafter
  obtain ⟨y, hy, hvy⟩ := Nameless.exists_of_mem_names_replaceEach (unplaced_assigned before) hv
  have hyb : var y ∈ b.names := (mem_names_namelessIn.1 hy).1
  -- the form after `a` has been put in, which the rest makes heavier
  have hxt : .var x ∈ (((Nameless.var y).replaceEach (assigned before)).replace (assigned [(v, a)])).names :=
    (Nameless.mem_names_replace (.inl ⟨v, rfl⟩)).2
      (.inr ⟨hvy, mem_names_namelessIn.2 ⟨hxa, List.forall_mem_nil _⟩⟩)
  have hheavier := weight_lt_replaceEach hafter.2 hx hc hxt
  have hsplit : assigned (before ++ (v, a) :: pairs) = assigned before ++ assigned ((v, a) :: pairs) :=
    List.map_append
  by_cases hmem : y ∈ before.map Prod.fst
  · obtain ⟨⟨_, d⟩, hd, rfl⟩ := List.mem_map.1 hmem
    have hlast := h _ (List.mem_append_left _ hd) hyb
    rw [hsplit, Nameless.replaceEach_append] at hlast
    have hle := (weight_le_replaceEach_var hbefore hd).trans
      (Nameless.weight_le_replace (v := v) (s := a.nameless))
    exact absurd (congrArg Nameless.weight hlast) (hle.trans_lt hheavier).ne'
  · rw [(replace_var_assigned_of_not_mem hmem).2] at hvy hheavier
    cases List.mem_singleton.1 hvy
    have hlast := h _ (List.mem_append_right _ List.mem_cons_self) hyb
    rw [hsplit, Nameless.replaceEach_append, (replace_var_assigned_of_not_mem hmem).2] at hlast
    have hself : (Nameless.var v).replace (assigned [(v, a)]) = a.nameless :=
      replace_var_assigned (List.nodup_singleton v) List.mem_cons_self
    rw [hself] at hheavier
    have hlast : (((Nameless.var v).replace (assigned [(v, a)])).replaceEach (assigned pairs)) =
        a.nameless := hlast
    rw [hself] at hlast
    exact absurd (congrArg Nameless.weight hlast) hheavier.ne'

/-- **An argument is refused** if it is no variable and the body binds its
parameter. -/
theorem Receives.refused (hlasts : Lasts b (before ++ pairs)) (hnodup : ((before ++ pairs).map Prod.fst).Nodup)
    (h : Receives P e pairs) (hform : e.nameless = b.nameless.replaceEach (assigned before))
    (hslots : ∀ pair ∈ pairs, Captures pair.1 pair.2 b → pair.1 ∈ e.slots)
    (hrefused : ∃ pair ∈ pairs, Captures pair.1 pair.2 b) :
    ∃ fault, e.substEach pairs = .error fault ∧ fault.kind = .illegalCapture := by
  induction h generalizing before with
  | nil =>
    obtain ⟨_, hpair, -⟩ := hrefused
    cases hpair
  | @cons e a v pairs _ unjammed unclashed _ ih =>
    by_cases hcaptures : Captures v a e
    · obtain ⟨fault, herror, hkind⟩ := ((subst_refused e v a).2.2 unjammed).2 hcaptures
      exact ⟨fault, by rw [Expr.substEach, herror]; rfl, hkind⟩
    · obtain ⟨d, hd⟩ := (subst_refused e v a).1.2 ⟨hcaptures, unjammed⟩
      rw [List.forall_mem_cons] at hslots
      have hcomes : var v ∈ e.names → .var v ∈ (b.nameless.replaceEach (assigned before)).names := fun hv =>
        hform ▸ mem_names_namelessIn.2 ⟨hv, List.forall_mem_nil _⟩
      have hslots' : ∀ pair ∈ pairs, Captures pair.1 pair.2 b → pair.1 ∈ d.slots := by
        intro pair hpair hpairb
        have hne : pair.1 ≠ v := by
          rw [List.map_append, List.map_cons] at hnodup
          have hv := (List.nodup_cons.1 hnodup.of_append_right).1
          exact ne_of_mem_of_not_mem (List.mem_map_of_mem hpair) hv
        rcases mem_slots_subst_of_mem (hslots.2 pair hpair hpairb) hne hd with hmem | ⟨hpaira, hve⟩
        · exact hmem
        · exact absurd hpaira (hlasts.not_mem_names hnodup (hcomes hve) hpair hpairb.1)
      have hrefused' : ∃ pair ∈ pairs, Captures pair.1 pair.2 b := by
        obtain ⟨pair, hpair, hpairb⟩ := hrefused
        rcases List.mem_cons.1 hpair with rfl | hpair
        · exact absurd ⟨hpairb.1, hslots.1 hpairb⟩ hcaptures
        · exact ⟨pair, hpair, hpairb⟩
      have hform' : d.nameless = b.nameless.replaceEach (assigned (before ++ [(v, a)])) := by
        rw [(nameless_subst_eq_iff hd).2 unclashed, hform, assigned, assigned, assigned, List.map_append,
          Nameless.replaceEach_append]
        rfl
      rw [List.append_cons] at hlasts hnodup
      obtain ⟨fault, herror, hkind⟩ := ih d hd hlasts hnodup hform' hslots' hrefused'
      exact ⟨fault, by rw [Expr.substEach, hd]; exact herror, hkind⟩

/-- **When reduction is simultaneous substitution.**  Let the parameters be
different, and as many as the arguments.  The reduction returns the body with
the arguments in the places of the parameters, all at once and up to bound
names, exactly if the body receives the arguments, and the arguments last. -/
theorem betaReduce_eq_replace_iff (hdistinct : xs.toList.Nodup) (hlen : xs.length = as.length) :
    (∃ q, (R.lambda xs b).betaReduce R as = .ok q ∧
      q.nameless = b.nameless.replace (assigned (xs.toList.zip as))) ↔
    Receives (fun _ => False) b (xs.toList.zip as) ∧ Lasts b (xs.toList.zip as) := by
  have hmap : (xs.toList.zip as).map Prod.fst = xs.toList := List.map_fst_zip (Nat.le_of_eq hlen)
  rw [betaReduce_lambda hlen, lasts_iff (hmap.symm ▸ hdistinct)]
  constructor
  · rintro ⟨q, hq, hform⟩
    have hcaptured := captured_substEach hq
    rw [hform] at hcaptured
    have heach := Nameless.replaceEach_eq_replace_of_captured (unplaced_assigned _) hcaptured
    exact ⟨receives_of_substEach hq (hform.trans heach.symm), heach⟩
  · rintro ⟨hreceives, heach⟩
    obtain ⟨q, hq, hform⟩ := hreceives.substEach
    exact ⟨q, hq, hform.trans heach⟩

/-! ## Undisturbed arguments -/

/-- The parameters `xs` of a function with the body `b` are different, as many
as the arguments `as`, and one argument does not disturb another.  The body
receives them all, but for arguments that a binding of the body itself cannot
take in its slots, and those that are put in last. -/
structure Undisturbed (xs : Binders) (b : Expr) (as : List Expr) : Prop where
  distinct : xs.toList.Nodup
  length : xs.length = as.length
  receives : Receives (· ∈ b.slots) b (xs.toList.zip as)
  lasts : Lasts b (xs.toList.zip as)

/-- With one parameter there is nothing to disturb it: what remains to ask is
whether the bindings of the body can give way to the argument, and whether they
clash. -/
theorem undisturbed_singleton_iff :
    Undisturbed ⟨x, []⟩ b [a] ↔ ¬Jams x a b ∧ ∀ y, a = var y → ¬Clashes x y b := by
  constructor
  · intro h
    cases h.receives with
    | cons _ unjammed unclashed _ => exact ⟨unjammed, unclashed⟩
  · rintro ⟨unjammed, unclashed⟩
    refine ⟨List.nodup_singleton x, rfl, .cons And.right unjammed unclashed fun _ _ => .nil, ?_⟩
    intro pair hpair _
    cases List.mem_singleton.1 hpair
    exact Nameless.replaceEach_var_cons.trans (if_pos rfl)

/-- Parameters that are told apart from all that is brought in are
undisturbed. -/
theorem Separate.undisturbed (h : Separate xs b as) : Undisturbed xs b as := by
  obtain ⟨hreceives, hlasts⟩ := (betaReduce_eq_replace_iff (R := {}) h.distinct h.length).1 h.betaReduce
  exact ⟨h.distinct, h.length, hreceives.mono fun _ _ _ => False.elim, hlasts⟩

/-- Arguments that no slot of the body refuses are put in all at once. -/
theorem Undisturbed.betaReduce (h : Undisturbed xs b as)
    (hfree : ∀ pair ∈ xs.toList.zip as, ¬Captures pair.1 pair.2 b) :
    ∃ q, (R.lambda xs b).betaReduce R as = .ok q ∧
      q.nameless = b.nameless.replace (assigned (xs.toList.zip as)) := by
  refine (betaReduce_eq_replace_iff h.distinct h.length).2 ⟨h.receives.mono ?_, h.lasts⟩
  exact fun pair hpair hvalue hslot => hfree pair hpair ⟨hvalue, hslot⟩

/-- **Reduction is simultaneous substitution** if the arguments are
undisturbed.  It is refused, with `illegalCapture`, if a binding of the body
binds the parameter of an argument that is no variable.  If none does, it
returns the body with the arguments in the places of the parameters, all at
once and up to bound names; and functions that are equal up to bound names give
results that are. -/
theorem betaReduce_simultaneous (h : Undisturbed xs b as) :
    ((∃ pair ∈ xs.toList.zip as, Captures pair.1 pair.2 b) →
        ∃ fault, (R.lambda xs b).betaReduce R as = .error fault ∧ fault.kind = .illegalCapture) ∧
      ((∀ pair ∈ xs.toList.zip as, ¬Captures pair.1 pair.2 b) →
        ∃ q, (R.lambda xs b).betaReduce R as = .ok q ∧
          q.nameless = b.nameless.replace (assigned (xs.toList.zip as)) ∧
          ∀ ys c, Undisturbed ys c as → (∀ pair ∈ ys.toList.zip as, ¬Captures pair.1 pair.2 c) →
            (R.lambda xs b).alphaEq (R.lambda ys c) = true →
            ∃ q', (R.lambda ys c).betaReduce R as = .ok q' ∧ q.alphaEq q' = true) := by
  have hmap : (xs.toList.zip as).map Prod.fst = xs.toList := List.map_fst_zip (Nat.le_of_eq h.length)
  constructor
  · intro hrefused
    have hlasts : Lasts b ([] ++ xs.toList.zip as) := h.lasts
    have hnodup : (([] ++ xs.toList.zip as).map Prod.fst).Nodup := hmap.symm ▸ h.distinct
    rw [betaReduce_lambda h.length]
    exact h.receives.refused hlasts hnodup rfl (fun _ _ => And.right) hrefused
  · intro hfree
    obtain ⟨q, hq, hform⟩ := h.betaReduce (R := R) hfree
    refine ⟨q, hq, hform, fun ys c h' hfree' hequal => ?_⟩
    obtain ⟨q', hq', hform'⟩ := h'.betaReduce (R := R) hfree'
    refine ⟨q', hq', ?_⟩
    rw [alphaEq_iff_nameless] at hequal ⊢
    simp only [Reserved.lambda, nameless, namelessIn, Nameless.bind.injEq, List.append_nil] at hequal
    rw [hform, hform', replace_assigned_eq_openAt h.distinct h.length,
      replace_assigned_eq_openAt h'.distinct h'.length, hequal.2.2]

/-- In `λx, y. g(x, q[x. p(x, y)])` of `z` and `f(z)` the binding takes `z` in
its slot, and gives way to the next argument: the result is that of
`λu, v. g(u, q[w. p(w, v)])`.  Of `f(a)` and `b` the reduction is refused. -/
theorem betaReduce_simultaneous_nested :
    let R : Reserved := {}
    let x (name : String) : Var := ⟨name, false⟩
    let f (name : String) : Expr := app (var (x "f")) [var (x name)]
    let body (u w v : String) : Expr := app (var (x "g")) [var (x u),
      bind ⟨"q", "base", false⟩ ⟨x w, []⟩ (app (var (x "p")) [var (x w), var (x v)])]
    let xs : Binders := ⟨x "x", [x "y"]⟩
    let ys : Binders := ⟨x "u", [x "v"]⟩
    let as : List Expr := [var (x "z"), f "z"]
    (Undisturbed xs (body "x" "x" "y") as ∧ Undisturbed ys (body "u" "w" "v") as ∧
      ∃ q, (R.lambda xs (body "x" "x" "y")).betaReduce R as = .ok q ∧
        ∃ q', (R.lambda ys (body "u" "w" "v")).betaReduce R as = .ok q' ∧ q.alphaEq q' = true) ∧
      Undisturbed xs (body "x" "x" "y") [f "a", var (x "b")] ∧
      ∃ fault, (R.lambda xs (body "x" "x" "y")).betaReduce R [f "a", var (x "b")] = .error fault ∧
        fault.kind = .illegalCapture := by
  intro R x f body xs ys as
  have hjams (u w v : String) (y : Var) (a : Expr) : ¬Jams y a (body u w v) := by
    refine not_jams_of_nodup fun g zs c hc => ?_
    simp [body, nodes, nodesAll] at hc
    obtain ⟨-, rfl, -⟩ := hc
    exact List.nodup_singleton _
  have hslots (u w v : String) (y : Var) : y ∈ (body u w v).slots ↔ y = x w := by
    simp [body, slots, slotsAll, Binders.toList]
  -- The two functions differ in the slot, and in what the first step makes of it, which is `w'`.
  have hundisturbed (u w v w' : String) (hne : u ≠ v ∧ v ≠ w' ∧ "z" ≠ v) (hz : x "z" ∉ (body u w v).vars)
      (hstep : (body u w v).subst (var (x u)) (var (x "z")) = .ok (body "z" w' v)) :
      Undisturbed ⟨x u, [x v]⟩ (body u w v) as := by
    refine ⟨?_, rfl, .cons And.right (hjams u w v _ _) ?_ ?_, ?_⟩
    · simpa [Binders.toList, x] using hne.1
    · intro y hy hclashes
      cases hy
      exact hz hclashes.mem_vars
    · intro q hq
      cases hstep.symm.trans hq
      refine .cons (fun h => ?_) (hjams "z" w' v _ _) (fun y hy => by cases hy) fun _ _ => .nil
      exact absurd (Var.mk.inj ((hslots "z" w' v _).1 h.2)).1 hne.2.1
    · refine List.forall_mem_cons.2 ⟨fun _ => ?_, List.forall_mem_singleton.2 fun _ => ?_⟩
      · have hzv : x "z" ≠ x v := fun h => hne.2.2 (Var.mk.inj h).1
        exact Nameless.replaceEach_var_cons.trans ((if_pos rfl).trans
          (Nameless.replaceEach_var_cons.trans (if_neg hzv)))
      · have hvu : x v ≠ x u := fun h => hne.1 (Var.mk.inj h).1.symm
        exact Nameless.replaceEach_var_cons.trans ((if_neg hvu).trans
          (Nameless.replaceEach_var_cons.trans (if_pos rfl)))
  have h : Undisturbed xs (body "x" "x" "y") as :=
    hundisturbed "x" "x" "y" "z" (by decide) (by decide) (by cbv)
  have h' : Undisturbed ys (body "u" "w" "v") as :=
    hundisturbed "u" "w" "v" "w" (by decide) (by decide) (by cbv)
  have h'' : Undisturbed xs (body "x" "x" "y") [f "a", var (x "b")] := by
    refine ⟨by decide, rfl, .cons And.right (hjams "x" "x" "y" _ _) (fun y hy => by cases hy) ?_, ?_⟩
    · intro q hq
      have hrefused : ((body "x" "x" "y").subst (var (x "x")) (f "a")).isOk = false := by cbv
      rw [hq] at hrefused
      cases hrefused
    · exact List.forall_mem_cons.2 ⟨fun _ => by cbv, List.forall_mem_singleton.2 fun _ => by cbv⟩
  have hfree (u w v : String) (hne : v ≠ w) :
      ∀ pair ∈ [x u, x v].zip as, ¬Captures pair.1 pair.2 (body u w v) := by
    intro pair hpair h
    rcases List.mem_cons.1 hpair with rfl | hpair
    · cases h.1
    · cases List.mem_singleton.1 hpair
      exact hne (Var.mk.inj ((hslots u w v _).1 h.2)).1
  obtain ⟨q, hq, -, hsame⟩ := (betaReduce_simultaneous (R := R) h).2 (hfree "x" "x" "y" (by decide))
  refine ⟨⟨h, h', q, hq, hsame ys _ h' (hfree "u" "w" "v" (by decide)) (by decide)⟩, h'', ?_⟩
  refine (betaReduce_simultaneous (R := R) h'').1 ⟨(x "x", f "a"), List.mem_cons_self, rfl, ?_⟩
  exact (hslots "x" "x" "y" _).2 rfl

/-- It need not return: `λx. λx. x` of `f(a)` is refused, since the inner
binding cannot take `f(a)` in its slot. -/
theorem betaReduce_guarded :
    let R : Reserved := {}
    let x (name : String) : Var := ⟨name, false⟩
    let b : Expr := bind ⟨"lambda", "fns1", false⟩ ⟨x "x", []⟩ (var (x "x"))
    let a : Expr := app (var (x "f")) [var (x "a")]
    (Binders.toList ⟨x "x", []⟩).Nodup ∧ Binders.length ⟨x "x", []⟩ = [a].length ∧
      ∃ fault, (R.lambda ⟨x "x", []⟩ b).betaReduce R [a] = .error fault ∧ fault.kind = .illegalCapture := by
  intro R x b a
  have herror : (R.lambda ⟨x "x", []⟩ b).betaReduce R [a] = .error (.illegalCapture b (x "x") a) := by cbv
  exact ⟨List.nodup_singleton _, rfl, _, herror, rfl⟩

end Expr
end SecondOrder
