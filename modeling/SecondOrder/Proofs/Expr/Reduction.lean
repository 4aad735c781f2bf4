/-
# Functions of separate parameters

To reduce `λx₁…x_k. b` is to put one argument after another into the body.
That comes to replacing all parameters at once (`Nameless.replace_replace`)
where no parameter occurs in an argument before its own, and no binding binds a
parameter: neither in the body nor in what has been put into it, nor because a
bound variable has been renamed to a parameter.  This can be read off the
function and its arguments before anything is put in (`Expr.Separate`).

`Expr.Ready` is what the body owes to the parameters still to come,
`Expr.Ready.subst` says that a substitution is not refused then and leaves a
body that is ready for the others.  So `Expr.Separate.betaReduce` returns, and
what it returns depends on the form of the function alone: its body with the
slots opened (`Expr.replace_assigned_eq_openAt`).
-/

import Mathlib
import SecondOrder.Proofs.Expr.Replacement
import SecondOrder.Proofs.Expr.Uses

namespace SecondOrder

namespace Nameless

variable {pairs : List (Expr × Nameless)} {s t : Nameless} {ts us : List Nameless} {v : Expr} {k : Nat}

/-- Names replaced one after another, none of which the form before it brings
in. -/
theorem replace_replace (hpairs : ∀ p ∈ pairs, Expr.IsName p.1 ∧ p.1 ∉ s.names) :
    (t.replace [(v, s)]).replace pairs = t.replace ((v, s) :: pairs) := by
  have hs : s.replace pairs = s := replace_of_not_mem hpairs
  induction t with
  | var x => cases h : Expr.var x == v <;> simp [replace, List.lookup_cons, h, hs]
  | sym f => cases h : Expr.sym f == v <;> simp [replace, List.lookup_cons, h, hs]
  | app t ts iht ihts =>
    simp only [replace, replaceAll_eq_map, List.map_map, iht]
    exact congrArg _ (List.map_congr_left ihts)
  | bind f n t ih =>
    simp only [replace]
    exact congrArg _ ih
  | _ => rfl

mutual

/-- The outermost slots opened, `k` slots further in: the forms `ts` take their
place, the first form that of the first slot. -/
def openAt (ts : List Nameless) (k : Nat) : Nameless → Nameless
  | .bound i => if i < k then .bound i else (ts.reverse[i - k]?).getD (.bound i)
  | .app t us => .app (openAt ts k t) (openAllAt ts k us)
  | .bind f n t => .bind f n (openAt ts (n + k) t)
  | t => t

def openAllAt (ts : List Nameless) (k : Nat) : List Nameless → List Nameless
  | [] => []
  | u :: us => openAt ts k u :: openAllAt ts k us

end

/-- The slots are opened in the arguments one by one. -/
theorem openAllAt_eq_map (ts : List Nameless) (k : Nat) (us : List Nameless) :
    openAllAt ts k us = us.map (openAt ts k) := by
  induction us with
  | nil => rfl
  | cons u us ih => rw [openAllAt, ih, List.map_cons]

end Nameless

namespace Expr

variable {R : Reserved} {I ws : List Var} {V : List Var} {W : Var → Prop} {N : Prop} {ts : List Nameless}
  {x y z v p : Var} {f : Sym} {xs ys : Binders} {e b c r q : Expr} {as : List Expr}

/-! ## Slots opened -/

/-- Among different parameters each finds the argument that stands at its own
place. -/
theorem lookup_zip {i : Nat} (hnodup : ws.Nodup) (hlen : ws.length = ts.length)
    (hi : ws[i]? = some z) : ((ws.map var).zip ts).lookup (var z) = ts[i]? := by
  induction ws generalizing ts i with
  | nil => simp at hi
  | cons w ws ih =>
    obtain ⟨t, ts, rfl⟩ := List.exists_cons_of_length_eq_add_one hlen.symm
    rw [List.nodup_cons] at hnodup
    rw [List.map_cons, List.zip_cons_cons, List.lookup_cons]
    cases i with
    | zero =>
      obtain rfl : w = z := by simpa using hi
      simp
    | succ i =>
      have hi : ws[i]? = some z := by simpa using hi
      have hne : (var z == var w) = false := by
        rw [Bool.eq_false_iff, Ne, beq_name_iff (.inl ⟨w, rfl⟩)]
        rintro ⟨⟩
        exact hnodup.1 (List.mem_of_getElem? hi)
      rw [hne]
      exact ih hnodup.2 (Nat.succ.inj hlen) hi

/-- Nothing but a variable among `ws` is looked up. -/
theorem lookup_zip_eq_none {n : Expr} (hn : ∀ w ∈ ws, n ≠ var w) :
    ((ws.map var).zip ts).lookup n = none := by
  refine Nameless.lookup_of_ne fun pair hpair => ?_
  obtain ⟨w, hw, hwp⟩ := List.mem_map.1 (List.of_mem_zip hpair).1
  exact hwp ▸ ⟨.inl ⟨w, rfl⟩, hn w hw⟩

/-- The slots are counted from the last one, the parameters from the first. -/
theorem idxOf_reverse {i : Nat} (hnodup : ws.Nodup) (hi : i < ws.length) :
    ws.reverse.idxOf ws[i] = ws.length - 1 - i := by
  have hrev := (List.nodup_reverse.2 hnodup).idxOf_getElem (ws.length - 1 - i) (by simp; omega)
  rw [List.getElem_reverse] at hrev
  convert hrev using 3
  omega

/-- To open the slots of the parameters turns the place of a variable into the
argument that belongs to it, unless a slot further in hides the parameter. -/
theorem openAt_place (hnodup : ws.Nodup) (hlen : ws.length = ts.length) (z : Var) :
    (place (I ++ ws.reverse) z).openAt ts I.length =
      (place I z).replace ((ws.map var).zip ts) := by
  by_cases hI : z ∈ I
  · have hlt : I.idxOf z < I.length := List.idxOf_lt_length_iff.2 hI
    rw [place_of_mem (List.mem_append_left _ hI), place_of_mem hI, List.idxOf_append_of_mem hI,
      Nameless.openAt, if_pos hlt]
    rfl
  · by_cases hws : z ∈ ws
    · obtain ⟨i, hi, rfl⟩ := List.getElem_of_mem hws
      have hlen' : ws.length - 1 - i < ts.length := by omega
      rw [place_of_mem (by simp), place_of_not_mem hI, List.idxOf_append_of_notMem hI,
        idxOf_reverse hnodup hi,
        Nameless.openAt, if_neg (by omega), Nat.add_sub_cancel_left, Nameless.replace,
        lookup_zip hnodup hlen (List.getElem?_eq_getElem hi), List.getElem?_reverse hlen',
        show ts.length - 1 - (ws.length - 1 - i) = i by omega, List.getElem?_eq_getElem (hlen ▸ hi)]
      rfl
    · rw [place_of_not_mem (by simp [hI, hws]), place_of_not_mem hI, Nameless.replace,
        lookup_zip_eq_none (n := var z) fun w hw h => hws (Expr.var.inj h ▸ hw)]
      rfl

/-- **To open the slots of a function is to replace its parameters.** -/
theorem openAt_namelessIn (hnodup : ws.Nodup) (hlen : ws.length = ts.length) :
    (e.namelessIn (I ++ ws.reverse)).openAt ts I.length =
      (e.namelessIn I).replace ((ws.map var).zip ts) := by
  induction e generalizing I with
  | var z => exact openAt_place hnodup hlen z
  | sym f =>
    rw [namelessIn, namelessIn, Nameless.replace, lookup_zip_eq_none (n := sym f) (by simp)]
    rfl
  | app f as ihf ihas =>
    simp only [namelessIn, namelessAllIn_eq_map, Nameless.openAt, Nameless.openAllAt_eq_map,
      Nameless.replace, Nameless.replaceAll_eq_map, List.map_map, ihf]
    exact congrArg _ (List.map_congr_left fun a ha => ihas a ha)
  | bind f xs b ih =>
    have hb := ih (I := xs.toList.reverse ++ I)
    rw [List.length_append, List.length_reverse, Binders.length_toList, List.append_assoc] at hb
    simp only [namelessIn, Nameless.openAt, Nameless.replace, hb]
  | _ => rfl

/-! ## Parameters still to come -/

/-- The expression is ready for values of the parameters `V` whose free
variables are in `W`: no binding binds a parameter, and where a binding around
a parameter binds variables in `W`, it binds no such variable twice and `N`
holds. -/
def Ready (V : List Var) (W : Var → Prop) (N : Prop) (e : Expr) : Prop :=
  ∀ f xs b, bind f xs b ∈ e.nodes → ∀ p ∈ V, p ∉ xs.toList ∧
    (var p ∈ b.names → (xs.toList.Pairwise fun x z => x = z → ¬W x) ∧ ((∃ x ∈ xs.toList, W x) → N))

/-- An application is ready if its children are. -/
theorem ready_app : Ready V W N (app e as) ↔ Ready V W N e ∧ ∀ a ∈ as, Ready V W N a := by
  simp only [Ready, mem_nodes_app, reduceCtorEq, false_or]
  constructor
  · intro h
    exact ⟨fun f xs b hb => h f xs b (.inl hb), fun a ha f xs b hb => h f xs b (.inr ⟨a, ha, hb⟩)⟩
  · rintro ⟨he, has⟩ f xs b (hb | ⟨a, ha, hb⟩)
    · exact he f xs b hb
    · exact has a ha f xs b hb

/-- A binding is ready if its body is and if the binding itself binds no
parameter and nothing twice that an argument brings in. -/
theorem ready_bind : Ready V W N (bind f xs b) ↔
    (∀ p ∈ V, p ∉ xs.toList ∧ (var p ∈ b.names →
      (xs.toList.Pairwise fun x z => x = z → ¬W x) ∧ ((∃ x ∈ xs.toList, W x) → N))) ∧
    Ready V W N b := by
  constructor
  · intro h
    refine ⟨h f xs b (self_mem_nodes _), fun g ys c hc => h g ys c ?_⟩
    exact mem_nodes_of_body hc
  · rintro ⟨hxs, hb⟩ g ys c hc
    rcases mem_nodes_bind.1 hc with h | h | ⟨x, -, h⟩ | hc
    · cases h
      exact hxs
    · cases h
    · cases h
    · exact hb g ys c hc

/-- What no parameter occurs in is ready for them. -/
theorem ready_of_not_mem (h : ∀ p ∈ V, p ∉ e.vars) : Ready V W N e := by
  intro f xs b hb p hp
  have hnot : p ∉ (bind f xs b).vars := fun hmem => h p hp (mem_vars_of_mem_nodes hb hmem)
  rw [mem_vars_bind, not_or] at hnot
  exact ⟨hnot.1, fun hfree => absurd (mem_vars_of_mem_names hfree) hnot.2⟩

/-- What has no children has no binding, so nothing is asked of it. -/
theorem ready_of_atom (he : e.isCompound = false) : Ready V W N e := by
  intro f xs b hb
  cases e <;> simp [nodes, isCompound, isApp, isBind] at hb he

/-- No slot holds a parameter. -/
theorem Ready.not_mem_slots (h : Ready V W N e) (hp : p ∈ V) : p ∉ e.slots := by
  induction e with
  | app g as ihg ihas =>
    rw [ready_app] at h
    rw [mem_slots_app]
    rintro (hmem | ⟨a, ha, hmem⟩)
    · exact ihg h.1 hmem
    · exact ihas a ha (h.2 a ha) hmem
  | bind f xs b ih =>
    rw [ready_bind] at h
    rw [mem_slots_bind]
    rintro (hmem | hmem)
    · exact (h.1 p hp).1 hmem
    · exact ih h.2 hmem
  | _ => exact List.not_mem_nil

/-- A variable in `W` may be renamed to a new one that is no parameter. -/
theorem Ready.rename (h : Ready V W N e) (hx : W x) (hN : N) (hV : y ∉ V) (hy : y ∉ e.vars) :
    Ready V W N (e.rename x y) := by
  induction e with
  | var z => exact ready_of_atom rfl
  | app g as ihg ihas =>
    rw [mem_vars_app, not_or] at hy
    rw [ready_app] at h
    rw [Expr.rename, renameAll_eq_map, ready_app, List.forall_mem_map]
    exact ⟨ihg h.1 hy.1, fun a ha => ihas a ha (h.2 a ha) fun hmem => hy.2 ⟨a, ha, hmem⟩⟩
  | bind f xs b ih =>
    rw [mem_vars_bind, not_or] at hy
    rw [ready_bind] at h
    rw [Expr.rename, ready_bind]
    refine ⟨fun p hp => ⟨fun hmem => ?slot, fun hfree => ⟨?twice, fun _ => hN⟩⟩, ih h.2 hy.2⟩
    case slot =>
      rcases mem_toList_rename hmem with rfl | ⟨hmem, -⟩
      · exact hV hp
      · exact (h.1 p hp).1 hmem
    case twice =>
      have hfree : var p ∈ b.names := by
        rcases var_mem_names_rename hfree with rfl | hfree
        · exact absurd hp hV
        · exact hfree.1
      rw [toList_rename, List.pairwise_map]
      refine ((h.1 p hp).2 hfree).1.imp_of_mem fun {u w} hu hw huw heq => ?_
      have hne (t : Var) (ht : t ∈ xs.toList) : t ≠ y := fun h => hy.1 (h ▸ ht)
      obtain rfl := Var.renamed_injective (hne u hu) (hne w hw) heq
      by_cases hux : u = x
      · exact absurd (hux ▸ hx) (huw rfl)
      · rw [Var.renamed_of_ne hux]
        exact huw rfl
  | _ => exact h

/-- Giving way is not refused if each of the given variables is listed once. -/
theorem exists_freshen {zs : List Var} (hzs : ∀ z ∈ zs, z ∈ xs.toList) (hnodup : zs.Nodup) :
    ∃ ys c, freshen f r zs xs b = .ok (ys, c) := by
  induction zs generalizing xs b with
  | nil => exact ⟨xs, b, rfl⟩
  | cons z zs ih =>
    rw [List.forall_mem_cons] at hzs
    rw [List.nodup_cons] at hnodup
    rw [freshen, if_pos hzs.1]
    refine ih (fun w hw => ?_) hnodup.2
    rw [toList_rename]
    refine Var.mem_map_renamed_of_ne (hzs.2 w hw) ?_
    rintro rfl
    exact hnodup.1 hw

/-- **A binding that is ready gives way, and it stays ready.** -/
theorem Ready.clearOf (h : Ready (v :: V) W N (bind f xs b)) (hW : ∀ x, var x ∈ r.names → W x)
    (hN : N → ∀ p ∈ V, p.marked = true ∨ ¬p.Numbered 'x') :
    ∃ ys c, Expr.clearOf f (var v) r xs b = .ok (ys, c) ∧ Ready (v :: V) W N (bind f ys c) := by
  by_cases hfree : var v ∈ b.names
  · obtain ⟨hv, hbody⟩ := (ready_bind.1 h).1 v List.mem_cons_self
    obtain ⟨htwice, hcapture⟩ := hbody hfree
    rw [Expr.clearOf, if_pos (occursFree_var_iff.2 hfree)]
    have hnodup : (xs.toList.filter fun x => occursFree (var x) r).Nodup := by
      refine (htwice.filter _).imp_of_mem fun {u w} hu _ huw heq => ?_
      exact huw heq (hW u (mem_filter_occursFree.1 hu).2)
    obtain ⟨ys, c, hok⟩ := exists_freshen (f := f) (r := r) (b := b)
      (fun z hz => (mem_filter_occursFree.1 hz).1) hnodup
    refine ⟨ys, c, hok, ?_⟩
    -- the first parameter occurs all the time, so it is none of the new variables
    refine (freshen_keeps (P := fun ys c => v ∈ (bind f ys c).vars ∧ Ready (v :: V) W N (bind f ys c))
      (fun x hx zs d y hxs hy hzs => ?_) ⟨?_, h⟩ hok).2
    · obtain ⟨hvd, hd⟩ := hzs
      have hWx : W x := hW x (mem_filter_occursFree.1 hx).2
      have hn : N := hcapture ⟨x, (mem_filter_occursFree.1 hx).1, hWx⟩
      have hyV : y ∉ v :: V := by
        rintro (_ | ⟨_, hyV⟩)
        · exact hy.not_mem hvd
        · exact (hN hn y hyV).elim (fun h => Bool.false_ne_true (hy.unmarked.symm.trans h))
            fun h => h hy.numbered
      refine ⟨?_, hd.rename hWx hn hyV hy.not_mem⟩
      rw [← Expr.rename, vars_rename]
      refine Var.mem_map_renamed_of_ne hvd ?_
      rintro rfl
      exact ((ready_bind.1 hd).1 v List.mem_cons_self).1 hxs
    · exact mem_vars_bind.2 (.inr (mem_vars_of_mem_names hfree))
  · exact ⟨xs, b, clearOf_of_not_free (mt var_mem_freeNames_iff.1 hfree) (.inl ⟨v, rfl⟩), h⟩

/-- **The next argument.**  It may be put into a body that is ready if it holds
none of the parameters to come, and the result is ready for those. -/
theorem Ready.subst (h : Ready (v :: V) W N e) (hW : ∀ x, var x ∈ r.names → W x)
    (hN : N → ∀ p ∈ V, p.marked = true ∨ ¬p.Numbered 'x') (hr : ∀ p ∈ V, p ∉ r.vars) :
    ∃ q, e.subst (var v) r = .ok q ∧ Ready V W N q := by
  induction e using sizedInduct with
  | atom e he =>
    refine ⟨_, subst_atom he, ?_⟩
    split
    · exact ready_of_not_mem hr
    · exact ready_of_atom he
  | app g as ihg ihas =>
    rw [ready_app] at h
    obtain ⟨g', hg, hg'⟩ := ihg h.1
    obtain ⟨as', has⟩ := exists_forall₂ fun a ha => ihas a ha (h.2 a ha)
    refine ⟨app g' as', ?_, ready_app.2 ⟨hg', fun a ha => ?_⟩⟩
    · rw [subst_app, hg, mapM_eq_ok.2 (has.imp fun _ _ h => h.1)]
      rfl
    · obtain ⟨_, _, -, ha'⟩ := exists_of_forall₂ has a ha
      exact ha'
  | bind f xs b ih =>
    have hv : v ∉ xs.toList := ((ready_bind.1 h).1 v List.mem_cons_self).1
    have hbound : xs.bound? (var v) = none := bound?_eq_none fun x hx heq => hv (Expr.var.inj heq ▸ hx)
    obtain ⟨ys, c, hc, hyc⟩ := h.clearOf hW hN
    obtain ⟨hys, hready⟩ := ready_bind.1 hyc
    obtain ⟨d, hd, hd'⟩ := ih c (size_of_clearOf hc) hready
    refine ⟨bind f ys d, by rw [subst_bind hbound hc, hd]; rfl, ready_bind.2 ⟨fun p hp => ?_, hd'⟩⟩
    obtain ⟨hpys, hbody⟩ := hys p (List.mem_cons_of_mem _ hp)
    refine ⟨hpys, fun hfree => hbody ?_⟩
    -- a parameter in the new body was there before, as the argument holds none
    have hslot : ∀ x ∈ c.slots, var v ≠ var x := fun x hx heq =>
      hready.not_mem_slots List.mem_cons_self (Expr.var.inj heq ▸ hx)
    have hp' := mem_freeVars_subst (x := p) (.inl ⟨v, rfl⟩) hslot hd
    simp only [mem_freeVars_iff] at hp'
    rcases hp'.1 hfree with ⟨hpc, -⟩ | ⟨-, hpr⟩
    · exact hpc
    · exact absurd (mem_vars_of_mem_names hpr) (hr p hp)

/-- The forms of the arguments, with the parameters whose place they take. -/
def assigned (pairs : List (Var × Expr)) : List (Expr × Nameless) :=
  pairs.map fun pair => (var pair.1, pair.2.nameless)

/-- The parameters and the forms of the arguments, paired. -/
theorem assigned_zip (ws : List Var) (as : List Expr) :
    assigned (ws.zip as) = (ws.map var).zip (as.map nameless) := (List.zip_map ..).symm

/-- The first argument, put in before those of parameters that it does not
hold. -/
theorem nameless_of_subst {pairs : List (Var × Expr)} {a : Expr} (hslot : v ∉ e.slots)
    (hlater : ∀ p ∈ pairs.map Prod.fst, p ∉ a.vars) (h : e.subst (var v) a = .ok q)
    (hrest : r.nameless = q.nameless.replace (assigned pairs)) :
    r.nameless = e.nameless.replace (assigned ((v, a) :: pairs)) := by
  have hslot : ∀ x ∈ e.slots, var v ≠ var x := fun x hx heq => hslot (Expr.var.inj heq ▸ hx)
  have hform := namelessIn_subst (S := []) (.inl ⟨v, rfl⟩) hslot nofun (fun _ => nofun) h
  rw [hrest, nameless, hform]
  refine Nameless.replace_replace fun pair hpair => ?_
  obtain ⟨⟨p, a'⟩, hp, rfl⟩ := List.mem_map.1 hpair
  refine ⟨.inl ⟨p, rfl⟩, fun hmem => ?_⟩
  have hmem : var p ∈ a.names := (mem_names_namelessIn.1 hmem).1
  exact hlater p (List.mem_map_of_mem hp) (mem_vars_of_mem_names hmem)

/-- **Arguments put in one after another replace the parameters at once.** -/
theorem Ready.substEach {pairs : List (Var × Expr)} (h : Ready (pairs.map Prod.fst) W N e)
    (hW : ∀ pair ∈ pairs, ∀ x, var x ∈ pair.2.names → W x)
    (hN : N → ∀ p ∈ (pairs.map Prod.fst).tail, p.marked = true ∨ ¬p.Numbered 'x')
    (hlater : pairs.Pairwise fun pair pair' => pair'.1 ∉ pair.2.vars) :
    ∃ q, e.substEach pairs = .ok q ∧ q.nameless = e.nameless.replace (assigned pairs) := by
  induction pairs generalizing e with
  | nil => exact ⟨e, rfl, (Nameless.replace_of_not_mem (by simp [assigned])).symm⟩
  | cons pair pairs ih =>
    obtain ⟨v, a⟩ := pair
    rw [List.forall_mem_cons] at hW
    rw [List.pairwise_cons] at hlater
    have hlater' : ∀ p ∈ pairs.map Prod.fst, p ∉ a.vars := by simpa using hlater.1
    obtain ⟨q, hq, hready⟩ := Ready.subst h hW.1 hN hlater'
    obtain ⟨q', hq', hform⟩ := ih hready hW.2
      (fun hn p hp => hN hn p (List.mem_of_mem_tail hp)) hlater.2
    refine ⟨q', by rw [Expr.substEach, hq]; exact hq', ?_⟩
    exact nameless_of_subst (h.not_mem_slots List.mem_cons_self) hlater' hq hform

/-- The parameters `xs` of a function with the body `b` are told apart from all
that the arguments `as` and the bindings of the body bring in. -/
structure Separate (xs : Binders) (b : Expr) (as : List Expr) : Prop where
  distinct : xs.toList.Nodup
  length : xs.length = as.length
  /-- No parameter occurs in an argument before its own. -/
  later : (xs.toList.zip as).Pairwise fun pair pair' => pair'.1 ∉ pair.2.vars
  /-- No binding binds a parameter. -/
  unbound : ∀ x ∈ xs.toList, x ∉ b.slots
  /-- No binding around a parameter lists a variable twice that is free in an argument. -/
  once : ∀ f ys c, bind f ys c ∈ b.nodes → (∃ x ∈ xs.toList, x ∈ c.freeVars) →
    ys.toList.Pairwise fun y z => y = z → ∀ a ∈ as, y ∉ a.freeVars
  /-- If one around a parameter binds such a variable, no parameter but the first has a name that
  a bound variable may be renamed to. -/
  named : ∀ f ys c, bind f ys c ∈ b.nodes → (∃ x ∈ xs.toList, x ∈ c.freeVars) →
    (∃ y ∈ ys.toList, ∃ a ∈ as, y ∈ a.freeVars) → ∀ x ∈ xs.rest, x.marked = true ∨ ¬x.Numbered 'x'

/-- The body is ready for all arguments. -/
theorem Separate.ready (h : Separate xs b as) :
    Ready ((xs.toList.zip as).map Prod.fst) (fun y => ∃ a ∈ as, y ∈ a.freeVars)
      (∀ x ∈ ((xs.toList.zip as).map Prod.fst).tail, x.marked = true ∨ ¬x.Numbered 'x') b := by
  have hmap : (xs.toList.zip as).map Prod.fst = xs.toList := List.map_fst_zip (Nat.le_of_eq h.length)
  rw [hmap]
  intro f ys c hc p hp
  refine ⟨fun hmem => h.unbound p hp (mem_slots_of_mem_nodes hc p hmem), fun hfree => ?_⟩
  have hfree : ∃ x ∈ xs.toList, x ∈ c.freeVars := ⟨p, hp, mem_freeVars_iff.2 hfree⟩
  refine ⟨(h.once f ys c hc hfree).imp fun hyz heq ⟨a, ha, hy⟩ => hyz heq a ha hy, ?_⟩
  exact h.named f ys c hc hfree

/-- What is free in the argument of one parameter is free in one of the
arguments. -/
theorem exists_mem_freeVars_of_mem_zip {pair : Var × Expr} (h : pair ∈ xs.toList.zip as)
    (hx : var x ∈ pair.2.names) :
    ∃ a ∈ as, x ∈ a.freeVars :=
  ⟨pair.2, (List.of_mem_zip h).2, mem_freeVars_iff.2 hx⟩

/-- **A function of separate parameters.** -/
theorem Separate.betaReduce (h : Separate xs b as) :
    ∃ q, (R.lambda xs b).betaReduce R as = .ok q ∧
      q.nameless = b.nameless.replace (assigned (xs.toList.zip as)) := by
  obtain ⟨q, hq, hform⟩ := h.ready.substEach (fun _ hp _ => exists_mem_freeVars_of_mem_zip hp) id h.later
  exact ⟨q, (betaReduce_lambda h.length).trans hq, hform⟩

/-- What is replaced is what the function binds, so it depends on the form of
the function alone. -/
theorem replace_assigned_eq_openAt (hdistinct : xs.toList.Nodup) (hlen : xs.length = as.length) :
    b.nameless.replace (assigned (xs.toList.zip as)) =
      (b.namelessIn xs.toList.reverse).openAt (as.map nameless) 0 := by
  have hforms : xs.toList.length = (as.map nameless).length := by
    rw [List.length_map]
    exact hlen
  have hopen := openAt_namelessIn (e := b) (I := []) hdistinct hforms
  rw [assigned_zip]
  exact hopen.symm

end Expr
end SecondOrder
