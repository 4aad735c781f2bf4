/-
# Parts of a node

A node that has parts is determined by its class and its parts
(`Expr.eq_of_parts`).  To exchange one part is to keep the class and the other
parts (`Expr.setPart_eq_ok_iff`).  That can be refused for two reasons, told by
`Expr.Misfit`: what heads a binding is a symbol, and what stands in a slot is a
variable.

The node may as well be built anew from its parts through the checked
constructors, which look at every part.  All parts but the new one pass, so the
outcome is the same, whatever operand takes the place of the part
(`Operand.rebuild_set`).
-/

import Mathlib
import SecondOrder.Operand.Build
import SecondOrder.Proofs.Expr.Occurrence

namespace SecondOrder

namespace Binders

/-- The binders with `x` in slot `i`, counted from 0. -/
def set (xs : Binders) : Nat → Var → Binders
  | 0, x => ⟨x, xs.rest⟩
  | i + 1, x => ⟨xs.first, xs.rest.set i x⟩

/-- To set a slot of binders is to set a member of their list, the first slot
being the one at place 0. -/
theorem toList_set (xs : Binders) (i : Nat) (x : Var) : (xs.set i x).toList = xs.toList.set i x := by
  cases i <;> rfl

/-- Binders are told apart by their lists, since a list determines its first
member and its rest. -/
theorem toList_inj {xs ys : Binders} (h : xs.toList = ys.toList) : xs = ys := by
  obtain ⟨hfirst, hrest⟩ := List.cons.inj h
  exact congrArg₂ Binders.mk hfirst hrest

end Binders

namespace Expr

variable {a b c e e' k n part : Expr} {f : Sym} {xs : Binders} {i : Nat} {fault fault' : Fault}

/-- Every node is of its own class. -/
theorem sameKind_refl (e : Expr) : e.sameKind e = true := by
  cases e <;> rfl

/-- To be of one class does not depend on the order of the two nodes. -/
theorem sameKind_symm (hab : a.sameKind b = true) : b.sameKind a = true := by
  cases a <;> cases b <;> cases hab <;> rfl

/-- Two nodes of the class of a third are of one class. -/
theorem sameKind_trans (hab : a.sameKind b = true) (hbc : b.sameKind c = true) : a.sameKind c = true := by
  cases a <;> cases b <;> cases hab <;> cases c <;> cases hbc <;> rfl

/-- A binding has a head, its slots and a body for parts, so that the body is
the part after the slots. -/
theorem length_parts_bind (f : Sym) (xs : Binders) (b : Expr) : (bind f xs b).parts.length = xs.length + 2 := by
  simp [parts]

/-- **A node with parts is determined by its class and its parts.** -/
theorem eq_of_parts (hkind : e.sameKind e' = true) (hne : e.parts ≠ []) (hparts : e.parts = e'.parts) :
    e = e' := by
  cases e with
  | app g as =>
    cases e' with
    | app g' as' =>
      obtain ⟨rfl, rfl⟩ := List.cons.inj hparts
      rfl
    | _ => cases hkind
  | bind f xs b =>
    cases e' with
    | bind f' xs' b' =>
      obtain ⟨hhead, hrest⟩ := List.cons.inj hparts
      obtain ⟨hslots, hbody⟩ := List.append_inj' hrest rfl
      obtain rfl := Expr.sym.inj hhead
      obtain rfl := List.singleton_inj.1 hbody
      rw [Binders.toList_inj (List.map_injective_iff.2 (fun _ _ => Expr.var.inj) hslots)]
    | _ => cases hkind
  | _ => exact absurd rfl hne

/-- There are parts at the places below their number only. -/
theorem lt_of_part (hpart : e.parts[i]? = some part) : i < e.parts.length := (List.getElem?_eq_some_iff.1 hpart).1

/-- A node of the class of variables is a variable. -/
theorem isVar_iff : e.isVar = true ↔ ∃ x, e = var x := by
  cases e <;> simp [isVar]

/-! ## What may stand in a part -/

/-- Why `n` may not be part `i` of a node of the shape of `e`. -/
inductive Misfit (e : Expr) (i : Nat) (n : Expr) : Fault → Prop
  | head (binding : e.isBind = true) (first : i = 0) (other : n.isSym = false) : Misfit e i n (.headNotSymbol n)
  | slot (step : e.isSlotStep i = true) (other : n.isVar = false) : Misfit e i n (.binderNotVariable n)

/-- What heads a binding is a symbol.  A new head has to be one, too
(`Misfit.head`). -/
theorem isSym_of_head (hbind : e.isBind = true) (hpart : e.parts[0]? = some part) : part.isSym = true := by
  cases e <;> cases hbind
  cases hpart
  rfl

/-- What stands in a slot is a variable, and so has to be what takes its place
(`Misfit.slot`). -/
theorem isVar_of_slot (hstep : e.isSlotStep i = true) (hpart : e.parts[i]? = some part) : part.isVar = true := by
  cases e with
  | bind f xs b =>
    rw [isSlotStep_bind, decide_eq_true_eq] at hstep
    obtain ⟨j, rfl⟩ : ∃ j, i = j + 1 := ⟨i - 1, by omega⟩
    have hslots : (xs.toList.map var ++ [b])[j]? = some part := hpart
    rw [List.getElem?_append_left (by rw [List.length_map, Binders.length_toList]; omega)] at hslots
    obtain ⟨x, -, rfl⟩ := List.mem_map.1 (List.mem_of_getElem? hslots)
    rfl
  | _ => cases hstep

/-- What may not be a part is none. -/
theorem Misfit.not_part (h : e.Misfit i n fault) : e.parts[i]? ≠ some n := by
  intro hpart
  cases h with
  | head hbind first other =>
    subst first
    exact Bool.false_ne_true (other.symm.trans (isSym_of_head hbind hpart))
  | slot step other => exact Bool.false_ne_true (other.symm.trans (isVar_of_slot step hpart))

/-- Where a compound node stands anything may stand. -/
theorem not_misfit_of_parts (hpart : e.parts[i]? = some part) (hparts : part.parts ≠ []) :
    ¬e.Misfit i n fault := by
  have hatom : part.isSym = false ∧ part.isVar = false := by
    cases part with
    | app | bind => exact ⟨rfl, rfl⟩
    | _ => exact absurd rfl hparts
  intro h
  cases h with
  | head hbind first _ =>
    subst first
    exact Bool.false_ne_true (hatom.1.symm.trans (isSym_of_head hbind hpart))
  | slot step _ => exact Bool.false_ne_true (hatom.2.symm.trans (isVar_of_slot step hpart))

/-- A head is no slot. -/
theorem not_isSlotStep_zero (e : Expr) : e.isSlotStep (0 : Nat) = false := by
  cases e with
  | bind f xs b =>
    rw [isSlotStep_bind, decide_eq_false_iff_not]
    omega
  | _ => rfl

/-- No node is refused for both reasons at once, because a slot is never the
head.  So a refusal carries one fault. -/
theorem Misfit.unique (h : e.Misfit i n fault) (h' : e.Misfit i n fault') : fault = fault' := by
  cases h with
  | head _ first =>
    cases h' with
    | head => rfl
    | slot step' =>
      subst first
      exact absurd step' (Bool.eq_false_iff.1 (not_isSlotStep_zero e))
  | slot step =>
    cases h' with
    | head _ first' =>
      subst first'
      exact absurd step (Bool.eq_false_iff.1 (not_isSlotStep_zero e))
    | slot => rfl

/-- The nodes are of one class and have the same number of parts. -/
structure SameShape (e e' : Expr) : Prop where
  kind : e.sameKind e' = true
  length : e.parts.length = e'.parts.length

/-- Nodes of one shape are both bindings or both not. -/
theorem SameShape.isBind (h : e.SameShape e') : e.isBind = e'.isBind := by
  obtain ⟨hkind, -⟩ := h
  cases e <;> cases e' <;> cases hkind <;> rfl

/-- Nodes of one shape have their slots at the same places.  What may be
exchanged in the one may be exchanged in the other. -/
theorem SameShape.isSlotStep (h : e.SameShape e') (i : Nat) : e.isSlotStep i = e'.isSlotStep i := by
  obtain ⟨hkind, hlen⟩ := h
  cases e <;> cases e' <;> cases hkind
  case bind f xs b f' xs' b' =>
    rw [length_parts_bind, length_parts_bind] at hlen
    rw [isSlotStep_bind, isSlotStep_bind, Nat.add_right_cancel hlen]
  all_goals rfl

/-- What may stand in a part is decided by the shape of the node. -/
theorem SameShape.misfit (h : e.SameShape e') (hfault : e.Misfit i n fault) : e'.Misfit i n fault := by
  cases hfault with
  | head hbind first other => exact .head (h.isBind ▸ hbind) first other
  | slot step other => exact .slot (h.isSlotStep i ▸ step) other

/-! ## One part for another -/

/-- A slot takes any variable. -/
theorem setPart_slot (hi : i < xs.length) (x : Var) :
    (bind f xs b).setPart (i + 1) (var x) = .ok (bind f (xs.set i x) b) := by
  refine (if_pos hi).trans ?_
  cases i <;> rfl

/-- A slot takes nothing else, and the refusal names what was offered. -/
theorem setPart_slot_of_isVar (hi : i < xs.length) (hn : n.isVar = false) :
    (bind f xs b).setPart (i + 1) n = .error (.binderNotVariable n) := by
  refine (if_pos hi).trans ?_
  cases n with
  | var x => cases hn
  | _ => rfl

/-- The body of a binding gives way to anything. -/
theorem setPart_body (f : Sym) (xs : Binders) (b n : Expr) :
    (bind f xs b).setPart (xs.length + 1) n = .ok (bind f xs n) :=
  (if_neg (Nat.lt_irrefl _)).trans (if_pos rfl)

/-- Of the parts of a binding only the slot that was set is another afterwards,
counted with the head at place 0. -/
theorem parts_set_slot (hi : i < xs.length) (x : Var) :
    (bind f (xs.set i x) b).parts = (bind f xs b).parts.set (i + 1) (var x) := by
  have hslot : i < (xs.toList.map var).length := by rwa [List.length_map, Binders.length_toList]
  have hset : (xs.toList.map var).set i (var x) = (xs.set i x).toList.map var := by
    rw [Binders.toList_set, List.map_set]
  exact congrArg (sym f :: ·) ((congrArg (· ++ [b]) hset.symm).trans (List.set_append_left i _ hslot).symm)

/-- Of the parts of a binding only the body is another when the body is
exchanged. -/
theorem parts_set_body (f : Sym) (xs : Binders) (b n : Expr) :
    (bind f xs n).parts = (bind f xs b).parts.set (xs.length + 1) n := by
  have hlen : (sym f :: xs.toList.map var).length = xs.length + 1 := by simp
  have hset := List.set_append_right (xs.length + 1) n (Nat.le_of_eq hlen) (t := [b])
  rw [hlen, Nat.sub_self] at hset
  exact hset.symm

/-- **A part is exchanged unless the new one does not fit.** -/
theorem setPart_cases (hi : i < e.parts.length) (n : Expr) :
    (∃ e', e.setPart i n = .ok e' ∧ e.sameKind e' = true ∧ e'.parts = e.parts.set i n) ∨
      ∃ fault, e.setPart i n = .error fault ∧ e.Misfit i n fault := by
  cases e with
  | app g as =>
    left
    cases i with
    | zero => exact ⟨app n as, rfl, rfl, rfl⟩
    | succ i => exact ⟨app g (as.set i n), if_pos (Nat.lt_of_succ_lt_succ hi), rfl, rfl⟩
  | bind f xs b =>
    rw [length_parts_bind] at hi
    cases i with
    | zero =>
      cases n with
      | sym g => exact .inl ⟨bind g xs b, rfl, rfl, rfl⟩
      | _ => exact .inr ⟨_, rfl, .head rfl rfl rfl⟩
    | succ i =>
      rcases Nat.lt_trichotomy i xs.length with hlt | rfl | hgt
      · cases hn : n.isVar with
        | true =>
          obtain ⟨x, rfl⟩ := isVar_iff.1 hn
          exact .inl ⟨_, setPart_slot hlt x, rfl, parts_set_slot hlt x⟩
        | false =>
          refine .inr ⟨_, setPart_slot_of_isVar hlt hn, .slot ?_ hn⟩
          rw [isSlotStep_bind]
          exact decide_eq_true ⟨Nat.succ_pos i, hlt⟩
      · exact .inl ⟨_, setPart_body f xs b n, rfl, parts_set_body f xs b n⟩
      · omega
  | _ => exact absurd hi (Nat.not_lt_zero i)

/-- **What an exchange gives:** the node of the same class whose other parts
are as they were. -/
theorem setPart_eq_ok_iff (hi : i < e.parts.length) :
    e.setPart i n = .ok e' ↔ e.sameKind e' = true ∧ e'.parts = e.parts.set i n := by
  rcases setPart_cases hi n with ⟨made, hset, hkind, hparts⟩ | ⟨fault, hset, hfault⟩
  · rw [hset]
    constructor
    · intro h
      cases h
      exact ⟨hkind, hparts⟩
    · rintro ⟨hkind', hparts'⟩
      have hne : made.parts ≠ [] := by
        rw [hparts, ne_eq, List.set_eq_nil_iff]
        exact List.ne_nil_of_length_pos (Nat.zero_lt_of_lt hi)
      have hmade : made = e' :=
        eq_of_parts (sameKind_trans (sameKind_symm hkind) hkind') hne (hparts.trans hparts'.symm)
      rw [hmade]
  · rw [hset]
    refine ⟨fun h => (by cases h), ?_⟩
    rintro ⟨hkind, hparts⟩
    have hshape : e.SameShape e' := ⟨hkind, by rw [hparts, List.length_set]⟩
    refine absurd ?_ (hshape.misfit hfault).not_part
    rw [hparts, List.getElem?_set_self hi]

/-- The part is then the new one. -/
theorem part_of_setPart (hi : i < e.parts.length) (h : e.setPart i n = .ok e') : e'.parts[i]? = some n := by
  rw [((setPart_eq_ok_iff hi).1 h).2, List.getElem?_set_self hi]

/-- To exchange a part keeps the class of the node and the number of its
parts. -/
theorem sameShape_of_setPart (hi : i < e.parts.length) (h : e.setPart i n = .ok e') : e.SameShape e' := by
  obtain ⟨hkind, hparts⟩ := (setPart_eq_ok_iff hi).1 h
  exact ⟨hkind, by rw [hparts, List.length_set]⟩

/-- **Why an exchange is refused.** -/
theorem setPart_eq_error_iff (hi : i < e.parts.length) : e.setPart i n = .error fault ↔ e.Misfit i n fault := by
  rcases setPart_cases hi n with ⟨e', hset, -⟩ | ⟨fault', hset, hfault'⟩
  · rw [hset]
    refine ⟨fun h => (by cases h), fun hfault => ?_⟩
    exact absurd (part_of_setPart hi hset) ((sameShape_of_setPart hi hset).misfit hfault).not_part
  · rw [hset]
    constructor
    · intro h
      cases h
      exact hfault'
    · exact fun hfault => congrArg Except.error (hfault'.unique hfault)

/-- To put a part where it already stands changes nothing, and is never
refused. -/
theorem setPart_self (hpart : e.parts[i]? = some part) : e.setPart i part = .ok e := by
  obtain ⟨hi, rfl⟩ := List.getElem?_eq_some_iff.1 hpart
  exact (setPart_eq_ok_iff hi).2 ⟨sameKind_refl e, (List.set_getElem_self hi).symm⟩

/-- The part put in last counts: what was put in its place before leaves no
trace, and does not decide whether the exchange is refused. -/
theorem setPart_setPart (hi : i < e.parts.length) (h : e.setPart i n = .ok e') (k : Expr) :
    e'.setPart i k = e.setPart i k := by
  obtain ⟨hkind, hparts⟩ := (setPart_eq_ok_iff hi).1 h
  have hshape := sameShape_of_setPart hi h
  have hi' : i < e'.parts.length := hshape.length ▸ hi
  rcases setPart_cases hi k with ⟨last, hset, hkind', hparts'⟩ | ⟨fault, hset, hfault⟩
  · rw [hset, setPart_eq_ok_iff hi']
    exact ⟨sameKind_trans (sameKind_symm hkind) hkind', by rw [hparts', hparts, List.set_set]⟩
  · rw [hset, setPart_eq_error_iff hi']
    exact hshape.misfit hfault

end Expr

/-! ## Through the constructors -/

open SecondOrder.Expr

namespace Operand

variable {b e : Expr} {as : List Expr} {f : Sym} {xs : Binders} {i : Nat}

/-- Exchanges part `i` of a node for an operand. -/
def setPart (e : Expr) (i : Nat) : Operand → Except Fault Expr
  | expr n => e.setPart i n
  | text s => .error (textFault e i s)

/-- Slots that are read again give the same variables, and none is refused. -/
theorem mapM_binder_rest (xs : Binders) : (xs.rest.map (expr ∘ Expr.var)).mapM binder = .ok xs.rest :=
  mapM_map_of_ok (g := binder) (h := expr ∘ Expr.var) (fun _ => rfl) xs.rest

/-- A binding is built anew from its parts: the first is taken for the head,
the last for the body, and those between for the slots. -/
theorem rebuild_bind (head : Operand) (zs : List Operand) (body : Operand) :
    rebuild (expr (.bind f xs b)) (head :: (zs ++ [body])) = binding head zs body := by
  have hlast : (head :: (zs ++ [body])).getLast? = some body := by
    rw [← List.cons_append, List.getLast?_concat]
  simp only [rebuild, hlast, List.dropLast_concat]

/-- To build a binding with another head is to exchange its part at place 0,
with the same refusal where the head is no symbol. -/
theorem binding_set_head (new : Operand) : binding new (xs.toList.map (expr ∘ Expr.var)) (expr b) =
    setPart (.bind f xs b) 0 new := by
  have hbinding (g : Sym) : binding (expr (.sym g)) (xs.toList.map (expr ∘ Expr.var)) (expr b) = (do
      return .bind g ⟨xs.first, ← (xs.rest.map (expr ∘ Expr.var)).mapM binder⟩ b) := rfl
  cases new with
  | expr n =>
    cases n with
    | sym g =>
      rw [hbinding, mapM_binder_rest]
      rfl
    | _ => rfl
  | text s => rfl

/-- The constructor looks at what is put into a slot. -/
theorem binding_set (hi : i < xs.length) (new : Operand) :
    binding (expr (.sym f)) ((xs.toList.map (expr ∘ Expr.var)).set i new) (expr b) =
      new.binder.map fun x => .bind f (xs.set i x) b := by
  cases i with
  | zero =>
    have hbinding : binding (expr (.sym f)) (new :: xs.rest.map (expr ∘ Expr.var)) (expr b) = (do
        return .bind f ⟨← new.binder, ← (xs.rest.map (expr ∘ Expr.var)).mapM binder⟩ b) := rfl
    refine hbinding.trans ?_
    rw [mapM_binder_rest]
    cases new.binder <;> rfl
  | succ i =>
    have hset : ((xs.rest.map (expr ∘ Expr.var)).set i new).mapM binder = new.binder.map (xs.rest.set i ·) :=
      mapM_set_of_ok (g := binder) (h := expr ∘ Expr.var) (fun _ => rfl) (Nat.lt_of_succ_lt_succ hi) new
    have hbinding : binding (expr (.sym f)) (expr (.var xs.first) :: (xs.rest.map (expr ∘ Expr.var)).set i new)
        (expr b) = (do
          return .bind f ⟨xs.first, ← ((xs.rest.map (expr ∘ Expr.var)).set i new).mapM binder⟩ b) := rfl
    refine hbinding.trans ?_
    rw [hset]
    cases new.binder <;> rfl

/-- To build a binding with another variable in slot `i` is to exchange its
part at place `i + 1`.  The constructor has passed the head and the slots
before when it comes to what is new. -/
theorem binding_set_slot (hi : i < xs.length) (new : Operand) :
    binding (expr (.sym f)) ((xs.toList.map (expr ∘ Expr.var)).set i new) (expr b) =
      setPart (.bind f xs b) (i + 1) new := by
  rw [binding_set hi]
  cases new with
  | expr n =>
    cases hn : n.isVar with
    | true =>
      obtain ⟨x, rfl⟩ := isVar_iff.1 hn
      exact (setPart_slot hi x).symm
    | false =>
      refine Eq.trans ?_ (setPart_slot_of_isVar hi hn).symm
      cases n with
      | var x => cases hn
      | _ => rfl
  | text s => exact congrArg Except.error (if_pos hi).symm

/-- To build a binding with another body is to exchange its last part, which is
refused only for an operand that is no expression. -/
theorem binding_set_body (new : Operand) : binding (expr (.sym f)) (xs.toList.map (expr ∘ Expr.var)) new =
    setPart (.bind f xs b) (xs.length + 1) new := by
  have hbinding : binding (expr (.sym f)) (xs.toList.map (expr ∘ Expr.var)) new = (do
      return .bind f ⟨xs.first, ← (xs.rest.map (expr ∘ Expr.var)).mapM binder⟩ (← new.expression)) := rfl
  rw [hbinding, mapM_binder_rest]
  cases new with
  | expr n => exact (setPart_body f xs b n).symm
  | text s =>
    have hfault : textFault (.bind f xs b) (xs.length + 1) s = .notExpression s := by simp [textFault]
    exact congrArg Except.error hfault.symm

/-- An application built anew with one other part is the application with that
part exchanged, the head among them. -/
theorem rebuild_set_app (hi : i < (Expr.app e as).parts.length) (new : Operand) :
    rebuild (expr (.app e as)) (((Expr.app e as).parts.map expr).set i new) = setPart (.app e as) i new := by
  cases i with
  | zero =>
    have hargs : (as.map expr).mapM expression = .ok as :=
      mapM_map_of_ok (g := expression) (h := expr) (fun _ => rfl) as
    have hchildren : rebuild (expr (.app e as)) (new :: as.map expr) = (do
        return .app (← new.expression) (← (as.map expr).mapM expression)) := rfl
    refine hchildren.trans ?_
    rw [hargs]
    cases new <;> rfl
  | succ i =>
    have hi : i < as.length := Nat.lt_of_succ_lt_succ hi
    have hargs : ((as.map expr).set i new).mapM expression = new.expression.map (as.set i ·) :=
      mapM_set_of_ok (g := expression) (h := expr) (fun _ => rfl) hi new
    have hchildren : rebuild (expr (.app e as)) (expr e :: (as.map expr).set i new) = (do
        return .app e (← ((as.map expr).set i new).mapM expression)) := rfl
    refine hchildren.trans ?_
    rw [hargs]
    cases new with
    | expr n => exact (if_pos hi).symm
    | text s => rfl

/-- A binding built anew with one other part is the binding with that part
exchanged, be it the head, a slot or the body. -/
theorem rebuild_set_bind (hi : i < (Expr.bind f xs b).parts.length) (new : Operand) :
    rebuild (expr (.bind f xs b)) (((Expr.bind f xs b).parts.map expr).set i new) =
      setPart (.bind f xs b) i new := by
  have hparts : (Expr.bind f xs b).parts.map expr =
      expr (.sym f) :: (xs.toList.map (expr ∘ Expr.var) ++ [expr b]) := by
    simp [Expr.parts]
  have hlen : (xs.toList.map (expr ∘ Expr.var)).length = xs.length := List.length_map _
  rw [length_parts_bind] at hi
  rw [hparts]
  cases i with
  | zero => rw [List.set_cons_zero, rebuild_bind, binding_set_head]
  | succ i =>
    rw [List.set_cons_succ]
    rcases Nat.lt_trichotomy i xs.length with hlt | rfl | hgt
    · rw [List.set_append_left _ _ (hlen ▸ hlt), rebuild_bind, binding_set_slot hlt]
    · rw [List.set_append_right _ _ (Nat.le_of_eq hlen), hlen, Nat.sub_self, List.set_cons_zero, rebuild_bind,
        binding_set_body]
    · omega

/-- **To build a node anew with one part exchanged is to exchange the
part.** -/
theorem rebuild_set (hi : i < e.parts.length) (new : Operand) :
    rebuild (expr e) ((e.parts.map expr).set i new) = setPart e i new := by
  cases e with
  | app g as => exact rebuild_set_app hi new
  | bind f xs b => exact rebuild_set_bind hi new
  | _ => exact absurd hi (Nat.not_lt_zero i)

end Operand
end SecondOrder
