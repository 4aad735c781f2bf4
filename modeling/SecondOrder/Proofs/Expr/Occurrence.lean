/-
# Where names stand

A name stands free at a position if that is no binder slot and no binding above
it binds the name (`Expr.FreeAt`).  The positions where names stand free are
those that `Expr.isFreeAt` finds (`Expr.isFreeAt_iff`), and the names that
stand free somewhere are those that recursion on the expression lists
(`Expr.mem_freeNames_iff`).

What is shown of positions step by step does not depend on what stands there,
but on which variables no binding above may bind (`Expr.ApartAt`).
-/

import SecondOrder.Proofs.Expr.Sweep

namespace SecondOrder

namespace Expr

variable {P : Var → Prop} {e f b n u part : Expr} {h : Sym} {xs : Binders} {as : List Expr} {q : Path} {i : Nat}

/-- The nodes are what stands at the positions. -/
theorem mem_nodes_iff : n ∈ e.nodes ↔ ∃ q, e.at? q = some n := by
  rw [← map_snd_walk, List.mem_map]
  constructor
  · rintro ⟨⟨q, _⟩, hq, rfl⟩
    exact ⟨q, mem_walk.1 hq⟩
  · rintro ⟨q, hq⟩
    exact ⟨(q, n), mem_walk.2 hq, rfl⟩

/-- `u` stands at the position `q`, in no binder slot and bound by no binding
above it. -/
structure FreeAt (e : Expr) (q : Path) (u : Expr) : Prop where
  node : e.at? q = some u
  outside : e.isBinderSlot q = false
  unbound : ∀ x ∈ e.bindersAlong q, var x ≠ u

/-- **A position is free if a name stands free at it.** -/
theorem isFreeAt_iff (hu : IsName u) (hnode : e.at? q = some u) : e.isFreeAt q = true ↔ e.FreeAt q u := by
  have hany : ((e.bindersAlong q).any fun x => some (var x) == e.at? q) = false ↔
      ∀ x ∈ e.bindersAlong q, var x ≠ u := by
    rw [List.any_eq_false, hnode]
    exact forall₂_congr fun x _ => not_congr (beq_name_iff hu)
  rw [isFreeAt, Bool.and_eq_true, Bool.not_eq_true', Bool.not_eq_true', hany]
  constructor
  · rintro ⟨houtside, hunbound⟩
    exact ⟨hnode, houtside, hunbound⟩
  · exact fun h => ⟨h.outside, h.unbound⟩

/-- `n` stands at the position `q`, in no binder slot and under no binding of a
variable with the property `P`. -/
structure ApartAt (P : Var → Prop) (e : Expr) (q : Path) (n : Expr) : Prop where
  node : e.at? q = some n
  outside : e.isBinderSlot q = false
  apart : ∀ x ∈ e.bindersAlong q, ¬P x

/-- A name stands free where it stands under no binding of its own. -/
theorem freeAt_iff : e.FreeAt q u ↔ ApartAt (fun x => var x = u) e q u :=
  ⟨fun h => ⟨h.node, h.outside, h.unbound⟩, fun h => ⟨h.node, h.outside, h.apart⟩⟩

/-! ## Step by step -/

/-- The variables that the node binds. -/
def boundHere : Expr → List Var
  | bind _ xs _ => xs.toList
  | _ => []

/-- A path leads on in the part that its first step leads to. -/
theorem at?_cons (hpart : e.parts[i]? = some part) (q : Path) : e.at? (i :: q) = part.at? q := by
  rw [at?, hpart]

/-- It leads nowhere if there is no such part. -/
theorem at?_cons_eq_some : e.at? (i :: q) = some n ↔ ∃ part, e.parts[i]? = some part ∧ part.at? q = some n := by
  cases hpart : e.parts[i]? with
  | none => simp [at?, hpart]
  | some part => simp [at?_cons hpart]

/-- What binds along a path binds at the outermost node or further in. -/
theorem bindersAlong_cons (hpart : e.parts[i]? = some part) (q : Path) :
    e.bindersAlong (i :: q) = e.boundHere ++ part.bindersAlong q := by
  cases e <;> simp only [bindersAlong, boundHere, hpart]

/-- A path of one step leads to a slot if that step does. -/
theorem isBinderSlot_singleton (e : Expr) (i : Nat) : e.isBinderSlot [i] = e.isSlotStep i := rfl

/-- A longer path does so if the rest of it does, in the part where it goes
on. -/
theorem isBinderSlot_cons (hpart : e.parts[i]? = some part) (hq : q ≠ []) :
    e.isBinderSlot (i :: q) = part.isBinderSlot q := by
  obtain ⟨j, p, rfl⟩ := List.exists_cons_of_ne_nil hq
  rw [isBinderSlot, isBinderSlot, List.getLast?_cons_cons, List.dropLast_cons_cons, at?_cons hpart]

/-- At the root. -/
theorem apartAt_nil : ApartAt P e [] n ↔ e = n :=
  ⟨fun h => Option.some.inj h.node, fun h => ⟨congrArg some h, rfl, List.forall_mem_nil _⟩⟩

/-- In a part, which is no slot and where the node above binds no such
variable. -/
theorem apartAt_cons : ApartAt P e (i :: q) n ↔ ∃ part, e.parts[i]? = some part ∧ ApartAt P part q n ∧
    (q = [] → e.isSlotStep i = false) ∧ ∀ x ∈ e.boundHere, ¬P x := by
  constructor
  · intro h
    obtain ⟨part, hpart, hnode⟩ := at?_cons_eq_some.1 h.node
    have hapart := h.apart
    rw [bindersAlong_cons hpart, List.forall_mem_append] at hapart
    refine ⟨part, hpart, ⟨hnode, ?_, hapart.2⟩, fun hq => ?_, hapart.1⟩
    · by_cases hq : q = []
      · rw [hq]
        rfl
      · exact isBinderSlot_cons hpart hq ▸ h.outside
    · have houtside := h.outside
      rwa [hq, isBinderSlot_singleton] at houtside
  · rintro ⟨part, hpart, h, hstep, hbound⟩
    refine ⟨at?_cons hpart q ▸ h.node, ?_, ?_⟩
    · by_cases hq : q = []
      · rw [hq, isBinderSlot_singleton]
        exact hstep hq
      · exact isBinderSlot_cons hpart hq ▸ h.outside
    · rw [bindersAlong_cons hpart, List.forall_mem_append]
      exact ⟨hbound, h.apart⟩

/-- In what has no parts nothing stands but itself. -/
theorem exists_apartAt_of_parts (hparts : e.parts = []) : (∃ q, ApartAt P e q n) ↔ e = n := by
  constructor
  · rintro ⟨_ | ⟨i, q⟩, hq⟩
    · exact apartAt_nil.1 hq
    · obtain ⟨part, hpart, -⟩ := apartAt_cons.1 hq
      rw [hparts] at hpart
      cases hpart
  · exact fun h => ⟨[], apartAt_nil.2 h⟩

/-- In an application stands the application and what stands in a child. -/
theorem exists_apartAt_app : (∃ q, ApartAt P (app f as) q n) ↔
    app f as = n ∨ (∃ q, ApartAt P f q n) ∨ ∃ a ∈ as, ∃ q, ApartAt P a q n := by
  constructor
  · rintro ⟨_ | ⟨i, q⟩, hq⟩
    · exact .inl (apartAt_nil.1 hq)
    · obtain ⟨part, hpart, hapart, -⟩ := apartAt_cons.1 hq
      rcases List.mem_cons.1 (List.mem_of_getElem? hpart) with rfl | ha
      · exact .inr (.inl ⟨q, hapart⟩)
      · exact .inr (.inr ⟨part, ha, q, hapart⟩)
  · rintro (h | ⟨q, hq⟩ | ⟨a, ha, q, hq⟩)
    · exact ⟨[], apartAt_nil.2 h⟩
    · exact ⟨0 :: q, apartAt_cons.2 ⟨f, rfl, hq, fun _ => rfl, List.forall_mem_nil _⟩⟩
    · obtain ⟨i, hi⟩ := List.getElem?_of_mem ha
      exact ⟨(i + 1) :: q, apartAt_cons.2 ⟨a, hi, hq, fun _ => rfl, List.forall_mem_nil _⟩⟩

/-- The slots of a binding stand between its head and its body. -/
theorem isSlotStep_bind (h : Sym) (xs : Binders) (b : Expr) (i : Nat) :
    (bind h xs b).isSlotStep i = decide (1 ≤ i ∧ i ≤ xs.length) := by
  rw [isSlotStep]
  exact decide_eq_decide.2 (by omega)

/-- The parts of a binding are its head, its slots and its body. -/
theorem of_parts_bind (hpart : (bind h xs b).parts[i]? = some part) :
    part = sym h ∨ (bind h xs b).isSlotStep i = true ∧ (∃ x, part = var x) ∨ part = b := by
  have hlen : (xs.toList.map var).length = xs.length := by rw [List.length_map, Binders.length_toList]
  cases i with
  | zero => exact .inl (Option.some.inj hpart).symm
  | succ i =>
    have hrest : (xs.toList.map var ++ [b])[i]? = some part := hpart
    by_cases hi : i < xs.length
    · rw [List.getElem?_append_left (hlen ▸ hi)] at hrest
      obtain ⟨x, -, rfl⟩ := List.mem_map.1 (List.mem_of_getElem? hrest)
      rw [isSlotStep_bind]
      exact .inr (.inl ⟨decide_eq_true ⟨Nat.succ_pos i, hi⟩, x, rfl⟩)
    · rw [List.getElem?_append_right (hlen ▸ Nat.le_of_not_lt hi)] at hrest
      exact .inr (.inr (List.mem_singleton.1 (List.mem_of_getElem? hrest)))

/-- In a binding stands the binding and, if it binds no such variable, its head
and what stands in its body. -/
theorem exists_apartAt_bind : (∃ q, ApartAt P (bind h xs b) q n) ↔
    bind h xs b = n ∨ (∀ x ∈ xs.toList, ¬P x) ∧ (sym h = n ∨ ∃ q, ApartAt P b q n) := by
  constructor
  · rintro ⟨_ | ⟨i, q⟩, hq⟩
    · exact .inl (apartAt_nil.1 hq)
    · obtain ⟨part, hpart, hapart, hstep, hbound⟩ := apartAt_cons.1 hq
      rcases of_parts_bind hpart with rfl | ⟨hslot, x, rfl⟩ | rfl
      · exact .inr ⟨hbound, .inl ((exists_apartAt_of_parts rfl).1 ⟨q, hapart⟩)⟩
      · cases q with
        | nil => exact absurd ((hstep rfl).symm.trans hslot) Bool.false_ne_true
        | cons j p =>
          obtain ⟨part, hpart, -⟩ := apartAt_cons.1 hapart
          cases hpart
      · exact .inr ⟨hbound, .inr ⟨q, hapart⟩⟩
  · rintro (hn | ⟨hbound, hn | ⟨q, hq⟩⟩)
    · exact ⟨[], apartAt_nil.2 hn⟩
    · exact ⟨[0], apartAt_cons.2 ⟨sym h, rfl, apartAt_nil.2 hn, fun _ => isSlotStep_bind h xs b 0, hbound⟩⟩
    · refine ⟨(xs.length + 1) :: q, apartAt_cons.2 ⟨b, getElem?_parts_body h xs b, hq, fun _ => ?_, hbound⟩⟩
      rw [isSlotStep_bind, decide_eq_false_iff_not]
      omega

/-- No name is a compound expression. -/
theorem ne_of_isCompound (hu : IsName u) (he : e.isCompound = true) : e ≠ u := by
  rintro rfl
  obtain ⟨x, rfl⟩ | ⟨g, rfl⟩ := hu <;> cases he

/-- **The free names are those that stand free somewhere.** -/
theorem mem_freeNames_iff (hu : IsName u) : u ∈ e.freeNames ↔ ∃ q, e.FreeAt q u := by
  simp only [freeAt_iff]
  induction e with
  | var x => rw [exists_apartAt_of_parts rfl, freeNames, List.mem_singleton, eq_comm]
  | sym f => rw [exists_apartAt_of_parts rfl, freeNames, List.mem_singleton, eq_comm]
  | app f as ihf ihas =>
    rw [exists_apartAt_app, freeNames, freeNamesAll_eq_flatMap, List.mem_append, List.mem_flatMap, ihf,
      or_iff_right (ne_of_isCompound hu rfl)]
    exact or_congr_right (exists_congr fun a => and_congr_right fun ha => ihas a ha)
  | bind h xs b ih =>
    have hbinds : ¬xs.binds u = true ↔ ∀ x ∈ xs.toList, var x ≠ u := by
      constructor
      · rintro hfree x hx rfl
        exact hfree (Binders.binds_var.2 hx)
      · intro hbound hbinds
        obtain ⟨x, hx⟩ := Option.isSome_iff_exists.1 hbinds
        obtain ⟨rfl, hmem⟩ := Binders.bound?_eq_some.1 hx
        exact hbound x hmem rfl
    rw [exists_apartAt_bind, freeNames, List.mem_cons, List.mem_filter, Bool.not_eq_true', Bool.eq_false_iff,
      ne_eq, hbinds, ih, or_iff_right (ne_of_isCompound hu rfl)]
    constructor
    · rintro (rfl | ⟨hq, hbound⟩)
      · exact ⟨fun x _ => Expr.noConfusion, .inl rfl⟩
      · exact ⟨hbound, .inr hq⟩
    · rintro ⟨hbound, rfl | hq⟩
      · exact .inl rfl
      · exact .inr ⟨hq, hbound⟩
  | _ =>
    obtain ⟨x, rfl⟩ | ⟨g, rfl⟩ := hu <;> rw [exists_apartAt_of_parts rfl] <;> simp [freeNames]

end Expr

end SecondOrder
