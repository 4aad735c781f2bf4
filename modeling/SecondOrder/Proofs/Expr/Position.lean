/-
# Paths address nodes

A walk passes every path that leads to a node, each once.  The steps that a
caller counts from the start lead to a node exactly if they are such a path,
and it is the node of the walk (`Expr.mem_walk_iff_reach?`).

What is put at a path is found there (`Expr.at?_replaceAt_append`) and changes
nothing to the side (`Expr.at?_replaceAt_of_apart`); what stood there already
changes nothing at all (`Expr.replaceAt_self`), and of two replacements the
second counts (`Expr.replaceAt_replaceAt`).  These are inductions on the path,
with what `Expr.setPart` keeps at each step.

Only the last step can refuse: whatever stands further up has parts, so it is
no head and in no slot (`Expr.replaceAt_concat_eq_error_iff`).  The nodes on
the way are those that the checked constructors build anew
(`Operand.replaceAt_eq_rebuildAt`).
-/

import Mathlib
import SecondOrder.Proofs.Expr.Freeness
import SecondOrder.Proofs.Expr.Parts

namespace SecondOrder

open SecondOrder.Expr

namespace Expr

variable {e e' n node old part : Expr} {p q : Path} {i : Nat} {fault : Fault} {steps : List Int}

/-- A path leads to where its end leads from where its beginning does. -/
theorem at?_append (e : Expr) (p q : Path) : e.at? (p ++ q) = (e.at? p).bind (·.at? q) := by
  induction p generalizing e with
  | nil => rfl
  | cons i p ih =>
    rw [List.cons_append, at?, at?]
    cases e.parts[i]? with
    | none => rfl
    | some part => exact ih part

/-! ## Replacement along a path -/

/-- To replace below a part is to replace in the part and to exchange it. -/
theorem replaceAt_cons (hpart : e.parts[i]? = some part) (p : Path) (n : Expr) :
    e.replaceAt (i :: p) n = part.replaceAt p n >>= e.setPart i := by
  rw [replaceAt, hpart]

/-- A replacement below a part goes through if it does in the part, and the
part may be exchanged for the result. -/
theorem replaceAt_cons_eq_ok : e.replaceAt (i :: p) n = .ok e' ↔
    ∃ part new, e.parts[i]? = some part ∧ part.replaceAt p n = .ok new ∧ e.setPart i new = .ok e' := by
  cases hpart : e.parts[i]? with
  | none =>
    rw [replaceAt, hpart]
    simp
  | some part =>
    rw [replaceAt_cons hpart, bind_eq_ok]
    simp

/-- A path in two halves: what comes of the lower one is put where the upper
one leads. -/
theorem replaceAt_append (hnode : e.at? q = some node) (p : Path) (n : Expr) :
    e.replaceAt (q ++ p) n = node.replaceAt p n >>= e.replaceAt q := by
  induction q generalizing e with
  | nil =>
    cases hnode
    exact (bind_pure _).symm
  | cons i q ih =>
    obtain ⟨part, hpart, hnode⟩ := at?_cons_eq_some.1 hnode
    rw [List.cons_append, replaceAt_cons hpart, ih hnode, bind_assoc]
    exact bind_congr fun new => (replaceAt_cons hpart q new).symm

/-- **At the path and below** stands what stands in the new node. -/
theorem at?_replaceAt_append (h : e.replaceAt p n = .ok e') (q : Path) : e'.at? (p ++ q) = n.at? q := by
  induction p generalizing e e' with
  | nil =>
    cases h
    rfl
  | cons i p ih =>
    obtain ⟨part, new, hpart, hnew, hset⟩ := replaceAt_cons_eq_ok.1 h
    exact (at?_cons (part_of_setPart (lt_of_part hpart) hset) _).trans (ih hnew)

/-- **To the side of the path** everything stays. -/
theorem at?_replaceAt_of_apart (h : e.replaceAt p n = .ok e') (hqp : ¬q <+: p) (hpq : ¬p <+: q) :
    e'.at? q = e.at? q := by
  induction p generalizing e e' q with
  | nil => exact absurd List.nil_prefix hpq
  | cons i p ih =>
    obtain ⟨part, new, hpart, hnew, hset⟩ := replaceAt_cons_eq_ok.1 h
    have hi := lt_of_part hpart
    cases q with
    | nil => exact absurd List.nil_prefix hqp
    | cons j q =>
      by_cases hij : i = j
      · subst hij
        rw [at?_cons (part_of_setPart hi hset), at?_cons hpart]
        refine ih hnew (fun hqp' => hqp ?_) fun hpq' => hpq ?_
        · exact List.cons_prefix_cons.2 ⟨rfl, hqp'⟩
        · exact List.cons_prefix_cons.2 ⟨rfl, hpq'⟩
      · rw [at?, at?, ((setPart_eq_ok_iff hi).1 hset).2, List.getElem?_set_ne hij]

/-- **What stood at the path** changes nothing. -/
theorem replaceAt_self (h : e.at? p = some old) : e.replaceAt p old = .ok e := by
  induction p generalizing e with
  | nil =>
    cases h
    rfl
  | cons i p ih =>
    obtain ⟨part, hpart, hold⟩ := at?_cons_eq_some.1 h
    rw [replaceAt_cons hpart, ih hold]
    exact setPart_self hpart

/-- **The second of two replacements** counts, also if it is refused. -/
theorem replaceAt_replaceAt (h : e.replaceAt p n = .ok e') (k : Expr) : e'.replaceAt p k = e.replaceAt p k := by
  induction p generalizing e e' with
  | nil => rfl
  | cons i p ih =>
    obtain ⟨part, new, hpart, hnew, hset⟩ := replaceAt_cons_eq_ok.1 h
    have hi := lt_of_part hpart
    rw [replaceAt_cons (part_of_setPart hi hset), replaceAt_cons hpart, ih hnew]
    exact bind_congr fun last => setPart_setPart hi hset last

/-! ## What is refused -/

/-- The path ends in the head of a binding. -/
def EndsInHead (e : Expr) (q : Path) : Prop := ∃ p f xs b, q = p ++ [0] ∧ e.at? p = some (bind f xs b)

/-- `n` may not stand at the path: a head is a symbol, and a slot holds a
variable. -/
def Misplaced (e : Expr) (p : Path) (n : Expr) : Prop :=
  e.EndsInHead p ∧ n.isSym = false ∨ e.EndsInSlot p ∧ n.isVar = false

/-- A path ends in a head if its last step is the first of a binding. -/
theorem endsInHead_concat (hnode : e.at? q = some node) :
    e.EndsInHead (q ++ [i]) ↔ node.isBind = true ∧ i = 0 := by
  constructor
  · rintro ⟨q', f, xs, b, hq, hbind⟩
    obtain ⟨rfl, hi⟩ := List.append_inj' hq rfl
    obtain rfl := Option.some.inj (hnode.symm.trans hbind)
    exact ⟨rfl, List.singleton_inj.1 hi⟩
  · rintro ⟨hbind, rfl⟩
    cases node <;> cases hbind
    exact ⟨q, _, _, _, rfl, hnode⟩

/-- A path ends in a slot if its last step leads to a slot of the node
before. -/
theorem endsInSlot_concat (hnode : e.at? q = some node) : e.EndsInSlot (q ++ [i]) ↔ node.isSlotStep i = true := by
  rw [← isBinderSlot_iff, isBinderSlot, List.getLast?_concat, List.dropLast_concat, hnode]
  rfl

/-- Whether something may stand at the end of a path is decided by the node
before the last step alone. -/
theorem misplaced_concat (hnode : e.at? q = some node) :
    e.Misplaced (q ++ [i]) n ↔ ∃ fault, node.Misfit i n fault := by
  rw [Misplaced, endsInHead_concat hnode, endsInSlot_concat hnode]
  constructor
  · rintro (⟨⟨hbind, first⟩, other⟩ | ⟨step, other⟩)
    · exact ⟨_, .head hbind first other⟩
    · exact ⟨_, .slot step other⟩
  · rintro ⟨fault, h⟩
    cases h with
    | head hbind first other => exact .inl ⟨⟨hbind, first⟩, other⟩
    | slot step other => exact .inr ⟨step, other⟩

/-- Anything may stand at the root. -/
theorem not_misplaced_nil (e n : Expr) : ¬e.Misplaced [] n := by
  rintro (⟨⟨p, f, xs, b, hp, -⟩, -⟩ | ⟨⟨p, i, f, xs, b, hp, -⟩, -⟩) <;> simp at hp

/-- A node from which a step leads has parts. -/
theorem parts_ne_nil_of_at? (h : e.at? (i :: p) = some n) : e.parts ≠ [] := by
  obtain ⟨part, hpart, -⟩ := at?_cons_eq_some.1 h
  exact List.ne_nil_of_mem (List.mem_of_getElem? hpart)

/-- Where a node with parts stands anything may stand. -/
theorem exists_replaceAt_of_parts (hnode : e.at? q = some node) (hparts : node.parts ≠ []) (n : Expr) :
    ∃ e', e.replaceAt q n = .ok e' := by
  induction q generalizing e with
  | nil => exact ⟨n, rfl⟩
  | cons i q ih =>
    obtain ⟨part, hpart, hnode⟩ := at?_cons_eq_some.1 hnode
    have hcompound : part.parts ≠ [] := by
      cases q with
      | nil =>
        cases hnode
        exact hparts
      | cons j q => exact parts_ne_nil_of_at? hnode
    obtain ⟨new, hnew⟩ := ih hnode
    rcases setPart_cases (lt_of_part hpart) new with ⟨e', hset, -⟩ | ⟨fault, -, hfault⟩
    · exact ⟨e', replaceAt_cons_eq_ok.2 ⟨part, new, hpart, hnew, hset⟩⟩
    · exact absurd hfault (not_misfit_of_parts hpart hcompound)

/-- **Only the last step can refuse.** -/
theorem replaceAt_concat_eq_error_iff (hnode : e.at? q = some node) (hi : i < node.parts.length) :
    e.replaceAt (q ++ [i]) n = .error fault ↔ node.Misfit i n fault := by
  obtain ⟨part, hpart⟩ : ∃ part, node.parts[i]? = some part := ⟨_, List.getElem?_eq_getElem hi⟩
  have hlast : node.replaceAt [i] n = node.setPart i n := replaceAt_cons hpart [] n
  rw [← setPart_eq_error_iff hi, replaceAt_append hnode, hlast]
  cases node.setPart i n with
  | error => rfl
  | ok new =>
    have hparts : node.parts ≠ [] := List.ne_nil_of_mem (List.mem_of_getElem? hpart)
    obtain ⟨e', he'⟩ := exists_replaceAt_of_parts hnode hparts new
    refine iff_of_false (fun h => ?_) fun h => (by cases h)
    cases he'.symm.trans h

/-- **What is refused at a path is misplaced there,** and the fault is an
invalid argument. -/
theorem replaceAt_error (hold : e.at? p = some old) :
    (e.Misplaced p n ↔ ∃ fault, e.replaceAt p n = .error fault) ∧
      ∀ fault, e.replaceAt p n = .error fault → fault.kind = .invalidArgument := by
  rcases List.eq_nil_or_concat' p with rfl | ⟨q, i, rfl⟩
  · refine ⟨iff_of_false (not_misplaced_nil e n) ?_, fun fault h => (by cases h)⟩
    rintro ⟨fault, h⟩
    cases h
  · obtain ⟨node, hnode, hold⟩ := Option.bind_eq_some_iff.1 ((at?_append e q [i]).symm.trans hold)
    obtain ⟨part, hpart, -⟩ := at?_cons_eq_some.1 hold
    simp only [misplaced_concat hnode, replaceAt_concat_eq_error_iff hnode (lt_of_part hpart), true_and]
    intro fault h
    cases h <;> rfl

/-! ## Steps from either end -/

/-- The node that steps lead to, of which a negative one counts from the
end. -/
def reach? (e : Expr) (steps : List Int) : Option Expr := (e.place? steps).map Place.node

/-- Steps that may count from the end lead where the path leads to which they
resolve. -/
theorem reach?_eq_some : e.reach? steps = some n ↔ ∃ p, e.resolve steps = some p ∧ e.at? p = some n := by
  rw [reach?, place?]
  cases hp : e.resolve steps with
  | none => simp
  | some p => cases hn : e.at? p <;> simp [hn]

/-- Steps that count from the beginning resolve to themselves, as long as there
are parts. -/
theorem resolve_ofNat (h : e.at? p = some n) : e.resolve (p.map Int.ofNat) = some p := by
  induction p generalizing e with
  | nil => rfl
  | cons i p ih =>
    obtain ⟨part, hpart, hn⟩ := at?_cons_eq_some.1 h
    have hstep : resolveStep e.parts.length (Int.ofNat i) = some i := by
      rw [resolveStep, if_pos ⟨Int.natCast_nonneg i, Int.ofNat_lt.2 (lt_of_part hpart)⟩]
      rfl
    rw [List.map_cons, resolve, hstep]
    simp [hpart, ih hn]

/-- Only negative steps are resolved to others. -/
theorem eq_of_resolve (h : e.resolve steps = some p) (hsteps : ∀ i ∈ steps, 0 ≤ i) : steps = p.map Int.ofNat := by
  induction steps generalizing e p with
  | nil =>
    cases h
    rfl
  | cons i steps ih =>
    rw [List.forall_mem_cons] at hsteps
    rw [resolve] at h
    obtain ⟨j, hj, h⟩ := Option.bind_eq_some_iff.1 h
    obtain ⟨part, hpart, h⟩ := Option.bind_eq_some_iff.1 h
    obtain ⟨q, hq, h⟩ := Option.bind_eq_some_iff.1 h
    cases h
    have hij : i = Int.ofNat j := by
      rw [resolveStep] at hj
      split at hj
      · cases hj
        exact (Int.toNat_of_nonneg hsteps.1).symm
      · rw [if_neg fun hneg => Int.not_lt.2 hsteps.1 hneg.1] at hj
        cases hj
    rw [List.map_cons, ← hij, ← ih hq hsteps.2]

/-- **Steps from the start lead where the walk passes.** -/
theorem mem_walk_iff_reach? : (∃ p, steps = p.map Int.ofNat ∧ (p, n) ∈ e.walk) ↔
    (∀ i ∈ steps, 0 ≤ i) ∧ e.reach? steps = some n := by
  rw [reach?_eq_some]
  constructor
  · rintro ⟨p, rfl, hp⟩
    have hn := mem_walk.1 hp
    exact ⟨List.forall_mem_map.2 fun i _ => Int.natCast_nonneg i, p, resolve_ofNat hn, hn⟩
  · rintro ⟨hsteps, p, hp, hn⟩
    exact ⟨p, eq_of_resolve hp hsteps, mem_walk.2 hn⟩

end Expr

/-! ## Every node on the way built anew -/

namespace Operand

variable {e part : Expr} {i : Nat}

/-- Exchanges the node at a path for an operand and builds every node above it
anew from its parts. -/
def rebuildAt (e : Expr) (p : Path) (new : Operand) : Except Fault Operand :=
  match p with
  | [] => .ok new
  | i :: p => match e.parts[i]? with
    | some part => do
      let inner ← rebuildAt part p new
      expr <$> rebuild (expr e) ((e.parts.map expr).set i inner)
    | none => .error .outOfRange

/-- To replace below a part, with operands that are checked, is to replace in
the part and to build the node anew. -/
theorem replaceAt_cons (hpart : e.parts[i]? = some part) (p : Path) (new : Operand) :
    replaceAt e (i :: p) new = replaceAt part p new >>= fun inner => expr <$> setPart e i inner := by
  cases new with
  | expr n =>
    have hstep : e.replaceAt (i :: p) n = part.replaceAt p n >>= e.setPart i := Expr.replaceAt_cons hpart p n
    rw [replaceAt, replaceAt, hstep]
    cases part.replaceAt p n <;> rfl
  | text s =>
    rcases List.eq_nil_or_concat' p with rfl | ⟨q, j, rfl⟩
    · rw [replaceAt, List.getLast?_singleton]
      dsimp only
      rw [at?_cons hpart]
      rfl
    · have hlast : (i :: (q ++ [j])).getLast? = some j := by rw [← List.cons_append, List.getLast?_concat]
      have hinit : (i :: (q ++ [j])).dropLast = i :: q := by rw [← List.cons_append, List.dropLast_concat]
      rw [replaceAt, replaceAt, hlast, hinit, List.getLast?_concat, List.dropLast_concat]
      dsimp only
      rw [at?_cons hpart, at?_cons hpart]
      cases part.at? (q ++ [j]) with
      | none => rfl
      | some => cases part.at? q <;> rfl

/-- A step to a part that is not there is refused, whatever would have been put
in. -/
theorem replaceAt_of_no_part (hpart : e.parts[i]? = none) (p : Path) (new : Operand) :
    replaceAt e (i :: p) new = .error .outOfRange := by
  cases new with
  | expr n =>
    have hstep : e.replaceAt (i :: p) n = .error .outOfRange := by rw [Expr.replaceAt, hpart]
    rw [replaceAt, hstep]
    rfl
  | text s =>
    have hnode : e.at? (i :: p) = none := by rw [Expr.at?, hpart]
    rw [replaceAt, List.getLast?_cons]
    dsimp only
    rw [hnode]

/-- **A replacement builds every node above it anew.** -/
theorem replaceAt_eq_rebuildAt (e : Expr) (p : Path) (new : Operand) : replaceAt e p new = rebuildAt e p new := by
  induction p generalizing e with
  | nil => cases new <;> rfl
  | cons i p ih =>
    rw [rebuildAt]
    cases hpart : e.parts[i]? with
    | none => exact replaceAt_of_no_part hpart p new
    | some part =>
      rw [replaceAt_cons hpart, ih]
      exact bind_congr fun inner => by rw [rebuild_set (lt_of_part hpart)]

end Operand

namespace Expr

/-- **Paths address nodes lawfully.**  A walk passes no path twice, and the
steps from the start that lead to a node are the paths that it passes with that
node.  At such a path the node that stands there can be put back, and another
one `n` is refused, as an invalid argument, exactly if it is no symbol and
would head a binding or is no variable and would fill a slot.  If it is not
refused, `n` stands at the path afterwards, every node of the walk whose path
is no prefix and no extension of it is the one that was there, and what is put
at the path next comes to the same as if `n` had never been put there.
Whatever operand is put at a path, the nodes above are built anew by the
checked constructors. -/
theorem path_laws (e : Expr) :
    (e.walk.map Prod.fst).Nodup ∧
    (∀ steps n, (∃ p, steps = p.map Int.ofNat ∧ (p, n) ∈ e.walk) ↔
      (∀ i ∈ steps, 0 ≤ i) ∧ e.reach? steps = some n) ∧
    (∀ p old, (p, old) ∈ e.walk → e.replaceAt p old = .ok e ∧
      ∀ n, ((∃ fault, e.replaceAt p n = .error fault ∧ fault.kind = .invalidArgument) ↔ e.Misplaced p n) ∧
        (¬e.Misplaced p n → ∃ e', e.replaceAt p n = .ok e' ∧ e'.at? p = some n ∧
          (∀ q m, (q, m) ∈ e.walk → ¬q <+: p → ¬p <+: q → e'.at? q = some m) ∧
          ∀ k, e'.replaceAt p k = e.replaceAt p k)) ∧
    ∀ p new, Operand.replaceAt e p new = Operand.rebuildAt e p new := by
  refine ⟨(pairwise_walk e).imp fun hlt => ne_of_lt hlt, fun steps n => mem_walk_iff_reach?, fun p old hp => ?_,
    Operand.replaceAt_eq_rebuildAt e⟩
  have hold := mem_walk.1 hp
  refine ⟨replaceAt_self hold, fun n => ?_⟩
  obtain ⟨hmisplaced, hkind⟩ := replaceAt_error (n := n) hold
  refine ⟨?_, fun hfits => ?_⟩
  · rw [hmisplaced]
    exact exists_congr fun fault => and_iff_left_of_imp (hkind fault)
  · cases h : e.replaceAt p n with
    | error fault => exact absurd (hmisplaced.2 ⟨fault, h⟩) hfits
    | ok e' =>
      refine ⟨e', rfl, ?_, fun q m hq hqp hpq => ?_, replaceAt_replaceAt h⟩
      · rw [← List.append_nil p, at?_replaceAt_append h]
        rfl
      · rw [at?_replaceAt_of_apart h hqp hpq]
        exact mem_walk.1 hq

end Expr
end SecondOrder
