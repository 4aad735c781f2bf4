/-
# Nameless forms

`Expr.nameless` takes the names of bound variables away: a bound occurrence
becomes the number of slots that lie between it and its own, counted outwards.
Of a variable that a binding lists twice the last slot binds, being the
nearest.  Free names, heads of bindings and literals stay, floating-point zeros
by their value.

Two expressions have one form exactly if they are equal up to bound names
(`Expr.alphaEq_iff_nameless`), and a bound variable may be renamed to a new one
(`Expr.namelessIn_rename`).
-/

import SecondOrder.Proofs.Expr.Similar

namespace SecondOrder

/-- An expression without bound names. -/
inductive Nameless where
  | bound (i : Nat)
  | var (x : Var)
  | sym (f : Sym)
  | int (n : Int)
  | float (key : String)
  | str (s : String)
  | app (head : Nameless) (args : List Nameless)
  | bind (head : Sym) (slots : Nat) (body : Nameless)

namespace Nameless

/-- **Induction on forms**, with the hypothesis for every argument of an
application. -/
@[elab_as_elim, induction_eliminator]
theorem induct {P : Nameless → Prop} (bound : ∀ i, P (.bound i)) (var : ∀ x, P (.var x))
    (sym : ∀ f, P (.sym f)) (int : ∀ n, P (.int n)) (float : ∀ k, P (.float k))
    (str : ∀ s, P (.str s)) (app : ∀ t ts, P t → (∀ u ∈ ts, P u) → P (.app t ts))
    (bind : ∀ f k t, P t → P (.bind f k t)) (t : Nameless) : P t :=
  @Nameless.rec P (fun ts => ∀ u ∈ ts, P u) bound var sym int float str app bind
    (fun _ h => absurd h List.not_mem_nil)
    (fun _ _ hu hus v h => (List.mem_cons.1 h).elim (fun e => e ▸ hu) (hus v)) t

end Nameless

namespace Expr

variable {S T I : List Var} {x y z u v : Var} {a b e n : Expr}

/-- The variable `x` under the bound variables `S`, innermost first. -/
def place (S : List Var) (x : Var) : Nameless :=
  if x ∈ S then .bound (S.idxOf x) else .var x

mutual

/-- The form of an expression under the bound variables `S`, innermost
first. -/
def namelessIn (S : List Var) : Expr → Nameless
  | var x => place S x
  | sym f => .sym f
  | int n => .int n
  | float x => .float x.key
  | str s => .str s
  | app f as => .app (namelessIn S f) (namelessAllIn S as)
  | bind f xs b => .bind f xs.length (namelessIn (xs.toList.reverse ++ S) b)

def namelessAllIn (S : List Var) : List Expr → List Nameless
  | [] => []
  | a :: as => namelessIn S a :: namelessAllIn S as

end

/-- The form of an expression. -/
def nameless (e : Expr) : Nameless := e.namelessIn []

/-- The forms of arguments are taken one by one. -/
theorem namelessAllIn_eq_map (S : List Var) (as : List Expr) :
    namelessAllIn S as = as.map (namelessIn S) := by
  induction as with
  | nil => rfl
  | cons a as ih => rw [namelessAllIn, ih, List.map_cons]

/-! ## Places -/

/-- A variable that is bound around has the number of its innermost slot. -/
theorem place_of_mem (h : x ∈ S) : place S x = .bound (S.idxOf x) := if_pos h

/-- A variable that is not bound around is itself. -/
theorem place_of_not_mem (h : x ∉ S) : place S x = .var x := if_neg h

/-- Two places agree if both are the innermost slot, or neither is and they
agree further out. -/
theorem place_cons_eq_iff : place (u :: S) x = place (v :: T) y ↔
    x = u ∧ y = v ∨ x ≠ u ∧ y ≠ v ∧ place S x = place T y := by
  simp only [place, List.mem_cons, List.idxOf_cons]
  grind

/-- Slots renamed along with a variable to a new one keep its place. -/
theorem place_renamed (hI : y ∉ I) (hz : z ≠ y)
    (h : z ∉ I → place T (Var.renamed x y z) = place S z) :
    place (I.map (Var.renamed x y) ++ T) (Var.renamed x y z) = place (I ++ S) z := by
  induction I with
  | nil => exact h List.not_mem_nil
  | cons w I ih =>
    rw [List.mem_cons, not_or] at hI
    rw [List.map_cons, List.cons_append, List.cons_append, place_cons_eq_iff]
    by_cases hzw : z = w
    · exact .inl ⟨congrArg _ hzw, hzw⟩
    · refine .inr ⟨fun h => hzw (Var.renamed_injective hz (Ne.symm hI.1) h), hzw, ?_⟩
      exact ih hI.2 fun hzI => h (by simp [hzw, hzI])

/-- What is bound further out does not matter for a variable that is bound
further in. -/
theorem place_append (h : x ∉ I → place S x = place T x) : place (I ++ S) x = place (I ++ T) x := by
  by_cases hx : x ∈ I
  · simp [place, hx, List.idxOf_append]
  · have h := h hx
    simp only [place, List.mem_append, hx, List.idxOf_append, false_or] at h ⊢
    grind

/-- **The form depends on the places of the free variables.** -/
theorem namelessIn_congr (h : ∀ x, var x ∈ e.names → place S x = place T x) :
    e.namelessIn S = e.namelessIn T := by
  induction e generalizing S T with
  | var x => exact h x (List.mem_singleton.2 rfl)
  | app f as ihf ihas =>
    rw [namelessIn, namelessIn, namelessAllIn_eq_map, namelessAllIn_eq_map,
      ihf fun x hx => h x (mem_names_app.2 (.inl hx)),
      List.map_congr_left fun a ha => ihas a ha fun x hx => h x (mem_names_app.2 (.inr ⟨a, ha, hx⟩))]
  | bind f xs b ih =>
    rw [namelessIn, namelessIn, ih fun x hx => place_append fun hxs => h x ?_]
    refine mem_names_bind.2 ⟨hx, ?_⟩
    rintro y hy ⟨rfl⟩
    exact hxs (List.mem_reverse.2 hy)
  | _ => rfl

/-- **A variable renamed to a new one leaves the form as it is,** if it leaves
the places as they are. -/
theorem namelessIn_rename (hy : y ∉ e.vars)
    (h : ∀ z ∈ e.vars, place T (Var.renamed x y z) = place S z) :
    (e.rename x y).namelessIn T = e.namelessIn S := by
  induction e generalizing S T with
  | var z => exact h z (List.mem_singleton.2 rfl)
  | app f as ihf ihas =>
    rw [mem_vars_app, not_or] at hy
    have has (a : Expr) (ha : a ∈ as) : (a.rename x y).namelessIn T = a.namelessIn S :=
      ihas a ha (fun h => hy.2 ⟨a, ha, h⟩) fun z hz => h z (mem_vars_app.2 (.inr ⟨a, ha, hz⟩))
    rw [rename, namelessIn, namelessIn, renameAll_eq_map, namelessAllIn_eq_map,
      namelessAllIn_eq_map, List.map_map, ihf hy.1 fun z hz => h z (mem_vars_app.2 (.inl hz))]
    exact congrArg _ (List.map_congr_left has)
  | bind f xs b ih =>
    rw [mem_vars_bind, not_or] at hy
    rw [rename, namelessIn, namelessIn, Binders.length_rename, toList_rename, ← List.map_reverse]
    refine congrArg _ (ih hy.2 fun z hz => place_renamed (by simpa using hy.1) ?_ fun _ => ?_)
    · rintro rfl; exact hy.2 hz
    · exact h z (mem_vars_bind.2 (.inr hz))
  | _ => rfl

/-- **A bound variable may be renamed to a new one.** -/
theorem namelessIn_rename_bind {f : Sym} {xs : Binders} (hx : x ∈ xs.toList)
    (hy : y ∉ (bind f xs b).vars) :
    (bind f (xs.rename x y) (b.rename x y)).namelessIn S = (bind f xs b).namelessIn S := by
  rw [mem_vars_bind, not_or] at hy
  rw [namelessIn, namelessIn, Binders.length_rename, toList_rename, ← List.map_reverse]
  refine congrArg _ (namelessIn_rename hy.2 fun z hz => ?_)
  refine place_renamed (by simpa using hy.1) ?_ fun hzx => ?_
  · rintro rfl; exact hy.2 hz
  · rw [Var.renamed_of_ne]
    rintro rfl
    exact hzx (List.mem_reverse.2 hx)

/-! ## Equality up to bound names -/

/-- Two variables correspond exactly if they have the same place on either
side. -/
theorem sameVarIn_iff_place (env : List (Var × Var)) :
    sameVarIn env x y = true ↔ place (env.map Prod.fst) x = place (env.map Prod.snd) y := by
  induction env with
  | nil => simp [sameVarIn, place]
  | cons p env ih =>
    rw [List.map_cons, List.map_cons, place_cons_eq_iff, sameVarIn, ← ih]
    grind

/-- A place is not the form of anything but a variable. -/
theorem place_ne {t : Nameless} (hbound : ∀ i, t ≠ .bound i) (hvar : ∀ x, t ≠ .var x) :
    place S x ≠ t := by
  unfold place
  split
  · exact (hbound _).symm
  · exact (hvar _).symm

/-- Lists of arguments are equal up to bound names exactly if they have the
same forms, if that is known of each argument. -/
theorem alphaInAll_iff_map {env : List (Var × Var)} {as bs : List Expr}
    (h : ∀ a ∈ as, ∀ b, alphaIn env a b = true ↔
      a.namelessIn (env.map Prod.fst) = b.namelessIn (env.map Prod.snd)) :
    alphaInAll env as bs = true ↔
      as.map (namelessIn (env.map Prod.fst)) = bs.map (namelessIn (env.map Prod.snd)) := by
  rw [alphaInAll_iff, ← List.forall₂_eq_eq_eq, List.forall₂_map_left_iff, List.forall₂_map_right_iff]
  exact ⟨fun hs => forall₂_imp_of_mem hs fun a ha b _ => (h a ha b).1,
    fun hs => forall₂_imp_of_mem hs fun a ha b _ => (h a ha b).2⟩

/-- Under bound variables in pairs, to be equal up to bound names is to have
one form. -/
theorem alphaIn_iff (env : List (Var × Var)) :
    alphaIn env a b = true ↔ a.namelessIn (env.map Prod.fst) = b.namelessIn (env.map Prod.snd) := by
  induction a generalizing b env with
  | var x =>
    cases b with
    | var y => exact sameVarIn_iff_place env
    | _ => simp [alphaIn, namelessIn, place_ne]
  | app f as ihf ihas =>
    cases b with
    | var y => simp [alphaIn, namelessIn, place_ne, eq_comm (b := place _ _)]
    | app g bs =>
      simp only [alphaIn, namelessIn, Bool.and_eq_true, Nameless.app.injEq, namelessAllIn_eq_map, ihf,
        alphaInAll_iff_map fun a ha b => ihas a ha env]
    | _ => simp [alphaIn, namelessIn]
  | bind f xs c ih =>
    cases b with
    | var y => simp [alphaIn, namelessIn, place_ne, eq_comm (b := place _ _)]
    | bind g ys d =>
      simp only [alphaIn, namelessIn, Bool.and_eq_true, beq_iff_eq, Nameless.bind.injEq, ih, and_assoc]
      refine and_congr_right fun _ => and_congr_right fun hlen => ?_
      have hlen : xs.toList.length = ys.toList.length := hlen
      rw [map_fst_zip_reverse hlen, map_snd_zip_reverse hlen]
    | _ => simp [alphaIn, namelessIn]
  | _ =>
    cases b with
    | var y => simp [alphaIn, namelessIn, place_ne, eq_comm (b := place _ _)]
    | _ => simp [alphaIn, namelessIn]

/-- **To be equal up to bound names is to have one form.** -/
theorem alphaEq_iff_nameless : alphaEq a b = true ↔ a.nameless = b.nameless := alphaIn_iff []

/-! ## Scopes -/

/-- Under the same bound variables the place tells which variable it is. -/
theorem place_injective (h : place S x = place S y) : x = y := by
  unfold place at h
  split at h <;> split at h
  · next hx _ => exact (List.idxOf_inj hx).1 (Nameless.bound.inj h)
  all_goals first | contradiction | exact Nameless.var.inj h

section Scopes

variable {S' T' J : List Var}

/-- Slots entered on both sides keep apart the variables that were apart. -/
theorem place_append_eq_iff (hlen : I.length = J.length)
    (h : ∀ x y, place S x = place T y ↔ place S' x = place T' y) (x y : Var) :
    place (I ++ S) x = place (J ++ T) y ↔ place (I ++ S') x = place (J ++ T') y := by
  induction I generalizing J with
  | nil =>
    obtain rfl := List.length_eq_zero_iff.1 hlen.symm
    exact h x y
  | cons u I ih =>
    obtain ⟨v, J, rfl⟩ := List.exists_cons_of_length_eq_add_one hlen.symm
    simp only [List.cons_append, place_cons_eq_iff, ih (Nat.succ.inj hlen)]

/-- Whether two lists have equal images does not depend on which of two ways
their members are compared. -/
theorem map_eq_map_iff {as bs : List Expr} {f g f' g' : Expr → Nameless}
    (h : ∀ a ∈ as, ∀ b, f a = g b ↔ f' a = g' b) : as.map f = bs.map g ↔ as.map f' = bs.map g' := by
  induction as generalizing bs with
  | nil => simp
  | cons a as ih =>
    cases bs with
    | nil => simp
    | cons b bs =>
      rw [List.forall_mem_cons] at h
      simp [h.1, ih h.2]

/-- **Whether two forms are equal depends on which variables correspond.** -/
theorem namelessIn_eq_iff (h : ∀ x y, place S x = place T y ↔ place S' x = place T' y) :
    a.namelessIn S = b.namelessIn T ↔ a.namelessIn S' = b.namelessIn T' := by
  induction a generalizing b S T S' T' with
  | var x =>
    cases b with
    | var y => exact h x y
    | _ => simp [namelessIn, place_ne]
  | app f as ihf ihas =>
    cases b with
    | var y => simp [namelessIn, place_ne, eq_comm (b := place _ _)]
    | app g bs =>
      simp only [namelessIn, Nameless.app.injEq, namelessAllIn_eq_map, ihf h]
      exact and_congr_right fun _ => map_eq_map_iff fun a ha b => ihas a ha h
    | _ => simp [namelessIn]
  | bind f xs c ih =>
    cases b with
    | var y => simp [namelessIn, place_ne, eq_comm (b := place _ _)]
    | bind g ys d =>
      simp only [namelessIn, Nameless.bind.injEq]
      refine and_congr_right fun _ => and_congr_right fun hlen => ih (place_append_eq_iff ?_ h)
      rw [List.length_reverse, List.length_reverse]
      exact hlen
    | _ => simp [namelessIn]
  | _ =>
    cases b with
    | var y => simp [namelessIn, place_ne, eq_comm (b := place _ _)]
    | _ => simp [namelessIn]

end Scopes

/-- **A scope entered on both sides tells nothing apart.** -/
theorem namelessIn_eq_iff_nameless : a.namelessIn S = b.namelessIn S ↔ a.nameless = b.nameless :=
  namelessIn_eq_iff fun _ _ => ⟨fun h => congrArg _ (place_injective h), fun h =>
    congrArg _ (place_injective h)⟩

end Expr
end SecondOrder
