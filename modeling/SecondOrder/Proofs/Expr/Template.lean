/-
# Terms as templates

The term that an expression means when every name means itself tells what the
expression means under any valuation: its variables are replaced by their
values, and the slots that were entered first by what is entered there
(`Term.fill`, `Expr.den_eq_fill`).  So a term can stand for the value of an
unknown, applied or not (`Term.call`, `Expr.call_eq_call`), and two values are
the same exactly if their terms are.

A valuation is natural if it comes about this way.  `Expr.filled_den` says that
meanings of sorted expressions are, as soon as the values of their names are.
-/

import SecondOrder.Proofs.Equation.Solution

namespace SecondOrder

namespace Term

/-- **Induction on terms**, with the hypothesis for every argument of an
application. -/
@[elab_as_elim, induction_eliminator]
theorem induct {P : Term → Prop} (bound : ∀ i, P (.bound i)) (var : ∀ x, P (.var x))
    (sym : ∀ f, P (.sym f)) (int : ∀ n, P (.int n)) (float : ∀ x, P (.float x))
    (str : ∀ s, P (.str s)) (app : ∀ h ts, P h → (∀ t ∈ ts, P t) → P (.app h ts))
    (bind : ∀ f k b, P b → P (.bind f k b)) (t : Term) : P t :=
  @Term.rec P (fun ts => ∀ t ∈ ts, P t) bound var sym int float str app bind nofun
    (fun _ _ ht hts => List.forall_mem_cons.2 ⟨ht, hts⟩) t

mutual

/-- The term at depth `j` with the variables replaced by their values, the
first slots by `ds`, and the other slots counted from `n` on. -/
def fill (ρ : Valuation) (ds : List Meaning) (n j : Nat) : Term → Term
  | bound i => match ds[i]? with
    | some d => d j
    | none => bound (i - ds.length + n)
  | var x => ρ.val (.var x) j
  | app h ts => app (fill ρ ds n j h) (fillAll ρ ds n j ts)
  | bind f k b => bind f k (fill ρ ds n (j + k) b)
  | t => t

def fillAll (ρ : Valuation) (ds : List Meaning) (n j : Nat) : List Term → List Term
  | [] => []
  | t :: ts => fill ρ ds n j t :: fillAll ρ ds n j ts

/-- All nodes of a term. -/
def nodes : Term → List Term
  | app h ts => app h ts :: (nodes h ++ nodesAll ts)
  | bind f k b => bind f k b :: nodes b
  | t => [t]

def nodesAll : List Term → List Term
  | [] => []
  | t :: ts => nodes t ++ nodesAll ts

end

variable {R : Reserved} {ρ : Valuation} {ds ds' : List Meaning} {n j k : Nat} {t : Term}

/-- A list of terms is filled member by member. -/
theorem fillAll_eq_map (ts : List Term) : fillAll ρ ds n j ts = ts.map (fill ρ ds n j) := by
  induction ts with
  | nil => rfl
  | cons t ts ih => rw [fillAll, ih, List.map_cons]

/-- The nodes of a list of terms are those of its members, in order. -/
theorem nodesAll_eq_flatMap (ts : List Term) : nodesAll ts = ts.flatMap nodes := by
  induction ts with
  | nil => rfl
  | cons t ts ih => rw [nodesAll, ih, List.flatMap_cons]

/-- The nodes of an application are itself and those of its parts. -/
theorem mem_nodes_app {h : Term} {ts : List Term} :
    t ∈ (app h ts).nodes ↔ t = app h ts ∨ t ∈ h.nodes ∨ ∃ u ∈ ts, t ∈ u.nodes := by
  rw [nodes, nodesAll_eq_flatMap, List.mem_cons, List.mem_append, List.mem_flatMap]

/-- The nodes of a binding are itself and those of its body.  Its slots are no
nodes. -/
theorem mem_nodes_bind {f : Sym} {b : Term} :
    t ∈ (bind f k b).nodes ↔ t = bind f k b ∨ t ∈ b.nodes := by
  rw [nodes, List.mem_cons]

/-- An application is filled part by part. -/
theorem fill_app {h : Term} {ts : List Term} :
    fill ρ ds n j (app h ts) = app (fill ρ ds n j h) (ts.map (fill ρ ds n j)) := by
  rw [fill, fillAll_eq_map]

/-- One of the first slots is filled by what is entered for it, at the depth of
the place. -/
theorem fill_bound_of_getElem? {i : Nat} {d : Meaning} (h : ds[i]? = some d) :
    fill ρ ds n j (bound i) = d j := by rw [fill, h]

/-- A slot beyond those that are filled is counted from `n` on. -/
theorem fill_bound_of_le {i : Nat} (h : ds.length ≤ i) :
    fill ρ ds n j (bound i) = bound (i - ds.length + n) := by
  rw [fill, List.getElem?_eq_none h]

/-- Every slot in the term is one of the first `k`. -/
def Below (k : Nat) (t : Term) : Prop := ∀ i, bound i ∈ t.nodes → i < k

/-- All slots in an application are among the first `k` if all slots in its
parts are. -/
theorem below_app {h : Term} {ts : List Term} :
    Below k (app h ts) ↔ Below k h ∧ ∀ t ∈ ts, Below k t := by
  constructor
  · intro hb
    exact ⟨fun i hi => hb i (mem_nodes_app.2 (.inr (.inl hi))),
      fun t ht i hi => hb i (mem_nodes_app.2 (.inr (.inr ⟨t, ht, hi⟩)))⟩
  · rintro ⟨hh, hts⟩ i hi
    rcases mem_nodes_app.1 hi with hi | hi | ⟨t, ht, hi⟩
    · cases hi
    · exact hh i hi
    · exact hts t ht i hi

/-- A binding has the slots of its body.  Its own are not counted off, for a
term counts slots from the outermost on. -/
theorem below_bind {f : Sym} {m : Nat} {b : Term} : Below k (bind f m b) ↔ Below k b := by
  constructor
  · exact fun hb i hi => hb i (mem_nodes_bind.2 (.inr hi))
  · intro hb i hi
    rcases mem_nodes_bind.1 hi with hi | hi
    · cases hi
    · exact hb i hi

/-- Where all slots are filled, it does not matter from where others are
counted. -/
theorem fill_of_below (h : Below ds.length t) (n n' j : Nat) :
    fill ρ ds n j t = fill ρ ds n' j t := by
  induction t generalizing j with
  | bound i =>
    have hi := List.getElem?_eq_getElem (h i List.mem_cons_self)
    rw [fill_bound_of_getElem? hi, fill_bound_of_getElem? hi]
  | app f ts ihf ihts =>
    rw [below_app] at h
    rw [fill_app, fill_app, ihf h.1, List.map_congr_left fun t ht => ihts t ht (h.2 t ht) j]
  | bind f k b ih => rw [fill, fill, ih (below_bind.1 h)]
  | _ => rfl

/-- The meanings that are entered for new slots are these slots, one after
another from `n` on. -/
theorem getElem?_levels {i : Nat} (h : i < k) :
    (Meaning.levels n k)[i]? = some fun _ => .bound (n + i) := by
  induction k generalizing n i with
  | zero => exact absurd h (Nat.not_lt_zero i)
  | succ k ih => cases i with
    | zero => rfl
    | succ i =>
      rw [Meaning.levels, List.getElem?_cons_succ, ih (Nat.lt_of_succ_lt_succ h), Nat.add_right_comm,
        Nat.add_assoc]

/-- To enter slots is to leave the first slots to be counted like the
others. -/
theorem fill_levels (n k j : Nat) (t : Term) :
    fill ρ (Meaning.levels n k) (n + k) j t = fill ρ [] n j t := by
  induction t generalizing j with
  | bound i =>
    have hnil : fill ρ [] n j (bound i) = bound (i + n) := by
      rw [fill_bound_of_le (Nat.zero_le i)]
      rfl
    rw [hnil]
    by_cases hi : i < k
    · rw [fill_bound_of_getElem? (getElem?_levels hi), Nat.add_comm]
    · rw [fill_bound_of_le (by rw [Meaning.length_levels]; omega), Meaning.length_levels]
      congr 1
      omega
  | app f ts ihf ihts => rw [fill_app, fill_app, ihf, List.map_congr_left fun t ht => ihts t ht j]
  | bind f k b ih => rw [fill, fill, ih]
  | _ => rfl

/-- Where every name means itself, nothing changes. -/
theorem fill_free (j : Nat) (t : Term) : fill (Valuation.free R) [] 0 j t = t := by
  induction t generalizing j with
  | bound i =>
    rw [fill_bound_of_le (Nat.zero_le i)]
    rfl
  | app f ts ihf ihts =>
    rw [fill_app, ihf, List.map_congr_left fun t ht => ihts t ht j, List.map_id']
  | bind f k b ih => rw [fill, ih]
  | _ => rfl

/-- **The term that the first slots are entered for is the term itself.** -/
theorem fill_free_levels (k j : Nat) (t : Term) :
    fill (Valuation.free R) (Meaning.levels 0 k) k j t = t := by
  have h := fill_levels (ρ := Valuation.free R) 0 k j t
  rw [Nat.zero_add] at h
  rw [h, fill_free]

/-- What a value gives when it is applied, where `t` is the term of the
value. -/
def call (R : Reserved) (ρ : Valuation) (t : Term) (ds : List Meaning) : Meaning :=
  match t with
  | bind f k b =>
    if f = R.lambdaSym ∧ k = ds.length then fun n => b.fill ρ ds n n
    else Meaning.applied R (fun n => t.fill ρ [] n n) ds
  | t => Meaning.applied R (fun n => t.fill ρ [] n n) ds

/-- A value that is no binding stays applied to the arguments. -/
theorem call_of_ne (h : ∀ f k b, t ≠ .bind f k b) :
    call R ρ t ds = Meaning.applied R (fun n => t.fill ρ [] n n) ds := by
  cases t with
  | bind f k b => exact absurd rfl (h f k b)
  | _ => rfl

/-- A function that takes as many arguments as there are gives its body with
the slots filled by them. -/
theorem call_lambda {b : Term} (h : k = ds.length) :
    call R ρ (.bind R.lambdaSym k b) ds = fun n => b.fill ρ ds n n := if_pos ⟨rfl, h⟩

end Term

/-- The first meaning, taken from `ds.length` on, gives the second, taken from
`n` on. -/
def Filled (ρ : Valuation) (ds : List Meaning) (n : Nat) (d d' : Meaning) : Prop :=
  ∀ j, (d (ds.length + j)).fill ρ ds n (n + j) = d' (n + j)

namespace Filled

open Term

variable {R : Reserved} {ρ φ φ' : Valuation} {ds as as' : List Meaning} {d d' : Meaning} {n j k : Nat}

/-- A slot that is counted from the one depth on is the slot counted from the
other on. -/
theorem level {i : Nat} : Filled ρ ds n (fun _ => .bound (ds.length + i)) fun _ => .bound (n + i) :=
  fun j => by
    rw [fill_bound_of_le (Nat.le_add_right ..)]
    congr 1
    omega

/-- New slots under a binding give new slots, whatever the depth at which the
binding stands. -/
theorem levels (i k : Nat) : List.Forall₂ (Filled ρ ds n) (Meaning.levels (ds.length + i) k)
    (Meaning.levels (n + i) k) := by
  induction k generalizing i with
  | zero => exact .nil
  | succ k ih => exact .cons level (ih (i + 1))

/-- What is entered for the first slots fills them. -/
theorem levels_self : List.Forall₂ (Filled ρ ds n) (Meaning.levels 0 ds.length) ds := by
  refine List.forall₂_iff_get.2 ⟨Meaning.length_levels .., fun i hi hi' j => ?_⟩
  have hlevel := getElem?_levels (n := 0) hi'
  rw [List.getElem?_eq_getElem (by rwa [Meaning.length_levels])] at hlevel
  rw [List.get_eq_getElem, List.get_eq_getElem, Option.some.inj hlevel, Nat.zero_add]
  exact fill_bound_of_getElem? (List.getElem?_eq_getElem hi')

/-- Where the values of two valuations agree under filling, those after
entering the bound variables do: for a bound variable it is what is entered,
and for another what it was. -/
theorem enter {x : Var} {xs : List Var} (h : List.Forall₂ (Filled ρ ds n) as as')
    (hval : x ∉ xs → Filled ρ ds n (φ.val (.var x)) (φ'.val (.var x))) (hlen : xs.length = as.length) :
    Filled ρ ds n ((φ.enter xs as).val (.var x)) ((φ'.enter xs as').val (.var x)) := by
  induction h generalizing xs φ φ' with
  | nil =>
    obtain rfl := List.length_eq_zero_iff.1 hlen
    exact hval nofun
  | @cons a a' as as' first _ ih =>
    obtain ⟨y, xs, rfl⟩ := List.exists_cons_of_length_eq_add_one hlen
    refine ih (fun hx => ?_) (Nat.succ.inj hlen)
    by_cases hy : x = y
    · rw [hy, Valuation.update_val_self, Valuation.update_val_self]
      exact first
    · rw [Valuation.update_val_of_ne fun e => hy (Expr.var.inj e),
        Valuation.update_val_of_ne fun e => hy (Expr.var.inj e)]
      exact hval fun hmem => (List.mem_cons.1 hmem).elim hy hx

/-- To fill what has been filled is to fill with what fills. -/
theorem fill_fill (h : List.Forall₂ (Filled ρ ds n) as as') (i j : Nat) (t : Term) :
    fill ρ ds n (n + (i + j)) (fill (Valuation.free R) as (ds.length + i) (ds.length + (i + j)) t) =
      fill ρ as' (n + i) (n + (i + j)) t := by
  induction t generalizing j with
  | bound m =>
    by_cases hm : m < as.length
    · have hm' := h.length_eq ▸ hm
      rw [fill_bound_of_getElem? (List.getElem?_eq_getElem hm),
        fill_bound_of_getElem? (List.getElem?_eq_getElem hm')]
      exact h.get hm hm' (i + j)
    · have hm' := h.length_eq ▸ hm
      rw [fill_bound_of_le (Nat.le_of_not_lt hm), fill_bound_of_le (Nat.le_of_not_lt hm'),
        fill_bound_of_le (by omega), h.length_eq]
      congr 1
      omega
  | app f ts ihf ihts =>
    rw [fill_app, fill_app, fill_app, ihf, List.map_map]
    exact congrArg _ (List.map_congr_left fun t ht => ihts t ht j)
  | bind f k b ih =>
    have hi := ih (j + k)
    rw [fill, fill, fill]
    rw [← Nat.add_assoc i, ← Nat.add_assoc n, ← Nat.add_assoc ds.length] at hi
    rw [hi]
  | _ => rfl

/-- An application that nobody can carry out is filled in its head and in its
arguments. -/
theorem applied (hd : Filled ρ ds n d d') (h : List.Forall₂ (Filled ρ ds n) as as') :
    Filled ρ ds n (d.applied R as) (d'.applied R as') := fun j => by
  rw [Meaning.applied, Meaning.applied, fill_app, List.map_cons, hd j, List.map_map]
  refine congrArg (fun ts => Term.app _ (_ :: ts)) ?_
  induction h with
  | nil => rfl
  | cons first _ ih => rw [List.map_cons, List.map_cons, ih, ← first j]; rfl

/-- A value that is given by a term is natural, -/
theorem value (t : Term) : Filled ρ ds n (fun j => t.fill (Valuation.free R) [] j j)
    fun j => t.fill ρ [] j j := fun j =>
  fill_fill (.nil : List.Forall₂ (Filled ρ ds n) [] []) j 0 t

/-- and so is what it gives when it is applied. -/
theorem call (h : List.Forall₂ (Filled ρ ds n) as as') (t : Term) :
    Filled ρ ds n (t.call R (Valuation.free R) as) (t.call R ρ as') := by
  cases t with
  | bind f k b =>
    rw [Term.call, Term.call, h.length_eq]
    split
    · exact fun j => fill_fill h j 0 b
    · exact applied (value _) h
  | _ => exact applied (value _) h

end Filled

namespace Expr

variable {R : Reserved} {arity : Arity} {ρ φ φ' : Valuation} {ds : List Meaning} {n : Nat} {p e : Expr}

/-- **Meanings are natural** if the values of the names are. -/
theorem filled_den (hp : Sorted R arity p)
    (hvar : ∀ x : Var, x.marked = false → Filled ρ ds n (φ.val (.var x)) (φ'.val (.var x)))
    (hval : ∀ m : Expr, m.isMarked = true → Filled ρ ds n (φ.val m) (φ'.val m))
    (hfn : ∀ m as as', m.isMarked = true → List.Forall₂ (Filled ρ ds n) as as' →
      Filled ρ ds n (φ.fn m as) (φ'.fn m as')) :
    Filled ρ ds n (p.den R φ) (p.den R φ') := by
  induction hp generalizing φ φ' with
  | @var x =>
    cases hx : x.marked with
    | false => exact hvar x hx
    | true => exact hval (.var x) hx
  | @sym f =>
    intro j
    rw [den, den]
    split
    · next hf => exact hval (.sym f) hf j
    · rfl
  | int | float | str => exact fun _ => rfl
  | @app f as head args ihf ihas =>
    intro j
    rw [den_app head.ne_applySym, den_app head.ne_applySym, Term.fill_app, ihf hvar hval hfn j, List.map_map]
    exact congrArg _ (List.map_congr_left fun a ha => ihas a ha hvar hval hfn j)
  | @apply m as unknown nonempty takes args ihas =>
    rw [den_apply unknown nonempty, den_apply unknown nonempty]
    refine hfn m _ _ unknown (List.forall₂_map_left_iff.2 (List.forall₂_map_right_iff.2 ?_))
    exact List.forall₂_same.2 fun a ha => ihas a ha hvar hval hfn
  | @bind f xs b slots distinct body ih =>
    intro j
    rw [den, den]
    dsimp only
    rw [Term.fill, Nat.add_assoc, Nat.add_assoc]
    refine congrArg _ (ih (fun x hx => ?_) (fun m hm => ?_) (fun m as as' hm h => ?_) (j + xs.length))
    · exact Filled.enter (Filled.levels j xs.length) (fun _ => hvar x hx) (Meaning.length_levels ..).symm
    · have hne : ∀ x ∈ xs.toList, m ≠ .var x := by
        rintro x hx rfl
        exact Bool.false_ne_true ((slots x hx).symm.trans hm)
      rw [Valuation.enter_val_of_not_mem hne, Valuation.enter_val_of_not_mem hne]
      exact hval m hm
    · rw [Valuation.enter_fn, Valuation.enter_fn]
      exact hfn m as as' hm h

end Expr

/-- The valuation under which the unknowns stand for the values whose terms `Θ`
gives. -/
def Valuation.guide (R : Reserved) (ρ : Valuation) (Θ : Expr → Term) : Valuation where
  val e := if e.isMarked then fun n => (Θ e).fill ρ [] n n else ρ.val e
  fn e ds := (Θ e).call R ρ ds

namespace Valuation

variable {R : Reserved} {ρ : Valuation} {Θ : Expr → Term} {e : Expr}

/-- An unknown has the value whose term `Θ` gives. -/
theorem guide_val_of_isMarked (h : e.isMarked = true) :
    (ρ.guide R Θ).val e = fun n => (Θ e).fill ρ [] n n := if_pos h

/-- Every other name keeps its value. -/
theorem guide_val_of_not_isMarked (h : e.isMarked = false) : (ρ.guide R Θ).val e = ρ.val e :=
  if_neg (Bool.eq_false_iff.1 h)

/-- An unknown that is applied is the value of its term, called with the
arguments. -/
theorem guide_fn (ρ : Valuation) (Θ : Expr → Term) (e : Expr) (ds : List Meaning) :
    (ρ.guide R Θ).fn e ds = (Θ e).call R ρ ds := rfl

end Valuation

namespace Expr

variable {R : Reserved} {arity : Arity} {ρ : Valuation} {Θ : Expr → Term} {p e : Expr} {n : Nat}

/-- **What an expression means** where the unknowns stand for given values, and
where some variables have been entered, tells what it means whatever the other
names mean and whatever has been entered. -/
theorem den_guide_enter (hp : Sorted R arity p) {us : List Var} {ds : List Meaning}
    (hlen : us.length = ds.length) (plain : ∀ u ∈ us, u.marked = false) (n : Nat) :
    p.den R ((ρ.guide R Θ).enter us ds) n =
      (p.den R (((Valuation.free R).guide R Θ).enter us (Meaning.levels 0 us.length)) us.length).fill
        ρ ds n n := by
  rw [hlen]
  suffices h : Filled ρ ds n
      (p.den R (((Valuation.free R).guide R Θ).enter us (Meaning.levels 0 ds.length)))
      (p.den R ((ρ.guide R Θ).enter us ds)) from (h 0).symm
  refine filled_den hp (fun x hx => ?_) (fun m hm => ?_) fun m as as' hm h => ?_
  · refine Filled.enter Filled.levels_self (fun _ => ?_) (by rw [Meaning.length_levels, hlen])
    have hmarked : (Expr.var x).isMarked = false := hx
    rw [Valuation.guide_val_of_not_isMarked hmarked, Valuation.guide_val_of_not_isMarked hmarked]
    exact fun _ => rfl
  · have hne : ∀ u ∈ us, m ≠ .var u := by
      rintro u hu rfl
      exact Bool.false_ne_true ((plain u hu).symm.trans hm)
    rw [Valuation.enter_val_of_not_mem hne, Valuation.enter_val_of_not_mem hne,
      Valuation.guide_val_of_isMarked hm, Valuation.guide_val_of_isMarked hm]
    exact Filled.value (Θ m)
  · rw [Valuation.enter_fn, Valuation.enter_fn, Valuation.guide_fn, Valuation.guide_fn]
    exact Filled.call h (Θ m)

/-- The unknowns do not matter to a ground expression. -/
theorem den_guide_of_ground (he : Ground R e) {us : List Var} {ds : List Meaning}
    (hlen : us.length = ds.length) :
    e.den R ((ρ.guide R Θ).enter us ds) = e.den R (ρ.enter us ds) :=
  den_ground he fun _ hn => Valuation.enter_val_congr hlen fun _ =>
    Valuation.guide_val_of_not_isMarked (not_isMarked_of_mem_names he hn)

/-- A ground expression has no unknowns, and so it does not matter what they
stand for. -/
theorem den_guide (he : Ground R e) : e.den R (ρ.guide R Θ) = e.den R ρ :=
  @den_guide_of_ground R ρ Θ e he [] [] rfl

/-- **The term of a ground expression** tells what it means under any
valuation. -/
theorem den_eq_fill (he : Ground R e) {us : List Var} {ds : List Meaning}
    (hlen : us.length = ds.length) (plain : ∀ u ∈ us, u.marked = false) (n : Nat) :
    e.den R (ρ.enter us ds) n =
      (e.den R ((Valuation.free R).enter us (Meaning.levels 0 us.length)) us.length).fill ρ ds n n := by
  have h := den_guide_enter (ρ := ρ) (Θ := fun _ => .str "") (he fun _ => none) hlen plain n
  rwa [den_guide_of_ground he hlen, den_guide_of_ground he (Meaning.length_levels ..).symm] at h

/-- What a ground expression means under any valuation can be read off its
term, the meaning under the valuation in which every name means itself. -/
theorem den_eq_fill_nil (he : Ground R e) (ρ : Valuation) (n : Nat) :
    e.den R ρ n = (e.den R (Valuation.free R) 0).fill ρ [] n n :=
  @den_eq_fill R ρ e he [] [] rfl nofun n

/-- What a ground expression gives when it is applied is told by its term. -/
theorem call_eq_call (he : Ground R e) (ρ : Valuation) (ds : List Meaning) :
    e.call R ρ (e.den R ρ) ds = (e.den R (Valuation.free R) 0).call R ρ ds := by
  have hden : e.den R ρ = fun n => (e.den R (Valuation.free R) 0).fill ρ [] n n :=
    funext fun n => den_eq_fill_nil he ρ n
  have happlied (hcall : e.call R ρ (e.den R ρ) ds = (e.den R ρ).applied R ds)
      (hne : ∀ f k b, e.den R (Valuation.free R) 0 ≠ .bind f k b) :
      e.call R ρ (e.den R ρ) ds = (e.den R (Valuation.free R) 0).call R ρ ds := by
    rw [hcall, Term.call_of_ne hne, ← hden]
  have hm := not_isMarked_of_ground he
  cases e with
  | bind f us b =>
    have plain : ∀ u ∈ us.toList, u.marked = false := (sorted_bind.1 (he fun _ => none)).1
    have hterm : (Expr.bind f us b).den R (Valuation.free R) 0 = .bind f us.length
        (b.den R ((Valuation.free R).enter us.toList (Meaning.levels 0 us.length)) us.length) := by
      rw [den]
      dsimp only
      rw [Nat.zero_add]
    rw [call, Term.call.eq_def, ← hden, hterm]
    dsimp only
    split
    · next hds =>
      have hlen : us.toList.length = ds.length := hds.2
      exact funext fun n => den_eq_fill (ground_of_bind he) hlen plain n
    · rfl
  | app f as =>
    refine happlied rfl fun g k b h => ?_
    rw [den_app ((ground_of_app he).1 fun _ => none).ne_applySym] at h
    cases h
  | var x =>
    refine happlied ?_ (by simp [den, Valuation.free])
    rw [call, if_neg (Bool.eq_false_iff.1 hm)]
    simp
  | sym f =>
    refine happlied ?_ fun g k b h => ?_
    · rw [call, if_neg (Bool.eq_false_iff.1 hm)]
      simp
    · have hf : f.marked = false := hm
      rw [den, hf] at h
      cases h
  | _ => exact happlied rfl (by simp [den])

/-- An unknown has the meaning that the valuation gives it. -/
theorem den_of_isMarked {m : Expr} (hm : m.isMarked = true) (ρ : Valuation) :
    m.den R ρ = ρ.val m := by
  cases m with
  | var x => rfl
  | sym f => exact if_pos hm
  | _ => cases hm

/-- Only an application means one. -/
theorem exists_app_of_den (he : Ground R e) {n : Nat} {t : Term} {ts : List Term}
    (h : den R (Valuation.free R) e n = .app t ts) : ∃ g as, e = .app g as ∧ as.length = ts.length := by
  cases e with
  | app g as =>
    rw [den_app ((ground_of_app he).1 fun _ => none).ne_applySym] at h
    exact ⟨g, as, rfl, by rw [← (Term.app.inj h).2, List.length_map]⟩
  | var x => cases h
  | sym f =>
    rw [den] at h
    split at h <;> cases h
  | int | float | str | bind => cases h

/-- Only a binding means one. -/
theorem exists_bind_of_den (he : Ground R e) {n k : Nat} {f : Sym} {t : Term}
    (h : den R (Valuation.free R) e n = .bind f k t) : ∃ ys d, e = .bind f ys d ∧ ys.length = k := by
  cases e with
  | app g as =>
    rw [den_app ((ground_of_app he).1 fun _ => none).ne_applySym] at h
    cases h
  | sym f =>
    rw [den] at h
    split at h <;> cases h
  | bind g ys d =>
    rw [den] at h
    obtain ⟨rfl, rfl, -⟩ := Term.bind.inj h
    exact ⟨ys, d, rfl, rfl⟩
  | _ => cases h

/-- The term of a name that means itself. -/
def leaf : Expr → Term
  | var x => .var x
  | sym f => .sym f
  | _ => .str ""

/-- Of the names only `v` has the leaf of `v` in its meaning, if `b` holds, and
an application has it where one of its parts has. -/
structure Shown (v : Expr) (b : Prop) (φ : Valuation) : Prop where
  var : ∀ x j, leaf v ∈ (φ.val (.var x) j).nodes ↔ .var x = v ∧ b
  val : ∀ m j, m.isMarked = true → (leaf v ∈ (φ.val m j).nodes ↔ m = v ∧ b)
  fn : ∀ m ds j, m.isMarked = true →
    (leaf v ∈ (φ.fn m ds j).nodes ↔ m = v ∧ b ∨ ∃ d ∈ ds, leaf v ∈ (d j).nodes)

/-- The name is a variable or an unknown. -/
def Shows (v : Expr) : Prop := v.isMarked = true ∨ ∃ x, v = var x

/-- No ordinary symbol looks like a variable or an unknown. -/
theorem Shows.leaf_ne {v : Expr} (hv : Shows v) {f : Sym} (hf : f.marked = false) :
    leaf v ≠ .sym f := by
  rintro h
  rcases hv with hv | ⟨x, rfl⟩
  · cases v with
    | sym g =>
      cases h
      exact Bool.false_ne_true (hf.symm.trans hv)
    | var x => cases h
    | _ => cases hv
  · cases h

/-- A variable or an unknown is a name, so that it can be free. -/
theorem Shows.isName {v : Expr} (hv : Shows v) : IsName v :=
  hv.elim isName_of_isMarked .inl

/-- Different variables and unknowns have different leaves.  So a leaf tells
which name has brought it in. -/
theorem Shows.leaf_injective {v w : Expr} (hv : Shows v) (hw : Shows w) (h : leaf v = leaf w) :
    v = w := by
  rcases hv.isName with ⟨x, rfl⟩ | ⟨f, rfl⟩ <;> rcases hw.isName with ⟨y, rfl⟩ | ⟨g, rfl⟩ <;>
    cases h <;> rfl

/-- Where every name means itself, every name shows. -/
theorem Shown.free {v : Expr} (hv : Shows v) : Shown v True (Valuation.free R) := by
  have hval (m : Expr) (hm : Shows m) (j : Nat) :
      leaf v ∈ ((Valuation.free R).val m j).nodes ↔ m = v ∧ True := by
    have hnodes : ((Valuation.free R).val m j).nodes = [leaf m] := by
      rcases hm.isName with ⟨x, rfl⟩ | ⟨f, rfl⟩ <;> rfl
    rw [hnodes, List.mem_singleton, and_true]
    exact ⟨fun h => (hv.leaf_injective hm h).symm, fun h => h ▸ rfl⟩
  refine ⟨fun x => hval _ (.inr ⟨x, rfl⟩), fun m j hm => hval m (.inl hm) j, fun m ds j hm => ?_⟩
  have hfn : (Valuation.free R).fn m ds j =
      .app (.sym R.applySym) ((Valuation.free R).val m j :: ds.map (· j)) := by
    rcases isName_of_isMarked hm with ⟨x, rfl⟩ | ⟨f, rfl⟩ <;> rfl
  rw [hfn, Term.mem_nodes_app, ← hval m (.inl hm) j]
  constructor
  · rintro (h | h | ⟨u, hu, h⟩)
    · rcases hv.isName with ⟨x, rfl⟩ | ⟨f, rfl⟩ <;> cases h
    · exact absurd (List.mem_singleton.1 h) (hv.leaf_ne rfl)
    · rcases List.mem_cons.1 hu with rfl | hu
      · exact .inl h
      · obtain ⟨d, hd, rfl⟩ := List.mem_map.1 hu
        exact .inr ⟨d, hd, h⟩
  · rintro (h | ⟨d, hd, h⟩)
    · exact .inr (.inr ⟨_, List.mem_cons_self, h⟩)
    · exact .inr (.inr ⟨_, List.mem_cons_of_mem _ (List.mem_map_of_mem hd), h⟩)

/-- What is entered for slots at depth `n` is a slot, and none further in than
the last of them. -/
theorem mem_levels {d : Meaning} {k : Nat} (h : d ∈ Meaning.levels n k) :
    ∃ i < n + k, d = fun _ => .bound i := by
  induction k generalizing n with
  | zero => cases h
  | succ k ih =>
    rcases List.mem_cons.1 h with h | h
    · exact ⟨n, by omega, h⟩
    · obtain ⟨i, hi, rfl⟩ := ih h
      exact ⟨i, by omega, rfl⟩

/-- A variable that is bound gets one of the meanings entered. -/
theorem enter_val_of_mem {φ : Valuation} {x : Var} {xs : List Var} {ds : List Meaning} (h : x ∈ xs)
    (hlen : xs.length = ds.length) : (φ.enter xs ds).val (.var x) ∈ ds := by
  induction xs generalizing φ ds with
  | nil => cases h
  | cons y xs ih =>
    obtain ⟨d, ds, rfl⟩ : ∃ d es, ds = d :: es := List.exists_cons_of_length_eq_add_one hlen.symm
    by_cases hx : x ∈ xs
    · exact List.mem_cons_of_mem _ (ih hx (Nat.succ.inj hlen))
    · obtain rfl := (List.mem_cons.1 h).resolve_right hx
      rw [Valuation.enter, Valuation.enter_val_of_not_mem (fun z hz h => hx (by rwa [var.inj h])),
        Valuation.update_val_self]
      exact List.mem_cons_self

/-- A variable that has been entered shows no more. -/
theorem Shown.enter {v : Expr} {b : Prop} {φ : Valuation} (h : Shown v b φ) (hv : Shows v)
    {xs : List Var} (plain : ∀ x ∈ xs, x.marked = false) (n : Nat) :
    Shown v (b ∧ ∀ x ∈ xs, v ≠ .var x) (φ.enter xs (Meaning.levels n xs.length)) := by
  have hunknown {m : Expr} (hm : m.isMarked = true) : ∀ x ∈ xs, m ≠ .var x := by
    rintro x hx rfl
    exact Bool.false_ne_true ((plain x hx).symm.trans hm)
  have hvar (x : Var) (j : Nat) : leaf v ∈
      ((φ.enter xs (Meaning.levels n xs.length)).val (.var x) j).nodes ↔
        .var x = v ∧ b ∧ ∀ x ∈ xs, v ≠ .var x := by
    by_cases hx : x ∈ xs
    · obtain ⟨i, -, hi⟩ := mem_levels (enter_val_of_mem (φ := φ) hx (Meaning.length_levels n _).symm)
      rw [hi]
      refine ⟨fun hleaf => ?_, fun hleaf => absurd hleaf.1.symm (hleaf.2.2 x hx)⟩
      rcases hv.isName with ⟨x, rfl⟩ | ⟨f, rfl⟩ <;> cases List.mem_singleton.1 hleaf
    · rw [Valuation.enter_val_of_not_mem (fun y hy h => hx (by rwa [var.inj h])), h.var x j]
      refine and_congr_right fun heq => ⟨fun hb => ⟨hb, ?_⟩, And.left⟩
      rintro y hy rfl
      exact hx (Expr.var.inj heq ▸ hy)
  refine ⟨hvar, fun m j hm => ?_, fun m ds j hm => ?_⟩
  · rw [Valuation.enter_val_of_not_mem (hunknown hm), h.val m j hm]
    exact and_congr_right fun heq => ⟨fun hb => ⟨hb, heq ▸ hunknown hm⟩, And.left⟩
  · rw [Valuation.enter_fn, h.fn m ds j hm]
    refine or_congr_left (and_congr_right fun heq => ⟨fun hb => ⟨hb, heq ▸ hunknown hm⟩, And.left⟩)

/-- **The names of an expression show in its term.** -/
theorem leaf_mem_nodes_den {v : Expr} {b : Prop} {φ : Valuation} (he : Sorted R arity e)
    (hv : Shows v) (h : Shown v b φ) (j : Nat) : leaf v ∈ (e.den R φ j).nodes ↔ v ∈ e.names ∧ b := by
  induction he generalizing φ b j with
  | var =>
    rw [den, h.var, names, List.mem_singleton, eq_comm]
  | @sym f unreserved plain =>
    rw [names, List.mem_singleton]
    cases hf : f.marked with
    | true =>
      rw [den_of_isMarked (m := sym f) hf, h.val (sym f) j hf, eq_comm]
    | false =>
      rw [den, hf]
      refine ⟨fun hmem => absurd (List.mem_singleton.1 hmem) (hv.leaf_ne hf), ?_⟩
      rintro ⟨rfl, -⟩
      exact absurd rfl (hv.leaf_ne hf)
  | int | float | str =>
    refine ⟨fun hmem => ?_, fun hmem => absurd hmem.1 List.not_mem_nil⟩
    rcases hv.isName with ⟨x, rfl⟩ | ⟨f, rfl⟩ <;> cases List.mem_singleton.1 hmem
  | @app f as head args ihf ihas =>
    rw [den_app head.ne_applySym, Term.mem_nodes_app, mem_names_app, ihf h]
    constructor
    · rintro (hmem | hmem | ⟨u, hu, hmem⟩)
      · rcases hv.isName with ⟨x, rfl⟩ | ⟨f, rfl⟩ <;> cases hmem
      · exact ⟨.inl hmem.1, hmem.2⟩
      · obtain ⟨a, ha, rfl⟩ := List.mem_map.1 hu
        obtain ⟨hmem, hb⟩ := (ihas a ha h j).1 hmem
        exact ⟨.inr ⟨a, ha, hmem⟩, hb⟩
    · rintro ⟨hmem | ⟨a, ha, hmem⟩, hb⟩
      · exact .inr (.inl ⟨hmem, hb⟩)
      · exact .inr (.inr ⟨_, List.mem_map_of_mem ha, (ihas a ha h j).2 ⟨hmem, hb⟩⟩)
  | @apply m as unknown nonempty takes args ihas =>
    have hsym : v ≠ sym R.applySym := fun heq => hv.leaf_ne (f := R.applySym) rfl (heq ▸ rfl)
    rw [den_apply unknown nonempty, h.fn m _ j unknown, mem_names_apply unknown]
    constructor
    · rintro (⟨heq, hb⟩ | ⟨d, hd, hmem⟩)
      · exact ⟨.inr (.inl heq.symm), hb⟩
      · obtain ⟨a, ha, rfl⟩ := List.mem_map.1 hd
        obtain ⟨hmem, hb⟩ := (ihas a ha h j).1 hmem
        exact ⟨.inr (.inr ⟨a, ha, hmem⟩), hb⟩
    · rintro ⟨heq | heq | ⟨a, ha, hmem⟩, hb⟩
      · exact absurd heq hsym
      · exact .inl ⟨heq.symm, hb⟩
      · exact .inr ⟨_, List.mem_map_of_mem ha, (ihas a ha h j).2 ⟨hmem, hb⟩⟩
  | @bind f xs c slots distinct body ih =>
    have hbody := ih (h.enter hv slots j) (j + xs.length)
    rw [Binders.length_toList] at hbody
    rw [den, Term.mem_nodes_bind, hbody, mem_names_bind]
    constructor
    · rintro (hmem | ⟨hmem, hb, hfree⟩)
      · rcases hv.isName with ⟨x, rfl⟩ | ⟨f, rfl⟩ <;> cases hmem
      · exact ⟨⟨hmem, hfree⟩, hb⟩
    · rintro ⟨⟨hmem, hfree⟩, hb⟩
      exact .inr ⟨hmem, hb, hfree⟩

/-- Expressions that mean the same have the same names. -/
theorem mem_names_of_den_eq {arity' : Arity} {e' v : Expr} (he : Sorted R arity e)
    (he' : Sorted R arity' e') (hv : Shows v)
    (h : e.den R (Valuation.free R) 0 = e'.den R (Valuation.free R) 0) (hmem : v ∈ e.names) :
    v ∈ e'.names := by
  have hleaf := (leaf_mem_nodes_den he hv (Shown.free (R := R) hv) 0).2 ⟨hmem, trivial⟩
  rw [h] at hleaf
  exact ((leaf_mem_nodes_den he' hv (.free hv) 0).1 hleaf).1

end Expr

/-- An unknown occurs after an assignment if it did before, or if the value
holds it and the unknown that has been assigned occurred. -/
theorem Equation.Applied.mem_of_mem {R : Reserved} {arity : Arity} {c : Equation} {p q n : Expr}
    (h : Applied R arity c p q) (hp : Expr.Sorted R arity p) (hc : c.pattern.isMarked = true)
    (hn : n ∈ q.names) (hm : n.isMarked = true) :
    n ∈ p.names ∨ c.pattern ∈ p.names ∧ n ∈ c.subject.names := by
  by_cases hfree : c.pattern ∈ p.names
  · exact (h.unknowns n hn hm).imp And.left fun hn => ⟨hfree, hn⟩
  · refine .inl (Expr.mem_names_of_den_eq h.sorted hp (.inl hm) ?_ hn)
    rw [h.den, ← (Applied.of_not_mem hc hp hfree).den]

end SecondOrder
