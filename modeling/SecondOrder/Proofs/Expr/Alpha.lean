/-
# Equality up to bound names is equality of meanings

Sorted expressions that are equal up to bound names mean the same under every
valuation (`den_eq_of_alphaEq`), and those that mean the same when every name
means itself are equal up to bound names (`alphaEq_of_den`).  Both follow from
a statement about expressions under bindings already entered, for valuations
that give corresponding variables the same meaning.

`similar_iff` puts this in terms of `Expr.similar`, by which equations are told
apart.
-/

import SecondOrder.Expr.Alpha
import SecondOrder.Proofs.Expr.Denotation

namespace SecondOrder
namespace Expr

variable {R : Reserved} {arity arity' : Arity} {env : List (Var × Var)} {ρ ρ' : Valuation}

/-- Variables that correspond under `env` have the same meaning, and so have
all other names. -/
structure Related (env : List (Var × Var)) (ρ ρ' : Valuation) : Prop where
  var : ∀ x y, sameVarIn env x y = true → ρ.val (.var x) = ρ'.val (.var y)
  sym : ∀ f, ρ.val (.sym f) = ρ'.val (.sym f)
  fn : ρ.fn = ρ'.fn
  plain : ∀ p ∈ env, p.1.marked = false ∧ p.2.marked = false

/-- A valuation corresponds to itself when nothing is bound. -/
theorem Related.refl (ρ : Valuation) : Related [] ρ ρ where
  var x y h := by rw [eq_of_beq h]
  sym _ := rfl
  fn := rfl
  plain := nofun

/-- The innermost bound variables correspond, and hide those of the same names
further out, when they get the same meaning. -/
theorem Related.update (h : Related env ρ ρ') {u v : Var} (hu : u.marked = false)
    (hv : v.marked = false) (d : Meaning) :
    Related ((u, v) :: env) (ρ.update (.var u) d) (ρ'.update (.var v) d) where
  var x y hxy := by
    rw [sameVarIn] at hxy
    split at hxy
    · rw [Bool.and_eq_true, beq_iff_eq, beq_iff_eq] at hxy
      rw [hxy.1, hxy.2, Valuation.update_val_self, Valuation.update_val_self]
    · next hne =>
      rw [not_or] at hne
      rw [Valuation.update_val_of_ne fun e => hne.1 (Expr.var.inj e),
        Valuation.update_val_of_ne fun e => hne.2 (Expr.var.inj e)]
      exact h.var x y hxy
  sym f := by
    rw [Valuation.update_val_sym, Valuation.update_val_sym]
    exact h.sym f
  fn := h.fn
  plain := List.forall_mem_cons.2 ⟨⟨hu, hv⟩, h.plain⟩

/-- Two bindings of the same length keep the correspondence when the same
meanings are entered for their variables, slot by slot. -/
theorem Related.enter (h : Related env ρ ρ') {xs ys : List Var} {ds : List Meaning}
    (hxs : ∀ x ∈ xs, x.marked = false) (hys : ∀ y ∈ ys, y.marked = false)
    (hlen : xs.length = ds.length) (hlen' : ys.length = ds.length) :
    Related ((xs.zip ys).reverse ++ env) (ρ.enter xs ds) (ρ'.enter ys ds) := by
  induction ds generalizing xs ys env ρ ρ' with
  | nil =>
    obtain rfl := List.length_eq_zero_iff.1 hlen
    obtain rfl := List.length_eq_zero_iff.1 hlen'
    exact h
  | cons d ds ih =>
    obtain ⟨x, xs, rfl⟩ := List.exists_cons_of_length_eq_add_one hlen
    obtain ⟨y, ys, rfl⟩ := List.exists_cons_of_length_eq_add_one hlen'
    rw [List.forall_mem_cons] at hxs hys
    rw [List.zip_cons_cons, List.reverse_cons, List.append_assoc]
    exact ih (h.update hxs.1 hys.1 d) hxs.2 hys.2 (Nat.succ.inj hlen) (Nat.succ.inj hlen')

/-- An unknown corresponds to itself alone. -/
theorem eq_of_alphaIn_of_isMarked (hplain : ∀ p ∈ env, p.1.marked = false ∧ p.2.marked = false)
    {m e : Expr} (hm : m.isMarked = true) (h : alphaIn env m e = true) : e = m := by
  cases m with
  | var x =>
    cases e with
    | var y =>
      rw [alphaIn] at h
      induction env with
      | nil => rw [eq_of_beq h]
      | cons p env ih =>
        rw [List.forall_mem_cons] at hplain
        rw [sameVarIn] at h
        split at h
        · rw [Bool.and_eq_true, beq_iff_eq] at h
          rw [h.1] at hm
          exact absurd (hplain.1.1.symm.trans hm) Bool.false_ne_true
        · exact ih hplain.2 h
    | _ => cases h
  | sym f =>
    cases e with
    | sym g => rw [eq_of_beq h]
    | _ => cases h
  | _ => cases hm

/-- Lists are equal up to bound names if their members are. -/
theorem alphaInAll_iff {as bs : List Expr} :
    alphaInAll env as bs = true ↔ List.Forall₂ (fun a b => alphaIn env a b = true) as bs := by
  induction as generalizing bs with
  | nil => cases bs with
    | nil => exact ⟨fun _ => .nil, fun _ => rfl⟩
    | cons => exact ⟨nofun, nofun⟩
  | cons a as ih => cases bs with
    | nil => exact ⟨nofun, nofun⟩
    | cons b bs => rw [alphaInAll, Bool.and_eq_true, List.forall₂_cons, ih]

/-- Lists of arguments that are equal up to bound names have the same meanings,
if their members do. -/
theorem map_den_of_alphaInAll {as bs : List Expr}
    (h : ∀ a ∈ as, ∀ b ∈ bs, alphaIn env a b = true → den R ρ a = den R ρ' b)
    (hs : alphaInAll env as bs = true) : as.map (den R ρ) = bs.map (den R ρ') := by
  refine (map_eq_of_forall₂ (forall₂_imp_of_mem (alphaInAll_iff.1 hs) fun a ha b hb hab => ?_)).symm
  exact (h a ha b hb hab).symm

/-- **Expressions that are equal under corresponding bindings mean the same.**
The induction is on the first of them; in a binding, one more pair of variables
corresponds, which means the same new slot on both sides. -/
theorem den_eq_of_alphaIn {a b : Expr} (ha : Sorted R arity a) (hb : Sorted R arity' b)
    (hρ : Related env ρ ρ') (h : alphaIn env a b = true) : den R ρ a = den R ρ' b := by
  induction ha generalizing b env ρ ρ' with
  | @var x =>
    cases b with
    | var y => exact hρ.var x y h
    | _ => cases h
  | @sym f =>
    cases b with
    | sym g =>
      obtain rfl := eq_of_beq h
      rw [den, den, hρ.sym]
    | _ => cases h
  | int n => cases b <;> first | cases h | (rw [eq_of_beq h, den, den])
  | float x => cases b <;> first | cases h | (rw [den, den, eq_of_beq h])
  | str s => cases b <;> first | cases h | (rw [eq_of_beq h, den, den])
  | @app f as head args ihf ihas =>
    cases b with
    | app g bs =>
      rw [alphaIn, Bool.and_eq_true] at h
      cases hb with
      | app head' args' =>
        have has := map_den_of_alphaInAll (fun a ha b hb hab => ihas a ha (args' b hb) hρ hab) h.2
        rw [den_app head.ne_applySym, den_app head'.ne_applySym, ihf head' hρ h.1]
        funext n
        have := congrArg (List.map (· n)) has
        rw [List.map_map, List.map_map] at this
        exact congrArg _ this
      | apply =>
        -- an application of an unknown has another head than any other application
        cases f with
        | sym f =>
          obtain rfl := eq_of_beq h.1
          exact absurd rfl head.ne_applySym
        | _ => cases h.1
    | _ => cases h
  | @apply m as unknown nonempty takes args ihas =>
    cases b with
    | app g bs =>
      rw [alphaIn, Bool.and_eq_true] at h
      cases g with
      | sym g =>
        obtain rfl := eq_of_beq h.1
        cases hb with
        | app head => exact absurd rfl head.ne_applySym
        | apply unknown' nonempty' _ args' =>
          have hall := h.2
          rw [alphaInAll, Bool.and_eq_true] at hall
          obtain rfl := eq_of_alphaIn_of_isMarked hρ.plain unknown hall.1
          have has := map_den_of_alphaInAll
            (fun a ha b hb hab => ihas a ha (args' b hb) hρ hab) hall.2
          rw [den_apply unknown nonempty, den_apply unknown nonempty', has, hρ.fn]
      | _ => cases h.1
    | _ => cases h
  | @bind f xs b slots distinct body ih =>
    cases b with
    | bind g ys c =>
      rw [alphaIn, Bool.and_eq_true, Bool.and_eq_true, beq_iff_eq, beq_iff_eq] at h
      obtain ⟨⟨rfl, hlen⟩, h⟩ := h
      cases hb with
      | bind slots' _ body' =>
        rw [den, den]
        funext n
        rw [hlen, ih body' (hρ.enter slots slots' ?_ ?_) h]
        · rw [Meaning.length_levels]; exact hlen
        · rw [Meaning.length_levels]; rfl
    | _ => cases h

/-- **Expressions equal up to bound names mean the same.** -/
theorem den_eq_of_alphaEq {a b : Expr} (ha : Sorted R arity a) (hb : Sorted R arity' b)
    (h : alphaEq a b = true) : den R ρ a = den R ρ b :=
  den_eq_of_alphaIn ha hb (.refl ρ) h

/-- The name of a free variable, or of a slot among the first `n`. -/
def Term.Named (n : Nat) (t : Term) : Prop := (∃ i, i < n ∧ t = .bound i) ∨ ∃ x, t = .var x

/-- Under both valuations names mean themselves or slots already entered, and
variables with the same meaning correspond under `env`. -/
structure Faithful (R : Reserved) (env : List (Var × Var)) (ρ ρ' : Valuation) (n : Nat) : Prop where
  named : ∀ x, ∃ t, Term.Named n t ∧ ρ.val (.var x) = fun _ => t
  named' : ∀ x, ∃ t, Term.Named n t ∧ ρ'.val (.var x) = fun _ => t
  apart : ∀ x y, ρ.val (.var x) = ρ'.val (.var y) → sameVarIn env x y = true
  sym : ∀ f, ρ.val (.sym f) = fun _ => .sym f
  sym' : ∀ f, ρ'.val (.sym f) = fun _ => .sym f
  fn : ∀ m ds, m.isMarked = true → ρ.fn m ds = (ρ.val m).applied R ds
  fn' : ∀ m ds, m.isMarked = true → ρ'.fn m ds = (ρ'.val m).applied R ds

/-- Where nothing is bound and every name means itself, variables with the same
meaning are the same. -/
theorem Faithful.free (R : Reserved) : Faithful R [] (Valuation.free R) (Valuation.free R) 0 where
  named x := ⟨.var x, .inr ⟨x, rfl⟩, rfl⟩
  named' x := ⟨.var x, .inr ⟨x, rfl⟩, rfl⟩
  apart x y h := by
    cases congrFun h 0
    exact beq_self_eq_true x
  sym _ := rfl
  sym' _ := rfl
  fn m ds hm := by cases m <;> first | rfl | cases hm
  fn' m ds hm := by cases m <;> first | rfl | cases hm

/-- A slot that has been entered stays one when more are entered. -/
theorem Term.Named.mono {n : Nat} {t : Term} (h : Term.Named n t) : Term.Named (n + 1) t :=
  h.imp_left fun ⟨i, hi, ht⟩ => ⟨i, Nat.lt_succ_of_lt hi, ht⟩

/-- The next slot is no name used so far. -/
theorem Term.Named.ne_bound {n : Nat} {t : Term} (h : Term.Named n t) : t ≠ .bound n := by
  rintro rfl
  rcases h with ⟨i, hi, ht⟩ | ⟨x, hx⟩
  · cases ht
    exact Nat.lt_irrefl _ hi
  · cases hx

/-- Entering a slot keeps the names of one side as they should be. -/
theorem named_update {n : Nat} (h : ∀ x, ∃ t, Term.Named n t ∧ ρ.val (.var x) = fun _ => t)
    (u x : Var) : ∃ t, Term.Named (n + 1) t ∧
      (ρ.update (.var u) fun _ => .bound n).val (.var x) = fun _ => t := by
  by_cases hx : x = u
  · refine ⟨.bound n, .inl ⟨n, Nat.lt_succ_self n, rfl⟩, ?_⟩
    rw [hx, Valuation.update_val_self]
  · obtain ⟨t, ht, hval⟩ := h x
    refine ⟨t, ht.mono, ?_⟩
    rw [Valuation.update_val_of_ne fun e => hx (Expr.var.inj e), hval]

/-- An unknown that is applied stays an application when an ordinary variable
gets a meaning. -/
theorem fn_update {u : Var} (hu : u.marked = false) {d : Meaning}
    (h : ∀ m ds, m.isMarked = true → ρ.fn m ds = (ρ.val m).applied R ds) (m : Expr)
    (ds : List Meaning) (hm : m.isMarked = true) :
    (ρ.update (.var u) d).fn m ds = ((ρ.update (.var u) d).val m).applied R ds := by
  rw [Valuation.update_val_of_ne ?_]
  · exact h m ds hm
  · rintro rfl
    exact Bool.false_ne_true (hu.symm.trans hm)

/-- A new slot for two variables tells them apart from all others, for no name
has meant this slot before. -/
theorem Faithful.update {n : Nat} (h : Faithful R env ρ ρ' n) {u v : Var}
    (hu : u.marked = false) (hv : v.marked = false) :
    Faithful R ((u, v) :: env) (ρ.update (.var u) fun _ => .bound n)
      (ρ'.update (.var v) fun _ => .bound n) (n + 1) where
  named := named_update h.named u
  named' := named_update h.named' v
  apart x y hxy := by
    rw [sameVarIn]
    by_cases hx : x = u <;> by_cases hy : y = v
    · rw [if_pos (.inl hx), hx, hy, beq_self_eq_true, beq_self_eq_true]
      rfl
    · obtain ⟨t, ht, hval⟩ := h.named' y
      rw [hx, Valuation.update_val_self, Valuation.update_val_of_ne fun e => hy (Expr.var.inj e),
        hval] at hxy
      exact absurd (congrFun hxy 0).symm ht.ne_bound
    · obtain ⟨t, ht, hval⟩ := h.named x
      rw [hy, Valuation.update_val_self, Valuation.update_val_of_ne fun e => hx (Expr.var.inj e),
        hval] at hxy
      exact absurd (congrFun hxy 0) ht.ne_bound
    · rw [Valuation.update_val_of_ne fun e => hx (Expr.var.inj e),
        Valuation.update_val_of_ne fun e => hy (Expr.var.inj e)] at hxy
      rw [if_neg (not_or.2 ⟨hx, hy⟩)]
      exact h.apart x y hxy
  sym f := by rw [Valuation.update_val_sym, h.sym]
  sym' f := by rw [Valuation.update_val_sym, h.sym']
  fn := fn_update hu h.fn
  fn' := fn_update hv h.fn'

/-- So do the new slots of two bindings of the same length. -/
theorem Faithful.enter {n k : Nat} (h : Faithful R env ρ ρ' n) {xs ys : List Var}
    (hxs : ∀ x ∈ xs, x.marked = false) (hys : ∀ y ∈ ys, y.marked = false)
    (hlen : xs.length = k) (hlen' : ys.length = k) :
    Faithful R ((xs.zip ys).reverse ++ env) (ρ.enter xs (Meaning.levels n k))
      (ρ'.enter ys (Meaning.levels n k)) (n + k) := by
  induction k generalizing n xs ys env ρ ρ' with
  | zero =>
    obtain rfl := List.length_eq_zero_iff.1 hlen
    obtain rfl := List.length_eq_zero_iff.1 hlen'
    exact h
  | succ k ih =>
    obtain ⟨x, xs, rfl⟩ := List.exists_cons_of_length_eq_add_one hlen
    obtain ⟨y, ys, rfl⟩ := List.exists_cons_of_length_eq_add_one hlen'
    rw [List.forall_mem_cons] at hxs hys
    have hn : n + (k + 1) = n + 1 + k := by omega
    rw [List.zip_cons_cons, List.reverse_cons, List.append_assoc, hn]
    exact ih (h.update hxs.1 hys.1) hxs.2 hys.2 (Nat.succ.inj hlen) (Nat.succ.inj hlen')

/-- Where every name means itself, an application is an application, whatever
is applied. -/
theorem den_app_of_fn {n : Nat} {f : Expr} {as : List Expr} (h : Sorted R arity (app f as))
    (hfn : ∀ m ds, m.isMarked = true → ρ.fn m ds = (ρ.val m).applied R ds) :
    den R ρ (app f as) n = .app (den R ρ f n) (as.map fun a => den R ρ a n) := by
  cases h with
  | app head => rw [den_app head.ne_applySym]
  | @apply m as unknown nonempty =>
    have hm : den R ρ m = ρ.val m := by
      cases m with
      | var => rfl
      | sym f => exact if_pos unknown
      | _ => cases unknown
    have hhead : den R ρ (sym R.applySym) = fun _ => .sym R.applySym := rfl
    rw [den_apply unknown nonempty, hfn m _ unknown, hhead, List.map_cons, hm, Meaning.applied,
      List.map_map]
    rfl

/-- The meaning of a symbol that means itself. -/
theorem den_sym_of_val {f : Sym} (h : ρ.val (.sym f) = fun _ => .sym f) :
    den R ρ (.sym f) = fun _ => .sym f := by
  rw [den, h]
  split <;> rfl

/-- Lists of arguments with the same meanings are equal up to bound names, if
that is so for their members. -/
theorem alphaInAll_of_map_den {n : Nat} {as bs : List Expr}
    (h : ∀ a ∈ as, ∀ b ∈ bs, den R ρ a n = den R ρ' b n → alphaIn env a b = true)
    (hs : as.map (fun a => den R ρ a n) = bs.map fun b => den R ρ' b n) :
    alphaInAll env as bs = true := by
  rw [← List.forall₂_eq_eq_eq, List.forall₂_map_left_iff, List.forall₂_map_right_iff] at hs
  exact alphaInAll_iff.2 (forall₂_imp_of_mem hs h)

/-- What the parts of a sorted application are: sorted, or a bare name. -/
def Part (R : Reserved) (arity : Arity) (e : Expr) : Prop :=
  Sorted R arity e ∨ IsName e

/-- The head of an application that applies an unknown, and the unknown itself,
are bare names.  All other parts are sorted. -/
theorem Sorted.parts {f : Expr} {as : List Expr} (h : Sorted R arity (.app f as)) :
    Part R arity f ∧ ∀ a ∈ as, Part R arity a := by
  cases h with
  | app head args => exact ⟨.inl head, fun a ha => .inl (args a ha)⟩
  | @apply m as unknown _ _ args =>
    refine ⟨.inr (.inr ⟨_, rfl⟩), List.forall_mem_cons.2 ⟨?_, fun a ha => .inl (args a ha)⟩⟩
    exact .inr (isName_of_isMarked unknown)

/-- A part that is an application is sorted, since it is no name. -/
theorem Part.sorted_app {f : Expr} {as : List Expr} (h : Part R arity (app f as)) :
    Sorted R arity (app f as) := by
  rcases h with h | ⟨x, hx⟩ | ⟨f, hf⟩
  · exact h
  · cases hx
  · cases hf

/-- A part that is a binding is sorted, and so is its body. -/
theorem Part.sorted_bind {f : Sym} {xs : Binders} {b : Expr} (h : Part R arity (bind f xs b)) :
    (∀ x ∈ xs.toList, x.marked = false) ∧ Part R arity b := by
  rcases h with h | ⟨x, hx⟩ | ⟨f, hf⟩
  · cases h with
    | bind slots _ body => exact ⟨slots, .inl body⟩
  · cases hx
  · cases hf

/-- The outermost constructor of a term, where the places of slots and the
names of variables count as one. -/
def Term.kind : Term → Nat
  | .bound _ | .var _ => 0
  | .sym _ => 1
  | .int _ => 2
  | .float _ => 3
  | .str _ => 4
  | .app .. => 5
  | .bind .. => 6

/-- The outermost constructor of an expression. -/
def kind : Expr → Nat
  | .var _ => 0
  | .sym _ => 1
  | .int _ => 2
  | .float _ => 3
  | .str _ => 4
  | .app .. => 5
  | .bind .. => 6

/-- Where names mean themselves or slots, the meaning tells the outermost
constructor. -/
theorem Part.kind_den {n : Nat} {e : Expr} (he : Part R arity e)
    (hvar : ∀ x, ∃ t, Term.Named n t ∧ ρ.val (.var x) = fun _ => t)
    (hsym : ∀ f, ρ.val (.sym f) = fun _ => .sym f)
    (hfn : ∀ m ds, m.isMarked = true → ρ.fn m ds = (ρ.val m).applied R ds) :
    Term.kind (den R ρ e n) = e.kind := by
  cases e with
  | var x =>
    obtain ⟨t, ht, hval⟩ := hvar x
    rw [show den R ρ (.var x) n = ρ.val (.var x) n from rfl, hval]
    rcases ht with ⟨i, -, rfl⟩ | ⟨y, rfl⟩ <;> rfl
  | sym f =>
    rw [den_sym_of_val (hsym f)]
    rfl
  | app f as =>
    rw [den_app_of_fn he.sorted_app hfn]
    rfl
  | _ => rfl

/-- Parts with the same meaning have the same outermost constructor, as names
that mean themselves or slots do not imitate another one. -/
theorem Faithful.kind_eq {n : Nat} {a b : Expr} (hρ : Faithful R env ρ ρ' n) (ha : Part R arity a)
    (hb : Part R arity' b) (h : den R ρ a n = den R ρ' b n) : a.kind = b.kind :=
  (ha.kind_den hρ.named hρ.sym hρ.fn).symm.trans
    ((congrArg Term.kind h).trans (hb.kind_den hρ.named' hρ.sym' hρ.fn'))

/-- Variables that mean the same correspond. -/
theorem Faithful.var {n : Nat} (hρ : Faithful R env ρ ρ' n) {x y : Var}
    (h : den R ρ (.var x) n = den R ρ' (.var y) n) : sameVarIn env x y = true := by
  obtain ⟨t, -, hval⟩ := hρ.named x
  obtain ⟨t', -, hval'⟩ := hρ.named' y
  refine hρ.apart x y ?_
  have ht : t = t' := (congrFun hval n).symm.trans (h.trans (congrFun hval' n))
  rw [hval, hval', ht]

/-- **Expressions that mean the same are equal under the corresponding
bindings,** where meanings tell names apart.  The induction is on the first of
them; its kind tells the constructor of the other. -/
theorem alphaIn_of_den {a b : Expr} {n : Nat} (ha : Part R arity a) (hb : Part R arity' b)
    (hρ : Faithful R env ρ ρ' n) (h : den R ρ a n = den R ρ' b n) : alphaIn env a b = true := by
  induction a generalizing b env ρ ρ' n with
  | var x =>
    cases b with
    | var y => exact hρ.var h
    | _ => cases hρ.kind_eq ha hb h
  | sym f =>
    cases b with
    | sym g =>
      rw [den_sym_of_val (hρ.sym f), den_sym_of_val (hρ.sym' g)] at h
      cases h
      exact beq_self_eq_true f
    | _ => cases hρ.kind_eq ha hb h
  | app f as ihf ihas =>
    cases b with
    | app g bs =>
      rw [den_app_of_fn ha.sorted_app hρ.fn, den_app_of_fn hb.sorted_app hρ.fn', Term.app.injEq] at h
      obtain ⟨hf, has⟩ := ha.sorted_app.parts
      obtain ⟨hg, hbs⟩ := hb.sorted_app.parts
      rw [alphaIn, ihf hf hg hρ h.1, Bool.true_and]
      exact alphaInAll_of_map_den (fun a ha b hb => ihas a ha (has a ha) (hbs b hb) hρ) h.2
    | _ => cases hρ.kind_eq ha hb h
  | bind f xs d ih =>
    cases b with
    | bind g ys c =>
      rw [den, den, Term.bind.injEq] at h
      obtain ⟨rfl, hlen, h⟩ := h
      obtain ⟨hxs, hd⟩ := ha.sorted_bind
      obtain ⟨hys, hc⟩ := hb.sorted_bind
      have hρ' := hρ.enter hxs hys hlen (show ys.toList.length = ys.length from rfl)
      rw [hlen] at h
      rw [alphaIn, beq_self_eq_true, hlen, beq_self_eq_true]
      exact ih hd hc hρ' h
    | _ => cases hρ.kind_eq ha hb h
  | int i =>
    cases b with
    | int j => cases h; exact beq_self_eq_true i
    | _ => cases hρ.kind_eq ha hb h
  | float x =>
    cases b with
    | float y => exact beq_iff_eq.2 (Term.float.inj h)
    | _ => cases hρ.kind_eq ha hb h
  | str s =>
    cases b with
    | str t => cases h; exact beq_self_eq_true s
    | _ => cases hρ.kind_eq ha hb h

/-- **Expressions that mean the same are equal up to bound names.** -/
theorem alphaEq_of_den {a b : Expr} (ha : Sorted R arity a) (hb : Sorted R arity' b)
    (h : den R (Valuation.free R) a 0 = den R (Valuation.free R) b 0) : alphaEq a b = true :=
  alphaIn_of_den (.inl ha) (.inl hb) (.free R) h

/-- Atoms that are equal up to bound names are equal. -/
theorem same_of_alphaEq {a b : Expr} (h : alphaEq a b = true)
    (hatom : (a.isCompound && b.isCompound) = false) : a.same b = true := by
  cases a <;> cases b <;> first | exact h | cases h | cases hatom

/-- **Two sorted expressions are similar exactly if they mean the same.** -/
theorem similar_iff {a b : Expr} (ha : Sorted R arity a) (hb : Sorted R arity' b) :
    a.similar b = true ↔ ∀ ρ, den R ρ a = den R ρ b := by
  rw [similar, alphaEquivalent, Bool.or_eq_true]
  constructor
  · rintro (h | h) ρ
    · exact den_eq_of_same ha h
    · rw [Bool.and_eq_true] at h
      exact den_eq_of_alphaEq ha hb h.2
  · intro h
    have halpha := alphaEq_of_den ha hb (congrFun (h _) 0)
    cases hc : a.isCompound && b.isCompound with
    | false => exact .inl (same_of_alphaEq halpha hc)
    | true => exact .inr (by rw [halpha]; rfl)

end Expr
end SecondOrder
