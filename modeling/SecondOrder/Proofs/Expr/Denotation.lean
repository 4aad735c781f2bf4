/-
# What an expression means

`Expr.den` reads an expression under a valuation of its names, as a term in
which bound names have become numbers.  A valuation gives every variable and
every unknown a meaning, and every unknown that is applied an operation on
meanings; the application of a function means what its body means with the
arguments as values of the parameters.

The meaning depends on the free names alone (`Expr.den_congr`), and equal nodes
mean the same (`Expr.den_eq_of_same`).
-/

import SecondOrder.Proofs.Expr.Sorted
import SecondOrder.Proofs.Refusal

namespace SecondOrder

/-- An expression without bound names: a bound variable is the number of slots
entered before its own. -/
inductive Term where
  | bound (level : Nat)
  | var (x : Var)
  | sym (f : Sym)
  | int (n : Int)
  | float (key : String)
  | str (s : String)
  | app (head : Term) (args : List Term)
  | bind (head : Sym) (slots : Nat) (body : Term)

/-- A term for every number of slots around it. -/
abbrev Meaning := Nat → Term

/-- The meanings of the names, and the operations that unknowns stand for when
they are applied. -/
structure Valuation where
  val : Expr → Meaning
  fn : Expr → List Meaning → Meaning

/-- The application that is left as it is. -/
def Meaning.applied (R : Reserved) (d : Meaning) (ds : List Meaning) : Meaning :=
  fun n => .app (.sym R.applySym) (d n :: ds.map (· n))

/-- The `k` slots entered after the first `n`. -/
def Meaning.levels (n : Nat) : Nat → List Meaning
  | 0 => []
  | k + 1 => (fun _ => .bound n) :: levels (n + 1) k

/-- There are as many levels as slots to enter. -/
@[simp] theorem Meaning.length_levels (n k : Nat) : (levels n k).length = k := by
  induction k generalizing n with
  | zero => rfl
  | succ k ih => rw [levels, List.length_cons, ih]

namespace Valuation

/-- Every name means itself. -/
def free (R : Reserved) : Valuation where
  val
    | .var x => fun _ => .var x
    | .sym f => fun _ => .sym f
    | _ => fun _ => .str ""
  fn
    | .var x, ds => Meaning.applied R (fun _ => .var x) ds
    | .sym f, ds => Meaning.applied R (fun _ => .sym f) ds
    | _, _ => fun _ => .str ""

/-- The name `v` given another meaning. -/
def update (ρ : Valuation) (v : Expr) (d : Meaning) : Valuation :=
  { ρ with val := fun e => if e == v then d else ρ.val e }

/-- The variables given meanings one after another. -/
def enter (ρ : Valuation) : List Var → List Meaning → Valuation
  | x :: xs, d :: ds => (ρ.update (.var x) d).enter xs ds
  | _, _ => ρ

variable {ρ ρ' : Valuation}

/-- The variable that is given a meaning has it. -/
theorem update_val_self (ρ : Valuation) (x : Var) (d : Meaning) :
    (ρ.update (.var x) d).val (.var x) = d := by
  rw [update]
  exact if_pos (Expr.same_refl _)

/-- No other node gets a new meaning, whatever kind of node it is. -/
theorem update_val_of_ne {x : Var} {e : Expr} (h : e ≠ .var x) (d : Meaning) :
    (ρ.update (.var x) d).val e = ρ.val e := by
  rw [update]
  exact if_neg fun hs => h (Expr.same_var_iff.1 hs)

/-- Both halves for any name, be it a variable or an unknown. -/
theorem update_val (ρ : Valuation) {v : Expr} (hv : Expr.IsName v) (d : Meaning) (e : Expr) :
    (e = v → (ρ.update v d).val e = d) ∧ (e ≠ v → (ρ.update v d).val e = ρ.val e) := by
  rw [update]
  exact ⟨fun h => if_pos ((Expr.beq_name_iff hv).2 h), fun h => if_neg (mt (Expr.beq_name_iff hv).1 h)⟩

/-- Symbols keep their meaning when a variable is given one. -/
@[simp] theorem update_val_sym (ρ : Valuation) (x : Var) (d : Meaning) (f : Sym) :
    (ρ.update (.var x) d).val (.sym f) = ρ.val (.sym f) :=
  update_val_of_ne (fun h => Expr.noConfusion h) d

/-- Slots are given meanings as variables, and never as operations. -/
@[simp] theorem enter_fn (ρ : Valuation) (xs : List Var) (ds : List Meaning) :
    (ρ.enter xs ds).fn = ρ.fn := by
  induction xs generalizing ρ ds with
  | nil => rfl
  | cons x xs ih => cases ds with
    | nil => rfl
    | cons d ds => exact ih ..

/-- A node that is none of the variables entered keeps its meaning. -/
theorem enter_val_of_not_mem {xs : List Var} {e : Expr} (h : ∀ x ∈ xs, e ≠ .var x)
    (ds : List Meaning) : (ρ.enter xs ds).val e = ρ.val e := by
  induction xs generalizing ρ ds with
  | nil => rfl
  | cons x xs ih => cases ds with
    | nil => rfl
    | cons d ds =>
      rw [enter, ih (fun y hy => h y (List.mem_cons_of_mem _ hy)),
        update_val_of_ne (h x List.mem_cons_self)]

/-- Symbols keep their meaning when slots are entered. -/
@[simp] theorem enter_val_sym (ρ : Valuation) (xs : List Var) (ds : List Meaning) (f : Sym) :
    (ρ.enter xs ds).val (.sym f) = ρ.val (.sym f) :=
  enter_val_of_not_mem (fun _ _ h => Expr.noConfusion h) ds

/-- A name that is not entered can be given its meaning before or after. -/
theorem update_enter {v : Expr} (hv : Expr.IsName v) {xs : List Var} (h : ∀ x ∈ xs, v ≠ .var x)
    (d : Meaning) (ds : List Meaning) :
    (ρ.update v d).enter xs ds = (ρ.enter xs ds).update v d := by
  induction xs generalizing ρ ds with
  | nil => rfl
  | cons x xs ih => cases ds with
    | nil => rfl
    | cons e ds =>
      rw [List.forall_mem_cons] at h
      rw [enter, enter, ← ih h.2]
      congr 1
      refine congrArg (fun val => (⟨val, ρ.fn⟩ : Valuation)) (funext fun n => ?_)
      by_cases hn : n = v
      · have hx : n ≠ .var x := hn ▸ h.1
        exact (update_val_of_ne (ρ := ρ.update v d) hx e).trans
          (((update_val ρ hv d n).1 hn).trans ((update_val (ρ.update (.var x) e) hv d n).1 hn).symm)
      · by_cases hx : n = .var x
        · rw [hx] at hn ⊢
          exact (update_val_self (ρ.update v d) x e).trans
            ((update_val_self ρ x e).symm.trans ((update_val (ρ.update (.var x) e) hv d _).2 hn).symm)
        · exact (update_val_of_ne (ρ := ρ.update v d) hx e).trans
            (((update_val ρ hv d n).2 hn).trans ((update_val_of_ne hx e).symm.trans
              ((update_val (ρ.update (.var x) e) hv d n).2 hn).symm))

/-- Valuations that agree apart from the variables entered agree afterwards. -/
theorem enter_val_congr {xs : List Var} {ds : List Meaning} (hlen : xs.length = ds.length)
    {e : Expr} (h : (∀ x ∈ xs, e ≠ .var x) → ρ.val e = ρ'.val e) :
    (ρ.enter xs ds).val e = (ρ'.enter xs ds).val e := by
  induction xs generalizing ρ ρ' ds with
  | nil => exact h nofun
  | cons x xs ih => cases ds with
    | nil => cases hlen
    | cons d ds =>
      refine ih (Nat.succ.inj hlen) fun hne => ?_
      by_cases hx : e = .var x
      · rw [hx, update_val_self, update_val_self]
      · rw [update_val_of_ne hx, update_val_of_ne hx]
        exact h (List.forall_mem_cons.2 ⟨hx, hne⟩)

end Valuation

namespace Expr

mutual

/-- The meaning of an expression. -/
def den (R : Reserved) (ρ : Valuation) : Expr → Meaning
  | var x => ρ.val (var x)
  | sym f => if f.marked then ρ.val (sym f) else fun _ => .sym f
  | int n => fun _ => .int n
  | float x => fun _ => .float x.key
  | str s => fun _ => .str s
  | app f as =>
    if f == sym R.applySym then denApply R ρ as
    else fun n => .app (den R ρ f n) ((denAll R ρ as).map (· n))
  | bind f xs b => fun n => .bind f xs.length
      (den R (ρ.enter xs.toList (Meaning.levels n xs.length)) b (n + xs.length))

def denAll (R : Reserved) (ρ : Valuation) : List Expr → List Meaning
  | [] => []
  | a :: as => den R ρ a :: denAll R ρ as

/-- The meaning of the application of the first expression to the others. -/
def denApply (R : Reserved) (ρ : Valuation) : List Expr → Meaning
  | g :: a :: as => call R ρ g (den R ρ g) (denAll R ρ (a :: as))
  | [g] => fun n => .app (.sym R.applySym) [den R ρ g n]
  | [] => fun _ => .app (.sym R.applySym) []

/-- What an expression that means `d` gives when it is applied. -/
def call (R : Reserved) (ρ : Valuation) : Expr → Meaning → List Meaning → Meaning
  | bind f us b, d, ds =>
    if f = R.lambdaSym ∧ us.length = ds.length then den R (ρ.enter us.toList ds) b
    else d.applied R ds
  | e, d, ds => if e.isMarked then ρ.fn e ds else d.applied R ds

end

variable {R : Reserved} {arity : Arity} {ρ ρ' : Valuation}

/-- The meanings of arguments are taken one by one. -/
theorem denAll_eq_map (R : Reserved) (ρ : Valuation) (as : List Expr) :
    denAll R ρ as = as.map (den R ρ) := by
  induction as with
  | nil => rfl
  | cons a as ih => rw [denAll, ih, List.map_cons]

/-- The test for a symbol is equality of nodes, as no symbol carries a
literal. -/
theorem beq_sym_iff {e : Expr} {f : Sym} : (e == sym f) = true ↔ e = sym f :=
  beq_name_iff (.inr ⟨f, rfl⟩)

/-- An application that applies no function and no unknown. -/
theorem den_app {f : Expr} (hf : f ≠ sym R.applySym) (as : List Expr) :
    den R ρ (app f as) = fun n => .app (den R ρ f n) (as.map fun a => den R ρ a n) := by
  rw [den, if_neg (mt beq_sym_iff.1 hf), denAll_eq_map]
  funext n
  rw [List.map_map]
  rfl

/-- An applied unknown. -/
theorem den_apply {m : Expr} (hm : m.isMarked = true) {as : List Expr} (has : as ≠ []) :
    den R ρ (app (sym R.applySym) (m :: as)) = ρ.fn m (as.map (den R ρ)) := by
  rw [den, if_pos (beq_sym_iff.2 rfl)]
  cases as with
  | nil => contradiction
  | cons a as =>
    rw [denApply, denAll_eq_map]
    cases m <;> exact if_pos hm

/-- The unknown stands for a function. -/
def IsFn (arity : Arity) (n : Expr) : Prop := n.isMarked = true ∧ arity n ≠ none

/-- Both valuations give the name the same: the operation of a function, the
meaning of any other name. -/
structure Agree (arity : Arity) (ρ ρ' : Valuation) (n : Expr) : Prop where
  val : ¬IsFn arity n → ρ.val n = ρ'.val n
  fn : IsFn arity n → ρ.fn n = ρ'.fn n

/-- Under a binding two valuations agree on what is free there if they agreed
outside: both give the slots the same meanings.  An unknown is no slot, so its
operation stays the one from outside. -/
theorem Agree.enter {f : Sym} {xs : Binders} {b : Expr} {ds : List Meaning}
    (hlen : xs.length = ds.length) (slots : ∀ x ∈ xs.toList, x.marked = false)
    (h : ∀ n ∈ (Expr.bind f xs b).names, Agree arity ρ ρ' n) :
    ∀ n ∈ b.names, Agree arity (ρ.enter xs.toList ds) (ρ'.enter xs.toList ds) n := by
  refine fun n hn => ⟨fun hfn => ?_, fun hfn => ?_⟩
  · have hlen : xs.toList.length = ds.length := hlen
    exact Valuation.enter_val_congr hlen fun hfree => (h n (mem_names_bind.2 ⟨hn, hfree⟩)).val hfn
  · rw [Valuation.enter_fn, Valuation.enter_fn]
    exact (h n ((mem_names_bind_iff slots hfn.1).2 hn)).fn hfn

/-- **The meaning depends on the free names alone.** -/
theorem den_congr {e : Expr} (he : Sorted R arity e)
    (h : ∀ n ∈ e.names, Agree arity ρ ρ' n) : den R ρ e = den R ρ' e := by
  induction he generalizing ρ ρ' with
  | @var x plain =>
    exact (h _ (List.mem_singleton.2 rfl)).val fun hfn => hfn.2 (plain hfn.1)
  | @sym f unreserved plain =>
    rw [den, den]
    split
    · exact (h _ (List.mem_singleton.2 rfl)).val fun hfn => hfn.2 (plain hfn.1)
    · rfl
  | int | float | str => rw [den, den]
  | app head args ihf ihas =>
    have hf := ihf fun n hn => h n (mem_names_app.2 (.inl hn))
    have has (a : Expr) (ha : a ∈ _) : den R ρ a = den R ρ' a :=
      ihas a ha fun n hn => h n (mem_names_app.2 (.inr ⟨a, ha, hn⟩))
    rw [den_app head.ne_applySym, den_app head.ne_applySym, hf]
    funext n
    rw [List.map_congr_left fun a ha => congrFun (has a ha) n]
  | @apply m as unknown nonempty takes args ihas =>
    have hm := h m ((mem_names_apply unknown).2 (.inr (.inl rfl)))
    rw [den_apply unknown nonempty, den_apply unknown nonempty,
      hm.fn ⟨unknown, by rw [takes]; nofun⟩]
    refine congrArg _ (List.map_congr_left fun a ha => ihas a ha fun n hn => ?_)
    exact h n ((mem_names_apply unknown).2 (.inr (.inr ⟨a, ha, hn⟩)))
  | @bind f xs b slots distinct body ih =>
    rw [den, den]
    funext n
    rw [ih (Agree.enter (Meaning.length_levels n xs.length).symm slots h)]

/-- Lists are equal if their members are. -/
theorem sameAll_iff {as bs : List Expr} :
    sameAll as bs = true ↔ List.Forall₂ (fun a b => a.same b = true) as bs := by
  induction as generalizing bs with
  | nil => cases bs with
    | nil => exact ⟨fun _ => .nil, fun _ => rfl⟩
    | cons => exact ⟨nofun, nofun⟩
  | cons a as ih => cases bs with
    | nil => exact ⟨nofun, nofun⟩
    | cons b bs => rw [sameAll, Bool.and_eq_true, List.forall₂_cons, ih]

/-- Lists whose members are equal nodes mean the same, if that is known of each
member. -/
theorem map_den_of_sameAll {as bs : List Expr}
    (h : ∀ a ∈ as, ∀ b, a.same b = true → den R ρ a = den R ρ b) (hs : sameAll as bs = true) :
    as.map (den R ρ) = bs.map (den R ρ) := by
  refine (map_eq_of_forall₂ (forall₂_imp_of_mem (sameAll_iff.1 hs) fun a ha b _ hab => ?_)).symm
  exact (h a ha b hab).symm

/-- An unknown is equal to no other node. -/
theorem eq_of_same_of_isMarked {m e : Expr} (hm : m.isMarked = true) (h : m.same e = true) :
    e = m := by
  cases m <;> first | cases hm | (cases e <;> simp_all [same])

/-- **Equal nodes mean the same.** -/
theorem den_eq_of_same {a b : Expr} (ha : Sorted R arity a) (h : a.same b = true) :
    den R ρ a = den R ρ b := by
  induction ha generalizing ρ b with
  | var => rw [same_var_iff.1 (same_symm h)]
  | sym => rw [beq_sym_iff.1 (same_symm h)]
  | int n => cases b <;> first | cases h | (rw [eq_of_beq h])
  | float x => cases b <;> first | cases h | (rw [den, den, eq_of_beq h])
  | str s => cases b <;> first | cases h | (rw [eq_of_beq h])
  | @app f as head args ihf ihas =>
    cases b with
    | app g bs =>
      rw [same, Bool.and_eq_true] at h
      have hg : g ≠ sym R.applySym := by
        rintro rfl
        exact head.ne_applySym (beq_sym_iff.1 h.1)
      have has := map_den_of_sameAll (ρ := ρ) (fun a ha b hb => ihas a ha hb) h.2
      rw [den_app head.ne_applySym, den_app hg, ihf h.1]
      funext n
      have := congrArg (List.map (· n)) has
      rw [List.map_map, List.map_map] at this
      exact congrArg _ this
    | _ => cases h
  | @apply m as unknown nonempty takes args ihas =>
    cases b with
    | app g bs =>
      rw [same, Bool.and_eq_true] at h
      obtain rfl := beq_sym_iff.1 (same_symm h.1)
      cases bs with
      | nil => cases h.2
      | cons m' bs =>
        have hall := h.2
        rw [sameAll, Bool.and_eq_true] at hall
        obtain rfl := eq_of_same_of_isMarked unknown hall.1
        have has := map_den_of_sameAll (ρ := ρ) (fun a ha b hb => ihas a ha hb) hall.2
        have hbs : bs ≠ [] := by
          rintro rfl
          exact nonempty (List.map_eq_nil_iff.1 has)
        rw [den_apply unknown nonempty, den_apply unknown hbs, has]
    | _ => cases h
  | @bind f xs b slots distinct body ih =>
    cases b with
    | bind g ys c =>
      rw [same, Bool.and_eq_true, Bool.and_eq_true] at h
      obtain rfl := eq_of_beq h.1.1
      obtain rfl := eq_of_beq h.1.2
      rw [den, den]
      funext n
      rw [ih h.2]
    | _ => cases h

end Expr
end SecondOrder
