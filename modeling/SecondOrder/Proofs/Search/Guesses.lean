/-
# The values that a branch tries

Every guess is a function of new parameters whose body is sorted and holds no
unknown but the temporaries of the guess (`Shape`, `guessed_spec`).  What it
gives for any arguments is `Guess.outcome`: the value itself, one of the
arguments, or an expression of the outermost shape of the value whose parts the
temporaries give.  So its meaning shows what each temporary gives
(`Shape.shows`), and no solution can leave one without a value.
-/

import SecondOrder.Search.Branch
import SecondOrder.Proofs.Equation.Solution
import SecondOrder.Proofs.EquationSet.Contents

namespace SecondOrder

namespace EquationSet

variable {P : EquationSet} {n : Nat}

/-- Minted variables are numbered from the counter on. -/
theorem toList_mintBinders (P : EquationSet) (n : Nat) :
    (P.mintBinders n).1.toList = (List.range' P.nextFresh (n + 1)).map (Var.minted · false) := by
  rw [List.range'_succ, List.map_cons, List.range'_eq_map_range, List.map_map]
  exact congrArg _ (List.map_congr_left fun i _ => rfl)

/-- A minted variable is ordinary, is numbered from the old counter on, and is
below the new counter. -/
theorem mem_mintBinders {x : Var} (h : x ∈ (P.mintBinders n).1.toList) :
    x.marked = false ∧ ¬x.Below P.nextFresh ∧ x.Below (P.mintBinders n).2.nextFresh := by
  rw [toList_mintBinders] at h
  obtain ⟨i, hi, rfl⟩ := List.mem_map.1 h
  have hi := List.mem_range'_1.1 hi
  have hnext : (P.mintBinders n).2.nextFresh = P.nextFresh + 1 + n := rfl
  refine ⟨rfl, fun hb => ?_, below_numberedName.2 (by rw [hnext]; omega)⟩
  have := below_numberedName.1 hb
  omega

/-- Variables minted together are different. -/
theorem nodup_mintBinders (P : EquationSet) (n : Nat) : (P.mintBinders n).1.toList.Nodup := by
  rw [toList_mintBinders]
  exact List.Nodup.map (fun _ _ => Var.minted_injective) List.nodup_range'

/-- For `n` further parameters, `n + 1` variables are minted. -/
theorem length_mintBinders (P : EquationSet) (n : Nat) : (P.mintBinders n).1.length = n + 1 := by
  rw [← Binders.length_toList, toList_mintBinders, List.length_map, List.length_range']

end EquationSet

namespace Expr

variable {R : Reserved} {arity : Arity} {ρ : Valuation}

/-- Different parameters mean the arguments that have been entered for them, in
order. -/
theorem den_enter_vars {xs : List Var} (hdistinct : xs.Nodup) {ds : List Meaning}
    (hlen : xs.length = ds.length) : xs.map (fun x => den R (ρ.enter xs ds) (.var x)) = ds := by
  induction xs generalizing ρ ds with
  | nil => exact (List.length_eq_zero_iff.1 hlen.symm).symm
  | cons x xs ih =>
    obtain ⟨d, ds, rfl⟩ : ∃ d es, ds = d :: es := List.exists_cons_of_length_eq_add_one hlen.symm
    obtain ⟨hx, hdistinct⟩ := List.nodup_cons.1 hdistinct
    rw [List.map_cons, Valuation.enter]
    refine congrArg₂ List.cons ?_ (ih hdistinct (Nat.succ.inj hlen))
    have hne : ∀ y ∈ xs, Expr.var x ≠ .var y := fun y hy h => hx (Expr.var.inj h ▸ hy)
    exact (Valuation.enter_val_of_not_mem hne ds).trans (Valuation.update_val_self ..)

/-- The application of an unknown to all parameters, as an application. -/
theorem applyVars_eq (R : Reserved) (h : Expr) (xs : Binders) :
    R.applyVars h xs = .app (.sym R.applySym) (h :: xs.toList.map .var) := rfl

/-- An unknown applied to the parameters gives what it gives the arguments. -/
theorem den_applyVars {h : Expr} (hm : h.isMarked = true) {xs : Binders} (hdistinct : xs.toList.Nodup)
    {ds : List Meaning} (hlen : xs.length = ds.length) :
    den R (ρ.enter xs.toList ds) (R.applyVars h xs) = ρ.fn h ds := by
  have hlen : xs.toList.length = ds.length := hlen
  have hne : xs.toList.map Expr.var ≠ [] := mt List.map_eq_nil_iff.1 (List.cons_ne_nil _ _)
  rw [applyVars_eq, den_apply hm hne, Valuation.enter_fn, List.map_map]
  exact congrArg _ (den_enter_vars hdistinct hlen)

/-- An unknown function may be applied to ordinary parameters of the number
that it takes. -/
theorem sorted_applyVars {h : Expr} (hm : h.isMarked = true) {xs : Binders}
    (hplain : ∀ x ∈ xs.toList, x.marked = false) (hk : arity h = some xs.length) :
    Sorted R arity (R.applyVars h xs) := by
  rw [applyVars_eq]
  refine .apply hm (mt List.map_eq_nil_iff.1 (List.cons_ne_nil _ _)) ?_
    (List.forall_mem_map.2 fun x hx => ?_)
  · rw [hk, List.length_map, Binders.length_toList]
  · exact .var fun hm => absurd ((hplain x hx).symm.trans hm) Bool.false_ne_true

end Expr

open SecondOrder.Expr

/-- The meaning of an expression that has the outermost shape of `e` and whose
parts mean `ds`. -/
def Expr.frame (e : Expr) (ds : List Meaning) : Meaning := fun n =>
  match e, ds with
  | .app _ _, d :: ds => .app (d n) (ds.map (· n))
  | .bind f ys _, d :: _ => .bind f ys.length (d (n + ys.length))
  | _, _ => .str ""

/-- What a guess for the value `e` gives for the arguments `ds`. -/
def Guess.outcome (R : Reserved) (e : Expr) (ts : List Expr) (ρ : Valuation) (ds : List Meaning) :
    Guess → Meaning
  | constant => e.den R ρ
  | projection i => ds.getD i fun _ => .str ""
  | imitation => e.frame (ts.map fun t => ρ.fn t ds)

/-- How many temporaries a guess for the value `e` has. -/
def Guess.count (e : Expr) : Guess → Nat
  | imitation => Reserved.temporaryCount e
  | _ => 0

/-- The function `λ xs. b` is the guess `g` for `n + 1` arguments and the value
`e`, with the temporaries `ts`.  Its variables have numbers from `N` up to
`N'`. -/
structure Shape (R : Reserved) (N N' n : Nat) (e : Expr) (g : Guess) (xs : Binders) (b : Expr)
    (ts : List Expr) : Prop where
  guess : g ∈ Guess.all (n + 1) e
  length : xs.length = n + 1
  params : ∀ x ∈ xs.toList, x.marked = false ∧ ¬x.Below N ∧ x.Below N'
  nodup : xs.toList.Nodup
  temporaries : ∀ t ∈ ts, ∃ x : Var, t = .var x ∧ x.marked = true ∧ ¬x.Below N ∧ x.Below N'
  distinct : ts.Nodup
  count : ts.length = g.count e
  sorted : ∀ arity : Arity, (∀ t ∈ ts, arity t = some (n + 1)) → Sorted R arity b
  unknowns : ∀ t ∈ b.names, t.isMarked = true → t ∈ ts
  vars : ∀ z ∈ b.vars, z ∈ xs.toList ∨ z ∈ e.vars ∨ .var z ∈ ts
  slots : ∀ z ∈ b.slots, z ∈ e.slots
  free : ∀ z : Var, .var z ∈ b.names →
    z ∈ xs.toList ∨ .var z ∈ ts ∨ g = .constant ∧ .var z ∈ e.names
  gives : ∀ (ρ : Valuation) (ds : List Meaning), xs.length = ds.length →
    b.den R (ρ.enter xs.toList ds) = g.outcome R e ts ρ ds
  counter : N ≤ N'

/-- Only compound values are imitated. -/
theorem Guess.isCompound_of_imitation {k : Nat} {e : Expr} (h : imitation ∈ all k e) :
    e.isCompound = true := by
  rw [all] at h
  split at h
  · assumption
  · rcases List.mem_cons.1 h with h | h
    · cases h
    · obtain ⟨i, -, h⟩ := List.mem_map.1 h
      cases h

/-- Only atoms are guessed to be constant. -/
theorem Guess.isCompound_of_constant {k : Nat} {e : Expr} (h : constant ∈ all k e) :
    e.isCompound = false := by
  rw [all] at h
  split at h
  · rcases List.mem_append.1 h with h | h
    · obtain ⟨i, -, h⟩ := List.mem_map.1 h
      cases h
    · cases List.mem_singleton.1 h
  · next hatom => exact Bool.eq_false_iff.2 hatom

/-- A projection is tried for each argument and for no more. -/
theorem Guess.lt_of_projection {i k : Nat} {e : Expr} (h : projection i ∈ all k e) : i < k := by
  have hproj : projection i ∈ (List.range k).map projection := by
    rw [all] at h
    split at h
    · rcases List.mem_append.1 h with h | h
      · exact h
      · cases List.mem_singleton.1 h
    · exact (List.mem_cons.1 h).resolve_left nofun
  obtain ⟨j, hj, heq⟩ := List.mem_map.1 hproj
  cases heq
  exact List.mem_range.1 hj

/-- **What a guess gives tells what its temporaries give.** -/
theorem Shape.shows {R : Reserved} {N N' n : Nat} {e : Expr} {g : Guess} {xs : Binders} {b t : Expr}
    {ts : List Expr} (h : Shape R N N' n e g xs b ts) (ht : t ∈ ts) {ρ ρ' : Valuation}
    {ds ds' : List Meaning} (hlen : xs.length = ds.length) (hlen' : xs.length = ds'.length)
    (hzero : ρ.fn t = fun _ _ => .bound 0) (hone : ρ'.fn t = fun _ _ => .bound 1) :
    b.den R (ρ.enter xs.toList ds) ≠ b.den R (ρ'.enter xs.toList ds') := by
  rw [h.gives ρ ds hlen, h.gives ρ' ds' hlen']
  have hcount := h.count
  have hguess := h.guess
  cases g with
  | imitation =>
    have hcompound := Guess.isCompound_of_imitation hguess
    intro heq
    have heq := congrFun heq 0
    cases e with
    | app f as =>
      obtain ⟨u, us, rfl⟩ : ∃ u us, ts = u :: us := List.exists_cons_of_length_eq_add_one hcount
      obtain ⟨hhead, hargs⟩ := Term.app.inj heq
      rcases List.mem_cons.1 ht with rfl | hmem
      · dsimp only at hhead
        rw [hzero, hone] at hhead
        cases hhead
      · rw [List.map_map, List.map_map] at hargs
        have hterm := List.map_inj_left.1 hargs t hmem
        dsimp only [Function.comp] at hterm
        rw [hzero, hone] at hterm
        cases hterm
    | bind f ys d =>
      obtain ⟨u, us, rfl⟩ : ∃ u us, ts = u :: us := List.exists_cons_of_length_eq_add_one hcount
      obtain rfl := List.length_eq_zero_iff.1 (Nat.succ.inj hcount)
      obtain rfl := List.mem_singleton.1 ht
      have hbody := (Term.bind.inj heq).2.2
      dsimp only at hbody
      rw [hzero, hone] at hbody
      cases hbody
    | _ => cases hcompound
  | _ => exact absurd (List.ne_nil_of_mem ht) (not_not.2 (List.length_eq_zero_iff.1 hcount))

namespace Search

variable {R : Reserved} {P : EquationSet} {n : Nat} {e : Expr}

/-- A parameter is ordinary, so nothing remains to be shown of one that is an
unknown. -/
theorem not_isMarked_of_params {xs : Binders} (h : ∀ x ∈ xs.toList, x.marked = false) {x : Var}
    (hx : x ∈ xs.toList) (hm : (Expr.var x).isMarked = true) (Q : Prop) : Q :=
  absurd ((h x hx).symm.trans hm) Bool.false_ne_true

/-- The constant function. -/
theorem guessed_constant (he : Ground R e) (hbelow : e.Below P.nextFresh)
    (hg : .constant ∈ Guess.all (n + 1) e) :
    ∃ xs P', guessed R P n e .constant = .ok (R.lambda xs e, [], P') ∧
      Shape R P.nextFresh P'.nextFresh n e .constant xs e [] ∧
      P' = { P with nextFresh := P'.nextFresh } := by
  refine ⟨_, _, rfl, ⟨hg, EquationSet.length_mintBinders P n, fun x => EquationSet.mem_mintBinders,
    EquationSet.nodup_mintBinders P n, nofun, List.nodup_nil, rfl, fun arity _ => he arity,
    fun t ht hm => ?_, fun z hz => .inr (.inl hz), fun z hz => hz, fun z hz => .inr (.inr ⟨rfl, hz⟩),
    fun ρ ds _ => ?_, ?_⟩, rfl⟩
  · exact absurd ((not_isMarked_of_mem_names he ht).symm.trans hm) Bool.false_ne_true
  · refine den_enter_of_not_mem (he fun _ => none) (fun x hx hxe => ?_) ds
    exact (EquationSet.mem_mintBinders hx).2.1 (hbelow x (mem_vars_of_mem_names hxe))
  · exact Nat.le_trans (Nat.le_succ _) (Nat.le_add_right _ _)

/-- The projections. -/
theorem guessed_projection {i : Nat} (hi : i < n + 1)
    (hg : .projection i ∈ Guess.all (n + 1) e) :
    ∃ xs x P', guessed R P n e (.projection i) = .ok (R.lambda xs (.var x), [], P') ∧
      Shape R P.nextFresh P'.nextFresh n e (.projection i) xs (.var x) [] ∧
      P' = { P with nextFresh := P'.nextFresh } := by
  let xs := (P.mintBinders n).1
  have hlen : xs.toList.length = n + 1 := EquationSet.length_mintBinders P n
  have hget : xs.toList[i]? = some (xs.toList.getD i xs.first) := by
    rw [List.getD_eq_getElem?_getD, List.getElem?_eq_getElem (by omega)]
    rfl
  have hmem := List.mem_of_getElem? hget
  have hplain (x : Var) (hx : x ∈ xs.toList) := (EquationSet.mem_mintBinders hx).1
  have hnodup : xs.toList.Nodup := EquationSet.nodup_mintBinders P n
  refine ⟨xs, _, _, rfl, ⟨hg, hlen, fun x => EquationSet.mem_mintBinders, hnodup, nofun,
    List.nodup_nil, rfl, fun arity _ => .var fun hm => not_isMarked_of_params hplain hmem hm _,
    fun t ht hm => ?_, fun z hz => .inl ?_, nofun, fun z hz => .inl ?_, fun ρ ds hds => ?_, ?_⟩, rfl⟩
  · rw [List.mem_singleton.1 ht] at hm
    exact not_isMarked_of_params hplain hmem hm _
  · rw [List.mem_singleton.1 hz]
    exact hmem
  · rw [Expr.var.inj (List.mem_singleton.1 hz)]
    exact hmem
  · have hids : i < ds.length := Nat.lt_of_lt_of_eq hi (hlen.symm.trans hds)
    have hentered := congrArg (·[i]?) (den_enter_vars (R := R) (ρ := ρ) hnodup hds)
    rw [List.getElem?_map, hget, List.getElem?_eq_getElem hids] at hentered
    have hgets : (ds.getD i fun _ => .str "") = ds[i] := by
      rw [List.getD_eq_getElem?_getD, List.getElem?_eq_getElem hids]
      rfl
    exact (Option.some.inj hentered).trans hgets.symm
  · exact Nat.le_trans (Nat.le_succ _) (Nat.le_add_right _ _)

/-- The temporaries that the set `P` mints after `n + 1` parameters. -/
theorem mem_temporaries {k : Nat} {t : Expr}
    (ht : t ∈ ((P.mintBinders n).2.mintBinders k).1.toList.map fun x => (Expr.var x).setMark true) :
    ∃ x : Var, t = .var x ∧ x.marked = true ∧ ¬x.Below P.nextFresh ∧
      x.Below ((P.mintBinders n).2.mintBinders k).2.nextFresh := by
  obtain ⟨x, hx, rfl⟩ := List.mem_map.1 ht
  obtain ⟨-, hlow, hhigh⟩ := EquationSet.mem_mintBinders hx
  refine ⟨⟨x.name, true⟩, rfl, rfl, fun h => hlow (Var.Below.mono ?_ h), hhigh⟩
  have hnext : (P.mintBinders n).2.nextFresh = P.nextFresh + 1 + n := rfl
  omega

/-- The temporaries of a guess are different.  They are minted together, and to
mark them keeps them apart. -/
theorem nodup_temporaries {k : Nat} :
    (((P.mintBinders n).2.mintBinders k).1.toList.map fun x => (Expr.var x).setMark true).Nodup := by
  rw [EquationSet.toList_mintBinders, List.map_map]
  refine List.Nodup.map (fun i j h => ?_) List.nodup_range'
  exact Var.minted_injective (a := true) (b := true) (Expr.var.inj h)

/-- The variables in an application to parameters are the parameters and those
of what is applied. -/
theorem mem_vars_applyVars {h : Expr} {xs : Binders} {z : Var} :
    z ∈ (R.applyVars h xs).vars ↔ z ∈ h.vars ∨ z ∈ xs.toList := by
  rw [applyVars_eq, mem_vars_app]
  constructor
  · rintro (h | ⟨a, ha, hz⟩)
    · cases h
    · rcases List.mem_cons.1 ha with rfl | ha
      · exact .inl hz
      · obtain ⟨x, hx, rfl⟩ := List.mem_map.1 ha
        exact .inr (List.mem_singleton.1 hz ▸ hx)
  · rintro (h | h)
    · exact .inr ⟨_, List.mem_cons_self, h⟩
    · exact .inr ⟨_, List.mem_cons_of_mem _ (List.mem_map_of_mem h), List.mem_singleton.2 rfl⟩

/-- A variable applied to parameters binds nothing. -/
theorem slots_applyVars (x : Var) (xs : Binders) : (R.applyVars (.var x) xs).slots = [] := by
  refine List.eq_nil_iff_forall_not_mem.2 fun z hz => ?_
  rw [applyVars_eq, mem_slots_app] at hz
  rcases hz with hz | ⟨a, ha, hz⟩
  · cases hz
  · rcases List.mem_cons.1 ha with rfl | ha
    · cases hz
    · obtain ⟨y, -, rfl⟩ := List.mem_map.1 ha
      cases hz

/-- The only unknown in an application to parameters is what is applied. -/
theorem unknowns_applyVars {h t : Expr} {xs : Binders} (hplain : ∀ x ∈ xs.toList, x.marked = false)
    (hh : h.isMarked = true) (ht : t ∈ (R.applyVars h xs).names) (hm : t.isMarked = true) :
    t = h := by
  rw [applyVars_eq] at ht
  rcases (mem_names_apply hh).1 ht with rfl | heq | ⟨a, ha, ht⟩
  · cases hm
  · exact heq
  · obtain ⟨x, hx, rfl⟩ := List.mem_map.1 ha
    rw [List.mem_singleton.1 ht] at hm
    exact not_isMarked_of_params hplain hx hm _

/-- An application to parameters is no symbol, whatever is applied. -/
theorem applyVars_ne_applySym (h : Expr) (xs : Binders) : R.applyVars h xs ≠ .sym R.applySym :=
  nofun

/-- The parameters `xs` of a guess for `n + 1` arguments and its temporaries
`ts` are minted one after the other, with numbers from `N` up to `N'`. -/
structure Mints (N N' n : Nat) (xs : Binders) (ts : List Expr) : Prop where
  length : xs.length = n + 1
  params : ∀ x ∈ xs.toList, x.marked = false ∧ ¬x.Below N ∧ x.Below N'
  nodup : xs.toList.Nodup
  temporaries : ∀ t ∈ ts, ∃ x : Var, t = .var x ∧ x.marked = true ∧ ¬x.Below N ∧ x.Below N'
  distinct : ts.Nodup
  counter : N ≤ N'

/-- What a guess for `n + 1` arguments mints are parameters first, and then its
temporaries. -/
theorem mints (P : EquationSet) (n k : Nat) :
    Mints P.nextFresh ((P.mintBinders n).2.mintBinders k).2.nextFresh n (P.mintBinders n).1
      (((P.mintBinders n).2.mintBinders k).1.toList.map fun x => (Expr.var x).setMark true) where
  length := EquationSet.length_mintBinders P n
  params x hx := by
    obtain ⟨hplain, hlow, hhigh⟩ := EquationSet.mem_mintBinders hx
    exact ⟨hplain, hlow, hhigh.mono (Nat.le_trans (Nat.le_succ _) (Nat.le_add_right _ _))⟩
  nodup := EquationSet.nodup_mintBinders P n
  temporaries _ := mem_temporaries
  distinct := nodup_temporaries
  counter := by
    have hnext : ((P.mintBinders n).2.mintBinders k).2.nextFresh = P.nextFresh + 1 + n + 1 + k := rfl
    omega

namespace Mints

variable {N N' : Nat} {xs : Binders} {ts hs : List Expr} {h t : Expr} {z : Var}

/-- Parameters are ordinary variables. -/
theorem plain (hm : Mints N N' n xs ts) (x : Var) (hx : x ∈ xs.toList) : x.marked = false := (hm.params x hx).1

/-- Temporaries are unknowns. -/
theorem marked (hm : Mints N N' n xs ts) (ht : t ∈ ts) : t.isMarked = true := by
  obtain ⟨x, rfl, hx, -⟩ := hm.temporaries t ht
  exact hx

/-- A temporary applied to the parameters has the parameters and itself for
variables. -/
theorem mem_vars (hm : Mints N N' n xs ts) (ht : t ∈ ts) (hz : z ∈ (R.applyVars t xs).vars) :
    z ∈ xs.toList ∨ .var z ∈ ts := by
  rcases mem_vars_applyVars.1 hz with hz | hz
  · obtain ⟨x, rfl, -⟩ := hm.temporaries t ht
    rw [List.mem_singleton.1 hz]
    exact .inr ht
  · exact .inl hz

/-- A temporary applied to the parameters binds nothing. -/
theorem not_mem_slots (hm : Mints N N' n xs ts) (ht : t ∈ ts) : z ∉ (R.applyVars t xs).slots := by
  obtain ⟨x, rfl, -⟩ := hm.temporaries t ht
  rw [slots_applyVars]
  exact List.not_mem_nil

/-- In a temporary applied to the parameters, the temporary is the only
unknown. -/
theorem mem_of_unknown (hm : Mints N N' n xs ts) (ht : t ∈ ts) {u : Expr} (hu : u ∈ (R.applyVars t xs).names)
    (hmarked : u.isMarked = true) : u ∈ ts := by
  rw [unknowns_applyVars hm.plain (hm.marked ht) hu hmarked]
  exact ht

/-- A temporary applied to the parameters is sorted, if it takes as many
arguments as there are parameters. -/
theorem sorted (hm : Mints N N' n xs ts) (ht : t ∈ ts) {arity : Arity} (hk : arity t = some (n + 1)) :
    Sorted R arity (R.applyVars t xs) :=
  sorted_applyVars (hm.marked ht) hm.plain (by rw [hk, hm.length])

/-- Where arguments are entered for the parameters, a temporary applied to
these means what it gives the arguments. -/
theorem den_applyVars (hm : Mints N N' n xs ts) (ht : t ∈ ts) {ρ : Valuation} {ds : List Meaning}
    (hds : xs.length = ds.length) : den R (ρ.enter xs.toList ds) (R.applyVars t xs) = ρ.fn t ds :=
  Expr.den_applyVars (hm.marked ht) hm.nodup hds

end Mints

/-- Each part of an imitated application is a temporary applied to the
parameters. -/
theorem exists_temporary {p : Expr → Prop} {h : Expr} {hs : List Expr} {xs : Binders}
    (hp : p (R.applyVars h xs) ∨ ∃ a ∈ hs.map fun h => R.applyVars h xs, p a) :
    ∃ t ∈ h :: hs, p (R.applyVars t xs) := by
  rcases hp with hp | ⟨a, ha, hp⟩
  · exact ⟨h, List.mem_cons_self, hp⟩
  · obtain ⟨t, ht, rfl⟩ := List.mem_map.1 ha
    exact ⟨t, List.mem_cons_of_mem _ ht, hp⟩

/-- The imitation of an application has the right shape. -/
theorem Mints.shape_app {N N' : Nat} {f h : Expr} {as hs : List Expr} {xs : Binders}
    (hm : Mints N N' n xs (h :: hs)) (hlen : hs.length = as.length)
    (hg : .imitation ∈ Guess.all (n + 1) (.app f as)) :
    Shape R N N' n (.app f as) .imitation xs
      (.app (R.applyVars h xs) (hs.map fun h => R.applyVars h xs)) (h :: hs) := by
  have hvars {z : Var} (hz : z ∈ (Expr.app (R.applyVars h xs) (hs.map fun h => R.applyVars h xs)).vars) :
      z ∈ xs.toList ∨ .var z ∈ h :: hs := by
    obtain ⟨t, ht, hz⟩ := exists_temporary (p := fun a => z ∈ a.vars) (mem_vars_app.1 hz)
    exact hm.mem_vars ht hz
  exact {
    guess := hg
    length := hm.length
    params := hm.params
    nodup := hm.nodup
    temporaries := hm.temporaries
    distinct := hm.distinct
    count := congrArg Nat.succ hlen
    sorted := fun arity hk => by
      refine .app (hm.sorted List.mem_cons_self (hk h List.mem_cons_self)) (List.forall_mem_map.2 fun t ht => ?_)
      exact hm.sorted (List.mem_cons_of_mem _ ht) (hk t (List.mem_cons_of_mem _ ht))
    unknowns := fun u hu hmarked => by
      obtain ⟨t, ht, hu⟩ := exists_temporary (p := fun a => u ∈ a.names) (mem_names_app.1 hu)
      exact hm.mem_of_unknown ht hu hmarked
    vars := fun z hz => (hvars hz).imp_right .inr
    slots := fun z hz => by
      obtain ⟨t, ht, hz⟩ := exists_temporary (p := fun a => z ∈ a.slots) (mem_slots_app.1 hz)
      exact absurd hz (hm.not_mem_slots ht)
    free := fun z hz => (hvars (mem_vars_of_mem_names hz)).imp_right .inl
    gives := fun ρ ds hds => by
      rw [den_app (applyVars_ne_applySym h xs), hm.den_applyVars List.mem_cons_self hds]
      refine funext fun j => congrArg (Term.app _) ?_
      rw [List.map_map, List.map_map]
      refine List.map_congr_left fun t ht => ?_
      exact congrFun (hm.den_applyVars (List.mem_cons_of_mem _ ht) hds) j
    counter := hm.counter }

/-- The imitation of an application. -/
theorem guessed_imitation_app (f : Expr) (as : List Expr)
    (hg : .imitation ∈ Guess.all (n + 1) (.app f as)) :
    ∃ xs h hs P', guessed R P n (.app f as) .imitation =
        .ok (R.lambda xs (.app (R.applyVars h xs) (hs.map fun h => R.applyVars h xs)), h :: hs, P') ∧
      Shape R P.nextFresh P'.nextFresh n (.app f as) .imitation xs
        (.app (R.applyVars h xs) (hs.map fun h => R.applyVars h xs)) (h :: hs) ∧
      P' = { P with nextFresh := P'.nextFresh } := by
  let xs := (P.mintBinders n).1
  let ts := ((P.mintBinders n).2.mintBinders as.length).1.toList.map fun x => (Expr.var x).setMark true
  let P' := ((P.mintBinders n).2.mintBinders as.length).2
  have hlen : ts.length = as.length + 1 := by
    rw [List.length_map]
    exact EquationSet.length_mintBinders _ _
  have hm : Mints P.nextFresh P'.nextFresh n xs ts := mints P n as.length
  have hguess : guessed R P n (.app f as) .imitation =
      (R.imitationFn xs (.app f as) ts >>= fun v => .ok (v, ts, P')) := rfl
  obtain ⟨h, hs, hcons⟩ : ∃ h hs, ts = h :: hs := List.exists_cons_of_length_eq_add_one hlen
  rw [hcons] at hguess hlen hm
  have hlen : hs.length = as.length := Nat.succ.inj hlen
  have himitation : R.imitationFn xs (.app f as) (h :: hs) =
      .ok (R.lambda xs (.app (R.applyVars h xs) (hs.map fun h => R.applyVars h xs))) := if_pos hlen.symm
  rw [himitation] at hguess
  exact ⟨xs, h, hs, P', hguess, hm.shape_app hlen hg, rfl⟩

/-- Below slots that are none of the parameters, a temporary gives what it
gives the arguments. -/
theorem Mints.den_enter {N N' : Nat} {xs ys : Binders} {ts : List Expr} {t : Expr} {ρ : Valuation}
    {ds levels : List Meaning} (hm : Mints N N' n xs ts) (ht : t ∈ ts)
    (hys : ∀ y ∈ ys.toList, y.marked = false ∧ y ∉ xs.toList) (hds : xs.length = ds.length) :
    (R.applyVars t xs).den R ((ρ.enter xs.toList ds).enter ys.toList levels) = ρ.fn t ds := by
  have hsorted : Sorted R (fun _ => some (n + 1)) (R.applyVars t xs) := hm.sorted ht rfl
  have hcongr : (R.applyVars t xs).den R ((ρ.enter xs.toList ds).enter ys.toList levels) =
      (R.applyVars t xs).den R (ρ.enter xs.toList ds) := by
    refine den_congr hsorted fun m hmem => ?_
    refine ⟨fun _ => Valuation.enter_val_of_not_mem (fun y hy hmy => ?_) _, fun _ => by rw [Valuation.enter_fn]⟩
    rcases mem_vars_applyVars.1 (mem_vars_of_mem_names (hmy ▸ hmem)) with hy' | hy'
    · obtain ⟨x, rfl, hx, -⟩ := hm.temporaries t ht
      obtain rfl := List.mem_singleton.1 hy'
      exact Bool.false_ne_true ((hys y hy).1.symm.trans hx)
    · exact (hys y hy).2 hy'
  rw [hcongr, hm.den_applyVars ht hds]

/-- The imitation of a binding has the right shape. -/
theorem Mints.shape_bind {N N' : Nat} {f : Sym} {xs ys : Binders} {d h : Expr} (hm : Mints N N' n xs [h])
    (he : Ground R (.bind f ys d)) (hbelow : (Expr.bind f ys d).Below N)
    (hg : .imitation ∈ Guess.all (n + 1) (.bind f ys d)) :
    Shape R N N' n (.bind f ys d) .imitation xs (.bind f ys (R.applyVars h xs)) [h] := by
  have hself : h ∈ [h] := List.mem_cons_self
  obtain ⟨plain, distinct, -⟩ := sorted_bind.1 (he fun _ => none)
  -- the slots of the value are none of the parameters
  have hapart (y : Var) (hy : y ∈ ys.toList) : y ∉ xs.toList := fun hyxs =>
    (hm.params y hyxs).2.1 (hbelow y (mem_vars_bind.2 (.inl hy)))
  exact {
    guess := hg
    length := hm.length
    params := hm.params
    nodup := hm.nodup
    temporaries := hm.temporaries
    distinct := hm.distinct
    count := rfl
    sorted := fun arity hk => .bind plain distinct (hm.sorted hself (hk h hself))
    unknowns := fun u hu hmarked => hm.mem_of_unknown hself ((mem_names_bind_iff plain hmarked).1 hu) hmarked
    vars := fun z hz => by
      rcases mem_vars_bind.1 hz with hz | hz
      · exact .inr (.inl (mem_vars_bind.2 (.inl hz)))
      · exact (hm.mem_vars hself hz).imp_right .inr
    slots := fun z hz => mem_slots_bind.2 (.inl ((mem_slots_bind.1 hz).resolve_right (hm.not_mem_slots hself)))
    free := fun z hz => (hm.mem_vars hself (mem_vars_of_mem_names (mem_names_bind.1 hz).1)).imp_right .inl
    gives := fun ρ ds hds => by
      rw [den]
      refine funext fun j => congrArg (Term.bind f ys.length) ?_
      rw [hm.den_enter hself (fun y hy => ⟨plain y hy, hapart y hy⟩) hds]
    counter := hm.counter }

/-- The imitation of a binding. -/
theorem guessed_imitation_bind {f : Sym} {ys : Binders} {d : Expr} (he : Ground R (.bind f ys d))
    (hbelow : (Expr.bind f ys d).Below P.nextFresh)
    (hg : .imitation ∈ Guess.all (n + 1) (.bind f ys d)) :
    ∃ xs h P', guessed R P n (.bind f ys d) .imitation =
        .ok (R.lambda xs (.bind f ys (R.applyVars h xs)), [h], P') ∧
      Shape R P.nextFresh P'.nextFresh n (.bind f ys d) .imitation xs
        (.bind f ys (R.applyVars h xs)) [h] ∧
      P' = { P with nextFresh := P'.nextFresh } :=
  ⟨_, _, _, rfl, (mints P n 0).shape_bind he hbelow hg, rfl⟩

/-- **Every guess has a value of the right shape.** -/
theorem guessed_spec (he : Ground R e) (hbelow : e.Below P.nextFresh) {g : Guess}
    (hg : g ∈ Guess.all (n + 1) e) :
    ∃ xs b ts P', guessed R P n e g = .ok (R.lambda xs b, ts, P') ∧
      Shape R P.nextFresh P'.nextFresh n e g xs b ts ∧ P' = { P with nextFresh := P'.nextFresh } := by
  cases g with
  | constant =>
    obtain ⟨xs, P', h, hshape, hP⟩ := guessed_constant (R := R) he hbelow hg
    exact ⟨xs, e, [], P', h, hshape, hP⟩
  | projection i =>
    obtain ⟨xs, x, P', h, hshape, hP⟩ :=
      guessed_projection (R := R) (P := P) (Guess.lt_of_projection hg) hg
    exact ⟨xs, _, _, P', h, hshape, hP⟩
  | imitation =>
    have hcompound := Guess.isCompound_of_imitation hg
    cases e with
    | app f as =>
      obtain ⟨xs, h, hs, P', hguess, hshape, hP⟩ :=
        guessed_imitation_app (R := R) (P := P) (n := n) f as hg
      exact ⟨xs, _, _, P', hguess, hshape, hP⟩
    | bind f ys d =>
      obtain ⟨xs, h, P', hguess, hshape, hP⟩ := guessed_imitation_bind (n := n) he hbelow hg
      exact ⟨xs, _, _, P', hguess, hshape, hP⟩
    | _ => cases hcompound

end Search

end SecondOrder
