/-
# Numbers in names

A name has a number after a stem if the stem is followed by digits and nothing
else but perhaps one line feed (`Numeral`).  Leading zeros do not count, so
different names may have one number; but a name has one number at most, and a
number that is not in use makes a name that nobody carries.

The number of a fresh variable is the least above all numbers in use
(`numberAbove_vars`).  So it depends on these alone (`freshVar_congr`), and not
on the order of the expressions.
-/

import Mathlib
import SecondOrder.Proofs.Expr.Fresh
import SecondOrder.Proofs.Expr.Uses

namespace SecondOrder

open SecondOrder.Expr

variable {stem : Char} {name : String} {cs ds : List Char} {k n : Nat} {xs : List Var} {es es' : List Expr}

/-- The name is `stem`, one or more digits that write `k`, and at most one line
feed. -/
def Numeral (stem : Char) (k : Nat) (name : String) : Prop :=
  ∃ ds : List Char, ds ≠ [] ∧ (∀ c ∈ ds, c.isDigit = true) ∧
    Nat.ofDigits 10 (ds.map fun c => c.toNat - '0'.toNat).reverse = k ∧
    (name.toList = stem :: ds ∨ name.toList = stem :: (ds ++ ['\n']))

/-- A number is read off one digit or more, and nothing else, in base ten. -/
theorem decimal?_eq_some : decimal? cs = some k ↔ cs ≠ [] ∧ (∀ c ∈ cs, c.isDigit = true) ∧
    Nat.ofDigits 10 (cs.map fun c => c.toNat - '0'.toNat).reverse = k := by
  have hvalue : Nat.ofDigits 10 (cs.map fun c => c.toNat - '0'.toNat).reverse =
      cs.foldl (fun n c => 10 * n + digitValue c) 0 := by
    rw [Nat.ofDigits_eq_foldr, List.foldr_reverse, List.foldl_map]
    simp only [digitValue, Nat.cast_id, Nat.add_comm]
  rw [decimal?, Option.ite_none_right_eq_some, List.all_eq_true, and_assoc, hvalue, Option.some.injEq]

/-- At most one line feed at the very end is cut off. -/
theorem withoutLineFeed_eq_iff (hds : ∀ c ∈ ds, c.isDigit = true) :
    withoutLineFeed cs = ds ↔ cs = ds ∨ cs = ds ++ ['\n'] := by
  constructor
  · rintro rfl
    rw [withoutLineFeed]
    split
    · next hlast =>
      obtain ⟨ds, rfl⟩ := List.getLast?_eq_some_iff.1 hlast
      rw [List.dropLast_concat]
      exact .inr rfl
    · exact .inl rfl
  · rintro (rfl | rfl)
    · exact withoutLineFeed_of_digits hds
    · rw [withoutLineFeed, if_pos List.getLast?_concat, List.dropLast_concat]

/-- **The number that is read off a name** is the one that its digits write. -/
theorem numberAfter_eq_some : numberAfter stem name = some k ↔ Numeral stem k name := by
  rw [numberAfter]
  cases hname : name.toList with
  | nil => simp [Numeral, hname]
  | cons c cs =>
    dsimp only
    rw [Option.ite_none_right_eq_some, decimal?_eq_some]
    constructor
    · rintro ⟨rfl, hne, hds, hvalue⟩
      refine ⟨_, hne, hds, hvalue, ?_⟩
      rw [hname]
      exact ((withoutLineFeed_eq_iff hds).1 rfl).imp (congrArg _) (congrArg _)
    · rintro ⟨ds, hne, hds, hvalue, hform⟩
      rw [hname, List.cons.injEq, List.cons.injEq, ← and_or_left] at hform
      obtain ⟨hstem, hcs⟩ := hform
      rw [(withoutLineFeed_eq_iff hds).2 hcs]
      exact ⟨hstem, hne, hds, hvalue⟩

/-- The name that is made up for a number carries that number. -/
theorem numeral_numberedName (stem : Char) (n : Nat) : Numeral stem n (numberedName stem n) :=
  numberAfter_eq_some.1 (numberAfter_numberedName stem n)

/-! ## The least number above -/

/-- The number to make up next is one more than the greatest in use, starting
from zero. -/
theorem numberAbove_eq_foldl (stem : Char) (xs : List Var) : numberAbove stem xs =
    (xs.filterMap fun x => numberAfter stem x.name).foldl (fun n m => max n (m + 1)) 0 := by
  rw [List.foldl_filterMap, numberAbove]
  refine congrArg (fun step => xs.foldl step 0) (funext fun n => funext fun x => ?_)
  cases numberAfter stem x.name <;> rfl

/-- A number is below the maximum exactly if it is below the start or not above
one of those in the list. -/
theorem lt_foldl_max {ms : List Nat} {m : Nat} :
    n < ms.foldl (fun n m => max n (m + 1)) m ↔ n < m ∨ ∃ k ∈ ms, n ≤ k := by
  induction ms generalizing m with
  | nil => simp
  | cons k ms ih =>
    rw [List.foldl_cons, ih]
    simp [or_assoc]

/-- **Below are the numbers up to one in use.** -/
theorem lt_numberAbove_iff : n < numberAbove stem xs ↔
    ∃ x ∈ xs, ∃ k, numberAfter stem x.name = some k ∧ n ≤ k := by
  rw [numberAbove_eq_foldl, lt_foldl_max, or_iff_right (Nat.not_lt_zero n)]
  simp only [List.mem_filterMap]
  constructor
  · rintro ⟨k, ⟨x, hx, hk⟩, hn⟩
    exact ⟨x, hx, k, hk, hn⟩
  · rintro ⟨x, hx, k, hk, hn⟩
    exact ⟨k, ⟨x, hx, hk⟩, hn⟩

/-- A variable node of the expressions, wherever it stands, has the number `k`
after `x`. -/
def NumberInUse (es : List Expr) (k : Nat) : Prop := ∃ e ∈ es, ∃ x, var x ∈ e.nodes ∧ Numeral 'x' k x.name

/-- Hence the number made up for expressions is the least above all numbers in
use in them. -/
theorem lt_numberAbove_vars_iff : n < numberAbove 'x' (es.flatMap vars) ↔ ∃ k, NumberInUse es k ∧ n ≤ k := by
  rw [lt_numberAbove_iff]
  simp only [List.mem_flatMap, mem_vars_iff, numberAfter_eq_some, NumberInUse]
  constructor
  · rintro ⟨x, ⟨e, he, hx⟩, k, hk, hn⟩
    exact ⟨k, ⟨e, he, x, hx, hk⟩, hn⟩
  · rintro ⟨k, ⟨e, he, x, hx, hk⟩, hn⟩
    exact ⟨x, ⟨e, he, hx⟩, k, hk, hn⟩

/-- **The number of a fresh variable** is 0 or one more than the greatest in
use. -/
theorem numberAbove_vars (es : List Expr) :
    (∀ k, ¬NumberInUse es k) ∧ numberAbove 'x' (es.flatMap vars) = 0 ∨
      ∃ k, IsGreatest {k | NumberInUse es k} k ∧ numberAbove 'x' (es.flatMap vars) = k + 1 := by
  have hiff (n : Nat) : n < numberAbove 'x' (es.flatMap vars) ↔ ∃ k, NumberInUse es k ∧ n ≤ k :=
    lt_numberAbove_vars_iff
  generalize numberAbove 'x' (es.flatMap vars) = N at hiff
  cases N with
  | zero => exact .inl ⟨fun k hk => Nat.not_lt_zero k ((hiff k).2 ⟨k, hk, le_rfl⟩), rfl⟩
  | succ N =>
    have hbelow (k : Nat) (hk : NumberInUse es k) : k ≤ N := Nat.le_of_lt_succ ((hiff k).2 ⟨k, hk, le_rfl⟩)
    obtain ⟨k, hk, hNk⟩ := (hiff N).1 (Nat.lt_succ_self N)
    obtain rfl := Nat.le_antisymm (hbelow k hk) hNk
    exact .inr ⟨k, ⟨hk, hbelow⟩, rfl⟩

/-- **A fresh variable depends on the numbers in use alone.** -/
theorem freshVar_congr (h : ∀ k, NumberInUse es k ↔ NumberInUse es' k) : freshVar es = freshVar es' := by
  have hnumber : numberAbove 'x' (es.flatMap vars) = numberAbove 'x' (es'.flatMap vars) :=
    eq_of_forall_lt_iff fun n => by simp only [lt_numberAbove_vars_iff, h]
  rw [freshVar, freshVar, hnumber]

/-- **Fresh variables are fresh.**  A variable that is fresh for some
expressions is unmarked and named `x` and a number: 0 if no variable node of
the expressions is named `x` and digits, otherwise one more than the largest of
these numbers.  No variable node of the expressions carries its name, and
another order of the expressions gives the same variable. -/
theorem freshVar_unused (es : List Expr) :
    ∃ N, freshVar es = ⟨"x" ++ toString N, false⟩ ∧
      ((∀ k, ¬NumberInUse es k) ∧ N = 0 ∨ ∃ k, IsGreatest {k | NumberInUse es k} k ∧ N = k + 1) ∧
      (∀ e ∈ es, ∀ x, var x ∈ e.nodes → x.name ≠ (freshVar es).name) ∧
      ∀ es', es.Perm es' → freshVar es' = freshVar es := by
  refine ⟨_, rfl, numberAbove_vars es, fun e he x hx hname => ?_, fun es' hperm => freshVar_congr fun k => ?_⟩
  · have hnumber : Numeral 'x' (numberAbove 'x' (es.flatMap vars)) x.name := by
      rw [hname]
      exact numeral_numberedName 'x' _
    refine Nat.lt_irrefl (numberAbove 'x' (es.flatMap vars)) ?_
    exact lt_numberAbove_vars_iff.2 ⟨_, ⟨e, he, x, hx, hnumber⟩, le_rfl⟩
  · simp only [NumberInUse, hperm.mem_iff]

/-- Marked variables count, symbols do not. -/
example : freshVar [.app (.var ⟨"x007\n", false⟩) [.var ⟨"x10", true⟩, .sym ⟨"x12", "base", false⟩]] =
    ⟨"x11", false⟩ := by cbv

end SecondOrder
