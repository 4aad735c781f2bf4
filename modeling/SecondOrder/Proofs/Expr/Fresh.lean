/-
# Fresh names

A numbered name tells its number (`numberAfter_numberedName`), and numbers of
one stem are not numbers of another.  So a fresh variable occurs in none of the
expressions it is fresh for (`freshVar_not_mem`), and the variables `v<N>` that
equation sets mint never meet the `x<N>` of substitution.
-/

import SecondOrder.Expr.Names

namespace SecondOrder

/-- There is no line feed to cut off after digits. -/
theorem withoutLineFeed_of_digits {ds : List Char} (hds : ∀ c ∈ ds, c.isDigit = true) :
    withoutLineFeed ds = ds := by
  rw [withoutLineFeed, if_neg]
  intro hlast
  exact absurd (hds _ (List.mem_of_getLast? hlast)) (by decide)

/-- **A numbered name tells its number.** -/
theorem numberAfter_numberedName (stem : Char) (n : Nat) :
    numberAfter stem (numberedName stem n) = some n := by
  have hname : (numberedName stem n).toList = stem :: Nat.toDigits 10 n := by
    simp [numberedName]
  have hdigits : ∀ c ∈ Nat.toDigits 10 n, c.isDigit = true := fun c hc =>
    Nat.isDigit_of_mem_toDigits (by decide) (by decide) hc
  rw [numberAfter, hname]
  dsimp only
  rw [if_pos rfl, withoutLineFeed_of_digits hdigits, decimal?,
    if_pos ⟨Nat.toDigits_ne_nil, List.all_eq_true.2 hdigits⟩]
  exact congrArg some Nat.ofDigitChars_ten_toDigits

/-- The variable is named `stem` and a number. -/
def Var.Numbered (stem : Char) (x : Var) : Prop := (numberAfter stem x.name).isSome = true

/-- Names of different stems are different. -/
theorem Var.Numbered.not_numbered {a b : Char} (hab : a ≠ b) {x : Var} (h : x.Numbered a) :
    ¬x.Numbered b := by
  rw [Numbered, numberAfter] at h ⊢
  cases hx : x.name.toList with
  | nil => rw [hx] at h; cases h
  | cons c cs =>
    rw [hx] at h
    dsimp only at h ⊢
    split at h
    · next hc => rw [if_neg (hc ▸ hab)]; exact Bool.false_ne_true
    · cases h

/-- The new variable is an ordinary one. -/
theorem marked_freshVar (es : List Expr) : (freshVar es).marked = false := rfl

/-- It is called `x` with a number, like all of its kind. -/
theorem numbered_freshVar (es : List Expr) : (freshVar es).Numbered 'x' := by
  rw [Var.Numbered, freshVar, numberAfter_numberedName]
  rfl

/-- **A fresh variable occurs in none of the expressions.** -/
theorem freshVar_not_mem {es : List Expr} {e : Expr} (he : e ∈ es) : freshVar es ∉ e.vars := by
  intro hmem
  have hmem : freshVar es ∈ es.flatMap Expr.vars := List.mem_flatMap.2 ⟨e, he, hmem⟩
  exact Nat.lt_irrefl _ (lt_numberAbove hmem (numberAfter_numberedName 'x' _))

/-- There is a variable of each stem that is not in a list. -/
theorem exists_numbered_not_mem (stem : Char) (xs : List Var) : ∃ w : Var, w.Numbered stem ∧ w ∉ xs := by
  have hnumber := numberAfter_numberedName stem (numberAbove stem xs)
  refine ⟨⟨numberedName stem (numberAbove stem xs), false⟩, ?_, fun hmem => ?_⟩
  · rw [Var.Numbered, hnumber]
    rfl
  · exact Nat.lt_irrefl _ (lt_numberAbove hmem hnumber)

/-- Every number that the name has after the stem `v` is below `n`. -/
def Var.Below (n : Nat) (x : Var) : Prop := ∀ k, numberAfter 'v' x.name = some k → k < n

/-- What is below a number is below every greater one. -/
theorem Var.Below.mono {m n : Nat} {x : Var} (hmn : m ≤ n) (h : x.Below m) : x.Below n :=
  fun k hk => Nat.lt_of_lt_of_le (h k hk) hmn

/-- Names of other stems have no number after `v`. -/
theorem Var.Numbered.below_of_ne {stem : Char} (hstem : stem ≠ 'v') {x : Var} (h : x.Numbered stem)
    (n : Nat) : x.Below n := by
  intro k hk
  refine absurd ?_ (h.not_numbered hstem)
  rw [Numbered, hk]
  rfl

/-- The fresh variables of substitution have none. -/
theorem Var.Numbered.below {x : Var} (h : x.Numbered 'x') (n : Nat) : x.Below n :=
  h.below_of_ne (by decide) n

/-- Every variable of the expression is below `n`. -/
def Expr.Below (n : Nat) (e : Expr) : Prop := ∀ x ∈ e.vars, x.Below n

/-- The same for all variables of an expression. -/
theorem Expr.Below.mono {m n : Nat} {e : Expr} (hmn : m ≤ n) (h : e.Below m) : e.Below n :=
  fun x hx => (h x hx).mono hmn

/-- A name with the number `k` after `v`, marked or not. -/
theorem below_numberedName {k n : Nat} {marked : Bool} :
    Var.Below n ⟨numberedName 'v' k, marked⟩ ↔ k < n := by
  rw [Var.Below, numberAfter_numberedName]
  exact ⟨fun h => h k rfl, fun h _ hk => Option.some.inj hk ▸ h⟩

/-- A variable that is minted with a number is not below that number. -/
theorem not_below_numberedName (n : Nat) {marked : Bool} : ¬Var.Below n ⟨numberedName 'v' n, marked⟩ :=
  fun h => Nat.lt_irrefl _ (below_numberedName.1 h)

end SecondOrder
