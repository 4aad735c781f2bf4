/-
# The guesses denote what they should

Of a function that ignores its parameters nothing is left but the expression,
of one that returns a parameter its argument, and of an imitation the outermost
shape of the expression, with each unknown applied to the arguments
(`Operand.guesses_denote`).  The parameters must occur neither in the
expression nor in the arguments.  Everything is stated for the checked
operations, which come to the plain ones on expressions.
-/

import SecondOrder.Operand.Lambda
import SecondOrder.Proofs.Expr.Parameters

namespace SecondOrder

open SecondOrder.Expr

/-- The sequence of the given expressions. -/
def Operands.exprs (es : List Expr) : Operands := .many (es.map .expr)

/-- The sequence of the given variables. -/
def Operands.vars (xs : Binders) : Operands := .exprs (xs.toList.map .var)

namespace Operand

variable {R : Reserved} {vs : Binders} {b e f h : Expr} {as args hs : List Expr} {pairs : List (Var × Expr)}

/-! ## Checked operations on expressions -/

/-- A sequence of expressions passes the check for expressions as it is. -/
theorem mapM_expression (as : List Expr) : (as.map expr).mapM expression = .ok as := by
  rw [mapM_eq_ok, List.forall₂_map_left_iff]
  exact List.forall₂_same.2 fun _ _ => rfl

/-- A sequence of variables passes the check for parameters as it is. -/
theorem parameters_vars (xs : Binders) : parameters (Operands.vars xs).toList = .ok xs := by
  have hrest : ((xs.rest.map Expr.var).map expr).mapM parameter = .ok xs.rest := by
    rw [mapM_eq_ok, List.forall₂_map_left_iff, List.forall₂_map_left_iff]
    exact List.forall₂_same.2 fun _ _ => rfl
  change (do return ⟨xs.first, ← ((xs.rest.map Expr.var).map expr).mapM parameter⟩) = Except.ok xs
  rw [hrest]
  rfl

/-- The checked construction of a function from variables and an expression is
the plain one. -/
theorem function_vars (R : Reserved) (xs : Binders) (b : Expr) :
    function R (.vars xs) (.expr b) = .ok (R.lambda xs b) := by
  rw [function, parameters_vars]
  rfl

/-- An unknown can be applied to any arguments. -/
theorem applied_exprs (hm : h.isMarked = true) (has : as ≠ []) :
    applied R (.expr h) (.exprs as) = .ok (app (sym R.applySym) (h :: as)) := by
  obtain ⟨a, as, rfl⟩ := List.exists_cons_of_ne_nil has
  have happlied : applied R (.expr h) (.exprs (a :: as)) =
      if h.isLambda R || h.isMarked then (as.map expr).mapM expression >>= fun as => .ok (R.apply h a as)
      else .error (.notApplicable (.expr h)) := rfl
  rw [happlied, hm, Bool.or_true, if_pos rfl, mapM_expression]
  rfl

/-- The checked substitutions come to the plain ones, faults included. -/
theorem substEach_exprs (e : Expr) (pairs : List (Var × Expr)) :
    substEach (.expr e) (pairs.map fun pair => (pair.1, .expr pair.2)) = .expr <$> e.substEach pairs := by
  induction pairs generalizing e with
  | nil => rfl
  | cons pair pairs ih =>
    rw [List.map_cons, substEach, Expr.substEach, subst]
    cases e.subst (.var pair.1) pair.2 with
    | error fault => rfl
    | ok e' => exact ih e'

/-- The checked reduction of a function comes to the substitutions, if there
are as many arguments as parameters. -/
theorem betaReduce_lambda_exprs (hlen : vs.length = args.length) :
    betaReduce R (R.lambda vs b) (.exprs args) = .expr <$> b.substEach (vs.toList.zip args) := by
  have hlen' : vs.length = (args.map Operand.expr).length := by rw [List.length_map, hlen]
  have hzip : vs.toList.zip (args.map expr) = (vs.toList.zip args).map fun pair => (pair.1, .expr pair.2) :=
    List.zip_map_right ..
  have hreduce : betaReduce R (R.lambda vs b) (.exprs args) =
      if R.lambdaSym ≠ R.lambdaSym then .error (.notLambda (R.lambda vs b))
      else if vs.length ≠ (args.map expr).length then .error (.arityMismatch (R.lambda vs b) (args.map expr))
      else substEach (.expr b) (vs.toList.zip (args.map expr)) := by
    rfl
  rw [hreduce, if_neg (not_not.2 rfl), if_neg (not_not.2 hlen'), hzip, substEach_exprs]

/-! ## The guesses -/

/-- The parameters are different ordinary variables, as many as there are
arguments, and occur neither in the expression nor in the arguments. -/
structure New (vs : Binders) (e : Expr) (args : List Expr) : Prop where
  distinct : vs.toList.Nodup
  ordinary : ∀ v ∈ vs.toList, v.marked = false
  length : vs.length = args.length
  expression : ∀ v ∈ vs.toList, v ∉ e.vars
  arguments : ∀ v ∈ vs.toList, ∀ a ∈ args, v ∉ a.vars

/-- There is at least one parameter, and so at least one argument. -/
theorem New.args_ne_nil (hv : New vs e args) : args ≠ [] := by
  rintro rfl
  cases hv.length

/-- No parameter occurs in an unknown. -/
theorem New.not_mem_unknown (hv : New vs e args) (hm : h.isMarked = true) : ∀ v ∈ vs.toList, v ∉ h.vars := by
  intro v hmem hvar
  cases h with
  | var x =>
    cases List.mem_singleton.1 hvar
    exact Bool.false_ne_true ((hv.ordinary v hmem).symm.trans hm)
  | sym => cases hvar
  | _ => cases hm

/-- **A function that ignores its parameters.** -/
theorem betaReduce_constantFn (hv : New vs e args) : ∃ f, constantFn R (.vars vs) (.expr e) = .ok f ∧
    betaReduce R f (.exprs args) = .ok (.expr e) := by
  refine ⟨_, function_vars R vs e, ?_⟩
  rw [betaReduce_lambda_exprs hv.length,
    substEach_of_not_mem fun pair hpair => hv.expression _ (List.of_mem_zip hpair).1]
  rfl

/-- **A function that returns one of its parameters.** -/
theorem betaReduce_projectionFn (hv : New vs e args) {i : Nat} {v : Var} {a : Expr}
    (hvi : vs.toList[i]? = some v) (hai : args[i]? = some a) :
    ∃ f, projectionFn R (.vars vs) (.expr (.var v)) = .ok f ∧ betaReduce R f (.exprs args) = .ok (.expr a) := by
  have hmem : (Operands.vars vs).toList.any (· == Operand.expr (.var v)) = true := by
    refine List.any_eq_true.2 ⟨.expr (.var v), ?_, Expr.same_refl _⟩
    exact List.mem_map_of_mem (List.mem_map_of_mem (List.mem_of_getElem? hvi))
  refine ⟨R.lambda vs (.var v), ?_, ?_⟩
  · rw [projectionFn, if_pos hmem, function_vars]
  · rw [betaReduce_lambda_exprs hv.length, substEach_var hv.distinct hv.arguments hvi hai]
    rfl

/-- The unknowns applied to the parameters. -/
theorem mapM_applied (hs : List Expr) (has : as ≠ []) (hm : ∀ h ∈ hs, h.isMarked = true) :
    (hs.map expr).mapM (fun h => applied R h (.exprs as)) =
      .ok (hs.map fun h => app (sym R.applySym) (h :: as)) := by
  rw [mapM_eq_ok, List.forall₂_map_left_iff, List.forall₂_map_right_iff]
  exact List.forall₂_same.2 fun h hh => applied_exprs (hm h hh) has

/-- The application of `h` to `ts`. -/
abbrev call (R : Reserved) (ts : List Expr) (h : Expr) : Expr := app (sym R.applySym) (h :: ts)

/-- The same with the parameters as arguments, which is what the body of an
imitation applies the unknowns to. -/
theorem mapM_applied_vars (R : Reserved) (vs : Binders) (hm : ∀ h ∈ hs, h.isMarked = true) :
    (hs.map expr).mapM (fun h => applied R h (.many (Operands.vars vs).toList)) =
      .ok (hs.map (call R (vs.toList.map .var))) :=
  mapM_applied hs (by simp [Binders.toList]) hm

/-- The imitation of an application takes an unknown for each child and applies
each of them to all parameters. -/
theorem imitationFn_app {g : Expr} (hm : ∀ k ∈ h :: hs, k.isMarked = true) (hlen : hs.length = as.length) :
    imitationFn R (.vars vs) (.expr (app g as)) (.exprs (h :: hs)) =
      .ok (R.lambda vs (app (call R (vs.toList.map .var) h) (hs.map (call R (vs.toList.map .var))))) := by
  have hcalls := mapM_applied_vars R vs hm
  have hlen' : ((h :: hs).map (call R (vs.toList.map .var))).length = as.length + 1 := by
    rw [List.length_map, List.length_cons, hlen]
  have hbody : application (((h :: hs).map (call R (vs.toList.map .var))).map expr) =
      .ok (app (call R (vs.toList.map .var) h) (hs.map (call R (vs.toList.map .var)))) := by
    rw [List.map_cons, List.map_cons]
    change ((hs.map (call R (vs.toList.map .var))).map expr).mapM expression >>= (fun as =>
        Except.ok (app _ as)) = _
    rw [mapM_expression]
    rfl
  rw [imitationFn]
  change ((h :: hs).map expr).mapM (fun h => applied R h (.many (Operands.vars vs).toList)) >>= _ = _
  rw [hcalls]
  refine (if_pos hlen').trans ?_
  rw [hbody]
  exact function_vars R vs _

/-- **An imitation of an application.** -/
theorem betaReduce_imitationFn_app {g : Expr} (hv : New vs e args) (hm : ∀ h ∈ hs, h.isMarked = true)
    (he : e = app g as) (hlen : hs.length = as.length + 1) :
    ∃ f c cs, imitationFn R (.vars vs) (.expr e) (.exprs hs) = .ok f ∧
      List.Forall₂ (fun h c => applied R (.expr h) (.exprs args) = .ok c) hs (c :: cs) ∧
      betaReduce R f (.exprs args) = .ok (.expr (app c cs)) := by
  obtain ⟨h, hs, rfl⟩ := List.exists_cons_of_length_eq_add_one hlen
  have hcall {h : Expr} (hm : h.isMarked = true) :
      (call R (vs.toList.map .var) h).substEach (vs.toList.zip args) = .ok (call R args h) :=
    substEach_apply hv.distinct hv.length hv.arguments (hv.not_mem_unknown hm)
  refine ⟨_, call R args h, hs.map (call R args), he ▸ imitationFn_app hm (Nat.succ.inj hlen), ?_, ?_⟩
  · rw [← List.map_cons (f := call R args), List.forall₂_map_right_iff]
    exact List.forall₂_same.2 fun h hh => applied_exprs (hm h hh) hv.args_ne_nil
  · rw [List.forall_mem_cons] at hm
    rw [betaReduce_lambda_exprs hv.length, substEach_app (hcall hm.1)]
    · rfl
    · rw [List.forall₂_map_left_iff, List.forall₂_map_right_iff]
      exact List.forall₂_same.2 fun h hh => hcall (hm.2 h hh)

/-- The imitation of a binding keeps its head and its slots and takes one
unknown for its body. -/
theorem imitationFn_bind {g : Sym} {ys : Binders} (hm : h.isMarked = true) :
    imitationFn R (.vars vs) (.expr (bind g ys b)) (.exprs [h]) =
      .ok (R.lambda vs (bind g ys (call R (vs.toList.map .var) h))) := by
  have hcalls := mapM_applied_vars R vs (List.forall_mem_singleton.2 hm)
  rw [imitationFn]
  change ([h].map expr).mapM (fun h => applied R h (.many (Operands.vars vs).toList)) >>= _ = _
  rw [hcalls]
  exact function_vars R vs _

/-- **An imitation of a binding.** -/
theorem betaReduce_imitationFn_bind {g : Sym} {ys : Binders} (hv : New vs e args) (hm : h.isMarked = true)
    (hnew : h ∉ e.nodes) (he : e = bind g ys b) :
    ∃ f c, imitationFn R (.vars vs) (.expr e) (.exprs [h]) = .ok f ∧
      applied R (.expr h) (.exprs args) = .ok c ∧
      ∀ q, betaReduce R f (.exprs args) = .ok q → ∃ zs d, q = .expr (bind g zs d) ∧ zs.length = ys.length ∧
        (∀ z ∈ zs.toList, ∀ a ∈ args, z ∉ a.freeVars) ∧
        (bind g zs d).alphaEquivalent (bind g zs c) = true := by
  subst he
  refine ⟨_, _, imitationFn_bind hm, applied_exprs hm hv.args_ne_nil, fun q hq => ?_⟩
  rw [betaReduce_lambda_exprs hv.length] at hq
  cases hsubst : (bind g ys (call R (vs.toList.map .var) h)).substEach (vs.toList.zip args) with
  | error fault =>
    rw [hsubst] at hq
    cases hq
  | ok p =>
    rw [hsubst] at hq
    cases hq
    have hparams : ∀ v ∈ vs.toList, v ∉ ys.toList ∧ v ∉ h.vars := fun v hmem =>
      ⟨fun hys => hv.expression v hmem (mem_vars_bind.2 (.inl hys)), hv.not_mem_unknown hm v hmem⟩
    have hslots : ∀ y ∈ ys.toList, h ≠ var y := fun y hy heq =>
      hnew (mem_nodes_bind.2 (.inr (.inr (.inl ⟨y, hy, heq⟩))))
    obtain ⟨zs, d, rfl, hlength, hfree, halpha⟩ := of_substEach_bind hv.distinct hv.length hv.arguments
      (isName_of_isMarked hm) hparams hslots hsubst
    refine ⟨zs, d, rfl, hlength, hfree, ?_⟩
    rw [alphaEquivalent, halpha]
    rfl

/-- Without a parameter every guess is refused. -/
theorem guesses_refused (R : Reserved) (e : Operand) (hs : Operands) :
    constantFn R (.many []) e = .error .emptyLambda ∧ projectionFn R (.many []) e = .error (.notParameter e) ∧
      ∀ f, imitationFn R (.many []) e hs ≠ .ok f := by
  have happlied (h : Operand) (c : Expr) : applied R h (.many []) ≠ .ok c := by
    intro hc
    cases h with
    | expr h =>
      rw [applied] at hc
      split at hc <;> cases hc
    | text => cases hc
  refine ⟨rfl, rfl, fun f hf => ?_⟩
  obtain ⟨cs, hcs, hf⟩ := bind_eq_ok.1 hf
  cases cs with
  | cons c cs =>
    obtain ⟨h, -, hc⟩ := exists_of_forall₂ (mapM_eq_ok.1 hcs) c List.mem_cons_self
    exact happlied h c hc
  | nil =>
    cases e with
    | text => cases hf
    | expr e => cases e <;> cases hf

/-- **The guesses denote what they should.**  Reduced on the arguments, the
function that ignores its parameters is the expression, and one that returns a
parameter is its argument.  The imitation of an application is the application
whose children are the unknowns applied to the arguments.  That of a binding
need not be carried out if the binding lists a variable twice; if it is, it is
a binding with the same head and as many variables, none of them free in an
argument, and up to bound names over the unknown applied to the arguments. -/
theorem guesses_denote (hv : New vs e args) (hm : ∀ h ∈ hs, h.isMarked = true) (hnew : ∀ h ∈ hs, h ∉ e.nodes) :
    (∃ f, constantFn R (.vars vs) (.expr e) = .ok f ∧ betaReduce R f (.exprs args) = .ok (.expr e)) ∧
    (∀ (i : Nat) (v : Var) (a : Expr), vs.toList[i]? = some v → args[i]? = some a → ∃ f,
      projectionFn R (.vars vs) (.expr (.var v)) = .ok f ∧ betaReduce R f (.exprs args) = .ok (.expr a)) ∧
    (∀ g as, e = app g as → hs.length = as.length + 1 → ∃ f c cs,
      imitationFn R (.vars vs) (.expr e) (.exprs hs) = .ok f ∧
      List.Forall₂ (fun h c => applied R (.expr h) (.exprs args) = .ok c) hs (c :: cs) ∧
      betaReduce R f (.exprs args) = .ok (.expr (app c cs))) ∧
    ∀ g ys b h, e = bind g ys b → hs = [h] → ∃ f c,
      imitationFn R (.vars vs) (.expr e) (.exprs hs) = .ok f ∧ applied R (.expr h) (.exprs args) = .ok c ∧
      ∀ q, betaReduce R f (.exprs args) = .ok q → ∃ zs d, q = .expr (bind g zs d) ∧ zs.length = ys.length ∧
        (∀ z ∈ zs.toList, ∀ a ∈ args, z ∉ a.freeVars) ∧
        (bind g zs d).alphaEquivalent (bind g zs c) = true := by
  refine ⟨betaReduce_constantFn hv, fun i v a => betaReduce_projectionFn hv,
    fun g as => betaReduce_imitationFn_app hv hm, ?_⟩
  rintro g ys b h he rfl
  exact betaReduce_imitationFn_bind hv (hm h List.mem_cons_self) (hnew h List.mem_cons_self) he

/-- The imitation `λu, w. g[z. _h(u, w)]` of `g[z. p(z)]` on `z` and
`f(z, x0)`: the bound `z` gives way to `x0` for the first argument, and to `x1`
for the second. -/
theorem guesses_denote_renamed :
    let x (name : String) : Var := ⟨name, false⟩
    let s (name : String) : Expr := sym ⟨name, "base", false⟩
    let vs : Binders := ⟨x "u", [x "w"]⟩
    let h : Expr := var ⟨"h", true⟩
    let e : Expr := bind ⟨"g", "base", false⟩ ⟨x "z", []⟩ (app (s "p") [var (x "z")])
    let args : List Expr := [var (x "z"), app (s "f") [var (x "z"), var (x "x0")]]
    New vs e args ∧ (h.isMarked = true ∧ h ∉ e.nodes) ∧
      (∃ f, constantFn {} (.vars vs) (.expr e) = .ok f ∧ betaReduce {} f (.exprs args) = .ok (.expr e)) ∧
      ∃ f c, imitationFn {} (.vars vs) (.expr e) (.exprs [h]) = .ok f ∧
        betaReduce {} f (.exprs args) = .ok (.expr (bind ⟨"g", "base", false⟩ ⟨x "x1", []⟩ c)) ∧
        applied {} (.expr h) (.exprs args) = .ok c := by
  intro x s vs h e args
  have hv : New vs e args := by
    constructor <;> simp [x, s, vs, e, args, Binders.toList, Binders.length, Expr.vars, varsAll]
  have hnew : h ∉ e.nodes := by simp [x, s, h, e, Binders.toList, nodes, nodesAll]
  have hm : ∀ k ∈ [h], k.isMarked = true := List.forall_mem_singleton.2 rfl
  obtain ⟨hconstant, -, -, himitation⟩ := guesses_denote (R := {}) hv hm (List.forall_mem_singleton.2 hnew)
  obtain ⟨f, c, hf, hc, -⟩ := himitation _ _ _ h rfl rfl
  refine ⟨hv, ⟨rfl, hnew⟩, hconstant, f, c, hf, ?_, hc⟩
  cases (imitationFn_bind rfl).symm.trans hf
  cases (applied_exprs rfl hv.args_ne_nil).symm.trans hc
  cbv

end Operand
end SecondOrder
