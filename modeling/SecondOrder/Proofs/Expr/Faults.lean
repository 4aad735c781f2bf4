/-
# The kinds of faults

Substitution is refused for two reasons: a slot would have to take something
other than a variable, or a variable that has to give way is not bound any
more.  Contraction adds a third, a function with the wrong number of arguments.
Nothing else goes wrong: whatever is looked up is there, and whatever is built
is an expression (`Expr.faultsIn_subst`, `Expr.faultsIn_contractAll`).
-/

import SecondOrder.Proofs.Expr.Inversion

namespace SecondOrder

/-- Refused with faults of the kinds `K` only. -/
def FaultsIn {α : Type} (K : Fault.Kind → Prop) (x : Except Fault α) : Prop :=
  ∀ fault, x = .error fault → K fault.kind

variable {R : Reserved} {α β : Type} {K : Fault.Kind → Prop} {x : Except Fault α} {f : α → Except Fault β}

namespace FaultsIn

/-- A result is not refused at all. -/
theorem ok (a : α) : FaultsIn K (.ok a : Except Fault α) := nofun

/-- A fault of one of the kinds is a fault of these kinds. -/
theorem error {fault : Fault} (h : K fault.kind) : FaultsIn K (.error fault : Except Fault α) :=
  fun _ hfault => Except.error.inj hfault ▸ h

/-- Two computations after one another are refused for what either of them
is. -/
theorem bind (hx : FaultsIn K x) (hf : ∀ a, FaultsIn K (f a)) : FaultsIn K (x >>= f) := by
  cases x with
  | error fault => exact fun fault' h => hx fault' (Except.error.inj h ▸ rfl)
  | ok a => exact hf a

/-- A list is refused for what its members are. -/
theorem mapM {as : List α} (hf : ∀ a ∈ as, FaultsIn K (f a)) : FaultsIn K (as.mapM f) := by
  induction as with
  | nil => exact .ok []
  | cons a as ih =>
    rw [List.forall_mem_cons] at hf
    rw [List.mapM_cons]
    exact .bind hf.1 fun b => .bind (ih hf.2) fun bs => .ok (b :: bs)

/-- The same for a computation that is carried along a list. -/
theorem foldlM {g : β → α → Except Fault β} (hg : ∀ b a, FaultsIn K (g b a)) (as : List α) (b : β) :
    FaultsIn K (as.foldlM g b) := by
  induction as generalizing b with
  | nil => exact .ok b
  | cons a as ih =>
    rw [List.foldlM_cons]
    exact .bind (hg b a) ih

end FaultsIn

namespace Expr

section Subst

variable (capture : K .illegalCapture) (unbound : K .unboundVariable)

include unbound in
/-- To clear slots one after another can only fail to find a slot that is bound
any more. -/
theorem faultsIn_freshen (f : Sym) (r : Expr) (zs : List Var) (xs : Binders) (b : Expr) :
    FaultsIn K (freshen f r zs xs b) := by
  induction zs generalizing xs b with
  | nil => exact .ok _
  | cons z zs ih =>
    rw [freshen]
    split
    · exact ih _ _
    · exact .error unbound

include unbound in
/-- The same if the binding is cleared only in case the name occurs in its
body. -/
theorem faultsIn_clearOf (f : Sym) (v r : Expr) (xs : Binders) (b : Expr) :
    FaultsIn K (clearOf f v r xs b) := by
  rw [clearOf]
  split
  · exact faultsIn_freshen unbound _ _ _ _ _
  · exact .ok _

include capture unbound in
/-- **Why a substitution is refused.** -/
theorem faultsIn_subst (e v r : Expr) : FaultsIn K (e.subst v r) := by
  induction e using sizedInduct with
  | atom e he =>
    rw [subst_atom he]
    exact .ok _
  | app g as hg has =>
    rw [subst_app]
    exact .bind hg fun g => .bind (.mapM has) fun as => .ok _
  | bind f xs b hb =>
    rw [subst.eq_def]
    dsimp only
    split
    · exact .bind (hb _ rfl) fun c => .ok _
    · exact .error capture
    · split
      · next fault hc =>
        rintro _ ⟨⟩
        exact faultsIn_clearOf unbound f v _ xs b _ hc
      · next ys c hc => exact .bind (hb c (size_of_clearOf hc)) fun d => .ok _

include capture unbound in
/-- Arguments put in one after another meet the same two faults. -/
theorem faultsIn_substEach (e : Expr) (pairs : List (Var × Expr)) : FaultsIn K (e.substEach pairs) := by
  induction pairs generalizing e with
  | nil => exact .ok e
  | cons pair pairs ih => exact .bind (faultsIn_subst capture unbound _ _ _) ih

variable (arity : K .arityMismatch)

include capture unbound arity in
/-- **Why a contraction is refused.** A function with another number of
parameters adds the third fault. -/
theorem faultsIn_contract (e : Expr) : FaultsIn K (e.contract R) := by
  rw [contract]
  split
  · next g args _ =>
    split
    · next hl =>
      cases g with
      | bind g xs b =>
        rw [betaReduce, if_neg fun hne => hne (eq_of_beq hl)]
        split
        · exact .error arity
        · exact faultsIn_substEach capture unbound _ _
      | _ => cases hl
    · exact .ok _
  · exact .ok _

/-- Two results side by side are refused for what one of them is refused
for. -/
theorem of_bothDeep {α β : Type} {x : Except DeepFault α} {y : Except DeepFault β}
    {P : DeepFault → Prop} (hx : ∀ d, x = .error d → P d) (hy : ∀ d, y = .error d → P d) (d : DeepFault)
    (h : bothDeep x y = .error d) : P d := by
  cases x with
  | ok => cases y with
    | ok => cases h
    | error d' =>
      cases h
      exact hy _ rfl
  | error d' => cases y with
    | ok =>
      cases h
      exact hx _ rfl
    | error d'' =>
      cases h
      split
      · exact hy _ rfl
      · exact hx _ rfl

include capture unbound arity in
/-- The same at every node, whichever of several faults is the one reported. -/
theorem faultsIn_contractFrom (e : Expr) (depth : Nat) (d : DeepFault)
    (h : contractFrom R depth e = .error d) : K d.2.kind := by
  induction e generalizing depth d with
  | app f as hf has =>
    have hall (as : List Expr) (has : ∀ a ∈ as, ∀ depth d, contractFrom R depth a = .error d → K d.2.kind)
        (depth : Nat) (d : DeepFault) : contractFromAll R depth as = .error d → K d.2.kind := by
      induction as generalizing d with
      | nil => nofun
      | cons a as ih =>
        intro h
        rw [contractFromAll] at h
        cases hb : bothDeep (contractFrom R depth a) (contractFromAll R depth as) with
        | ok =>
          rw [hb] at h
          cases h
        | error d' =>
          rw [hb] at h
          cases h
          rw [List.forall_mem_cons] at has
          exact of_bothDeep (P := fun d => K d.2.kind) (has.1 depth) (ih has.2) _ hb
    rw [contractFrom] at h
    split at h
    · next x hb =>
      cases h
      exact of_bothDeep (P := fun d => K d.2.kind) (hf (depth + 1)) (hall as has (depth + 1)) _ hb
    · next g bs _ =>
      split at h
      · cases hc : (app g bs).contract R with
        | ok =>
          rw [hc] at h
          cases h
        | error fault =>
          rw [hc] at h
          cases h
          exact faultsIn_contract capture unbound arity (app g bs) fault hc
      · cases h
  | bind f xs b hb =>
    rw [contractFrom] at h
    cases hc : contractFrom R (depth + 1) b with
    | ok =>
      rw [hc] at h
      cases h
    | error d' =>
      rw [hc] at h
      cases h
      exact hb _ _ hc
  | _ => cases h

include capture unbound arity in
/-- **Why a contraction is refused.** -/
theorem faultsIn_contractAll (e : Expr) : FaultsIn K (e.contractAll R) := by
  rw [contractAll]
  intro fault h
  cases hc : contractFrom R 0 e with
  | ok =>
    rw [hc] at h
    cases h
  | error d =>
    rw [hc] at h
    cases h
    exact faultsIn_contractFrom capture unbound arity e 0 d hc

end Subst

end Expr
end SecondOrder
