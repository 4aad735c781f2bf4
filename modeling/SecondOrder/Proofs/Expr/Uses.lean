/-
# Which names are used where

A `Vocabulary` says which names may stand in an expression: on their own, in
the place of what is applied, and as the head of a binding.  `Uses R U e` says
that `e` keeps to `U`.  Nothing else is asked of `e`; its binders may hold
unknowns and repetitions.

Whatever substitution (`Uses.subst`) and contraction (`Uses.contractFrom`) make
of such an expression, if they are not refused, keeps to a vocabulary again.
What has to be known of the two vocabularies for that is said by
`Vocabulary.Substitutes` and `Vocabulary.Contracts`.
-/

import SecondOrder.Proofs.Expr.Inversion

namespace SecondOrder

/-- The names that may stand in an expression. -/
structure Vocabulary where
  /-- Names in argument position and in binder slots. -/
  atom : Expr → Prop
  /-- What is applied. -/
  applied : Expr → Prop
  /-- Heads of bindings. -/
  head : Sym → Prop

namespace Expr

/-- The expression keeps to the vocabulary.  An application of what the
vocabulary does not list as applied counts as an application like any other. -/
inductive Uses (R : Reserved) (U : Vocabulary) : Expr → Prop
  | var {x : Var} (atom : U.atom (.var x)) : Uses R U (.var x)
  | sym {f : Sym} (atom : U.atom (.sym f)) : Uses R U (.sym f)
  | int (n : Int) : Uses R U (.int n)
  | float (x : FloatLit) : Uses R U (.float x)
  | str (s : String) : Uses R U (.str s)
  | app {f : Expr} {as : List Expr} (head : Uses R U f) (args : ∀ a ∈ as, Uses R U a) :
      Uses R U (.app f as)
  | apply {g : Expr} {as : List Expr} (applied : U.applied g) (nonempty : as ≠ [])
      (args : ∀ a ∈ as, Uses R U a) : Uses R U (.app (.sym R.applySym) (g :: as))
  | bind {f : Sym} {xs : Binders} {b : Expr} (head : U.head f)
      (slots : ∀ x ∈ xs.toList, U.atom (.var x)) (body : Uses R U b) : Uses R U (.bind f xs b)

end Expr

open SecondOrder.Expr

namespace Vocabulary

variable {R : Reserved} {U U' : Vocabulary} {v r : Expr}

/-- `g` may be applied: as such, or as an argument where the symbol for
application is used like any other. -/
def MayApply (R : Reserved) (U : Vocabulary) (g : Expr) : Prop :=
  U.applied g ∨ U.atom (.sym R.applySym) ∧ Uses R U g

/-- The variables that substitution makes up may be used. -/
structure Renames (R : Reserved) (U : Vocabulary) : Prop where
  atom : ∀ y : Var, y.marked = false → y.Numbered 'x' → U.atom (.var y)
  applied : ∀ (x y : Var) (g : Expr), y.marked = false → y.Numbered 'x' → U.applied g →
    U.MayApply R (g.rename x y)

/-- What keeps to `U` keeps to `U'` when `r` has taken the place of `v`. -/
structure Substitutes (R : Reserved) (U U' : Vocabulary) (v r : Expr) : Prop where
  renames : U.Renames R
  fresh : ∀ y : Var, y.marked = false → y.Numbered 'x' → U'.atom (.var y)
  name : IsName v
  unreserved : v ≠ .sym R.applySym
  atom : ∀ n, U.atom n → n ≠ v → U'.atom n
  applied : ∀ g q, U.applied g → g.subst v r = .ok q → U'.MayApply R q
  head : ∀ f, U.head f → U'.head f
  value : Uses R U' r

/-- What keeps to `U` keeps to `U'` when its redexes are contracted. -/
structure Contracts (R : Reserved) (U U' : Vocabulary) : Prop where
  atom : ∀ n, U.atom n → U'.atom n
  head : ∀ f, U.head f → U'.head f
  applied : ∀ depth g q, U.applied g → g.isLambda R = false → contractFrom R depth g = .ok q →
    U'.MayApply R q
  redex : ∀ depth us b g a as q, U.applied (R.lambda us b) →
    contractFrom R depth (R.lambda us b) = .ok g → (∀ e ∈ a :: as, Uses R U' e) →
    (app (.sym R.applySym) (g :: a :: as)).contract R = .ok q → Uses R U' q
  params : U.atom (.sym R.applySym) → ∀ x a, Uses R U' a → U'.Substitutes R U' (.var x) a

end Vocabulary

namespace Expr

variable {R : Reserved} {U U' : Vocabulary} {e q v r a b g : Expr} {f : Sym} {xs ys : Binders}
  {as : List Expr} {x y : Var} {depth : Nat}

/-- Whatever may be applied can be applied. -/
theorem Uses.call (hg : U.MayApply R g) (nonempty : as ≠ []) (args : ∀ a ∈ as, Uses R U a) :
    Uses R U (.app (.sym R.applySym) (g :: as)) := by
  rcases hg with hg | ⟨hatom, hg⟩
  · exact .apply hg nonempty args
  · exact .app (.sym hatom) (List.forall_mem_cons.2 ⟨hg, args⟩)

/-- What keeps to a vocabulary keeps to every larger one. -/
theorem Uses.mono (hatom : ∀ n, U.atom n → U'.atom n)
    (happlied : ∀ g, U.applied g → U'.applied g) (hhead : ∀ f, U.head f → U'.head f)
    (h : Uses R U e) : Uses R U' e := by
  induction h with
  | var h => exact .var (hatom _ h)
  | sym h => exact .sym (hatom _ h)
  | int | float | str => constructor
  | app _ _ ihf ihas => exact .app ihf ihas
  | apply hg hne _ ihas => exact .apply (happlied _ hg) hne ihas
  | bind hf slots _ ih => exact .bind (hhead _ hf) (fun x hx => hatom _ (slots x hx)) ih

/-- The nodes of an application are the application itself and those of its
children. -/
theorem mem_nodes_app {f n : Expr} {as : List Expr} :
    n ∈ (app f as).nodes ↔ n = app f as ∨ n ∈ f.nodes ∨ ∃ a ∈ as, n ∈ a.nodes := by
  rw [nodes, nodesAll_eq_flatMap, List.mem_cons, List.mem_append, List.mem_flatMap]

/-- The nodes of a binding are the binding itself, its head, its slots and
those of its body.  Unlike the children of an application, the head and the
slots have no nodes besides themselves. -/
theorem mem_nodes_bind {f : Sym} {xs : Binders} {b n : Expr} :
    n ∈ (bind f xs b).nodes ↔
      n = bind f xs b ∨ n = sym f ∨ (∃ x ∈ xs.toList, n = var x) ∨ n ∈ b.nodes := by
  rw [nodes, List.mem_cons, List.mem_cons, List.mem_append, List.mem_map]
  simp only [eq_comm]

/-- An expression is one of its nodes. -/
theorem self_mem_nodes (e : Expr) : e ∈ e.nodes := by
  cases e <;> exact List.mem_cons_self

/-- What is applied is part of the application, -/
theorem mem_nodes_of_head {n : Expr} (hn : n ∈ g.nodes) : n ∈ (app g as).nodes :=
  mem_nodes_app.2 (.inr (.inl hn))

/-- and so is every argument; -/
theorem mem_nodes_of_arg {n : Expr} (ha : a ∈ as) (hn : n ∈ a.nodes) : n ∈ (app g as).nodes :=
  mem_nodes_app.2 (.inr (.inr ⟨a, ha, hn⟩))

/-- the body is part of the binding. -/
theorem mem_nodes_of_body {n : Expr} (hn : n ∈ b.nodes) : n ∈ (bind f xs b).nodes :=
  mem_nodes_bind.2 (.inr (.inr (.inr hn)))

/-- The nodes of a node are nodes. -/
theorem mem_nodes_trans {n : Expr} (hn : n ∈ a.nodes) (ha : a ∈ e.nodes) : n ∈ e.nodes := by
  induction e with
  | app f as ihf ihas =>
    rcases mem_nodes_app.1 ha with rfl | ha | ⟨b, hb, ha⟩
    · exact hn
    · exact mem_nodes_of_head (ihf ha)
    · exact mem_nodes_of_arg hb (ihas b hb ha)
  | bind f xs b ih =>
    rcases mem_nodes_bind.1 ha with rfl | rfl | ⟨x, hx, rfl⟩ | ha
    · exact hn
    · exact List.mem_singleton.1 hn ▸ ha
    · exact List.mem_singleton.1 hn ▸ ha
    · exact mem_nodes_of_body (ih ha)
  | _ => exact List.mem_singleton.1 ha ▸ hn

/-- The variables of a node are variables of the expression. -/
theorem mem_vars_of_mem_nodes {n : Expr} (hn : n ∈ e.nodes) (hx : x ∈ n.vars) : x ∈ e.vars := by
  induction e with
  | app f as ihf ihas =>
    rcases mem_nodes_app.1 hn with rfl | hn | ⟨a, ha, hn⟩
    · exact hx
    · exact mem_vars_app.2 (.inl (ihf hn))
    · exact mem_vars_app.2 (.inr ⟨a, ha, ihas a ha hn⟩)
  | bind f xs b ih =>
    rcases mem_nodes_bind.1 hn with rfl | rfl | ⟨y, hy, rfl⟩ | hn
    · exact hx
    · cases hx
    · exact mem_vars_bind.2 (.inl (List.mem_singleton.1 hx ▸ hy))
    · exact mem_vars_bind.2 (.inr (ih hn))
  | _ => exact List.mem_singleton.1 hn ▸ hx

/-- Every variable of an expression is a node of it. -/
theorem var_mem_nodes (h : x ∈ e.vars) : var x ∈ e.nodes := by
  induction e with
  | var y => exact List.mem_singleton.2 (congrArg var (List.mem_singleton.1 h))
  | app f as ihf ihas =>
    rcases mem_vars_app.1 h with h | ⟨a, ha, h⟩
    · exact mem_nodes_of_head (ihf h)
    · exact mem_nodes_of_arg ha (ihas a ha h)
  | bind f xs b ih =>
    rcases mem_vars_bind.1 h with h | h
    · exact mem_nodes_bind.2 (.inr (.inr (.inl ⟨x, h, rfl⟩)))
    · exact mem_nodes_of_body (ih h)
  | _ => cases h

/-- The variables of an expression, slots included, are those among its
nodes. -/
theorem mem_vars_iff : x ∈ e.vars ↔ var x ∈ e.nodes :=
  ⟨var_mem_nodes, fun h => mem_vars_of_mem_nodes h List.mem_cons_self⟩

/-- The vocabulary may be restricted to the nodes of the expression. -/
theorem Uses.of_nodes (hatom : ∀ n ∈ e.nodes, U.atom n → U'.atom n)
    (happlied : ∀ g ∈ e.nodes, U.applied g → U'.applied g) (hhead : ∀ f, U.head f → U'.head f)
    (h : Uses R U e) : Uses R U' e := by
  induction h with
  | var h => exact .var (hatom _ (self_mem_nodes _) h)
  | sym h => exact .sym (hatom _ (self_mem_nodes _) h)
  | int | float | str => constructor
  | app _ _ ihf ihas =>
    exact .app (ihf (fun n hn => hatom n (mem_nodes_of_head hn)) fun g hg => happlied g (mem_nodes_of_head hg))
      fun a ha => ihas a ha (fun n hn => hatom n (mem_nodes_of_arg ha hn)) fun g hg =>
        happlied g (mem_nodes_of_arg ha hg)
  | @apply g as hg hne _ ihas =>
    refine .apply (happlied g (mem_nodes_of_arg List.mem_cons_self (self_mem_nodes g)) hg) hne fun a ha => ?_
    have ha' : a ∈ g :: as := List.mem_cons_of_mem _ ha
    exact ihas a ha (fun n hn => hatom n (mem_nodes_of_arg ha' hn)) fun g hg =>
      happlied g (mem_nodes_of_arg ha' hg)
  | bind hf slots _ ih =>
    refine .bind (hhead _ hf) (fun x hx => hatom _ ?_ (slots x hx)) (ih (fun n hn => hatom n ?_)
      fun g hg => happlied g ?_)
    · exact mem_nodes_bind.2 (.inr (.inr (.inl ⟨x, hx, rfl⟩)))
    · exact mem_nodes_of_body hn
    · exact mem_nodes_of_body hg

/-- The vocabulary may be restricted to the variables that occur. -/
theorem Uses.of_vars (hatom : ∀ n, U.atom n → (∀ x ∈ n.vars, x ∈ e.vars) → U'.atom n)
    (happlied : ∀ g, U.applied g → (∀ x ∈ g.vars, x ∈ e.vars) → U'.applied g)
    (hhead : ∀ f, U.head f → U'.head f) (h : Uses R U e) : Uses R U' e :=
  h.of_nodes (fun n hn h => hatom n h fun _ => mem_vars_of_mem_nodes hn)
    (fun g hg h => happlied g h fun _ => mem_vars_of_mem_nodes hg) hhead

/-- Renaming a variable to a fresh one. -/
theorem Uses.rename (hU : U.Renames R) (hy : y.marked = false) (hx : y.Numbered 'x')
    (h : Uses R U e) : Uses R U (e.rename x y) := by
  have hvar (z : Var) (hz : U.atom (.var z)) : U.atom (.var (if z = x then y else z)) := by
    split
    · exact hU.atom y hy hx
    · exact hz
  induction h with
  | var h => exact .var (hvar _ h)
  | sym h => exact .sym h
  | int | float | str => constructor
  | app _ _ ihf ihas =>
    rw [Expr.rename, renameAll_eq_map]
    exact .app ihf (List.forall_mem_map.2 ihas)
  | @apply g as hg hne _ ihas =>
    rw [Expr.rename, renameAll_eq_map, List.map_cons]
    refine .call (hU.applied x y g hy hx hg) (mt List.map_eq_nil_iff.1 hne) ?_
    exact List.forall_mem_map.2 ihas
  | bind hf slots _ ih =>
    refine .bind hf (fun z hz => ?_) ih
    rcases mem_toList_rename hz with rfl | ⟨hz, -⟩
    · exact hU.atom z hy hx
    · exact slots z hz

/-- Clearing the way keeps to the vocabulary. -/
theorem Uses.clearOf {c : Expr} (hU : U.Renames R) (hb : Uses R U b)
    (h : clearOf f v r xs b = .ok (ys, c)) :
    Uses R U c ∧ ∀ z ∈ ys.toList, z ∈ xs.toList ∨ z.marked = false ∧ z.Numbered 'x' := by
  obtain ⟨hc, -, hys, -⟩ := of_clearOf (fun x _ y e hy hx (he : Uses R U e) => he.rename hU hy hx) hb h
  exact ⟨hc, hys⟩

/-- A slot that is renamed with the variable that is exchanged. -/
theorem atom_of_mem_rename (hs : U.Substitutes R U' (.var x) (.var y)) {xs : Binders}
    (slots : ∀ z ∈ xs.toList, U.atom (.var z)) {z : Var} (hz : z ∈ (xs.rename x y).toList) :
    U'.atom (.var z) := by
  rcases mem_toList_rename hz with rfl | ⟨hz, hne⟩
  · cases hs.value with
    | var hy => exact hy
  · exact hs.atom _ (slots z hz) fun heq => hne (Expr.var.inj heq)

/-- **Substitution keeps to a vocabulary.** -/
theorem Uses.subst (hs : U.Substitutes R U' v r) (he : Uses R U e) (h : e.subst v r = .ok q) :
    Uses R U' q := by
  have hall {as bs : List Expr}
      (ih : ∀ a ∈ as, ∀ q, Uses R U a → a.subst v r = .ok q → Uses R U' q)
      (has : ∀ a ∈ as, Uses R U a) (h : List.Forall₂ (fun a b => a.subst v r = .ok b) as bs) :
      ∀ b ∈ bs, Uses R U' b := by
    intro b hb
    obtain ⟨a, ha, hab⟩ := exists_of_forall₂ h b hb
    exact ih a ha b (has a ha) hab
  induction e using sizedInduct generalizing q with
  | atom e hatom =>
    rw [subst_atom hatom] at h
    cases h
    split
    · exact hs.value
    · next hne =>
      have hne : e ≠ v := fun heq => hne ((beq_name_iff hs.name).2 heq)
      cases he with
      | var h => exact .var (hs.atom _ h hne)
      | sym h => exact .sym (hs.atom _ h hne)
      | int | float | str => constructor
      | app | apply | bind => cases hatom
  | app f as ihf ihas =>
    obtain ⟨f', as', hf, has, rfl⟩ := of_subst_app h
    cases he with
    | app head args => exact .app (ihf head hf) (hall (fun a ha q => ihas a ha) args has)
    | @apply g as applied nonempty args =>
      rw [subst_of_ne (.inr ⟨_, rfl⟩) hs.unreserved.symm hs.name] at hf
      cases hf
      cases has with
      | @cons _ g' _ as' hg has =>
        exact .call (hs.applied g g' applied hg) (ne_nil_of_forall₂ has nonempty)
          (hall (fun a ha q => ihas a (List.mem_cons_of_mem _ ha)) args has)
  | bind f xs b ihb =>
    cases he with
    | bind head slots body =>
      rcases of_subst_bind h with ⟨x, y, c, rfl, -, rfl, hc, rfl⟩ | ⟨hnone, ys, c, d, hc, hd, rfl⟩
      · exact .bind (hs.head f head) (fun z hz => atom_of_mem_rename hs slots hz) (ihb b rfl body hc)
      · obtain ⟨hbody, hys⟩ := body.clearOf hs.renames hc
        refine .bind (hs.head f head) (fun z hz => ?_) (ihb c (size_of_clearOf hc) hbody hd)
        rcases hys z hz with hz | ⟨hplain, hfresh⟩
        · refine hs.atom _ (slots z hz) fun heq => ?_
          rw [Binders.bound?_eq_some.2 ⟨heq.symm, hz⟩] at hnone
          cases hnone
        · exact hs.fresh z hplain hfresh

/-- Exchanging a bound variable. -/
theorem Uses.alphaConvert (hs : U.Substitutes R U' (.var x) (.var y)) (he : Uses R U e)
    (h : e.alphaConvert (.var x) (.var y) = .ok q) : Uses R U' q := by
  obtain ⟨f, xs, b, c, rfl, -, hc, rfl⟩ := of_alphaConvert h
  cases he with
  | bind head slots body =>
    exact .bind (hs.head f head) (fun z hz => atom_of_mem_rename hs slots hz) (body.subst hs hc)

/-- The arguments of a function take the places of its parameters. -/
theorem Uses.substEach {pairs : List (Var × Expr)}
    (hs : ∀ pair ∈ pairs, U.Substitutes R U (.var pair.1) pair.2) (he : Uses R U e)
    (h : e.substEach pairs = .ok q) : Uses R U q :=
  of_substEach (fun pair hpair _ _ he hq => he.subst (hs pair hpair) hq) he h

/-- **Contraction keeps to a vocabulary.** -/
theorem Uses.contractFrom (hc : U.Contracts R U') (he : Uses R U e)
    (h : contractFrom R depth e = .ok q) : Uses R U' q := by
  have hall {as bs : List Expr} {depth : Nat}
      (ih : ∀ a ∈ as, ∀ q, Expr.contractFrom R depth a = .ok q → Uses R U' q)
      (h : List.Forall₂ (fun a b => Expr.contractFrom R depth a = .ok b) as bs) :
      ∀ b ∈ bs, Uses R U' b := by
    intro b hb
    obtain ⟨a, ha, hab⟩ := exists_of_forall₂ h b hb
    exact ih a ha b hab
  induction he generalizing depth q with
  | var h =>
    cases h
    exact .var (hc.atom _ ‹_›)
  | sym h =>
    cases h
    exact .sym (hc.atom _ ‹_›)
  | int | float | str =>
    cases h
    constructor
  | app head _ ihf ihas =>
    obtain ⟨f', as', hf, has, ⟨hredex, hq⟩ | ⟨-, rfl⟩⟩ := of_contractFrom_app h
    · -- the symbol for application is used like any other, so the function is an argument
      obtain ⟨us, b, a, rest, heq⟩ := isRedex_iff.1 hredex
      cases heq
      cases hf
      have hargs := hall (fun a ha q hq => ihas a ha hq) has
      cases has with
      | @cons _ g _ bs hg has =>
        cases has with
        | @cons _ a' _ rest' ha hrest =>
          obtain ⟨c, -, rfl⟩ := of_contractFrom_bind hg
          rw [List.forall_mem_cons] at hargs
          cases hargs.1 with
          | bind _ _ body =>
            cases head with
            | sym hatom =>
              refine body.substEach (fun pair hpair => ?_) (of_contract_lambda hq).2
              exact hc.params hatom _ _ (hargs.2 _ (List.of_mem_zip hpair).2)
    · exact .app (ihf hf) (hall (fun a ha q hq => ihas a ha hq) has)
  | @apply g as applied nonempty _ ihas =>
    obtain ⟨f', as', hf, has, hq⟩ := of_contractFrom_app h
    cases hf
    cases has with
    | @cons _ g' _ bs hg has =>
      have hargs := hall (fun a ha q hq => ihas a ha hq) has
      have hne : bs ≠ [] := ne_nil_of_forall₂ has nonempty
      rcases hq with ⟨hredex, hq⟩ | ⟨hredex, rfl⟩
      · obtain ⟨us, b, a, rest, heq⟩ := isRedex_iff.1 hredex
        cases heq
        obtain ⟨a', rest', rfl⟩ := List.exists_cons_of_ne_nil hne
        exact hc.redex _ _ _ _ _ _ _ applied hg hargs hq
      · refine .call (hc.applied _ g g' applied ?_ hg) hne hargs
        obtain ⟨a, rest, rfl⟩ := List.exists_cons_of_ne_nil nonempty
        rw [isRedex, asApply?, if_pos rfl] at hredex
        exact hredex
  | bind head slots _ ih =>
    obtain ⟨c, hb, rfl⟩ := of_contractFrom_bind h
    exact .bind (hc.head _ head) (fun x hx => hc.atom _ (slots x hx)) (ih hb)

end Expr
end SecondOrder
