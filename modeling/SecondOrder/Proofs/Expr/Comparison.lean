/-
# Comparison by renaming decides equality up to bound names

A slot may be converted to a new variable (`Expr.Entered.convertSlot`),
whichever other slots hold the same variable: what is left in those is
overwritten when their turn comes, or stands further out than the slot that
binds.  So converting all slots of two bindings to the same new variables
enters the same scope on both sides, and a scope entered on both sides tells
nothing apart.  Hence comparison is never refused, and it finds out whether two
expressions have one nameless form (`Expr.decides_alphaDecide`).
-/

import SecondOrder.Expr.Comparison
import SecondOrder.Proofs.Expr.Inversion
import SecondOrder.Proofs.Expr.Nameless

namespace SecondOrder
namespace Expr

variable {a b c d e : Expr} {x y : Var} {k : Nat} {W : List Var} {t u : Nameless}

/-- The test is not refused, and it tells whether `p`. -/
def Decides (test : Except Fault Bool) (p : Prop) : Prop := ∃ t, test = .ok t ∧ (t = true ↔ p)

section Decides

variable {p p' : Prop} {test test' : Except Fault Bool}

/-- A test that is made without a fault tells what its result is equivalent
to. -/
theorem Decides.of_iff {t : Bool} (h : t = true ↔ p) : Decides (.ok t) p := ⟨t, rfl, h⟩

/-- To answer `false` tells what does not hold. -/
theorem Decides.of_not (h : ¬p) : Decides (.ok false) p := .of_iff (by simp [h])

/-- A test tells everything that is equivalent to what it tells. -/
theorem Decides.congr (h : Decides test p) (hp : p ↔ p') : Decides test p' := by
  rwa [Decides, ← hp]

/-- A test that is made only if another holds. -/
theorem Decides.and (h : Decides test p) (h' : Decides test' p') :
    Decides (test >>= fun t => if t then test' else .ok false) (p ∧ p') := by
  obtain ⟨t, rfl, ht⟩ := h
  cases t with
  | false => exact .of_not fun hp => Bool.false_ne_true (ht.2 hp.1)
  | true => exact h'.congr ⟨fun hp' => ⟨ht.1 rfl, hp'⟩, And.right⟩

/-- The answer is `true` exactly if what the test tells holds. -/
theorem Decides.eq_true_iff (h : Decides test p) : test = .ok true ↔ p := by
  obtain ⟨t, rfl, ht⟩ := h
  rw [Except.ok.injEq, ht]

end Decides

/-- The body of the binding `e` has the form `t` where its first slots hold the
variables `W` and the others what they hold in `e`. -/
def Entered (k : Nat) (W : List Var) (t : Nameless) (e : Expr) : Prop :=
  ∃ f xs b, e = bind f xs b ∧ xs.length = k ∧
    b.namelessIn (W ++ xs.toList.drop W.length).reverse = t

/-- Before any slot has been converted, the body has the form that its own
binding gives it. -/
theorem entered_nil (f : Sym) (xs : Binders) (b : Expr) :
    Entered xs.length [] (b.namelessIn xs.toList.reverse) (bind f xs b) :=
  ⟨f, xs, b, rfl, rfl, rfl⟩

/-- Where all slots hold `W`, these are the scope. -/
theorem Entered.body (h : Entered k W t e) (hW : W.length = k) :
    e.body.namelessIn W.reverse = t := by
  obtain ⟨f, xs, b, rfl, hk, h⟩ := h
  rwa [List.drop_of_length_le (by rw [Binders.length_toList]; omega), List.append_nil] at h

/-- **A slot converted to a new variable.** -/
theorem Entered.convertSlot (h : Entered k W t e) (hW : W.length < k) (hy : y ∉ e.vars) :
    ∃ e', e.convertSlot W.length y = .ok e' ∧ Entered k (W ++ [y]) t e' := by
  obtain ⟨f, xs, b, rfl, rfl, rfl⟩ := h
  rw [mem_vars_bind, not_or] at hy
  obtain ⟨x, hx, hdrop⟩ : ∃ x, xs.toList[W.length]? = some x ∧
      xs.toList.drop W.length = x :: xs.toList.drop (W.length + 1) :=
    ⟨_, List.getElem?_eq_getElem hW, List.drop_eq_getElem_cons hW⟩
  refine ⟨_, ?_, f, xs.rename x y, b.rename x y, rfl, Binders.length_rename .., ?_⟩
  · rw [Expr.convertSlot, slot?, hx]
    exact alphaConvert_eq_rename (List.mem_of_getElem? hx) hy.2
  · rw [List.length_append, List.length_singleton, toList_rename, ← List.map_drop, hdrop]
    simp only [List.reverse_append, List.reverse_cons, List.append_assoc, List.nil_append,
      List.cons_append, ← List.map_reverse]
    -- only slots after the converted one, which stand further in, are renamed along
    refine namelessIn_rename hy.2 fun z hz => place_renamed (fun h => ?_) ?_ fun _ => ?_
    · exact hy.1 (List.mem_of_mem_drop (List.mem_reverse.1 h))
    · rintro rfl; exact hy.2 hz
    · rw [place_cons_eq_iff]
      by_cases hzx : z = x
      · exact .inl ⟨hzx ▸ Var.renamed_self x y, hzx⟩
      · rw [Var.renamed_of_ne hzx]
        exact .inr ⟨fun hzy => hy.2 (hzy ▸ hz), hzx, rfl⟩

/-- **The remaining slots of two bindings converted to the same new
variables.** -/
theorem Entered.convertSlots {m : Nat} (ha : Entered k W t a) (hb : Entered k W u b)
    (hm : W.length + m = k) : ∃ W' c d, convertSlots a b (List.range' W.length m) = .ok (c, d) ∧
      W'.length = k ∧ Entered k W' t c ∧ Entered k W' u d := by
  induction m generalizing a b W with
  | zero => exact ⟨W, a, b, rfl, hm, ha, hb⟩
  | succ m ih =>
    have hy (e : Expr) (he : e ∈ [a, b]) : freshVar [a, b] ∉ e.vars := freshVar_not_mem he
    obtain ⟨a', ha', hea⟩ := ha.convertSlot (by omega) (hy a (by simp))
    obtain ⟨b', hb', heb⟩ := hb.convertSlot (by omega) (hy b (by simp))
    have hlen : (W ++ [freshVar [a, b]]).length = W.length + 1 := by simp
    obtain ⟨W', c, d, h, hW', hc, hd⟩ := ih hea heb (by omega)
    refine ⟨W', c, d, ?_, hW', hc, hd⟩
    rw [List.range'_succ, Expr.convertSlots, ha', hb']
    rw [hlen] at h
    exact h

/-- Arguments are compared one by one, up to the first difference. -/
theorem decides_alphaDecideAll {as bs : List Expr} (hlen : as.length = bs.length)
    (h : ∀ a ∈ as, ∀ b, Decides (alphaDecide a b) (a.nameless = b.nameless)) :
    Decides (alphaDecideAll as bs) (as.map nameless = bs.map nameless) := by
  induction as generalizing bs with
  | nil =>
    obtain rfl := List.length_eq_zero_iff.1 hlen.symm
    rw [alphaDecideAll] <;> simp [Decides.of_iff]
  | cons a as ih =>
    obtain ⟨b, bs, rfl⟩ := List.exists_cons_of_length_eq_add_one hlen.symm
    rw [List.forall_mem_cons] at h
    rw [alphaDecideAll, List.map_cons, List.map_cons, List.cons.injEq]
    exact (h.1 b).and (ih (Nat.succ.inj hlen) h.2)

/-- Anything but two applications or two bindings is compared as nodes. -/
theorem decides_alphaDecide_of_apart (happ : (a.isApp && b.isApp) = false)
    (hbind : (a.isBind && b.isBind) = false) :
    Decides (alphaDecide a b) (a.nameless = b.nameless) := by
  have heq : alphaDecide a b = .ok (a == b) := by
    rw [alphaDecide]
    · rintro f as g bs rfl rfl
      cases happ
    · rintro f xs c g ys d rfl rfl
      cases hbind
  rw [heq]
  refine .of_iff ⟨fun h => alphaEq_iff_nameless.1 (alphaIn_of_same (List.forall_mem_nil _) h), fun h => ?_⟩
  have h := alphaEq_iff_nameless.2 h
  cases a <;> cases b <;> first | exact h | simp [isApp, isBind] at happ hbind h

/-- Two bindings are told apart by their heads, their numbers of slots and
their bodies under the same new variables. -/
theorem decides_alphaDecide_bind {f g : Sym} {xs ys : Binders}
    (ih : ∀ c', c'.size = c.size → ∀ d', Decides (alphaDecide c' d') (c'.nameless = d'.nameless)) :
    Decides (alphaDecide (bind f xs c) (bind g ys d))
      ((bind f xs c).nameless = (bind g ys d).nameless) := by
  simp only [nameless, namelessIn, Nameless.bind.injEq, List.append_nil]
  rw [alphaDecide.eq_def]
  dsimp only
  by_cases hlen : xs.length = ys.length
  · rw [if_neg (not_not.2 hlen)]
    by_cases hf : f = g
    · rw [if_neg (not_not.2 hf)]
      obtain ⟨W, c', d', hcd, hW, hc, hd⟩ := (entered_nil f xs c).convertSlots
        (hlen ▸ entered_nil g ys d) (Nat.zero_add _)
      have hsize : c'.body.size = c.size := size_body_of_convertSlots hcd
      rw [List.length_nil, ← List.range_eq_range'] at hcd
      split
      · next herr => rw [hcd] at herr; contradiction
      · next hok =>
        rw [hcd] at hok
        cases hok
        refine (ih c'.body hsize d'.body).congr ?_
        rw [← hc.body hW, ← hd.body hW, namelessIn_eq_iff_nameless]
        simp [hf, hlen]
    · rw [if_pos hf]
      exact .of_not fun h => hf h.1
  · rw [if_pos hlen]
    exact .of_not fun h => hlen h.2.1

/-- **Comparison by renaming finds out whether two expressions have one form,**
and it is never refused. -/
theorem decides_alphaDecide (a b : Expr) : Decides (alphaDecide a b) (a.nameless = b.nameless) := by
  induction a using sizedInduct generalizing b with
  | atom a ha =>
    rw [isCompound, Bool.or_eq_false_iff] at ha
    exact decides_alphaDecide_of_apart (by rw [ha.1]; rfl) (by rw [ha.2]; rfl)
  | app f as ihf ihas =>
    cases b with
    | app g bs =>
      simp only [nameless, namelessIn, namelessAllIn_eq_map, Nameless.app.injEq] at ihf ihas ⊢
      rw [alphaDecide]
      by_cases hlen : as.length = bs.length
      · rw [if_neg (not_not.2 hlen)]
        exact (ihf g).and (decides_alphaDecideAll hlen ihas)
      · rw [if_pos hlen]
        exact .of_not fun h => hlen (by simpa using congrArg List.length h.2)
    | _ => exact decides_alphaDecide_of_apart rfl rfl
  | bind f xs c ih =>
    cases b with
    | bind g ys d => exact decides_alphaDecide_bind ih
    | _ => exact decides_alphaDecide_of_apart rfl rfl

/-- The comparison of whole expressions finds out whether both are compound and
have one form: those without children it leaves to equality of nodes. -/
theorem decides_alphaDecideWhole (a b : Expr) : Decides (alphaDecideWhole a b)
    (a.isCompound = true ∧ b.isCompound = true ∧ a.nameless = b.nameless) := by
  rw [alphaDecideWhole]
  split
  · next h =>
    rw [Bool.and_eq_true] at h
    exact (decides_alphaDecide a b).congr (by simp [h])
  · next h =>
    rw [Bool.and_eq_true] at h
    exact .of_not fun hab => h ⟨hab.1, hab.2.1⟩

/-- What is similar is equal as nodes or found to be alpha-equivalent. -/
theorem similar_iff_alphaDecideWhole :
    a.similar b = true ↔ (a == b) = true ∨ alphaDecideWhole a b = .ok true := by
  rw [similar, alphaEquivalent, (decides_alphaDecideWhole a b).eq_true_iff, ← alphaEq_iff_nameless,
    Bool.or_eq_true, Bool.and_eq_true, Bool.and_eq_true, and_assoc]

/-- **Comparison is equality of nameless forms.**  It is never refused,
although every slot is converted by a substitution that could be: the new
variable is fresh for both sides.  Of whole expressions it asks besides that
both are compound, and there it is reflexive, symmetric and transitive. -/
theorem alphaDecide_exactly (a b : Expr) :
    Decides (alphaDecide a b) (a.nameless = b.nameless) ∧
    Decides (alphaDecideWhole a b)
      (a.isCompound = true ∧ b.isCompound = true ∧ a.nameless = b.nameless) ∧
    (a.isCompound = true → alphaDecideWhole a a = .ok true) ∧
    (alphaDecideWhole a b = .ok true → alphaDecideWhole b a = .ok true) ∧
    ∀ c, alphaDecideWhole a b = .ok true → alphaDecideWhole b c = .ok true →
      alphaDecideWhole a c = .ok true := by
  have htrue (a b : Expr) := (decides_alphaDecideWhole a b).eq_true_iff
  refine ⟨decides_alphaDecide a b, decides_alphaDecideWhole a b, ?refl, ?symm, ?trans⟩
  case refl =>
    intro ha
    exact (htrue a a).2 ⟨ha, ha, rfl⟩
  case symm =>
    intro hab
    obtain ⟨ha, hb, hab⟩ := (htrue a b).1 hab
    exact (htrue b a).2 ⟨hb, ha, hab.symm⟩
  case trans =>
    intro c hab hbc
    obtain ⟨ha, -, hab⟩ := (htrue a b).1 hab
    obtain ⟨-, hc, hbc⟩ := (htrue b c).1 hbc
    exact (htrue a c).2 ⟨ha, hc, hab.trans hbc⟩

/-- The last slot of `q[x, x. x]` binds: it is `q[x0, _y. _y]` and so
`q[y, x. x]`, but not `q[x, y. x]`. -/
theorem alphaDecide_repeated :
    let q (xs : Binders) (x : Var) : Expr := bind ⟨"q", "base", false⟩ xs (var x)
    alphaDecideWhole (q ⟨⟨"x", false⟩, [⟨"x", false⟩]⟩ ⟨"x", false⟩)
        (q ⟨⟨"y", false⟩, [⟨"x", false⟩]⟩ ⟨"x", false⟩) = .ok true ∧
      alphaDecide (q ⟨⟨"x", false⟩, [⟨"x", false⟩]⟩ ⟨"x", false⟩)
        (q ⟨⟨"x", false⟩, [⟨"y", false⟩]⟩ ⟨"x", false⟩) ≠ .ok true := by
  intro q
  let x : Var := ⟨"x", false⟩
  let y : Var := ⟨"y", false⟩
  let x0 : Var := ⟨"x0", false⟩
  let m : Var := ⟨"y", true⟩
  obtain ⟨-, hmid, -, -, htrans⟩ := alphaDecide_exactly (q ⟨x, [x]⟩ x) (q ⟨x0, [m]⟩ m)
  have hlast := (alphaDecide_exactly (q ⟨x0, [m]⟩ m) (q ⟨y, [x]⟩ x)).2.1
  have hne := (alphaDecide_exactly (q ⟨x, [x]⟩ x) (q ⟨x, [y]⟩ x)).1
  refine ⟨htrans _ (hmid.eq_true_iff.2 ⟨rfl, rfl, rfl⟩) (hlast.eq_true_iff.2 ⟨rfl, rfl, rfl⟩), ?_⟩
  rw [Ne, hne.eq_true_iff]
  intro h
  cases h

end Expr
end SecondOrder
