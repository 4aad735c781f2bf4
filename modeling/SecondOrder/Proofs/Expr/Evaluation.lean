/-
# Evaluation

A form is evaluated in an environment that gives every free name a value, and
every slot around it a meaning.  The value of a function says what its body
means when the arguments are the meanings of its slots; of anything else, that
the application stays as it is.  If functions are carried out, what the symbol
for application is applied to means what the value of the function gives, and
if they are not, it means an application.

The value of an expression depends on the places of its bound variables alone
(`Expr.eval_namelessIn`), and names that are replaced come to the same as names
that are given values (`Nameless.eval_replace`).  Of the values of names only
the meanings count, unless the names are called (`Expr.eval_congr`).  A meaning
in which nothing is carried out can be read as a form again
(`Expr.form_meaning`).
-/

import SecondOrder.Proofs.Expr.Reduction

namespace SecondOrder

/-- What an expression means, what it gives when it is applied, and whether it
is the symbol for application itself. -/
@[ext]
structure Sense where
  meaning : Meaning
  call : List Meaning → Meaning
  calls : Bool

namespace Sense

/-- The value of what is neither a function nor the symbol for application. -/
def plain (R : Reserved) (d : Meaning) : Sense := ⟨d, d.applied R, false⟩

/-- What an application means if its head calls what comes next: what that
gives for the rest.  If the head does not, or functions are not carried out, it
is an application. -/
def apply (carry : Bool) (head : Sense) (args : List Sense) : Meaning :=
  match carry && head.calls, args with
  | true, g :: a :: as => g.call ((a :: as).map meaning)
  | _, _ => fun n => .app (head.meaning n) (args.map fun a => a.meaning n)

/-- Values with the same meanings, member by member, have the same list of
meanings. -/
theorem map_meaning {as as' : List Sense} (h : List.Forall₂ (fun a a' => a.meaning = a'.meaning) as as') :
    as.map meaning = as'.map meaning := by
  induction h with
  | nil => rfl
  | cons ha _ ih => rw [List.map_cons, List.map_cons, ha, ih]

/-- The meaning depends on the meanings and, if functions are carried out, on
the head and on what comes next if the head calls it. -/
theorem apply_congr {carry : Bool} {head head' : Sense} {args args' : List Sense}
    (hhead : head.meaning = head'.meaning)
    (hargs : List.Forall₂ (fun a a' => a.meaning = a'.meaning) args args')
    (hcalls : carry = true → head.calls = head'.calls)
    (hcall : carry = true → head.calls = true → ∀ g ∈ args.head?, ∀ g' ∈ args'.head?, g.call = g'.call) :
    apply carry head args = apply carry head' args' := by
  have hplain : (fun n => Term.app (head.meaning n) (args.map fun a => a.meaning n)) =
      fun n => .app (head'.meaning n) (args'.map fun a => a.meaning n) := by
    funext n
    have h := congrArg (List.map (· n)) (map_meaning hargs)
    rw [List.map_map, List.map_map] at h
    rw [hhead]
    exact congrArg _ h
  cases hcalled : carry && head.calls with
  | false =>
    have hcalled' : (carry && head'.calls) = false := by
      cases carry with
      | false => rfl
      | true => exact (hcalls rfl).symm.trans hcalled
    simp only [apply, hcalled, hcalled']
    exact hplain
  | true =>
    obtain ⟨rfl, hhead⟩ := Bool.and_eq_true_iff.1 hcalled
    have hhead' : head'.calls = true := (hcalls rfl).symm.trans hhead
    simp only [apply, hhead, hhead', Bool.and_self]
    cases hargs with
    | nil => exact hplain
    | cons _ hrest =>
      cases hrest with
      | nil => exact hplain
      | cons ha hrest =>
        have hg := hcall rfl hhead _ rfl _ rfl
        simp only [hg, List.map_cons, ha, map_meaning hrest]

end Sense

/-- An environment gives every name a value. -/
abbrev Env := Expr → Sense

namespace Nameless

mutual

/-- The value of a form under the slots `st`, innermost first.  Functions are
carried out if `carry` says so. -/
def eval (R : Reserved) (carry : Bool) (ρ : Env) (st : List Meaning) : Nameless → Sense
  | .bound i => .plain R (st.getD i fun _ => .bound 0)
  | .var x => ρ (.var x)
  | .sym f => ρ (.sym f)
  | .int n => .plain R fun _ => .int n
  | .float k => .plain R fun _ => .float k
  | .str s => .plain R fun _ => .str s
  | .app t ts => .plain R ((eval R carry ρ st t).apply carry (evalAll R carry ρ st ts))
  | .bind f k t =>
    let d : Meaning := fun n =>
      .bind f k ((eval R carry ρ ((Meaning.levels n k).reverse ++ st) t).meaning (n + k))
    let call (ds : List Meaning) : Meaning := if f = R.lambdaSym ∧ ds.length = k then
      (eval R carry ρ (ds.reverse ++ st) t).meaning else d.applied R ds
    ⟨d, call, false⟩

def evalAll (R : Reserved) (carry : Bool) (ρ : Env) (st : List Meaning) : List Nameless → List Sense
  | [] => []
  | t :: ts => eval R carry ρ st t :: evalAll R carry ρ st ts

end

variable {R : Reserved} {carry carry' : Bool} {ρ ρ' : Env} {st st' : List Meaning} {t u : Nameless}
  {ts us : List Nameless} {pairs : List (Expr × Nameless)} {f : Sym} {k : Nat}

/-- A list of forms is evaluated member by member. -/
theorem evalAll_eq_map (ts : List Nameless) : evalAll R carry ρ st ts = ts.map (eval R carry ρ st) := by
  induction ts with
  | nil => rfl
  | cons t ts ih => rw [evalAll, ih, List.map_cons]

/-- An application is evaluated in its parts, and then its head decides what is
done with the values. -/
theorem eval_app : eval R carry ρ st (.app t ts) =
    .plain R ((eval R carry ρ st t).apply carry (ts.map (eval R carry ρ st))) := by
  rw [eval, evalAll_eq_map]

/-- The meaning of a binding depends on what its body means. -/
theorem meaning_bind_congr (h : ∀ ds : List Meaning, ds.length = k →
      (eval R carry ρ (ds.reverse ++ st) t).meaning = (eval R carry' ρ' (ds.reverse ++ st') u).meaning) :
    (eval R carry ρ st (.bind f k t)).meaning = (eval R carry' ρ' st' (.bind f k u)).meaning := by
  funext n
  simp only [eval, h _ (Meaning.length_levels n k)]

/-- So does what it gives when it is applied. -/
theorem eval_bind_congr (h : ∀ ds : List Meaning, ds.length = k →
      (eval R carry ρ (ds.reverse ++ st) t).meaning = (eval R carry' ρ' (ds.reverse ++ st') u).meaning) :
    eval R carry ρ st (.bind f k t) = eval R carry' ρ' st' (.bind f k u) := by
  have hmeaning := meaning_bind_congr (f := f) h
  simp only [eval] at hmeaning ⊢
  refine Sense.ext hmeaning (funext fun ds => ?_) rfl
  dsimp only
  split
  · next hds => exact h ds hds.2
  · rw [hmeaning]

end Nameless

/-- The bound variables `S`, innermost first, given the meanings `st`. -/
def Env.enter (R : Reserved) (ρ : Env) (S : List Var) (st : List Meaning) : Env
  | .var x => if x ∈ S then .plain R (st.getD (S.idxOf x) fun _ => .bound 0) else ρ (.var x)
  | e => ρ e

namespace Env

open SecondOrder.Expr (var)

variable {R : Reserved} {ρ : Env} {S I : List Var} {st ds : List Meaning}

/-- Only the bound variables are given meanings. -/
theorem enter_append (hI : I.length = ds.length) {n : Expr} (hn : ∀ x ∈ I, n ≠ var x) :
    ρ.enter R (I ++ S) (ds ++ st) n = ρ.enter R S st n := by
  cases n with
  | var x =>
    have hx : x ∉ I := fun hx => hn x hx rfl
    simp only [enter, List.mem_append, hx, false_or, List.idxOf_append_of_notMem hx, hI,
      List.getD_append_right _ _ _ _ (Nat.le_add_right ..), Nat.add_sub_cancel_left]
  | _ => rfl

/-- Parameters come first, the last one innermost. -/
theorem enter_reverse {i : Nat} (hnodup : I.Nodup) (hI : I.length = ds.length) (hi : i < I.length) :
    ρ.enter R (I.reverse ++ S) (ds.reverse ++ st) (var I[i]) = .plain R (ds[i]) := by
  have hmem : I[i] ∈ I.reverse := List.mem_reverse.2 (List.getElem_mem hi)
  have hlt : I.length - 1 - i < ds.length := by omega
  have hlt' : I.length - 1 - i < ds.reverse.length := by rw [List.length_reverse]; exact hlt
  have hback : ds.length - 1 - (I.length - 1 - i) = i := by omega
  rw [enter, if_pos (List.mem_append_left _ hmem), List.idxOf_append_of_mem hmem,
    Expr.idxOf_reverse hnodup hi, List.getD_append _ _ _ _ hlt', List.getD_eq_getElem?_getD,
    List.getElem?_reverse hlt]
  simp only [hback, List.getElem?_eq_getElem (hI ▸ hi), Option.getD_some]

end Env

namespace Expr

variable {R : Reserved} {carry : Bool} {ρ ρ' : Env} {S I : List Var} {st rest ds : List Meaning} {e : Expr}

/-- The slots further out may be taken as bound by the environment instead.
What a variable means does not depend on where the line is drawn. -/
theorem eval_place (hI : I.length = ds.length) (hS : S.length = st.length) (x : Var) :
    (place (I ++ S) x).eval R carry ρ (ds ++ (st ++ rest)) = (place I x).eval R carry (ρ.enter R S st) ds := by
  by_cases hx : x ∈ I
  · have hlt : I.idxOf x < ds.length := hI ▸ List.idxOf_lt_length_iff.2 hx
    rw [place_of_mem (List.mem_append_left _ hx), place_of_mem hx, List.idxOf_append_of_mem hx,
      Nameless.eval, Nameless.eval, List.getD_append _ _ _ _ hlt]
  · rw [place_of_not_mem hx, Nameless.eval, Env.enter]
    by_cases hxS : x ∈ S
    · have hlt : S.idxOf x < st.length := hS ▸ List.idxOf_lt_length_iff.2 hxS
      rw [if_pos hxS, place_of_mem (List.mem_append_right _ hxS), List.idxOf_append_of_notMem hx,
        Nameless.eval, List.getD_append_right _ _ _ _ (by omega), hI, Nat.add_sub_cancel_left,
        List.getD_append _ _ _ _ hlt]
    · rw [if_neg hxS, place_of_not_mem (by simp [hx, hxS]), Nameless.eval]

/-- **The value depends on the places of the bound variables alone:** they may
be looked up as slots or in the environment, and slots that no bound variable
stands for do not matter. -/
theorem eval_namelessIn (hI : I.length = ds.length) (hS : S.length = st.length) :
    (e.namelessIn (I ++ S)).eval R carry ρ (ds ++ (st ++ rest)) =
      (e.namelessIn I).eval R carry (ρ.enter R S st) ds := by
  induction e generalizing I ds with
  | var x => exact eval_place hI hS x
  | app f as ihf ihas =>
    have has : as.map (Nameless.eval R carry ρ (ds ++ (st ++ rest)) ∘ namelessIn (I ++ S)) =
        as.map (Nameless.eval R carry (ρ.enter R S st) ds ∘ namelessIn I) :=
      List.map_congr_left fun a ha => ihas a ha hI
    simp only [namelessIn, namelessAllIn_eq_map, Nameless.eval_app, List.map_map, ihf hI, has]
  | bind f xs b ih =>
    refine Nameless.eval_bind_congr fun ds' hds' => ?_
    have hlen : (xs.toList.reverse ++ I).length = (ds'.reverse ++ ds).length := by simp [hI, hds']
    have hb := ih hlen
    rw [List.append_assoc, List.append_assoc] at hb
    rw [hb]
  | _ => rfl

/-- Slots around a form do not matter. -/
theorem eval_nameless (e : Expr) (st : List Meaning) :
    e.nameless.eval R carry ρ st = e.nameless.eval R carry ρ [] := by
  have h (rest : List Meaning) : (e.namelessIn ([] ++ [])).eval R carry ρ ([] ++ ([] ++ rest)) =
      (e.namelessIn []).eval R carry (ρ.enter R [] []) [] := eval_namelessIn rfl rfl
  exact (h st).trans (h []).symm

/-- Slots may be looked up in the environment. -/
theorem eval_enter (hS : S.length = st.length) :
    (e.namelessIn S).eval R carry ρ st = e.nameless.eval R carry (ρ.enter R S st) [] := by
  have h : (e.namelessIn ([] ++ S)).eval R carry ρ ([] ++ (st ++ [])) = _ := eval_namelessIn rfl hS
  rwa [List.nil_append, List.nil_append, List.append_nil] at h

end Expr

/-! ## Names that are replaced -/

/-- The first of each pair given the value of the second; of two pairs for one
name the earlier counts. -/
def Env.assign (R : Reserved) (carry : Bool) (ρ : Env) (pairs : List (Expr × Nameless)) : Env := fun n =>
  match pairs.lookup n with
  | some s => s.eval R carry ρ []
  | none => ρ n

namespace Nameless

variable {R : Reserved} {carry : Bool} {ρ : Env} {st : List Meaning} {s t : Nameless}
  {pairs : List (Expr × Nameless)} {n : Expr}

/-- **To replace names is to give them values,** if nothing around the values
matters. -/
theorem eval_replace (h : ∀ pair ∈ pairs, ∀ st, pair.2.eval R carry ρ st = pair.2.eval R carry ρ []) :
    (t.replace pairs).eval R carry ρ st = t.eval R carry (ρ.assign R carry pairs) st := by
  induction t generalizing st with
  | var x =>
    rw [replace, eval, Env.assign]
    cases hx : pairs.lookup (.var x) with
    | none => rfl
    | some s =>
      obtain ⟨pair, hpair, rfl⟩ := exists_of_lookup hx
      exact h pair hpair st
  | sym f =>
    rw [replace, eval, Env.assign]
    cases hf : pairs.lookup (.sym f) with
    | none => rfl
    | some s =>
      obtain ⟨pair, hpair, rfl⟩ := exists_of_lookup hf
      exact h pair hpair st
  | app t ts iht ihts =>
    have hts : ts.map (eval R carry ρ st ∘ replace pairs) =
        ts.map (eval R carry (ρ.assign R carry pairs) st) := List.map_congr_left fun u hu => ihts u hu
    rw [replace, replaceAll_eq_map, eval_app, eval_app, List.map_map, iht, hts]
  | bind f k t ih =>
    rw [replace]
    exact eval_bind_congr fun ds _ => congrArg Sense.meaning ih
  | _ => rfl

end Nameless

/-! ## What is called -/

namespace Expr

variable {R : Reserved} {e n : Expr}

/-- What calls the expression after it, or may do so when it has a value. -/
def Caller (R : Reserved) (g : Expr) : Prop := g = sym R.applySym ∨ g.isMarked = true

/-- What can be carried out or calls something else, or may do so when it has a
value. -/
def Active (R : Reserved) (g : Expr) : Prop := g.isLambda R = true ∨ Caller R g

/-- The expression `n` is the head of an application in `e`, or comes after a
head that may call it. -/
def CalledIn (R : Reserved) (n e : Expr) : Prop :=
  ∃ g as, app g as ∈ e.nodes ∧ (n = g ∨ Caller R g ∧ as.head? = some n)

namespace CalledIn

/-- What is called in a part is called in the whole. -/
theorem of_nodes {a : Expr} (h : CalledIn R n a) (hsub : ∀ u ∈ a.nodes, u ∈ e.nodes) : CalledIn R n e := by
  obtain ⟨g, as, hmem, hn⟩ := h
  exact ⟨g, as, hsub _ hmem, hn⟩

/-- What is called is one of the nodes. -/
theorem mem_nodes (h : CalledIn R n e) : n ∈ e.nodes := by
  obtain ⟨g, as, hmem, rfl | ⟨-, hn⟩⟩ := h
  · exact mem_nodes_trans (mem_nodes_of_head (self_mem_nodes n)) hmem
  · exact mem_nodes_trans (mem_nodes_of_arg (List.mem_of_mem_head? hn) (self_mem_nodes n)) hmem

end CalledIn

end Expr

variable {R : Reserved} {ρ : Env} {S : List Var} {st : List Meaning}

/-- The symbol for application means itself, and no other name stands for that
symbol or a function, except for unknowns if they may have values. -/
structure Env.Literal (R : Reserved) (unknowns : Bool) (ρ : Env) : Prop where
  applySym : ρ (.sym R.applySym) = { Sense.plain R fun _ => .sym R.applySym with calls := true }
  plain : ∀ n, n ≠ .sym R.applySym → (unknowns = true → n.isMarked = false) → ρ n = .plain R (ρ n).meaning

/-- If no name stands for a function, then no other name than an unknown
does. -/
theorem Env.Literal.opened {unknowns : Bool} (hρ : ρ.Literal R false) : ρ.Literal R unknowns :=
  ⟨hρ.applySym, fun n hn _ => hρ.plain n hn nofun⟩

/-- A bound variable stands for a meaning, and not for something to be
called. -/
theorem Env.Literal.enter {unknowns : Bool} (hρ : ρ.Literal R unknowns) : (ρ.enter R S st).Literal R unknowns := by
  refine ⟨hρ.applySym, fun n hn hm => ?_⟩
  cases n with
  | var x =>
    rw [Env.enter]
    split
    · rfl
    · exact hρ.plain _ hn hm
  | _ => exact hρ.plain _ hn hm

namespace Expr

variable {carry unknowns : Bool} {ρ' : Env} {e g n : Expr}

/-- What is not active is plain. -/
theorem eval_eq_plain (hρ : ρ.Literal R unknowns) (hg : g.isLambda R = false) (hne : g ≠ sym R.applySym)
    (hm : unknowns = true → g.isMarked = false) :
    (g.namelessIn S).eval R carry ρ st = .plain R ((g.namelessIn S).eval R carry ρ st).meaning := by
  cases g with
  | var x =>
    by_cases hx : x ∈ S
    · rw [namelessIn, place_of_mem hx]
      rfl
    · rw [namelessIn, place_of_not_mem hx]
      exact hρ.plain _ hne hm
  | sym f => exact hρ.plain _ hne hm
  | bind f xs b =>
    have hf : f ≠ R.lambdaSym := beq_eq_false_iff_ne.1 hg
    exact Sense.ext rfl (funext fun ds => if_neg fun h => hf h.1) rfl
  | _ => rfl

/-- What is not active is plain, be there values for unknowns or not. -/
theorem eval_eq_plain_of_not_active (hρ : ρ.Literal R true) (hg : ¬Active R g) :
    (g.namelessIn S).eval R carry ρ st = .plain R ((g.namelessIn S).eval R carry ρ st).meaning := by
  obtain ⟨hlambda, hcaller⟩ := not_or.1 hg
  obtain ⟨hne, hm⟩ := not_or.1 hcaller
  exact eval_eq_plain hρ (Bool.eq_false_iff.2 hlambda) hne fun _ => Bool.eq_false_iff.2 hm

/-- Only the symbol for application and unknowns call. -/
theorem caller_of_calls (hρ : ρ.Literal R unknowns) (h : ((g.namelessIn S).eval R carry ρ st).calls = true) :
    g = sym R.applySym ∨ unknowns = true ∧ g.isMarked = true := by
  by_contra hnot
  obtain ⟨hne, hm⟩ := not_or.1 hnot
  rw [not_and, Bool.not_eq_true] at hm
  cases hlambda : g.isLambda R with
  | false =>
    rw [eval_eq_plain hρ hlambda hne hm] at h
    cases h
  | true =>
    cases g with
    | bind => cases h
    | _ => cases hlambda

/-- Both environments give the name the same meaning and, if it is called in
`e` and functions are carried out, the same value. -/
def AgreeOn (R : Reserved) (carry : Bool) (e : Expr) (ρ ρ' : Env) (n : Expr) : Prop :=
  (ρ n).meaning = (ρ' n).meaning ∧ (carry = true → CalledIn R n e → ρ n = ρ' n)

/-- Environments agree on a name to which they give the same value. -/
theorem AgreeOn.of_eq (h : ρ n = ρ' n) : AgreeOn R carry e ρ ρ' n := ⟨congrArg _ h, fun _ _ => h⟩

/-- Environments that agree on a name in the whole agree on it in a part, where
less is called. -/
theorem AgreeOn.of_nodes {a : Expr} (h : AgreeOn R carry e ρ ρ' n) (hsub : ∀ u ∈ a.nodes, u ∈ e.nodes) :
    AgreeOn R carry a ρ ρ' n :=
  ⟨h.1, fun hcarry hcalled => h.2 hcarry (hcalled.of_nodes hsub)⟩

/-- The meaning of an expression, and its value if it is no name, depend on
what its names mean and on the values of those that are called. -/
theorem eval_congr (hρ : carry = true → ρ.Literal R true)
    (h : ∀ n ∈ e.nodes, IsName n → AgreeOn R carry e ρ ρ' n) :
    ((e.namelessIn S).eval R carry ρ st).meaning = ((e.namelessIn S).eval R carry ρ' st).meaning ∧
      ((IsName e → ρ e = ρ' e) → (e.namelessIn S).eval R carry ρ st = (e.namelessIn S).eval R carry ρ' st) := by
  induction e generalizing S st with
  | var x =>
    by_cases hx : x ∈ S
    · rw [namelessIn, place_of_mem hx]
      exact ⟨rfl, fun _ => rfl⟩
    · rw [namelessIn, place_of_not_mem hx]
      exact ⟨(h _ (self_mem_nodes _) (.inl ⟨x, rfl⟩)).1, fun heq => heq (.inl ⟨x, rfl⟩)⟩
  | sym f => exact ⟨(h _ (self_mem_nodes _) (.inr ⟨f, rfl⟩)).1, fun heq => heq (.inr ⟨f, rfl⟩)⟩
  | app f as ihf ihas =>
    have ihf (S : List Var) (st : List Meaning) := @ihf S st fun n hn hname =>
      (h n (mem_nodes_of_head hn) hname).of_nodes fun _ => mem_nodes_of_head
    have ihas (a : Expr) (ha : a ∈ as) (S : List Var) (st : List Meaning) := @ihas a ha S st fun n hn hname =>
      (h n (mem_nodes_of_arg ha hn) hname).of_nodes fun _ => mem_nodes_of_arg ha
    have hvalue : (namelessIn S (app f as)).eval R carry ρ st = (namelessIn S (app f as)).eval R carry ρ' st := by
      rw [namelessIn, namelessAllIn_eq_map, Nameless.eval_app, Nameless.eval_app, List.map_map, List.map_map]
      refine congrArg _ (Sense.apply_congr (ihf S st).1 ?_ (fun hcarry => ?_) fun hcarry hcalls g hg g' hg' => ?_)
      · rw [List.forall₂_map_left_iff, List.forall₂_map_right_iff, List.forall₂_same]
        exact fun a ha => (ihas a ha S st).1
      · refine congrArg Sense.calls ((ihf S st).2 fun hname => ?_)
        exact (h f (mem_nodes_of_head (self_mem_nodes f)) hname).2 hcarry ⟨f, as, self_mem_nodes _, .inl rfl⟩
      · have hcaller : Caller R f := (caller_of_calls (hρ hcarry) hcalls).imp_right And.right
        cases as with
        | nil => cases hg
        | cons a as =>
          cases hg
          cases hg'
          refine congrArg Sense.call ((ihas a List.mem_cons_self S st).2 fun hname => ?_)
          exact (h a (mem_nodes_of_arg List.mem_cons_self (self_mem_nodes a)) hname).2 hcarry
            ⟨f, a :: as, self_mem_nodes _, .inr ⟨hcaller, rfl⟩⟩
    exact ⟨congrArg _ hvalue, fun _ => hvalue⟩
  | bind f xs b ih =>
    have hvalue : (namelessIn S (bind f xs b)).eval R carry ρ st =
        (namelessIn S (bind f xs b)).eval R carry ρ' st :=
      Nameless.eval_bind_congr fun ds _ => (ih fun n hn hname =>
        (h n (mem_nodes_of_body hn) hname).of_nodes fun _ => mem_nodes_of_body).1
    exact ⟨congrArg _ hvalue, fun _ => hvalue⟩
  | _ => exact ⟨rfl, fun _ => rfl⟩

end Expr

/-! ## Meanings read as forms -/

/-- The meanings entered for new slots are the slots themselves, counted from
the outermost on. -/
theorem Meaning.getElem?_levels {n k i : Nat} (hi : i < k) :
    (levels n k)[i]? = some fun _ => .bound (n + i) := by
  induction k generalizing n i with
  | zero => cases hi
  | succ k ih =>
    cases i with
    | zero => rfl
    | succ i =>
      rw [levels, List.getElem?_cons_succ, ih (Nat.lt_of_succ_lt_succ hi), Nat.add_right_comm, Nat.add_assoc]

/-- Slots entered in two steps are those entered in one. -/
theorem Meaning.levels_append (n k l : Nat) : levels n k ++ levels (n + k) l = levels n (k + l) := by
  induction k generalizing n with
  | zero => rw [levels, List.nil_append, Nat.add_zero, Nat.zero_add]
  | succ k ih =>
    rw [Nat.succ_add, levels, levels, List.cons_append, ← ih, Nat.add_right_comm n 1 k, ← Nat.add_assoc]

mutual

/-- The form that stands under `k` slots and has the given meaning. -/
def Term.form (k : Nat) : Term → Nameless
  | .bound i => .bound (k - 1 - i)
  | .var x => .var x
  | .sym f => .sym f
  | .int n => .int n
  | .float key => .float key
  | .str s => .str s
  | .app t ts => .app (form k t) (formAll k ts)
  | .bind f n t => .bind f n (form (k + n) t)

def Term.formAll (k : Nat) : List Term → List Nameless
  | [] => []
  | t :: ts => form k t :: formAll k ts

end

/-- A list of meanings is read as forms member by member. -/
theorem Term.formAll_eq_map (k : Nat) (ts : List Term) : formAll k ts = ts.map (form k) := by
  induction ts with
  | nil => rfl
  | cons t ts ih => rw [formAll, ih, List.map_cons]

/-- Every name means itself, and no name is a function. -/
def Env.free (R : Reserved) : Env := fun n =>
  { Sense.plain R ((Valuation.free R).val n) with calls := n == .sym R.applySym }

/-- Where every name means itself, none stands for a function. -/
theorem Env.literal_free (R : Reserved) : (Env.free R).Literal R false := by
  refine ⟨?_, fun n hn _ => ?_⟩
  · have hself : ((Expr.sym R.applySym) == .sym R.applySym) = true := Expr.same_refl _
    rw [free, hself]
    rfl
  · have hcalls : (n == Expr.sym R.applySym) = false :=
      Bool.eq_false_iff.2 (mt (Expr.beq_name_iff (.inr ⟨_, rfl⟩)).1 hn)
    rw [free, hcalls]
    rfl

/-- **A meaning in which nothing is carried out can be read as a form
again.** -/
theorem Expr.form_meaning {R : Reserved} {S : List Var} (e : Expr) :
    (((e.namelessIn S).eval R false (.free R) (Meaning.levels 0 S.length).reverse).meaning S.length).form
      S.length = e.namelessIn S := by
  induction e generalizing S with
  | var x =>
    by_cases hx : x ∈ S
    · have hlt : S.idxOf x < S.length := List.idxOf_lt_length_iff.2 hx
      have hlevel : (Meaning.levels 0 S.length).reverse[S.idxOf x]? =
          some fun _ => .bound (S.length - 1 - S.idxOf x) := by
        rw [List.getElem?_reverse (by simpa using hlt), Meaning.length_levels,
          Meaning.getElem?_levels (by omega), Nat.zero_add]
      rw [namelessIn, place_of_mem hx, Nameless.eval, List.getD_eq_getElem?_getD, hlevel]
      simp only [Option.getD_some, Sense.plain, Term.form, Nameless.bound.injEq]
      omega
    · rw [namelessIn, place_of_not_mem hx]
      rfl
  | app f as ihf ihas =>
    rw [namelessIn, namelessAllIn_eq_map, Nameless.eval_app]
    simp only [Bool.false_and, Sense.plain, Sense.apply, Term.form, Term.formAll_eq_map, List.map_map, ihf]
    exact congrArg _ (List.map_congr_left fun a ha => ihas a ha)
  | bind f xs b ih =>
    have hb := ih (S := xs.toList.reverse ++ S)
    rw [List.length_append, List.length_reverse, Binders.length_toList, Nat.add_comm,
      ← Meaning.levels_append, Nat.zero_add, List.reverse_append] at hb
    simp only [namelessIn, Nameless.eval, Term.form, hb]
  | _ => rfl

end SecondOrder
