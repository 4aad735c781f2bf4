/-
# Trials with their temporaries filled in

A cleanup puts for every temporary of a trial what its value gives for the
parameters (`Filling`), and changes no other value (`Filling.foldlM`).  So what
is left of two trials of one guess is the same only if all temporaries had
similar values (`Filling.similar`).

All this is told of a cleanup that is not refused, and for values with any
binders; that cleanups of sorted solutions are not refused is
`Cleanup.substituteAway_all`.
-/

import SecondOrder.Proofs.Search.Cleanup
import SecondOrder.Proofs.Search.Trial

namespace SecondOrder

namespace Expr

variable {R : Reserved} {e : Expr} {x y z : Var}

/-- A variable that does not occur leaves nothing to rename. -/
theorem rename_of_not_mem (hx : x ∉ e.vars) : e.rename x y = e := by
  induction e with
  | var z => rw [rename, if_neg fun h => hx (List.mem_singleton.2 h.symm)]
  | app f as ihf ihas =>
    rw [mem_vars_app, not_or, not_exists] at hx
    rw [rename, ihf hx.1, renameAll_eq_map,
      List.map_congr_left fun a ha => ihas a ha fun h => hx.2 a ⟨ha, h⟩, List.map_id']
  | bind f xs b ih =>
    rw [mem_vars_bind, not_or] at hx
    rw [rename, ih hx.2, rename_eq_of_not_mem hx.1]
  | _ => rfl

/-- The free variables of what a function gives for the variables `us`. -/
theorem var_mem_names_renameEach {ws us : List Var} (hlen : ws.length = us.length)
    (hus : ∀ u ∈ us, u ∉ ws) (h : .var z ∈ (e.renameEach (ws.zip us)).names) :
    z ∈ us ∨ .var z ∈ e.names ∧ z ∉ ws := by
  induction ws generalizing e us with
  | nil => exact .inr ⟨h, List.not_mem_nil⟩
  | cons w ws ih => cases us with
    | nil => cases hlen
    | cons u us =>
      rw [List.forall_mem_cons] at hus
      rcases ih (Nat.succ.inj hlen) (fun v hv hw => hus.2 v hv (List.mem_cons_of_mem _ hw)) h with
        hz | ⟨hz, hzw⟩
      · exact .inl (List.mem_cons_of_mem _ hz)
      · rcases var_mem_names_rename hz with rfl | ⟨hz, hne⟩
        · exact .inl List.mem_cons_self
        · exact .inr ⟨hz, fun hmem => (List.mem_cons.1 hmem).elim hne hzw⟩

/-- The function `v` gives `q` for the variables `us`, which are new to it. -/
inductive Given (R : Reserved) (V : Var → Prop) (us : Binders) : Expr → Expr → Prop
  | function {ws : Binders} {b : Expr} (length : ws.length = us.length) (distinct : ws.toList.Nodup)
      (apart : ∀ u ∈ us.toList, u ∉ b.vars ∧ u ∉ ws.toList)
      (ground : Uses R (.ground R V) (b.renameEach (ws.toList.zip us.toList))) :
      Given R V us (R.lambda ws b) (b.renameEach (ws.toList.zip us.toList))

namespace Given

variable {V : Var → Prop} {us : Binders} {v v' q q' : Expr}

/-- A form that is given is that of a ground expression. -/
theorem uses (h : Given R V us v q) : Uses R (.ground R V) q := by
  cases h with
  | function _ _ _ ground => exact ground

/-- What is free in the result is new, or free in the function. -/
theorem mem_names (h : Given R V us v q) (hz : .var z ∈ q.names) :
    z ∈ us.toList ∨ .var z ∈ v.names := by
  cases h with
  | @function ws b length _ apart =>
    have hlen : ws.toList.length = us.toList.length := length
    refine (var_mem_names_renameEach hlen (fun u hu => (apart u hu).2) hz).imp_right ?_
    exact fun ⟨hz, hws⟩ => mem_names_bind.2 ⟨hz, fun w hw heq => hws (Expr.var.inj heq ▸ hw)⟩

/-- **Functions that give the same are the same.** -/
theorem similar (hus : us.toList.Nodup) (h : Given R V us v q) (h' : Given R V us v' q')
    (hq : alphaIn (us.toList.zip us.toList).reverse q q' = true) : v.similar v' = true := by
  cases h with
  | @function ws b length distinct apart =>
    cases h' with
    | @function ws' b' length' distinct' apart' =>
      rw [similar_iff_alphaEq, alphaEq, Reserved.lambda, Reserved.lambda, alphaIn, Bool.and_eq_true,
        Bool.and_eq_true, List.append_nil]
      refine ⟨⟨beq_self_eq_true _, beq_iff_eq.2 (length.trans length'.symm)⟩, ?_⟩
      have hlen : ws.toList.length = us.toList.length := length
      have hlen' : ws'.toList.length = us.toList.length := length'
      exact alphaIn_of_renameEach hlen hlen' distinct distinct' hus apart apart' hq

end Given

end Expr

open SecondOrder.Expr

/-- The equation assigns a temporary a function that can be put in for it in a
body with the parameters `us`. -/
inductive Equation.Fills (R : Reserved) (V : Var → Prop) (us : Binders) : Equation → Prop
  | function {t b : Expr} {ws : Binders} (unknown : t.isMarked = true) (distinct : ws.toList.Nodup)
      (body : Uses R (.ground R V) b) (apart : ∀ u ∈ us.toList, u ∉ b.vars ∧ u ∉ ws.toList) :
      Equation.Fills R V us ⟨t, R.lambda ws b⟩

/-- What stands for the temporary `t` in a body with the parameters `us`: its
application as long as it is among `rest`, then what its value gives. -/
inductive Slot (R : Reserved) (V : Var → Prop) (us : Binders) (S : List Equation) (rest : List Expr) :
    Expr → Expr → Prop
  | pending {t : Expr} (mem : t ∈ rest) : Slot R V us S rest t (R.applyVars t us)
  | filled {a : Equation} {q : Expr} (mem : a ∈ S) (given : Given R V us a.subject q) :
      Slot R V us S rest a.pattern q

/-- The function `λ us. b` is what the guess `g` tries for the subject `e`,
with the temporaries `ts` but for `rest` filled in. -/
inductive Filling (R : Reserved) (V : Var → Prop) (us : Binders) (S : List Equation)
    (rest : List Expr) (e : Expr) : Guess → List Expr → Expr → Prop
  | constant (atomic : e.isCompound = false) : Filling R V us S rest e .constant [] e
  | projection {i : Nat} {x : Var} (param : us.toList[i]? = some x) :
      Filling R V us S rest e (.projection i) [] (.var x)
  | app {f h p : Expr} {as hs ps : List Expr} (shape : e = .app f as)
      (children : List.Forall₂ (Slot R V us S rest) (h :: hs) (p :: ps)) :
      Filling R V us S rest e .imitation (h :: hs) (.app p ps)
  | bind {g : Sym} {ys zs : Binders} {d h q : Expr} (shape : e = .bind g ys d)
      (body : Slot R V us S rest h q)
      (slots : ∀ z ∈ zs.toList, (z.marked = false ∧ V z) ∧ z ∉ us.toList ∧ .var z ∉ q.names) :
      Filling R V us S rest e .imitation [h] (.bind g zs q)

/-- Parameters of a guess: new variables that `V` allows. -/
structure Parameters (V : Var → Prop) (us : Binders) : Prop where
  plain : ∀ u ∈ us.toList, u.marked = false
  unnumbered : ∀ u ∈ us.toList, ¬u.Numbered 'x'
  allowed : ∀ u ∈ us.toList, V u
  distinct : us.toList.Nodup
  fresh : ∀ x : Var, x.Numbered 'x' → V x

section Fill

open Equation

variable {R : Reserved} {V : Var → Prop} {us xs : Binders} {S : List Equation} {a : Equation}
  {rest ts : List Expr} {e t b q v : Expr} {g : Guess} {h : Sym}

/-- What is assigned is a function that nothing contracts in. -/
theorem Equation.Fills.contractFrom (ha : a.Fills R V us) (depth : Nat) :
    contractFrom R depth a.subject = .ok a.subject := by
  cases ha with
  | function unknown _ body =>
    exact (body.inert_of_ground fun _ => False).contractFrom_lambda_of_inert

/-- What is filled in is the value of an unknown. -/
theorem Equation.Fills.isMarked (ha : a.Fills R V us) : a.pattern.isMarked = true := by
  cases ha with
  | function unknown => exact unknown

/-- The ordinary variables in the application of an unknown are the
parameters. -/
theorem mem_vars_applyVars {z : Var} (ht : t.isMarked = true) (hz : z.marked = false)
    (h : z ∈ (R.applyVars t us).vars) : z ∈ us.toList := by
  refine (Search.mem_vars_applyVars.1 h).resolve_left fun h => ?_
  rcases isName_of_isMarked ht with ⟨x, rfl⟩ | ⟨f, rfl⟩
  · obtain rfl := List.mem_singleton.1 h
    exact absurd (hz.symm.trans ht) Bool.false_ne_true
  · cases h

variable (hus : Parameters V us)

include hus

/-- An application of another temporary is left alone. -/
theorem inert_applyVars (ht : t.isMarked = true) {T : Expr → Prop} (hT : T t) :
    Uses R (.inert R T) (R.applyVars t us) :=
  Trial.uses_applyVars (U := .inert R T) ⟨ht, hT⟩ fun u hu => ⟨hus.plain u hu, nofun⟩

/-- A slot that does not wait for `a` is left alone when `a` is put in. -/
theorem Slot.cases_head (hrest : ∀ t ∈ rest, t.isMarked = true)
    (hslot : Slot R V us S (a.pattern :: rest) t q) :
    (t = a.pattern ∧ q = R.applyVars a.pattern us) ∨
      Slot R V us S rest t q ∧ Uses R (.inert R (· ≠ a.pattern)) q := by
  cases hslot with
  | pending mem =>
    by_cases hta : t = a.pattern
    · exact .inl ⟨hta, hta ▸ rfl⟩
    · have hmem := (List.mem_cons.1 mem).resolve_left hta
      exact .inr ⟨.pending hmem, inert_applyVars hus (hrest t hmem) hta⟩
  | filled mem given => exact .inr ⟨.filled mem given, given.uses.inert_of_ground _⟩

variable (ha : a.Fills R V us)

include ha

/-- To put a function in for what is applied to variables gives what it gives
for them. -/
theorem Equation.Fills.given (hq : a.Brings R (R.applyVars a.pattern us) q) :
    Given R V us a.subject q := by
  obtain ⟨u', us', has, hq⟩ := hq.apply_self ha.isMarked ha.contractFrom
  have hargs : u' :: us' = us.toList.map Expr.var := by
    refine eq_of_forall₂ has fun e he e' hee' => ?_
    obtain ⟨u, hu, rfl⟩ := List.mem_map.1 he
    exact hee'.eq_of_inert (T := fun _ => False) ha.isMarked id (.var ⟨hus.plain u hu, nofun⟩)
  cases ha with
  | @function t b ws unknown distinct body apart =>
    rcases hq with ⟨-, hq⟩ | ⟨hplain, -⟩
    · obtain ⟨hlen, hq⟩ := of_contract_lambda hq
      have hlen : ws.length = us.length :=
        hlen.trans ((congrArg List.length hargs).trans (List.length_map _))
      rw [hargs] at hq
      have huses : Uses R (.ground R V) q := body.substEach (fun pair hpair => by
        obtain ⟨u, hu, heq⟩ := List.mem_map.1 (List.of_mem_zip hpair).2
        refine Vocabulary.substitutes_ground hus.fresh hus.fresh (fun z hz _ => hz) ?_
        rw [← heq]
        exact .var ⟨hus.plain u hu, nofun, fun z hz => Expr.var.inj hz ▸ hus.allowed u hu⟩) hq
      rw [substEach_eq_renameEach hus.distinct (fun u hu => (apart u hu).1) fun u hu => (apart u hu).2] at hq
      cases hq
      exact .function hlen distinct apart huses
    · cases hplain.symm.trans (beq_self_eq_true R.lambdaSym)

variable (hrest : ∀ t ∈ rest, t.isMarked = true)

include hrest

/-- The head of an application in a body is not the symbol for application. -/
theorem Slot.ne_applySym {f : Expr} (hslot : Slot R V us S (a.pattern :: rest) t q)
    (hf : q.subst a.pattern a.subject = .ok f) : f ≠ .sym R.applySym := by
  rcases hslot.cases_head hus hrest with ⟨rfl, rfl⟩ | ⟨hslot, hinert⟩
  · obtain ⟨g, as, -, -, rfl⟩ := of_subst_app hf
    nofun
  · rw [hinert.subst_of_inert ha.isMarked fun hne => hne rfl] at hf
    cases hf
    rintro rfl
    cases hinert with
    | sym atom => exact atom.2 rfl

variable (haS : a ∈ S)

include haS

/-- One temporary filled in makes the next step for each child of the
template. -/
theorem Slot.step (hslot : Slot R V us S (a.pattern :: rest) t q) (hv : a.Brings R q v) :
    Slot R V us S rest t v := by
  rcases hslot.cases_head hus hrest with ⟨rfl, rfl⟩ | ⟨hslot, hinert⟩
  · exact .filled haS (ha.given hus hv)
  · rw [hv.eq_of_inert ha.isMarked (fun hne => hne rfl) hinert]
    exact hslot

/-- The slots of a binding in a body stay apart from what is filled in. -/
theorem Slot.step_bind {f : Sym} {zs ys : Binders} {c : Expr} {t : Expr}
    (hslot : Slot R V us S (a.pattern :: rest) t q)
    (hslots : ∀ z ∈ zs.toList, (z.marked = false ∧ V z) ∧ z ∉ us.toList ∧ .var z ∉ q.names)
    (hclear : clearOf f a.pattern a.subject zs q = .ok (ys, c)) (hv : a.Brings R c v) :
    Slot R V us S rest t v ∧
      ∀ z ∈ ys.toList, (z.marked = false ∧ V z) ∧ z ∉ us.toList ∧ .var z ∉ v.names := by
  have hm := ha.isMarked
  rcases hslot.cases_head hus hrest with ⟨rfl, rfl⟩ | ⟨hslot, hinert⟩
  · have hkeep (z : Var) (hz : z ∈ zs.toList) (y : Var) :
        (R.applyVars a.pattern us).rename z y = R.applyVars a.pattern us :=
      rename_of_not_mem fun hmem =>
        (hslots z hz).2.1 (mem_vars_applyVars hm (hslots z hz).1.1 hmem)
    obtain ⟨hc, -, hys, hapart⟩ := of_clearOf (P := (· = R.applyVars a.pattern us))
      (fun z hz y e _ _ he => he ▸ hkeep z hz y) rfl hclear
    subst hc
    have hgiven := ha.given hus hv
    have hfree : occursFree a.pattern (R.applyVars a.pattern us) = true := by
      refine (occursFree_iff (isName_of_isMarked hm)).2 (mem_freeNames_app.2 (.inr ?_))
      exact ⟨a.pattern, List.mem_cons_self, mem_freeNames_of_mem_names (mem_names_self hm)⟩
    refine ⟨.filled haS hgiven, fun z hz => ?_⟩
    have hz' : (z.marked = false ∧ V z) ∧ z ∉ us.toList := by
      rcases hys z hz with hz | ⟨hplain, hx⟩
      · exact ⟨(hslots z hz).1, (hslots z hz).2.1⟩
      · exact ⟨⟨hplain, hus.fresh z hx⟩, fun hmem => hus.unnumbered z hmem hx⟩
    refine ⟨hz'.1, hz'.2, fun hmem => ?_⟩
    rcases hgiven.mem_names hmem with hmem | hmem
    · exact hz'.2 hmem
    · exact hapart hfree z hz hmem
  · have hnot : a.pattern ∉ q.freeNames := fun hmem => hinert.applied_of_inert _ hmem hm rfl
    rw [clearOf_of_not_free hnot (isName_of_isMarked hm)] at hclear
    cases hclear
    rw [hv.eq_of_inert hm (fun hne => hne rfl) hinert]
    exact ⟨hslot, hslots⟩

/-- **One temporary more is filled in.** -/
theorem Filling.step (he : Uses R (.ground R V) e) (h : Filling R V us S (a.pattern :: rest) e g ts b)
    (hq : a.Brings R b q) : Filling R V us S rest e g ts q := by
  have hm := ha.isMarked
  have hkeep {e q : Expr} (he : Uses R (.inert R (· ≠ a.pattern)) e) (hq : a.Brings R e q) : q = e :=
    hq.eq_of_inert hm (fun hne => hne rfl) he
  cases h with
  | constant atomic =>
    rw [hkeep (he.inert_of_ground _) hq]
    exact .constant atomic
  | projection param =>
    rw [hkeep (.var ⟨hus.plain _ (List.mem_of_getElem? param), nofun⟩) hq]
    exact .projection param
  | app shape children =>
    have hhead := (List.forall₂_cons.1 children).1
    obtain ⟨p', ps', rfl, hp, hps⟩ := hq.app fun f₁ hf₁ => hhead.ne_applySym hus ha hrest hf₁
    refine .app shape (forall₂_trans (fun t p q hslot hpq => ?_) children (.cons hp hps))
    exact hslot.step hus ha hrest haS hpq
  | bind shape body slots =>
    obtain ⟨zs', q₁, q', rfl, hclear, hq'⟩ := hq.bind hm fun z hz => (slots z hz).1.1
    obtain ⟨hbody, hslots⟩ := body.step_bind hus ha hrest haS slots hclear hq'
    exact .bind shape hbody hslots

end Fill

section Fold

open Equation

variable {R : Reserved} {V : Var → Prop} {us : Binders} {S S' as bs : List Equation} {a : Equation}
  {ts rest : List Expr} {e m b b' t : Expr} {g : Guess} {σ τ : EquationSet}

/-- At first every temporary is applied. -/
theorem Trial.filling (h : Trial R us e g b ts) (he : Uses R (.ground R V) e)
    (hts : ∀ t ∈ ts, t.isMarked = true) (hus : ∀ u ∈ us.toList, u ∉ e.vars) :
    Filling R V us S ts e g ts b := by
  cases h with
  | constant atomic => exact .constant atomic
  | projection param => exact .projection param
  | @app f h as hs shape length =>
    refine .app shape (.cons (.pending List.mem_cons_self) ?_)
    refine List.forall₂_map_right_iff.2 (List.forall₂_same.2 fun t ht => ?_)
    exact .pending (List.mem_cons_of_mem _ ht)
  | @bind f ys d h shape =>
    subst shape
    cases he with
    | bind _ slots _ =>
      refine .bind rfl (.pending List.mem_cons_self) fun z hz => ?_
      have hnot : z ∉ us.toList := fun hmem => hus z hmem (mem_vars_bind.2 (.inl hz))
      refine ⟨⟨(slots z hz).1, (slots z hz).2.2 z rfl⟩, hnot, fun hmem => hnot ?_⟩
      exact mem_vars_applyVars (hts h List.mem_cons_self) (slots z hz).1 (mem_vars_of_mem_names hmem)

/-- In the end the body is ground. -/
theorem Filling.uses (h : Filling R V us S [] e g ts b) (he : Uses R (.ground R V) e)
    (hus : Parameters V us) : Uses R (.ground R V) b := by
  have hslot {t q : Expr} (hq : Slot R V us S [] t q) : Uses R (.ground R V) q := by
    cases hq with
    | pending mem => cases mem
    | filled _ given => exact given.uses
  cases h with
  | constant => exact he
  | projection param =>
    have hx := List.mem_of_getElem? param
    exact .var ⟨hus.plain _ hx, nofun, fun y hy => Expr.var.inj hy ▸ hus.allowed _ hx⟩
  | app _ children =>
    obtain ⟨hp, hps⟩ := List.forall₂_cons.1 children
    refine .app (hslot hp) fun q hq => ?_
    obtain ⟨t, -, hq⟩ := exists_of_forall₂ hps q hq
    exact hslot hq
  | bind shape body slots =>
    subst shape
    cases he with
    | bind head _ _ =>
      refine .bind head (fun z hz => ⟨(slots z hz).1.1, nofun, fun y hy => ?_⟩) (hslot body)
      exact Expr.var.inj hy ▸ (slots z hz).1.2

/-- **What is left of two trials of one guess is the same only if all
temporaries had the same values.** -/
theorem Filling.similar (hus : us.toList.Nodup) (h : Filling R V us S [] e g ts b)
    (h' : Filling R V us S' [] e g ts b')
    (hb : (R.lambda us b).similar (R.lambda us b') = true) (ht : t ∈ ts) :
    ∃ c ∈ S, ∃ c' ∈ S', c.pattern = t ∧ c'.pattern = t ∧ c.subject.similar c'.subject = true := by
  have hslot {t q q' : Expr} (hq : Slot R V us S [] t q) (hq' : Slot R V us S' [] t q')
      (hqq' : alphaIn (us.toList.zip us.toList).reverse q q' = true) :
      ∃ c ∈ S, ∃ c' ∈ S', c.pattern = t ∧ c'.pattern = t ∧ c.subject.similar c'.subject = true := by
    cases hq with
    | pending mem => cases mem
    | @filled c q hc given =>
      generalize hct : c.pattern = t at hq'
      cases hq' with
      | pending mem => cases mem
      | @filled c' q' hc' given' =>
        exact ⟨c, hc, c', hc', hct, rfl, given.similar hus given' hqq'⟩
  rw [similar_iff_alphaEq, alphaEq, Reserved.lambda, Reserved.lambda, alphaIn, Bool.and_eq_true,
    List.append_nil] at hb
  replace hb := hb.2
  cases h with
  | constant | projection => cases ht
  | @app f h p as hs ps shape children =>
    cases h' with
    | @app f' h' p' as' hs' ps' shape' children' =>
      rw [alphaIn, Bool.and_eq_true, alphaInAll_iff] at hb
      have hleft := forall₂_trans (S := fun t q' => ∃ q, Slot R V us S [] t q ∧
        alphaIn (us.toList.zip us.toList).reverse q q' = true)
        (fun t q q' hq hqq' => ⟨q, hq, hqq'⟩) children (List.Forall₂.cons hb.1 hb.2)
      obtain ⟨q', -, ⟨q, hq, hqq'⟩, hq'⟩ := exists_of_forall₂_left
        (List.Forall₂.mp (fun _ _ => And.intro) hleft children') t ht
      exact hslot hq hq' hqq'
    | bind shape' =>
      cases shape.symm.trans shape'
  | @bind f ys zs d h q shape body slots =>
    cases h' with
    | app shape' => cases shape.symm.trans shape'
    | @bind f' ys' zs' d' h' q' shape' body' slots' =>
      cases shape.symm.trans shape'
      obtain rfl := List.mem_singleton.1 ht
      rw [alphaIn, Bool.and_eq_true] at hb
      have hleft : ∀ p ∈ (zs.toList.zip zs'.toList).reverse, .var p.1 ∉ q.names :=
        fun p hp => (slots _ (List.of_mem_zip (List.mem_reverse.1 hp)).1).2.2
      have hright : ∀ p ∈ (zs.toList.zip zs'.toList).reverse, .var p.2 ∉ q'.names :=
        fun p hp => (slots' _ (List.of_mem_zip (List.mem_reverse.1 hp)).2).2.2
      refine hslot body body' ?_
      rw [← List.nil_append (us.toList.zip us.toList).reverse]
      exact alphaIn_of_apart (fun p hp hmem => absurd hmem (hleft p hp))
        (fun p hp hmem => absurd hmem (hright p hp)) hb.2

/-- To take the assignments of one unknown out leaves those of all others. -/
theorem mem_filter_pattern {d : Equation} (ha : a.pattern.isMarked = true) :
    d ∈ bs.filter (fun d => !(d.pattern == a.pattern)) ↔ d ∈ bs ∧ d.pattern ≠ a.pattern := by
  rw [List.mem_filter, Bool.not_eq_true', Bool.eq_false_iff, Ne, Ne,
    beq_name_iff (isName_of_isMarked ha)]

/-- To substitute a temporary away changes the values that it is applied in. -/
theorem of_substituteAway {v : Expr} (heqs : σ.equations = as ++ ⟨m, v⟩ :: bs)
    (hdistinct : σ.assigned.Nodup) (hm : ∀ c ∈ σ.equations, c.pattern.isMarked = true) (ha : a ∈ bs)
    (hinert : ∀ d ∈ as ++ bs, Uses R (.inert R (· ≠ a.pattern)) d.subject)
    (h : Cleanup.substituteAway R σ a.pattern = .ok τ) :
    ∃ v', τ.equations = as ++ ⟨m, v'⟩ :: bs.filter (fun d => !(d.pattern == a.pattern)) ∧
      a.Brings R v v' := by
  have hma := hm a (heqs ▸ List.mem_append_right _ (List.mem_cons_of_mem _ ha))
  obtain ⟨cs, hcs, rfl⟩ := (Cleanup.substituteAway_iff heqs hdistinct hm ha).1 h
  obtain ⟨as', cs', rfl, has, hcs'⟩ := exists_append_of_forall₂ hcs
  have hkeep {ds ds' : List Equation} (hds : ∀ d ∈ ds, d ∈ as ++ bs)
      (hall : List.Forall₂ (fun c d => d.pattern = c.pattern ∧ a.apply R c.subject = .ok d.subject) ds ds') :
      ds' = ds := by
    refine eq_of_forall₂ hall fun d hd d' hdd' => ?_
    obtain ⟨hpattern, hsubject⟩ := hdd'
    have hsubject := (brings_of_apply hsubject).eq_of_inert hma (fun hne => hne rfl) (hinert d (hds d hd))
    cases d
    cases d'
    cases hsubject
    cases hpattern
    rfl
  obtain rfl := hkeep (fun d hd => List.mem_append_left _ hd) has
  cases hcs' with
  | @cons _ d _ ds hd hds =>
    obtain rfl := hkeep (fun d hd => List.mem_append_right _ ((List.mem_filter.1 hd).1)) hds
    obtain ⟨p, v'⟩ := d
    obtain ⟨rfl, hv⟩ := hd
    exact ⟨v', rfl, brings_of_apply hv⟩

/-- **A cleanup fills all temporaries in** and takes their assignments away. -/
theorem Filling.foldlM (hus : Parameters V us) (he : Uses R (.ground R V) e) (hnodup : rest.Nodup)
    (hrest : ∀ t ∈ rest, t.isMarked = true) (heqs : σ.equations = as ++ ⟨m, R.lambda us b⟩ :: bs)
    (hdistinct : σ.assigned.Nodup) (hm : ∀ c ∈ σ.equations, c.pattern.isMarked = true)
    (hbs : ∀ c ∈ bs, c ∈ S ∧ Uses R (.inert R fun _ => False) c.subject)
    (has : ∀ c ∈ as, ∀ t ∈ rest, Uses R (.inert R (· ≠ t)) c.subject)
    (hvalues : ∀ t ∈ rest, ∃ c ∈ bs, c.pattern = t ∧ c.Fills R V us)
    (h : Filling R V us S rest e g ts b)
    (hfold : rest.foldlM (Cleanup.substituteAway R) σ = .ok τ) :
    ∃ b' bs', τ.equations = as ++ ⟨m, R.lambda us b'⟩ :: bs' ∧ bs'.Sublist bs ∧
      (∀ d, d ∈ bs' ↔ d ∈ bs ∧ d.pattern ∉ rest) ∧ Filling R V us S [] e g ts b' := by
  induction rest generalizing σ b bs with
  | nil =>
    cases hfold
    exact ⟨b, bs, heqs, .refl _, fun d => ⟨fun hd => ⟨hd, List.not_mem_nil⟩, And.left⟩, h⟩
  | cons t rest ih =>
    obtain ⟨ht, hunique⟩ := List.nodup_cons.1 hnodup
    rw [List.forall_mem_cons] at hvalues hrest
    rw [List.foldlM_cons] at hfold
    obtain ⟨⟨a, ha, rfl, hfills⟩, hvalues⟩ := hvalues
    obtain ⟨σ₁, hσ₁, hfold⟩ := bind_eq_ok.1 hfold
    obtain ⟨v, heqs₁, hv⟩ := of_substituteAway heqs hdistinct hm ha (fun d hd => by
      rcases List.mem_append.1 hd with hd | hd
      · exact has d hd _ List.mem_cons_self
      · exact (hbs d hd).2.mono_inert fun _ => False.elim) hσ₁
    -- No parameter occurs in the value of a temporary, so the function does not make way.
    have happart (u : Var) (hu : u ∈ us.toList) : .var u ∉ a.subject.names := by
      cases hfills with
      | function _ _ _ apart =>
        exact fun hmem => (apart u hu).1 (mem_vars_of_mem_names (mem_names_bind.1 hmem).1)
    obtain ⟨ys, b₁, b', rfl, hclear, hb'⟩ := hv.bind hfills.isMarked hus.plain
    rw [clearOf_of_apart happart] at hclear
    cases hclear
    have hfilter (d : Equation) :
        d ∈ bs.filter (fun d => !(d.pattern == a.pattern)) ↔ d ∈ bs ∧ d.pattern ≠ a.pattern :=
      mem_filter_pattern hfills.isMarked
    have hpatterns : σ₁.assigned.Sublist σ.assigned := by
      rw [EquationSet.assigned, EquationSet.assigned, heqs₁, heqs, List.map_append, List.map_append]
      exact (List.Sublist.refl _).append ((List.filter_sublist.map _).cons_cons _)
    have hm₁ (c : Equation) (hc : c ∈ σ₁.equations) : c.pattern.isMarked = true := by
      obtain ⟨d, hd, hdc⟩ := List.mem_map.1 (hpatterns.subset (List.mem_map_of_mem hc))
      exact hdc ▸ hm d hd
    have hvalues₁ (t : Expr) (ht' : t ∈ rest) :
        ∃ c ∈ bs.filter (fun d => !(d.pattern == a.pattern)), c.pattern = t ∧ c.Fills R V us := by
      obtain ⟨c, hc, rfl, hcfills⟩ := hvalues t ht'
      exact ⟨c, (hfilter c).2 ⟨hc, fun heq => ht (heq ▸ ht')⟩, rfl, hcfills⟩
    obtain ⟨b', bs', hτ, hsub, hiff, hfilling⟩ := ih hunique hrest.2 heqs₁ (hdistinct.sublist hpatterns)
      hm₁ (fun c hc => hbs c ((hfilter c).1 hc).1)
      (fun c hc t ht => has c hc t (List.mem_cons_of_mem _ ht)) hvalues₁
      (h.step hus hfills hrest.2 (hbs a ha).1 he hb') hfold
    refine ⟨b', bs', hτ, hsub.trans List.filter_sublist, fun d => ?_, hfilling⟩
    rw [hiff, hfilter, and_assoc, List.mem_cons, not_or]

end Fold

end SecondOrder
