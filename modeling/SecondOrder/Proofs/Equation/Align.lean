/-
# What alignment does

Two bindings that are to be compared are first given the same bound variables,
minted by the set of equations.  To substitute a new variable for another is to
rename (`Expr.subst_eq_rename`), so alignment is never refused, and neither
side changes its meaning (`Equation.align_spec`).
-/

import SecondOrder.Search.Run
import SecondOrder.Proofs.EquationSet.Contents
import SecondOrder.Proofs.Expr.Subst

namespace SecondOrder

namespace Expr

variable {x y : Var} {e : Expr}

/-- Slots in which the variable does not occur are left alone. -/
theorem rename_eq_of_not_mem {xs : Binders} (hx : x ∉ xs.toList) : xs.rename x y = xs := by
  have hmap : (xs.rename x y).toList = xs.toList := by
    rw [toList_rename]
    refine (List.map_congr_left fun z hz => Var.renamed_of_ne ?_).trans (List.map_id _)
    rintro rfl
    exact hx hz
  obtain ⟨u, us⟩ := xs
  exact Option.some.inj ((Binders.ofList?_toList _).symm.trans (congrArg Binders.ofList? hmap))

/-- For the arguments of an application to substitute is to rename if it is so
for each of them. -/
theorem substAll_eq_renameAll {as : List Expr}
    (h : ∀ a ∈ as, a.subst (var x) (var y) = .ok (a.rename x y)) :
    substAll as (var x) (var y) = .ok (renameAll x y as) := by
  induction as with
  | nil => rw [substAll, renameAll]
  | cons a as ih =>
    rw [substAll, h a List.mem_cons_self, ih fun a ha => h a (List.mem_cons_of_mem _ ha), renameAll]
    rfl

/-- **To substitute a new variable for another is to rename.** -/
theorem subst_eq_rename (hy : y ∉ e.vars) : e.subst (var x) (var y) = .ok (e.rename x y) := by
  induction e with
  | var z =>
    have hbeq : (var z == var x) = true ↔ var z = var x := beq_name_iff (.inl ⟨x, rfl⟩)
    by_cases hz : z = x
    · rw [subst_atom rfl, rename, if_pos hz, if_pos (hbeq.2 (congrArg var hz))]
    · rw [subst_atom rfl, rename, if_neg hz, if_neg fun h => hz (Expr.var.inj (hbeq.1 h))]
  | app f as ihf ihas =>
    rw [mem_vars_app, not_or] at hy
    have hf : f.subst (var x) (var y) = .ok (f.rename x y) := ihf hy.1
    have has (a : Expr) (ha : a ∈ as) : a.subst (var x) (var y) = .ok (a.rename x y) :=
      ihas a ha fun h => hy.2 ⟨a, ha, h⟩
    rw [subst, hf, substAll_eq_renameAll has, rename]
    rfl
  | bind f xs b ih =>
    rw [mem_vars_bind, not_or] at hy
    have hb : b.subst (var x) (var y) = .ok (b.rename x y) := ih hy.2
    by_cases hx : x ∈ xs.toList
    · have hbound : xs.bound? (var x) = some x := Binders.bound?_eq_some.2 ⟨rfl, hx⟩
      rw [subst.eq_def]
      dsimp only
      rw [hbound]
      dsimp only
      rw [hb, rename]
      rfl
    · have hne : ∀ z ∈ xs.toList, var x ≠ var z := fun z hz h => hx (Expr.var.inj h ▸ hz)
      have hclear : clearOf f (var x) (var y) xs b = .ok (xs, b) := by
        have hfilter : (xs.toList.filter fun z => occursFree (var z) (var y)) = [] := by
          refine List.filter_eq_nil_iff.2 fun z hz h => hy.1 ?_
          rw [occursFree_var_iff] at h
          exact Expr.var.inj (List.mem_singleton.1 h) ▸ hz
        rw [clearOf, hfilter]
        split <;> rfl
      rw [subst_bind (bound?_eq_none hne) hclear, hb, rename, rename_eq_of_not_mem hx]
      rfl
  | _ =>
    rw [subst_atom rfl]
    rfl

/-- The exchange of a bound variable for a new one is a renaming, and it is
never refused. -/
theorem alphaConvert_eq_rename {f : Sym} {xs : Binders} {b : Expr} (hx : x ∈ xs.toList)
    (hy : y ∉ b.vars) :
    (bind f xs b).alphaConvert (var x) (var y) = .ok (bind f (xs.rename x y) (b.rename x y)) := by
  have hbound : xs.bound? (var x) = some x := Binders.bound?_eq_some.2 ⟨rfl, hx⟩
  rw [alphaConvert, hbound]
  dsimp only
  rw [subst_eq_rename hy]
  rfl

/-- Of distinct variables only the one at its place is renamed. -/
theorem map_renamed {xs : List Var} (h : xs.Nodup) {i : Nat} (hi : xs[i]? = some x) (y : Var) :
    xs.map (Var.renamed x y) = xs.set i y := by
  induction xs generalizing i with
  | nil => cases hi
  | cons z xs ih =>
    obtain ⟨hz, h⟩ := List.nodup_cons.1 h
    cases i with
    | zero =>
      obtain rfl : z = x := by simpa using hi
      refine congrArg₂ List.cons (Var.renamed_self ..) ?_
      refine (List.map_congr_left fun w hw => Var.renamed_of_ne ?_).trans (List.map_id _)
      rintro rfl
      exact hz hw
    | succ i =>
      have hi : xs[i]? = some x := by simpa using hi
      refine congrArg₂ List.cons (Var.renamed_of_ne ?_) (ih h hi)
      rintro rfl
      exact hz (List.mem_of_getElem? hi)

end Expr

namespace Equation

open SecondOrder.Expr

variable {R : Reserved} {arity : Arity} {c d e : Equation}

/-- The equation `d` is `c` with bound variables renamed to variables with
numbers from `n` on. -/
structure Aligned (R : Reserved) (arity : Arity) (n : Nat) (c d : Equation) : Prop where
  pattern : Sorted R arity d.pattern
  subject : Ground R d.subject
  denPattern : ∀ ρ, den R ρ d.pattern = den R ρ c.pattern
  denSubject : ∀ ρ, den R ρ d.subject = den R ρ c.subject
  unknowns : ∀ m, m.isMarked = true → (m ∈ d.pattern.names ↔ m ∈ c.pattern.names)
  vars : ∀ z ∈ d.subject.vars, z ∈ c.subject.vars ∨ ¬z.Below n
  slots : ∀ z, z ∈ d.pattern.slots ∨ z ∈ d.subject.slots →
    (z ∈ c.pattern.slots ∨ z ∈ c.subject.slots) ∨ ¬z.Below n

/-- Without any renaming the equation is aligned with itself. -/
theorem Aligned.refl {n : Nat} (hp : Sorted R arity c.pattern) (he : Ground R c.subject) :
    Aligned R arity n c c :=
  ⟨hp, he, fun _ => rfl, fun _ => rfl, fun _ _ => Iff.rfl, fun _ hz => .inl hz, fun _ hz => .inl hz⟩

/-- Renamings one after another are one, if the later ones take no smaller
numbers. -/
theorem Aligned.trans {n m : Nat} (hnm : n ≤ m) (h : Aligned R arity n c d)
    (h' : Aligned R arity m d e) : Aligned R arity n c e where
  pattern := h'.pattern
  subject := h'.subject
  denPattern ρ := (h'.denPattern ρ).trans (h.denPattern ρ)
  denSubject ρ := (h'.denSubject ρ).trans (h.denSubject ρ)
  unknowns m hm := (h'.unknowns m hm).trans (h.unknowns m hm)
  vars z hz := (h'.vars z hz).elim (h.vars z) fun h => .inr fun hb => h (hb.mono hnm)
  slots z hz := (h'.slots z hz).elim (h.slots z) fun h => .inr fun hb => h (hb.mono hnm)

/-- Two bindings with the same head and the same number of variables, the first
a sorted pattern and the second without unknowns, both below `n`. -/
structure Binding (R : Reserved) (arity : Arity) (n k : Nat) (f : Sym) (c : Equation)
    (xs ys : Binders) (b d : Expr) : Prop where
  shape : c = ⟨.bind f xs b, .bind f ys d⟩
  pattern : Sorted R arity (.bind f xs b)
  subject : Ground R (.bind f ys d)
  below : c.Below n
  lengths : xs.length = k ∧ ys.length = k

/-- Equal places of two lists stay equal when the same is put at the next
place. -/
theorem getElem?_set_congr {xs ys : List Var} {i : Nat} (x : Var) (hlen : xs.length = ys.length)
    (h : ∀ j < i, xs[j]? = ys[j]?) : ∀ j < i + 1, (xs.set i x)[j]? = (ys.set i x)[j]? := by
  intro j hj
  rw [List.getElem?_set, List.getElem?_set, hlen]
  split
  · rfl
  · exact h j (by omega)

/-- To rename a variable to the one with number `n` keeps an expression below
`n + 1`. -/
theorem below_rename {n : Nat} {b : Expr} {w : Var} (h : b.Below n) :
    (b.rename w ⟨numberedName 'v' n, false⟩).Below (n + 1) := by
  intro z hz
  rcases mem_vars_of_rename hz with rfl | ⟨hz, -⟩
  · exact below_numberedName.2 (Nat.lt_succ_self n)
  · exact (h z hz).mono (Nat.le_succ n)

/-- **Renaming a slot on both sides.** -/
theorem renameSlot_spec {n k i : Nat} {f : Sym} {xs ys : Binders} {b d : Expr}
    (hc : Binding R arity n k f c xs ys b d) (hi : i < k)
    (hsame : ∀ j < i, xs.toList[j]? = ys.toList[j]?) :
    ∃ c' xs' ys' b' d', c.renameSlot i ⟨numberedName 'v' n, false⟩ = .ok c' ∧
      Binding R arity (n + 1) k f c' xs' ys' b' d' ∧ Aligned R arity n c c' ∧
      ∀ j < i + 1, xs'.toList[j]? = ys'.toList[j]? := by
  obtain ⟨rfl, hp, he, ⟨hpn, hen⟩, hxs, hys⟩ := hc
  let x : Var := ⟨numberedName 'v' n, false⟩
  have hx {e : Expr} (h : e.Below n) : x ∉ e.vars := fun hx => not_below_numberedName n (h x hx)
  obtain ⟨u, hu⟩ : ∃ u, xs.toList[i]? = some u :=
    ⟨_, List.getElem?_eq_getElem (by rw [Binders.length_toList, hxs]; exact hi)⟩
  obtain ⟨v, hv⟩ : ∃ v, ys.toList[i]? = some v :=
    ⟨_, List.getElem?_eq_getElem (by rw [Binders.length_toList, hys]; exact hi)⟩
  have hus := List.mem_of_getElem? hu
  have hvs := List.mem_of_getElem? hv
  obtain ⟨-, hnodup, -⟩ := sorted_bind.1 hp
  obtain ⟨-, hnodup', -⟩ := sorted_bind.1 (he arity)
  have hpat := Rebound.rename hp hus (y := x) rfl (hx hpn)
  have hsub (arity : Arity) := Rebound.rename (he arity) hvs (y := x) rfl (hx hen)
  have hslot {e : Expr} {w z : Var} (hz : z ∈ (e.rename w x).slots) : z ∈ e.slots ∨ ¬z.Below n := by
    rcases mem_slots_of_rename hz with rfl | ⟨hz, -⟩
    · exact .inr (not_below_numberedName n)
    · exact .inl hz
  refine ⟨⟨(Expr.bind f xs b).rename u x, (Expr.bind f ys d).rename v x⟩,
    _, _, _, _, ?_, ⟨rfl, hpat.sorted, fun arity => (hsub arity).sorted, ⟨below_rename hpn, below_rename hen⟩,
      (Binders.length_rename ..).trans hxs, (Binders.length_rename ..).trans hys⟩,
    ⟨hpat.sorted, fun arity => (hsub arity).sorted, hpat.den_bind, (hsub fun _ => none).den_bind,
      fun m hm => ?_, fun z hz => ?_, fun z hz => ?_⟩, ?_⟩
  · rw [renameSlot]
    dsimp only
    rw [hu, hv]
    dsimp only
    rw [alphaConvert_eq_rename hvs fun h => hx hen (mem_vars_bind.2 (.inr h)),
      alphaConvert_eq_rename hus fun h => hx hpn (mem_vars_bind.2 (.inr h))]
    rfl
  · exact (mem_names_bind_iff (sorted_bind.1 hpat.sorted).1 hm).trans
      ((hpat.unknowns m hm).trans (mem_names_bind_iff (sorted_bind.1 hp).1 hm).symm)
  · rcases mem_vars_of_rename hz with rfl | ⟨hz, -⟩
    · exact .inr (not_below_numberedName n)
    · exact .inl hz
  · rcases hz with hz | hz
    · exact (hslot hz).imp_left .inl
    · exact (hslot hz).imp_left .inr
  · rw [toList_rename, toList_rename, map_renamed hnodup hu, map_renamed hnodup' hv]
    exact getElem?_set_congr x (hxs.trans hys.symm) hsame

/-- Slots are determined by their variables, in order. -/
theorem binders_ext {xs ys : Binders} (h : xs.toList = ys.toList) : xs = ys :=
  Option.some.inj ((Binders.ofList?_toList xs).symm.trans
    ((congrArg Binders.ofList? h).trans (Binders.ofList?_toList ys)))

/-- **Renaming the slots from place `i` on** makes the variables of both sides
equal, if those before are. -/
theorem renameSlots_spec {s : EquationSet} {k i m : Nat} {f : Sym} {xs ys : Binders} {b d : Expr}
    (hc : Binding R arity s.nextFresh k f c xs ys b d) (him : i + m = k)
    (hsame : ∀ j < i, xs.toList[j]? = ys.toList[j]?) :
    ∃ P c' zs b' d', renameSlots s c (List.range' i m) = ⟨P, .ok c'⟩ ∧
      Binding R arity P.nextFresh k f c' zs zs b' d' ∧ Aligned R arity s.nextFresh c c' ∧
      s.nextFresh ≤ P.nextFresh ∧ P.equations = s.equations ∧ P.exclusions = s.exclusions := by
  induction m generalizing s c i xs ys b d with
  | zero =>
    have heq : xs = ys := by
      refine binders_ext (List.ext_getElem? fun j => ?_)
      by_cases hj : j < i
      · exact hsame j hj
      · have hxs : xs.toList.length ≤ j := by rw [Binders.length_toList, hc.lengths.1]; omega
        have hys : ys.toList.length ≤ j := by rw [Binders.length_toList, hc.lengths.2]; omega
        rw [List.getElem?_eq_none hxs, List.getElem?_eq_none hys]
    subst heq
    have haligned : Aligned R arity s.nextFresh c c := by
      obtain ⟨rfl, hp, he, -, -⟩ := hc
      exact .refl hp he
    exact ⟨s, c, xs, b, d, rfl, hc, haligned, Nat.le_refl _, rfl, rfl⟩
  | succ m ih =>
    obtain ⟨c₁, xs₁, ys₁, b₁, d₁, hslot, hc₁, ha₁, hsame₁⟩ := renameSlot_spec hc (by omega) hsame
    obtain ⟨P, c', zs, b', d', hrest, hc', ha', hcounter, heqs, hexcl⟩ :=
      ih (s := s.mint.2) (i := i + 1) hc₁ (by omega) hsame₁
    refine ⟨P, c', zs, b', d', ?_, hc', ha₁.trans (Nat.le_succ _) ha', ?_, heqs, hexcl⟩
    · have hmint : s.mint.1 = ⟨numberedName 'v' s.nextFresh, false⟩ := rfl
      rw [List.range'_succ, renameSlots, hmint, hslot]
      exact hrest
    · exact Nat.le_trans (Nat.le_succ _) hcounter

/-- Every slot of two sorted bindings is to be renamed. -/
theorem ordinarySlots_eq {n k : Nat} {f : Sym} {xs ys : Binders} {b d : Expr}
    (hc : Binding R arity n k f c xs ys b d) : c.ordinarySlots = List.range' 0 k := by
  obtain ⟨rfl, hp, -, -, hlen, -⟩ := hc
  obtain ⟨hplain, -⟩ := sorted_bind.1 hp
  have hsnd : xs.toList.zipIdx.filterMap (fun xi => if xi.1.marked then none else some xi.2) =
      xs.toList.zipIdx.map Prod.snd := by
    rw [← List.filterMap_eq_map]
    refine List.filterMap_congr fun pair hx => ?_
    obtain ⟨x, i⟩ := pair
    dsimp only
    rw [if_neg (Bool.eq_false_iff.1 (hplain x (List.fst_mem_of_mem_zipIdx hx)))]
    rfl
  exact hsnd.trans ((List.zipIdx_map_snd ..).trans (by rw [Binders.length_toList, hlen]))

/-- **Alignment changes the names of bound variables only.**  Two applications
stay as they are.  Two bindings get the same variables, and no unknown inside
the pattern may take a value that contains one of them. -/
theorem align_spec {s : EquationSet} (hp : Sorted R arity c.pattern) (he : Ground R c.subject)
    (hbelow : c.Below s.nextFresh) (hdec : c.decomposes R = true) :
    ∃ P d, c.align s = ⟨P, .ok d⟩ ∧ Aligned R arity s.nextFresh c d ∧ d.Below P.nextFresh ∧
      s.nextFresh ≤ P.nextFresh ∧ P.equations = s.equations ∧
      ((∃ f as g bs, d = ⟨.app f as, .app g bs⟩ ∧ d = c ∧ P = s) ∨
        ∃ f zs b e, d = ⟨.bind f zs b, .bind f zs e⟩ ∧
          ∀ x, x ∈ P.exclusions ↔ x ∈ s.exclusions ∨ x ∈ EquationSet.exclusionsOf d.pattern) := by
  obtain ⟨p, e⟩ := c
  cases p with
  | app f as =>
    cases e with
    | app g bs =>
      exact ⟨s, _, rfl, .refl hp he, hbelow, Nat.le_refl _, rfl, .inl ⟨f, as, g, bs, rfl, rfl, rfl⟩⟩
    | _ => cases hdec
  | bind f xs b =>
    cases e with
    | bind g ys d =>
      rw [decomposes, Bool.and_eq_true] at hdec
      obtain rfl := eq_of_beq hdec.1
      have hlen : xs.length = ys.length := eq_of_beq hdec.2
      have hc : Binding R arity s.nextFresh xs.length f ⟨.bind f xs b, .bind f ys d⟩ xs ys b d :=
        ⟨rfl, hp, he, hbelow, rfl, hlen.symm⟩
      obtain ⟨P, c', zs, b', d', hrename, hc', ha, hcounter, heqs, hexcl⟩ :=
        renameSlots_spec hc (Nat.zero_add _) (fun j hj => absurd hj (Nat.not_lt_zero j))
      refine ⟨P.record c'.pattern, c', ?_, ha, hc'.below, hcounter, heqs,
        .inr ⟨f, zs, b', d', hc'.shape, fun x => ?_⟩⟩
      · rw [align, ordinarySlots_eq hc, Binders.length, List.range'_succ]
        dsimp only
        rw [← List.range'_succ, ← Binders.length, hrename]
      · rw [EquationSet.mem_exclusions_record, hexcl]
    | _ => cases hdec
  | _ => cases hdec

section Unsorted

variable {i : Nat} {x : Var} {s Q : EquationSet}

/-- To rename a slot is to rename it on both sides of an equation between
bindings. -/
theorem of_renameSlot (h : c.renameSlot i x = .ok d) :
    d = c ∨ ∃ u v, c.pattern.alphaConvert (.var u) (.var x) = .ok d.pattern ∧
      c.subject.alphaConvert (.var v) (.var x) = .ok d.subject := by
  rw [renameSlot] at h
  split at h
  · split at h
    · obtain ⟨e, he, h⟩ := bind_eq_ok.1 h
      obtain ⟨p, hp, h⟩ := bind_eq_ok.1 h
      cases h
      exact .inr ⟨_, _, hp, he⟩
    · cases h
  · cases h
    exact .inl rfl

/-- **Alignment keeps what the renaming of one slot to a new variable
keeps.** -/
theorem of_align {P : Nat → Equation → Prop}
    (hP : ∀ n i c d, P n c → c.renameSlot i (Var.minted n false) = .ok d → P (n + 1) d)
    (hc : P s.nextFresh c) (h : c.align s = ⟨Q, .ok d⟩) : P Q.nextFresh d := by
  have hslots (places : List Nat) (s : EquationSet) (c : Equation) {Q : EquationSet} {d : Equation}
      (hc : P s.nextFresh c) (h : renameSlots s c places = ⟨Q, .ok d⟩) : P Q.nextFresh d := by
    induction places generalizing s c with
    | nil =>
      cases h
      exact hc
    | cons i places ih =>
      rw [renameSlots] at h
      split at h
      · cases h
      · next e he => exact ih s.mint.2 e (hP _ i c e hc he) h
  rw [align] at h
  split at h
  · cases h
    exact hc
  · split at h
    · next hr =>
      cases h
      have hd := hslots _ s c hc hr
      exact hd
    · cases h

/-- Alignment may mint variables. -/
theorem nextFresh_align (s : EquationSet) (c : Equation) :
    s.nextFresh ≤ (c.align s).state.nextFresh := by
  have hslots (places : List Nat) (s : EquationSet) (c : Equation) :
      s.nextFresh ≤ (renameSlots s c places).state.nextFresh := by
    induction places generalizing s c with
    | nil => exact Nat.le_refl _
    | cons i places ih =>
      rw [renameSlots]
      split
      · exact Nat.le_succ _
      · exact Nat.le_trans (Nat.le_succ _) (ih s.mint.2 _)
  rw [align]
  split
  · exact Nat.le_refl _
  · have h := hslots c.ordinarySlots s c
    split
    · next hr =>
      rw [hr] at h
      exact h
    · next hr =>
      rw [hr] at h
      exact h

/-- The counter does not go back, also where alignment is refused. -/
theorem nextFresh_of_align {r : Except Fault Equation} (h : c.align s = ⟨Q, r⟩) :
    s.nextFresh ≤ Q.nextFresh := by
  have hn := nextFresh_align s c
  rwa [h] at hn

/-- To rename slots moves the counter of the set and nothing else. -/
theorem equations_renameSlots (s : EquationSet) (c : Equation) (places : List Nat) :
    (renameSlots s c places).state.equations = s.equations := by
  induction places generalizing s c with
  | nil => rfl
  | cons i places ih =>
    rw [renameSlots]
    split
    · rfl
    · exact ih _ _

/-- Aligning an equation touches none of the pending ones. -/
theorem equations_align (s : EquationSet) (c : Equation) :
    (c.align s).state.equations = s.equations := by
  rw [align]
  split
  · rfl
  · have h := equations_renameSlots s c c.ordinarySlots
    split
    · next hr => rw [hr] at h; exact h
    · next hr => rw [hr] at h; exact h

/-- The same read from the result, whether alignment has been refused or
not. -/
theorem equations_of_align {r : Except Fault Equation} (h : c.align s = ⟨Q, r⟩) :
    Q.equations = s.equations := by
  have hQ := equations_align s c
  rwa [h] at hQ

end Unsorted

end Equation
end SecondOrder
