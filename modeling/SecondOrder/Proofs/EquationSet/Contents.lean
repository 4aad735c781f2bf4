/-
# What a set of equations holds

How sets of equations grow and shrink.  Adding equations leaves out those that
are the same as one already there (`EquationSet.Grows`), so a set never holds
an equation twice, and building it anew changes nothing then
(`equations_ofList`).  The counter for minted variables stays above every
`v<N>` that the set has seen.
-/

import SecondOrder.EquationSet.Basic
import SecondOrder.Proofs.Expr.Fresh
import SecondOrder.Proofs.Expr.Sorted

namespace SecondOrder

/-- The variable `v<n>`. -/
def Var.minted (n : Nat) (marked : Bool) : Var := ⟨numberedName 'v' n, marked⟩

/-- Minted variables are told apart by their numbers, whether they are marked
or not. -/
theorem Var.minted_injective {m n : Nat} {a b : Bool} (h : minted m a = minted n b) : m = n := by
  have hname : numberedName 'v' m = numberedName 'v' n := congrArg Var.name h
  have hm := numberAfter_numberedName 'v' m
  rw [hname, numberAfter_numberedName] at hm
  exact (Option.some.inj hm).symm

/-- An equation is the same as itself. -/
theorem Equation.beq_refl (c : Equation) : (c == c) = true := by
  have similar_refl (e : Expr) : e.similar e = true := by
    rw [Expr.similar, Expr.beq_eq_same, Expr.same_refl, Bool.true_or]
  change Equation.same c c = true
  rw [Equation.same, similar_refl, similar_refl, Bool.and_self]

/-- Both sides of the equation are below `n`. -/
def Equation.Below (n : Nat) (c : Equation) : Prop := c.pattern.Below n ∧ c.subject.Below n

/-- What is below a counter is below it when it has moved on. -/
theorem Equation.Below.mono {m n : Nat} {c : Equation} (hmn : m ≤ n) (h : c.Below m) : c.Below n :=
  ⟨h.1.mono hmn, h.2.mono hmn⟩

namespace EquationSet

variable {R : Reserved} {s : EquationSet} {c : Equation}

/-- The equation to treat next is one of the set. -/
theorem mem_of_best? (h : s.best? R = some c) : c ∈ s.equations := by
  obtain ⟨rule, -, h⟩ := List.exists_of_findSome?_eq_some h
  exact List.mem_of_find?_eq_some h

/-- An equation that clashes comes before all others. -/
theorem rule_of_best?_of_clash {d : Equation} (hd : d ∈ s.equations) (hr : d.rule R = .clash)
    (h : s.best? R = some c) : c.rule R = .clash := by
  rw [best?, Rule.priority, List.findSome?_cons] at h
  split at h
  · next hf =>
    obtain rfl := Option.some.inj h
    simpa using List.find?_some hf
  · next hf => exact absurd hr (by simpa using List.find?_eq_none.1 hf d hd)

/-- An equation to guess for comes after all others. -/
theorem rule_of_best?_of_guess (h : s.best? R = some c) (hr : c.rule R = .guess) :
    ∀ d ∈ s.equations, d.rule R = .guess := by
  have hfind {rule : Rule} (hc : s.find? (fun c => c.rule R = rule) = some c) : rule = .guess := by
    have hrule := List.find?_some hc
    exact (of_decide_eq_true hrule).symm.trans hr
  have hnone {rule : Rule} (hc : s.find? (fun c => c.rule R = rule) = none) {d : Equation}
      (hd : d ∈ s.equations) : d.rule R ≠ rule := by
    have hrule := List.find?_eq_none.1 hc d hd
    exact fun h => hrule (decide_eq_true h)
  simp only [best?, Rule.priority, List.findSome?_cons] at h
  intro d hd
  split at h
  · next hc => cases h; cases hfind hc
  · next hclash =>
    split at h
    · next hc => cases h; cases hfind hc
    · next htrivial =>
      split at h
      · next hc => cases h; cases hfind hc
      · next hassign =>
        split at h
        · next hc => cases h; cases hfind hc
        · next hdecompose =>
          cases hd' : d.rule R with
          | clash => exact absurd hd' (hnone hclash hd)
          | trivial => exact absurd hd' (hnone htrivial hd)
          | assign => exact absurd hd' (hnone hassign hd)
          | decompose => exact absurd hd' (hnone hdecompose hd)
          | guess => rfl

/-- The equation to guess for is the first one. -/
theorem eq_of_best?_of_guess {d : Equation} {ds : List Equation} (h : s.best? R = some c)
    (hr : c.rule R = .guess) (hs : s.equations = d :: ds) : c = d := by
  have hd : d.rule R = .guess :=
    rule_of_best?_of_guess h hr d (hs ▸ List.mem_cons_self)
  obtain ⟨rule, -, h⟩ := List.exists_of_findSome?_eq_some h
  have hrule := List.find?_some h
  obtain rfl : c.rule R = rule := of_decide_eq_true hrule
  rw [find?, hs, List.find?_cons, hr, hd] at h
  exact (Option.some.inj h).symm

/-- To record exclusions leaves the equations alone. -/
@[simp] theorem equations_recordAll (s : EquationSet) : s.recordAll.equations = s.equations := by
  suffices ∀ (cs : List Equation) (t : EquationSet),
      (cs.foldl (fun s c => s.record c.pattern) t).equations = t.equations from this _ s
  intro cs
  induction cs with
  | nil => intro t; rfl
  | cons c cs ih => intro t; exact ih _

/-- A set of one equation holds that equation. -/
theorem equations_ofList_singleton (c : Equation) : (ofList [c]).equations = [c] := by
  rw [ofList, add, equations_recordAll]
  rfl

/-- There is an equation to treat as long as there is any. -/
theorem equations_eq_nil_of_best? (h : s.best? R = none) : s.equations = [] := by
  cases hs : s.equations with
  | nil => rfl
  | cons d ds =>
    have hd : d.rule R ∈ Rule.priority := by cases d.rule R <;> decide
    have hf := List.find?_eq_none.1 (List.findSome?_eq_none_iff.1 h (d.rule R) hd) d
      (by rw [hs]; exact List.mem_cons_self ..)
    exact absurd (decide_eq_true rfl) hf

/-- No equation is the same as an earlier one. -/
def Distinct (cs : List Equation) : Prop := cs.Pairwise fun c d => (c == d) = false

/-- An equation is inserted only if no member is the same, so members stay
distinct. -/
theorem distinct_insert {s : EquationSet} (h : Distinct s.equations) (c : Equation) :
    Distinct (s.insert c).equations := by
  rw [insert]
  split
  · exact h
  · next hc =>
    refine List.pairwise_append.2 ⟨h, List.pairwise_singleton .., fun a ha b hb => ?_⟩
    obtain rfl := List.mem_singleton.1 hb
    rw [contains, Bool.not_eq_true, List.any_eq_false] at hc
    exact Bool.eq_false_iff.2 (hc a ha)

/-- Adding equations brings no repetition in. -/
theorem distinct_add (h : Distinct s.equations) (cs : List Equation) : Distinct (s.add cs).equations := by
  rw [add, equations_recordAll]
  induction cs generalizing s with
  | nil => exact h
  | cons c cs ih => exact ih (distinct_insert h c)

/-- A set holds no equation twice. -/
theorem distinct_ofList (cs : List Equation) : Distinct (ofList cs).equations :=
  distinct_add (s := {}) List.Pairwise.nil cs

/-- Equations that are distinct from the members and from each other are all
inserted, in order. -/
theorem equations_foldl_insert {s : EquationSet} {cs : List Equation}
    (h : Distinct (s.equations ++ cs)) : (cs.foldl insert s).equations = s.equations ++ cs := by
  induction cs generalizing s with
  | nil => exact (List.append_nil _).symm
  | cons c cs ih =>
    have hc : s.contains c = false := by
      rw [contains, List.any_eq_false]
      intro d hd
      exact Bool.eq_false_iff.1 ((List.pairwise_append.1 h).2.2 d hd c List.mem_cons_self)
    have hs : (s.insert c).equations = s.equations ++ [c] := by
      rw [insert, if_neg (Bool.eq_false_iff.1 hc)]
    rw [List.append_cons, ← hs] at h
    rw [List.foldl_cons, ih h, hs, List.append_assoc]
    rfl

/-- A set of distinct equations holds all of them, in order. -/
theorem equations_ofList {cs : List Equation} (h : Distinct cs) : (ofList cs).equations = cs := by
  rw [ofList, add, equations_recordAll, equations_foldl_insert (s := {}) h]
  rfl

/-- Building a set anew a second time changes nothing. -/
theorem copy_copy (s : EquationSet) : s.copy.copy = s.copy := by
  have h := equations_ofList (distinct_ofList s.equations)
  simp only [copy, h]

/-- `t` is `s` with the equations `cs` added as far as they are new. -/
structure Grows (s : EquationSet) (cs : List Equation) (t : EquationSet) : Prop where
  equations : ∃ ds, ds.Sublist cs ∧ t.equations = s.equations ++ ds ∧ ∀ d ∈ ds, d.Below t.nextFresh
  covers : ∀ c ∈ cs, ∃ d ∈ t.equations, (d == c) = true
  counter : s.nextFresh ≤ t.nextFresh

/-- The counter is moved past every `v<N>` in the equation. -/
theorem below_passVars (next : Nat) (c : Equation) : c.Below (passVars next c) := by
  have hlt {x : Var} (hx : x ∈ c.pattern.vars ++ c.subject.vars) : x.Below (passVars next c) :=
    fun k hk => Nat.lt_of_lt_of_le (lt_numberAbove hx hk) (Nat.le_max_right ..)
  exact ⟨fun x hx => hlt (List.mem_append_left _ hx), fun x hx => hlt (List.mem_append_right _ hx)⟩

/-- To insert an equation covers it, by itself or by a member that is the same,
and moves the counter forwards only. -/
theorem grows_insert (s : EquationSet) (c : Equation) : Grows s [c] (s.insert c) := by
  rw [insert]
  split
  · next hc =>
    refine ⟨⟨[], List.nil_sublist _, (List.append_nil _).symm, nofun⟩, fun d hd => ?_, Nat.le_refl _⟩
    obtain rfl := List.mem_singleton.1 hd
    exact List.any_eq_true.1 hc
  · refine ⟨⟨[c], List.Sublist.refl _, rfl, fun d hd => ?_⟩, fun d hd => ?_, Nat.le_max_left ..⟩
    · obtain rfl := List.mem_singleton.1 hd
      exact below_passVars s.nextFresh d
    · exact ⟨d, List.mem_append_right _ hd, d.beq_refl⟩

/-- What is covered stays covered when more is added. -/
theorem Grows.trans {s t u : EquationSet} {cs ds : List Equation} (h : Grows s cs t)
    (h' : Grows t ds u) : Grows s (cs ++ ds) u := by
  obtain ⟨as, has, ht, hbelow⟩ := h.equations
  obtain ⟨bs, hbs, hu, hbelow'⟩ := h'.equations
  refine ⟨⟨as ++ bs, has.append hbs, by rw [hu, ht, List.append_assoc], fun d hd => ?_⟩,
    fun c hc => ?_, Nat.le_trans h.counter h'.counter⟩
  · exact (List.mem_append.1 hd).elim (fun hd => (hbelow d hd).mono h'.counter) (hbelow' d)
  · rcases List.mem_append.1 hc with hc | hc
    · obtain ⟨d, hd, hdc⟩ := h.covers c hc
      exact ⟨d, by rw [hu]; exact List.mem_append_left _ hd, hdc⟩
    · exact h'.covers c hc

/-- To insert equations one after another covers all of them. -/
theorem grows_foldl (s : EquationSet) (cs : List Equation) : Grows s cs (cs.foldl insert s) := by
  induction cs generalizing s with
  | nil => exact ⟨⟨[], List.Sublist.refl _, (List.append_nil _).symm, nofun⟩, nofun, Nat.le_refl _⟩
  | cons c cs ih => exact (grows_insert s c).trans (ih _)

/-- To record exclusions mints nothing. -/
@[simp] theorem nextFresh_recordAll (s : EquationSet) : s.recordAll.nextFresh = s.nextFresh := by
  suffices ∀ (cs : List Equation) (t : EquationSet),
      (cs.foldl (fun s c => s.record c.pattern) t).nextFresh = t.nextFresh from this _ s
  intro cs
  induction cs with
  | nil => intro t; rfl
  | cons c cs ih => intro t; exact ih _

/-- **Adding equations makes a set grow by those that are new.** -/
theorem grows_add (s : EquationSet) (cs : List Equation) : Grows s cs (s.add cs) := by
  obtain ⟨equations, covers, counter⟩ := grows_foldl s cs
  refine ⟨?_, ?_, ?_⟩
  · rw [add, equations_recordAll, nextFresh_recordAll]
    exact equations
  · rw [add, equations_recordAll]
    exact covers
  · rw [add, nextFresh_recordAll]
    exact counter

/-- What joins a set is what was added. -/
theorem mem_add {cs : List Equation} {d : Equation} (h : d ∈ (s.add cs).equations) :
    d ∈ s.equations ∨ d ∈ cs ∧ d.Below (s.add cs).nextFresh := by
  obtain ⟨ds, hds, heqs, hbelow⟩ := (grows_add s cs).equations
  rw [heqs] at h
  exact (List.mem_append.1 h).imp_right fun hd => ⟨hds.subset hd, hbelow d hd⟩

/-- If the counter was past all variables of the set, it is past them after
equations are added. -/
theorem below_add {cs : List Equation} (h : ∀ c ∈ s.equations, c.Below s.nextFresh) :
    ∀ d ∈ (s.add cs).equations, d.Below (s.add cs).nextFresh := by
  intro d hd
  exact (mem_add hd).elim (fun hd => (h d hd).mono (grows_add s cs).counter) And.right

/-- What is left when equations are removed stands in the order it had. -/
theorem sublist_remove (s : EquationSet) (cs : List Equation) : (s.remove cs).equations.Sublist s.equations := by
  suffices ∀ es : List Equation, (cs.foldl (fun ds c => eraseFirst c ds) es).Sublist es from this _
  induction cs with
  | nil => exact fun _ => .refl _
  | cons c cs ih => exact fun es => (ih _).trans List.eraseP_sublist

/-- What is left when equations are removed was there before. -/
theorem mem_of_mem_remove {cs : List Equation} {d : Equation} (h : d ∈ (s.remove cs).equations) :
    d ∈ s.equations := (sublist_remove s cs).subset h

/-- What is erased is the same as the equation named, if anything is. -/
theorem mem_eraseFirst_or {cs : List Equation} {d : Equation} (hd : d ∈ cs) (c : Equation) :
    d ∈ eraseFirst c cs ∨ (d == c) = true := by
  cases hdc : d == c with
  | true => exact .inr rfl
  | false => exact .inl ((List.mem_eraseP_of_neg (by rw [hdc]; nofun)).2 hd)

/-- The exclusions of a pattern are about unknowns, and about variables bound
in it. -/
theorem mem_exclusionsOf {p : Expr} {x : Exclusion} :
    x ∈ exclusionsOf p ↔ ∃ f xs b, Expr.bind f xs b ∈ p.nodes ∧
      x.inner ∈ (Expr.bind f xs b).freeUnknowns ∧ x.outer ∈ xs.toList := by
  rw [exclusionsOf, List.mem_flatMap]
  constructor
  · rintro ⟨e, he, hx⟩
    cases e with
    | bind f xs b =>
      obtain ⟨u, hu, hx⟩ := List.mem_flatMap.1 hx
      obtain ⟨y, hy, rfl⟩ := List.mem_map.1 hx
      exact ⟨f, xs, b, he, hu, hy⟩
    | _ => cases hx
  · rintro ⟨f, xs, b, he, hu, hy⟩
    exact ⟨_, he, List.mem_flatMap.2 ⟨x.inner, hu, List.mem_map.2 ⟨x.outer, hy, rfl⟩⟩⟩

/-- Exclusions of an unknown are equal as nodes only if they are identical.
Only literals can be equal and spelled differently, and an unknown is none. -/
theorem beq_exclusion_iff {x y : Exclusion} (hx : x.inner.isMarked = true) :
    (x == y) = true ↔ x = y := by
  obtain ⟨u, v⟩ := x
  obtain ⟨u', v'⟩ := y
  have hbeq : ((⟨u, v⟩ : Exclusion) == ⟨u', v'⟩) = (u == u' && v == v') := rfl
  rw [hbeq, Bool.and_eq_true]
  constructor
  · rintro ⟨hu, hv⟩
    rw [(Expr.beq_name_iff (Expr.isName_of_isMarked hx)).1 (Expr.same_symm hu), eq_of_beq hv]
  · rintro ⟨⟩
    exact ⟨beq_self_eq_true _, beq_self_eq_true _⟩

/-- An exclusion is added if it is not there. -/
theorem addExclusion_eq (xs : List Exclusion) {x : Exclusion} (hx : x.inner.isMarked = true) :
    x ∈ xs ∧ addExclusion xs x = xs ∨ x ∉ xs ∧ addExclusion xs x = xs ++ [x] := by
  have hcontains : xs.contains x = true ↔ x ∈ xs := by
    rw [List.contains_iff_exists_mem_beq]
    constructor
    · rintro ⟨y, hy, hxy⟩
      exact (beq_exclusion_iff hx).1 hxy ▸ hy
    · exact fun h => ⟨x, h, (beq_exclusion_iff hx).2 rfl⟩
  rw [addExclusion]
  split
  · next h => exact .inl ⟨hcontains.1 h, rfl⟩
  · next h => exact .inr ⟨mt hcontains.2 h, rfl⟩

/-- **What is added to exclusions** comes after them, without repetition, and
is new. -/
theorem foldl_addExclusion (xs : List Exclusion) {ys : List Exclusion} (hys : ∀ y ∈ ys, y.inner.isMarked = true) :
    ∃ new, ys.foldl addExclusion xs = xs ++ new ∧ new.Nodup ∧ ∀ x, x ∈ new ↔ x ∈ ys ∧ x ∉ xs := by
  induction ys generalizing xs with
  | nil => exact ⟨[], (List.append_nil _).symm, .nil, by simp⟩
  | cons y ys ih =>
    rw [List.forall_mem_cons] at hys
    rw [List.foldl_cons]
    rcases addExclusion_eq xs hys.1 with ⟨hmem, heq⟩ | ⟨hmem, heq⟩
    · obtain ⟨new, hnew, hnodup, hiff⟩ := ih xs hys.2
      refine ⟨new, by rw [heq, hnew], hnodup, fun x => (hiff x).trans ?_⟩
      rw [List.mem_cons]
      exact ⟨fun h => ⟨.inr h.1, h.2⟩, fun h => ⟨h.1.resolve_left fun hx => h.2 (hx ▸ hmem), h.2⟩⟩
    · obtain ⟨new, hnew, hnodup, hiff⟩ := ih (xs ++ [y]) hys.2
      refine ⟨y :: new, ?_, List.nodup_cons.2 ⟨fun h => ?_, hnodup⟩, fun x => ?_⟩
      · rw [heq, hnew, List.append_assoc]
        rfl
      · exact ((hiff y).1 h).2 (List.mem_append_right _ List.mem_cons_self)
      · rw [List.mem_cons, List.mem_cons, hiff, List.mem_append, List.mem_singleton]
        by_cases hxy : x = y
        · simp [hxy, hmem]
        · simp [hxy]

/-- The exclusions of a pattern are recorded after those known before. -/
theorem exclusions_record (s : EquationSet) (p : Expr) :
    ∃ new, (s.record p).exclusions = s.exclusions ++ new ∧ new.Nodup ∧
      ∀ x, x ∈ new ↔ x ∈ exclusionsOf p ∧ x ∉ s.exclusions := by
  refine foldl_addExclusion s.exclusions fun y hy => ?_
  obtain ⟨f, xs, b, -, hu, -⟩ := mem_exclusionsOf.1 hy
  exact (List.mem_filter.1 hu).2

/-- **What is recorded for a pattern are its exclusions,** beside those known
before. -/
theorem mem_exclusions_record {p : Expr} {x : Exclusion} :
    x ∈ (s.record p).exclusions ↔ x ∈ s.exclusions ∨ x ∈ exclusionsOf p := by
  obtain ⟨new, hnew, -, hiff⟩ := exclusions_record s p
  rw [hnew, List.mem_append, hiff]
  by_cases hx : x ∈ s.exclusions <;> simp [hx]

/-- **What is recorded** are the exclusions of all patterns, and nothing
recorded before is lost. -/
theorem mem_exclusions_recordAll {x : Exclusion} :
    x ∈ s.recordAll.exclusions ↔
      x ∈ s.exclusions ∨ ∃ c ∈ s.equations, x ∈ exclusionsOf c.pattern := by
  suffices ∀ (cs : List Equation) (t : EquationSet),
      x ∈ (cs.foldl (fun s c => s.record c.pattern) t).exclusions ↔
        x ∈ t.exclusions ∨ ∃ c ∈ cs, x ∈ exclusionsOf c.pattern from this _ s
  intro cs
  induction cs with
  | nil => intro t; simp
  | cons c cs ih =>
    intro t
    rw [List.foldl_cons, ih, mem_exclusions_record, or_assoc]
    simp only [List.mem_cons, or_and_right, exists_or, exists_eq_left]

/-- To insert equations records nothing yet. -/
theorem exclusions_foldl_insert (s : EquationSet) (cs : List Equation) :
    (cs.foldl insert s).exclusions = s.exclusions := by
  induction cs generalizing s with
  | nil => rfl
  | cons c cs ih =>
    rw [List.foldl_cons, ih, insert]
    split <;> rfl

/-- **Adding equations records the exclusions of all patterns.** -/
theorem mem_exclusions_add {cs : List Equation} {x : Exclusion} :
    x ∈ (s.add cs).exclusions ↔
      x ∈ s.exclusions ∨ ∃ c ∈ (s.add cs).equations, x ∈ exclusionsOf c.pattern := by
  rw [add, mem_exclusions_recordAll, exclusions_foldl_insert, equations_recordAll]

/-- Building a set anew keeps of several equations that are the same the
first. -/
theorem grows_copy (s : EquationSet) : s.copy.equations.Sublist s.equations ∧
    ∀ c ∈ s.equations, ∃ d ∈ s.copy.equations, (d == c) = true := by
  have h := grows_add {} s.equations
  obtain ⟨ds, hds, heq, -⟩ := h.equations
  refine ⟨?_, h.covers⟩
  change (add {} s.equations).equations.Sublist _
  rw [heq]
  exact hds

/-- A set without repetition is left as it is when it is built anew. -/
theorem copy_of_distinct (h : Distinct s.equations) : s.copy = s := by
  rw [copy, equations_ofList h]

/-- A set is the same as itself. -/
theorem beq_refl (s : EquationSet) : (s == s) = true := by
  have hall : s.equations.all s.contains = true :=
    List.all_eq_true.2 fun c hc => List.any_eq_true.2 ⟨c, hc, c.beq_refl⟩
  exact Bool.and_eq_true .. ▸ ⟨hall, hall⟩

/-- A set that is built anew is the same. -/
theorem copy_beq (s : EquationSet) : (s.copy == s) = true := by
  obtain ⟨hsub, hcovers⟩ := grows_copy s
  change (s.copy.equations.all s.contains && s.equations.all s.copy.contains) = true
  rw [Bool.and_eq_true, List.all_eq_true, List.all_eq_true]
  exact ⟨fun c hc => List.any_eq_true.2 ⟨c, hsub.subset hc, c.beq_refl⟩,
    fun c hc => List.any_eq_true.2 (hcovers c hc)⟩

/-- The first equation stays the first. -/
theorem equations_copy_cons {ds : List Equation} (hs : s.equations = c :: ds) :
    ∃ es, s.copy.equations = c :: es := by
  obtain ⟨es, -, heqs, -⟩ := (grows_foldl (insert {} c) ds).equations
  refine ⟨es, ?_⟩
  change (ofList s.equations).equations = _
  rw [ofList, add, equations_recordAll, hs, List.foldl_cons, heqs]
  rfl

end EquationSet
end SecondOrder
