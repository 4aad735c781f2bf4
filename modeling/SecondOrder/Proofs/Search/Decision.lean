/-
# Searches without unknowns

Where no unknown is left in the patterns a search only compares
(`Search.Comparing`).  No step assigns, no equation is one to branch on, and
the run ends with the empty solution or with none.

What a run keeps of equations that are solved (`Guided.reaches`), and what it
says of those it started with once nothing is pending (`Open.reaches`), tell
which of the two it is: the empty solution is left exactly if the sides of
every equation are similar (`Comparing.run`).  So the search for concrete
expressions decides what the comparison by renaming decides
(`solved_concrete`).
-/

import SecondOrder.Proofs.Equation.Vocabulary
import SecondOrder.Proofs.Expr.Comparison
import SecondOrder.Proofs.Search.Exactness
import SecondOrder.Proofs.Search.Termination

namespace SecondOrder

namespace Expr

variable {R : Reserved} {e : Expr}

/-- No binding lists a variable twice.  Nested bindings may repeat
variables. -/
def DistinctSlots (e : Expr) : Prop := ∀ f xs b, bind f xs b ∈ e.nodes → xs.toList.Nodup

/-- An expression is ground if none of its nodes is an unknown or the symbol
for application, and none lists a variable twice. -/
theorem ground_of_nodes (h : ∀ n ∈ e.nodes, n.isMarked = false ∧ n ≠ .sym R.applySym ∧
    ∀ f xs b, n = bind f xs b → xs.toList.Nodup) : Ground R e := by
  intro arity
  induction e with
  | var x =>
    obtain ⟨hx, -, -⟩ := h (.var x) List.mem_cons_self
    exact .var fun hm => absurd (hx.symm.trans hm) Bool.false_ne_true
  | sym f =>
    obtain ⟨hf, hne, -⟩ := h (.sym f) List.mem_cons_self
    exact .sym (fun heq => hne (congrArg _ heq)) fun hm => absurd (hf.symm.trans hm) Bool.false_ne_true
  | int | float | str => constructor
  | app f as ihf ihas =>
    refine .app (ihf fun n hn => h n (mem_nodes_of_head hn)) fun a ha => ?_
    exact ihas a ha fun n hn => h n (mem_nodes_of_arg ha hn)
  | bind f xs b ih =>
    refine .bind (fun x hx => ?_) ((h _ (mem_nodes_bind.2 (.inl rfl))).2.2 f xs b rfl) ?_
    · exact (h (.var x) (mem_nodes_bind.2 (.inr (.inr (.inl ⟨x, hx, rfl⟩))))).1
    · exact ih fun n hn => h n (mem_nodes_of_body hn)

/-- **Without unknowns and repetitions every expression is ground.** -/
theorem Concrete.ground (h : e.Concrete R) (hdistinct : e.DistinctSlots) : Ground R e :=
  ground_of_nodes fun n hn => ⟨(h n hn).1, (h n hn).2.2, fun f xs b heq => hdistinct f xs b (heq ▸ hn)⟩

end Expr

namespace Equation

open SecondOrder.Expr

variable {R : Reserved} {c : Equation}

/-- A ground pattern applies no unknown. -/
theorem isFlexible_of_ground (h : Ground R c.pattern) : c.isFlexible R = false := by
  rw [isFlexible]
  cases hp : c.pattern with
  | app f as =>
    rw [hp] at h
    obtain ⟨hf, has⟩ := ground_of_app h
    rw [isApply_of_ne (hf fun _ => none).ne_applySym]
    cases as with
    | nil => rfl
    | cons a as => exact not_isMarked_of_ground (has a List.mem_cons_self)
  | _ => rfl

/-- To solve an equation of ground sides is to be similar, whatever a guide
tells. -/
theorem solvedBy_iff_similar {Θ : Expr → Term} (hp : Ground R c.pattern) (he : Ground R c.subject) :
    c.SolvedBy R Θ ↔ c.pattern.similar c.subject = true := by
  rw [similar_iff (hp fun _ => none) (he fun _ => none)]
  exact forall_congr' fun ρ => by rw [den_guide hp]

end Equation

namespace Search

open SecondOrder.Expr Equation

variable {R : Reserved} {s t : Search} {σ : EquationSet} {c : Equation} {arity : Arity} {n : Nat}

/-- The search only compares: its patterns are ground, and it has assigned
nothing. -/
def Comparing (R : Reserved) (s : Search) : Prop := ∀ arity, Open R arity s {}

namespace Comparing

/-- What is compared is ground on both sides. -/
theorem ground (h : s.Comparing R) (hc : c ∈ s.pending.equations) :
    Ground R c.pattern ∧ Ground R c.subject :=
  ⟨fun arity => ((h arity).patterns c hc).1, ((h fun _ => none).patterns c hc).2⟩

/-- The only solution under construction is the empty one. -/
theorem solutions (h : s.Comparing R) : s.solutions = [{}] := (h fun _ => none).solutions

/-- What is under construction is empty. -/
theorem eq_empty (h : s.Comparing R) (ho : Open R arity s σ) : σ = {} :=
  (List.cons.inj (ho.solutions.symm.trans h.solutions)).1

/-- Nothing is assigned, and nothing is guessed. -/
theorem rule_ne (h : s.Comparing R) (hc : c ∈ s.pending.equations) :
    c.rule R ≠ .assign ∧ c.rule R ≠ .guess := by
  have hp := (h.ground hc).1
  constructor
  · intro hr
    exact Bool.false_ne_true ((not_isMarked_of_ground hp).symm.trans (isMarked_of_assign hr))
  · intro hr
    exact Bool.false_ne_true ((isFlexible_of_ground hp).symm.trans (of_guess hr).2.2)

/-- **A step goes on comparing.** -/
theorem advance (h : s.Comparing R) (hc : c ∈ s.pending.equations) (ha : Advance R s c t) :
    t.Comparing R := by
  have hsolutions : t.solutions = [{}] := by
    cases ha with
    | assign hr => exact absurd hr (h.rule_ne hc).1
    | _ => exact h.solutions
  intro arity
  obtain ⟨σ, -, ho, -⟩ := (h arity).advance hc ha
  obtain rfl : σ = {} := (List.cons.inj (ho.solutions.symm.trans hsolutions)).1
  exact ho

/-- **So does a run.** -/
theorem reaches (h : s.Comparing R) (hr : Reaches R s t) : t.Comparing R :=
  hr.invariant h fun _ _ _ hu hb ha => hu.advance (EquationSet.mem_of_best? hb) ha

/-- If the sides of all equations are similar, any guide solves them. -/
theorem guided (h : s.Comparing R)
    (hsimilar : ∀ c ∈ s.pending.equations, c.pattern.similar c.subject = true) :
    Guided R (fun _ => none) (fun _ => False) (fun _ => .bound 0) s {} where
  admits := ⟨nofun, fun _ _ _ hz => nomatch List.mem_singleton.1 hz⟩
  solved c hc := (solvedBy_iff_similar (h.ground hc).1 (h.ground hc).2).2 (hsimilar c hc)
  made := nofun
  spares := ⟨fun _ _ => id, fun _ _ => id, fun _ _ => False.elim⟩

/-- If nothing is pending in the end, the sides of all equations were
similar. -/
theorem similar_of_reaches (h : s.Comparing R) (hr : Reaches R s t) (hnone : t.pending.equations = [])
    (hc : c ∈ s.pending.equations) : c.pattern.similar c.subject = true := by
  obtain ⟨σ, new, ho, heqs, hback⟩ := (h fun _ => none).reaches hr
  obtain rfl := (h.reaches hr).eq_empty ho
  obtain rfl : new = [] := heqs.symm
  have hsolved : c.Solved R [] := (hback [] (finishes_nil hnone)).solved c hc
  exact (similar_iff ((h.ground hc).1 fun _ => none) ((h.ground hc).2 fun _ => none)).2 hsolved

/-- **A comparison ends without a branch, and decides:** the empty solution is
left if the two sides of every equation are similar, and none otherwise. -/
theorem run {last : Attempt Search (Option Equation)} (h : s.begun.Comparing R)
    (hrun : s.run R n = some last) : ∃ t, last = ⟨t, .ok none⟩ ∧
      ((∀ c ∈ s.begun.pending.equations, c.pattern.similar c.subject = true) → t.solutions = [{}]) ∧
      ((∃ c ∈ s.begun.pending.equations, c.pattern.similar c.subject = false) → t.solutions = []) := by
  obtain ⟨u, hreach, hstop⟩ := reaches_of_steps hrun
  have hu := h.reaches hreach
  -- a search that is refuted was not guided
  have hguided (hsimilar : ∀ c ∈ s.begun.pending.equations, c.pattern.similar c.subject = true) :
      last = ⟨{ u with solvable := some true }, .ok none⟩ := by
    obtain ⟨σ, -, ho, -, hg, -⟩ := (h.guided hsimilar).reaches (h fun _ => none) hreach
    obtain hlast | ⟨c, hc, hr, -⟩ := hg.ended ho hstop
    · exact hlast
    · exact absurd hr (hu.rule_ne hc).2
  cases (hu fun _ => none).ended hstop with
  | complete hnone =>
    refine ⟨_, rfl, fun _ => hu.solutions, ?_⟩
    rintro ⟨c, hc, hfalse⟩
    exact absurd (hfalse.symm.trans (h.similar_of_reaches hreach hnone hc)) Bool.false_ne_true
  | refuted hnil =>
    refine ⟨_, rfl, fun hsimilar => ?_, fun _ => hnil⟩
    obtain ⟨rfl⟩ := Attempt.mk.inj (hguided hsimilar)
    exact hu.solutions
  | branch hc hr => exact absurd hr (hu.rule_ne hc).2

/-- **It comes to an end,** and what it finds is what the search returns. -/
theorem solve (h : s.begun.Comparing R) : ∃ n t, s.run R n = some ⟨t, .ok none⟩ ∧
    s.solve R (n + 1) = some ⟨t, .ok ()⟩ := by
  have ho := h fun _ => none
  obtain ⟨n, r, hr⟩ := ho.returns
  cases n with
  | zero => cases hr
  | succ n =>
    rw [Search.solve, if_neg ho.length_le] at hr
    cases hrun : s.run R n with
    | none => rw [hrun] at hr; cases hr
    | some last =>
      obtain ⟨t, rfl, -⟩ := h.run hrun
      refine ⟨n, t, hrun, ?_⟩
      rw [Search.solve, if_neg ho.length_le, hrun]

end Comparing

/-- **The search for two concrete expressions compares them.**  Take
expressions without unknowns and reserved symbols in which no binding lists a
variable twice, and any limit.  The run of the search does not branch; the
search returns the empty solution and no other, if the two are equal or
alpha-equivalent, and no solution otherwise. -/
theorem solved_concrete {p e : Expr} (hp : p.Concrete R ∧ p.DistinctSlots)
    (he : e.Concrete R ∧ e.DistinctSlots) (limit : Option Int) :
    ∃ s n t, ofPairs R limit [(.expr p, .expr e)] = .ok s ∧ s.run R n = some ⟨t, .ok none⟩ ∧
      s.solved R (n + 1) = some ⟨t, .ok ()⟩ ∧
      ((p == e) = true ∨ p.alphaDecideWhole e = .ok true → t.solutions = [{}]) ∧
      (¬((p == e) = true ∨ p.alphaDecideWhole e = .ok true) → t.solutions = []) := by
  let s : Search := { limit, pending := .addEach {} [⟨p, e⟩] }
  have hs : ofPairs R limit [(.expr p, .expr e)] = .ok s := ofPairs_operands R limit [⟨p, e⟩]
  have hcomparing : s.begun.Comparing R := by
    intro arity
    have hground : ∀ c ∈ [Equation.mk p e], Sorted R arity c.pattern ∧ Ground R c.subject :=
      List.forall_mem_singleton.2 ⟨hp.1.ground hp.2 arity, he.1.ground he.2⟩
    exact (open_ofPairs hground hs).1
  have hpending : s.begun.pending.equations = [⟨p, e⟩] := rfl
  obtain ⟨n, t, hrun, hsolve⟩ := hcomparing.solve
  obtain ⟨t', hlast, hfound, hnone⟩ := hcomparing.run hrun
  cases hlast
  rw [hpending, List.forall_mem_singleton] at hfound
  rw [hpending] at hnone
  refine ⟨s, n, t, hs, hrun, hsolve, fun h => ?_, fun h => ?_⟩
  · exact hfound (similar_iff_alphaDecideWhole.2 h)
  · refine hnone ⟨_, List.mem_cons_self, ?_⟩
    exact Bool.eq_false_iff.2 fun hsimilar => h (similar_iff_alphaDecideWhole.1 hsimilar)

/-- `q[x, q[y, z]]`. -/
def nested (x y z : String) : Expr :=
  let q : Sym := ⟨"q", "base", false⟩
  .bind q ⟨⟨x, false⟩, []⟩ (.bind q ⟨⟨y, false⟩, []⟩ (.var ⟨z, false⟩))

/-- The inner variable of `q[x, q[x, x]]` is the inner one of `q[y, q[z, z]]`,
and neither search may branch at all. -/
theorem solved_concrete_nested :
    ((nested "x" "x" "x").Concrete {} ∧ (nested "x" "x" "x").DistinctSlots) ∧
    ((nested "y" "z" "z").Concrete {} ∧ (nested "y" "z" "z").DistinctSlots) ∧
    ((nested "y" "z" "y").Concrete {} ∧ (nested "y" "z" "y").DistinctSlots) ∧
    (∃ s n t, ofPairs {} (some 0) [(.expr (nested "x" "x" "x"), .expr (nested "y" "z" "z"))] = .ok s ∧
      s.run {} n = some ⟨t, .ok none⟩ ∧ s.solved {} (n + 1) = some ⟨t, .ok ()⟩ ∧ t.solutions = [{}]) ∧
    ∃ s n t, ofPairs {} (some 0) [(.expr (nested "x" "x" "x"), .expr (nested "y" "z" "y"))] = .ok s ∧
      s.run {} n = some ⟨t, .ok none⟩ ∧ s.solved {} (n + 1) = some ⟨t, .ok ()⟩ ∧ t.solutions = [] := by
  have hplain (x y z : String) : (nested x y z).Concrete {} ∧ (nested x y z).DistinctSlots := by
    constructor
    · simp [Concrete, nested, nodes, Binders.toList, isMarked, Reserved.lambdaSym, Reserved.applySym,
        Reserved.symbol]
    · simp only [DistinctSlots, nested, nodes, List.mem_cons, List.mem_append, List.mem_map]
      rintro f xs b (heq | heq | ⟨_, -, heq⟩ | heq | heq | ⟨_, -, heq⟩ | heq | heq) <;> cases heq
      · exact List.nodup_singleton _
      · exact List.nodup_singleton _
  refine ⟨hplain _ _ _, hplain _ _ _, hplain _ _ _, ?_, ?_⟩
  · obtain ⟨s, n, t, hs, hrun, hsolved, hfound, -⟩ :=
      solved_concrete (hplain "x" "x" "x") (hplain "y" "z" "z") (some 0)
    exact ⟨s, n, t, hs, hrun, hsolved, hfound (similar_iff_alphaDecideWhole.1 (by decide))⟩
  · obtain ⟨s, n, t, hs, hrun, hsolved, -, hnone⟩ :=
      solved_concrete (hplain "x" "x" "x") (hplain "y" "z" "y") (some 0)
    exact ⟨s, n, t, hs, hrun, hsolved, hnone fun h =>
      absurd (similar_iff_alphaDecideWhole.2 h) (by decide)⟩

end Search
end SecondOrder
