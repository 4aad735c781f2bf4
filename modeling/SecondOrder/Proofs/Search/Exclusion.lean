/-
# Every solution respects the exclusions

An exclusion is checked when an assignment joins the solution under
construction.  Values change afterwards: the temporaries of every branch point
give way to their values, and each branch point keeps a list of exclusions of
its own.  But those lists only ever grow, a cleanup checks the list of the
search that branched, and building a solution anew changes no value
(`EquationSet.lookup?_copy`).

`Search.Heeds` is what every call keeps, also a call that is refused
(`Heeds.solve`).  So an exclusion that is there when a search is first solved
is respected by every solution that the search ever returns
(`Search.occursFree_eq_false_of_exclusion`).
-/

import Mathlib
import SecondOrder.Proofs.Search.Progress
import SecondOrder.Proofs.Search.Solving

namespace SecondOrder

namespace EquationSet

variable {R : Reserved} {s σ τ : EquationSet} {x : Exclusion}

/-- Whether an equation can be found does not change when equations are left
out that are the same as an earlier one. -/
theorem find?_foldl_insert {cs : List Equation} {p : Equation → Bool}
    (hp : ∀ c ∈ cs, ∀ d, (d == c) = true → p c = true → p d = true) :
    (cs.foldl insert s).equations.find? p = (s.equations ++ cs).find? p := by
  induction cs generalizing s with
  | nil => rw [List.append_nil]; rfl
  | cons c cs ih =>
    rw [List.forall_mem_cons] at hp
    rw [List.foldl_cons, ih hp.2, insert]
    split
    · next hc =>
      obtain ⟨d, hd, hdc⟩ := List.any_eq_true.1 hc
      cases hpc : p c with
      | false => simp only [List.find?_append, List.find?_cons, hpc]
      | true =>
        have hsome : (s.equations.find? p).isSome = true :=
          List.find?_isSome.2 ⟨d, hd, hp.1 d hdc hpc⟩
        simp only [List.find?_append, Option.or_of_isSome hsome]
    · rw [List.append_assoc]
      rfl

/-- The set gives values to unknowns only. -/
def Assigns (σ : EquationSet) : Prop := ∀ c ∈ σ.equations, c.pattern.isMarked = true

/-- **Building a solution anew keeps its values.** -/
theorem lookup?_copy (hσ : σ.Assigns) (e : Expr) : σ.copy.lookup? e = σ.lookup? e := by
  have hfind : (ofList σ.equations).equations.find? (fun c => c.pattern == e) =
      σ.equations.find? fun c => c.pattern == e := by
    rw [ofList, add, equations_recordAll]
    refine find?_foldl_insert (s := {}) fun c hc d hdc hce => ?_
    have hdc : (d.pattern.similar c.pattern && d.subject.similar c.subject) = true := hdc
    rw [Bool.and_eq_true] at hdc
    rwa [Expr.eq_of_similar_of_isMarked (hσ c hc) hdc.1]
  exact congrArg (Option.map Equation.subject) hfind

/-- A copy of a solution respects the exclusions that the solution respects,
because it gives every unknown the same value. -/
theorem respects_copy (hσ : σ.Assigns) (x : Exclusion) : σ.copy.respects x = σ.respects x := by
  simp only [respects, lookup?_copy hσ]

/-- A copy of a solution gives values to unknowns only. -/
theorem assigns_copy (hσ : σ.Assigns) : σ.copy.Assigns :=
  fun c hc => hσ c ((grows_copy σ).1.subset hc)

/-- So does a solution to which an assignment is added. -/
theorem assigns_add {c : Equation} (hσ : σ.Assigns) (hc : c.pattern.isMarked = true) :
    (σ.add [c]).Assigns := by
  obtain ⟨ds, hds, heqs, -⟩ := (grows_add σ [c]).equations
  intro d hd
  rw [heqs] at hd
  rcases List.mem_append.1 hd with hd | hd
  · exact hσ d hd
  · rwa [List.mem_singleton.1 (hds.subset hd)]

end EquationSet

namespace Equation

variable {c d : Equation} {P Q : EquationSet}

/-- To rename slots mints variables and leaves the exclusions alone.  What the
new names exclude is recorded afterwards. -/
theorem exclusions_renameSlots (s : EquationSet) (c : Equation) (places : List Nat) :
    (renameSlots s c places).state.exclusions = s.exclusions := by
  induction places generalizing s c with
  | nil => rfl
  | cons i places ih =>
    rw [renameSlots]
    split
    · rfl
    · exact ih _ _

/-- Aligning an equation takes no exclusion back. -/
theorem mem_exclusions_align {x : Exclusion} (hx : x ∈ P.exclusions) :
    x ∈ (c.align P).state.exclusions := by
  rw [align]
  split
  · exact hx
  · have h := exclusions_renameSlots P c c.ordinarySlots
    split
    · next Q d hr =>
      rw [hr] at h
      exact EquationSet.mem_exclusions_record.2 (.inl (h.symm ▸ hx))
    · next hr =>
      rw [hr] at h
      exact h.symm ▸ hx

/-- An unknown is applied as the second child of an application of three
children or more. -/
theorem pattern_of_unknownHead? {m : Expr} {k : Nat} (h : c.unknownHead? = some (m, k)) :
    ∃ f a as, c.pattern = .app f (m :: a :: as) := by
  rw [unknownHead?] at h
  split at h
  · next f m' a as hp =>
    split at h
    · cases h
      exact ⟨f, a, as, hp⟩
    · cases h
  · cases h

/-- The head of an equation to branch on is an unknown. -/
theorem isMarked_of_unknownHead? {m : Expr} {k : Nat} (h : c.unknownHead? = some (m, k)) :
    m.isMarked = true := by
  rw [unknownHead?] at h
  split at h
  · split at h
    · next hm =>
      cases h
      exact hm
    · cases h
  · cases h

end Equation

namespace Cleanup

variable {R : Reserved} {σ τ : EquationSet} {k : Cleanup} {t : Expr}

/-- What a temporary is substituted away from keeps its unknowns. -/
theorem assigns_substituteAway (hσ : σ.Assigns) (h : substituteAway R σ t = .ok τ) : τ.Assigns := by
  rcases substituteAway_eq_ok.1 h with ⟨-, rfl⟩ | ⟨a, ds, -, hds, rfl⟩
  · exact hσ
  · intro d hd
    obtain ⟨c, hc, hpattern, -⟩ := exists_of_forall₂ hds d hd
    rw [hpattern]
    exact hσ c (EquationSet.mem_of_mem_remove hc)

end Cleanup

namespace Search

variable {R : Reserved} {s t u : Search} {σ τ : EquationSet} {c : Equation} {x : Exclusion}
  {n : Nat}

/-- A guess mints variables, but takes no exclusion back. -/
theorem exclusions_guessed {P Q : EquationSet} {e value : Expr} {ts : List Expr} {g : Guess}
    (h : guessed R P n e g = .ok (value, ts, Q)) : Q.exclusions = P.exclusions := by
  cases g with
  | imitation =>
    obtain ⟨v, -, h⟩ := bind_eq_ok.1 h
    cases h
    rfl
  | _ =>
    cases h
    rfl

/-- The solution gives values to unknowns and respects the exclusion. -/
def Heeded (x : Exclusion) (σ : EquationSet) : Prop := σ.Assigns ∧ σ.respects x = true

/-- An exclusion that a solution respects is respected by its copy. -/
theorem Heeded.copy (h : Heeded x σ) : Heeded x σ.copy :=
  ⟨EquationSet.assigns_copy h.1, (EquationSet.respects_copy h.1 x).trans h.2⟩

/-- The exclusion is pending, and every solution respects it. -/
structure Heeds (x : Exclusion) (s : Search) : Prop where
  pending : x ∈ s.pending.exclusions
  solutions : ∀ σ ∈ s.solutions, Heeded x σ

namespace Heeds

/-- Exclusions may come and solutions go. -/
theorem mono (h : Heeds x s) (hpending : x ∈ s.pending.exclusions → x ∈ t.pending.exclusions)
    (hsolutions : ∀ σ ∈ t.solutions, σ ∈ s.solutions) : Heeds x t :=
  ⟨hpending h.pending, fun σ hσ => h.solutions σ (hsolutions σ hσ)⟩

/-- A copy of a search heeds the exclusion. -/
theorem clone (h : Heeds x s) : Heeds x s.clone := by
  refine ⟨h.pending, fun σ hσ => ?_⟩
  obtain ⟨τ, hτ, rfl⟩ := List.mem_map.1 hσ
  exact (h.solutions τ hτ).copy

/-- A search that begins with an empty solution heeds it, for nothing has a
value yet. -/
theorem begun (h : Heeds x s) : Heeds x s.begun := by
  rw [Search.begun]
  split
  · refine ⟨h.pending, fun σ hσ => ?_⟩
    rw [List.mem_singleton.1 hσ]
    exact ⟨List.forall_mem_nil _, rfl⟩
  · exact h

/-- **An assignment is accepted only if it respects the exclusion.** -/
theorem assign {r : Except Fault Bool} (h : Heeds x s) (hm : c.pattern.isMarked = true)
    (ha : s.assign R c = ⟨t, r⟩) : Heeds x t := by
  cases r with
  | error fault =>
    obtain ⟨ds, rfl, -⟩ := assign_error ha
    exact h.mono id fun _ hσ => hσ
  | ok b =>
    obtain ⟨σ, rest, ds, hσ, -, hb, rfl⟩ := assign_ok ha
    cases b with
    | false => exact ⟨h.pending, nofun⟩
    | true =>
      refine ⟨h.pending, List.forall_mem_cons.2 ⟨⟨?_, ?_⟩, fun τ hτ => ?_⟩⟩
      · exact EquationSet.assigns_add (h.solutions σ (hσ ▸ List.mem_cons_self)).1 hm
      · exact List.all_eq_true.1 hb.symm x h.pending
      · exact h.solutions τ (hσ ▸ List.mem_cons_of_mem _ hτ)

/-- An equation that is dropped takes no exclusion with it. -/
theorem drop (h : Heeds x s) (c : Equation) : Heeds x (s.drop c) := ⟨h.pending, h.solutions⟩

/-- **A step heeds the exclusion.** Only an assignment touches the solution,
and it is checked against all that is pending. -/
theorem advance (h : Heeds x s) (ha : Advance R s c t) : Heeds x t := by
  have haligned {P : EquationSet} {d : Equation} (ha : c.align (s.drop c).pending = ⟨P, .ok d⟩) :
      x ∈ P.exclusions := by
    have hx := Equation.mem_exclusions_align (c := c) (P := (s.drop c).pending) h.pending
    rwa [ha] at hx
  cases ha with
  | trivial => exact h.drop c
  | assign rule assigned =>
    exact (h.drop c).assign (Equation.isMarked_of_assign rule) assigned
  | align _ aligned => exact ⟨haligned aligned, h.solutions⟩
  | decompose _ aligned =>
    exact ⟨EquationSet.mem_exclusions_add.2 (.inl (haligned aligned)), h.solutions⟩
  | contract => exact ⟨EquationSet.mem_exclusions_add.2 (.inl h.pending), h.solutions⟩

/-- So does the last state, where the steps end. -/
theorem halt {last : Attempt Search (Option Equation)} (h : Heeds x s) (hl : Halt R s c last) :
    Heeds x last.state := by
  cases hl with
  | clash => exact ⟨h.pending, nofun⟩
  | excluded rule assigned =>
    exact (h.drop c).assign (Equation.isMarked_of_assign rule) assigned
  | branch => exact h
  | assignFault rule assigned =>
    exact (h.drop c).assign (Equation.isMarked_of_assign rule) assigned
  | alignFault _ aligned =>
    refine ⟨?_, h.solutions⟩
    have hx := Equation.mem_exclusions_align (c := c) (P := (s.drop c).pending) h.pending
    rwa [aligned] at hx
  | contractFault => exact h.drop c

/-- The exclusion is heeded after any number of steps. -/
theorem reaches (h : Heeds x s) (hr : Reaches R s t) : Heeds x t :=
  hr.invariant h fun _ _ _ hu _ ha => hu.advance ha

/-- It is heeded at the end of the deterministic part, whatever that comes
to. -/
theorem run {last : Attempt Search (Option Equation)} (h : Heeds x s)
    (hr : s.run R n = some last) : Heeds x last.state := by
  obtain ⟨u, hu, hstop⟩ := reaches_of_steps hr
  have hu := h.begun.reaches hu
  rcases halt_of_step hstop with ⟨-, rfl⟩ | ⟨c, -, hl⟩
  · exact hu.mono id fun _ hσ => hσ
  · exact hu.halt hl

/-- It is heeded in every branch that is opened, where a guess has been
assigned. -/
theorem branch? {g : Guess} {b : Branch} (h : Heeds x s) (hb : s.branch? R c g = .ok (some b)) :
    Heeds x b.search := by
  obtain ⟨m, k, value, P, hhead, hguess, assigned⟩ := branch?_some hb
  have hP : P.exclusions = s.deeper.pending.exclusions := exclusions_guessed hguess
  have hdeeper : Heeds x { s.deeper with pending := P } := ⟨hP ▸ h.pending, h.clone.solutions⟩
  exact hdeeper.assign (Equation.isMarked_of_unknownHead? hhead) assigned

/-- **A branch checks the exclusion again,** after its temporaries are gone. -/
theorem cleanups {ks : List Cleanup} (h : Heeds x s) (hks : ∀ k ∈ ks, k.Needed R s) (hσ : Heeded x σ)
    (hk : Cleanup.applyAll R ks σ = .ok (some τ)) : Heeded x τ := by
  refine Cleanup.of_applyAll (fun k hk σ τ hσ hτ => ?_) hσ hk
  obtain ⟨_, _, _, _, _, -, -, -, hneeded⟩ := hks k hk
  have hrespects := Cleanup.of_apply (fun _ _ _ _ => Cleanup.assigns_substituteAway) hσ.1 hτ
  rw [Cleanup.mem_cleanups hneeded] at hrespects
  exact ⟨hrespects.1, hrespects.2 x h.pending⟩

/-- It is heeded in a fork, which goes on with one of the solutions. -/
theorem fork {f : Search} (h : Heeds x s) (hσ : σ ∈ s.solutions) (hf : s.fork R σ = .ok f) : Heeds x f := by
  have hx : f.pending.exclusions = s.pending.exclusions :=
    congrArg (fun a : Attempt Search Unit => a.state.pending.exclusions) (fork_ok hf).symm
  refine ⟨hx ▸ h.pending, fun τ hτ => ?_⟩
  rw [solutions_fork hf] at hτ
  rw [List.mem_singleton.1 hτ]
  exact (h.solutions σ hσ).copy

/-- **Solving keeps an exclusion and respects it.** -/
theorem stable (R : Reserved) (x : Exclusion) : Stable R (Heeds x) where
  clone h := h.clone
  run h _ hr := h.run hr
  branch h _ _ _ _ hb := h.branch? hb
  fork h hσ hf := h.fork hσ hf
  settle {s found parts} h hfound := by
    refine ⟨h.pending, fun τ hτ => ?_⟩
    obtain ⟨t, -, ht, ks, hks, σ, hσ, hk⟩ := hfound τ hτ
    exact h.cleanups hks (ht.solutions σ hσ) hk

/-- It is heeded when an equation is added, which records more exclusions and
takes none back. -/
theorem add (h : Heeds x s) (hs : s.add R c = .ok t) : Heeds x t := by
  obtain ⟨-, -, hsolutions, p, hpending⟩ := (added_of_add hs).frame
  exact ⟨hpending ▸ EquationSet.mem_exclusions_add.2 (.inl h.pending), hsolutions ▸ h.solutions⟩

end Heeds

/-- What calls make of the search `s`, whether or not they meet a fault:
equations are added, it is solved, it is copied. -/
inductive Later (R : Reserved) (s : Search) : Search → Prop
  | refl : Later R s s
  | add {t u : Search} {c : Equation} (ht : Later R s t) (h : t.add R c = .ok u) : Later R s u
  | solve {n : Nat} {t u : Search} {r : Except Fault Unit} (ht : Later R s t)
      (h : t.solve R n = some ⟨u, r⟩) : Later R s u
  | solved {n : Nat} {t u : Search} {r : Except Fault Unit} (ht : Later R s t)
      (h : t.solved R n = some ⟨u, r⟩) : Later R s u
  | clone {t : Search} (ht : Later R s t) : Later R s t.clone

/-- **Once heeded, an exclusion is heeded ever after,** through all calls on
the search. -/
theorem Later.heeds (hx : Heeds x s) (h : Later R s t) : Heeds x t := by
  induction h with
  | refl => exact hx
  | add _ h ih => exact ih.add h
  | solve _ h ih => exact (Heeds.stable R x).solve ih h
  | solved _ h ih => exact (Heeds.stable R x).solved ih h
  | clone _ ih => exact ih.clone

/-- **An exclusion that is there when a search is first solved holds ever
after:** in every solution that is returned, now or after further calls, the
value of `inner` does not contain the value of `outer` free.  The values are
those of the solutions as they are returned, after all temporaries have been
substituted away, which may bring `outer` into a value that was checked before;
so what is substituted is checked once more. -/
theorem occursFree_eq_false_of_exclusion (hnone : s.solutions = [])
    (hx : x ∈ s.pending.exclusions) (ht : Later R s t) (hu : t.solved R n = some ⟨u, .ok ()⟩)
    (hσ : σ ∈ u.solutions) {inner outer : Expr} (hinner : σ.lookup? x.inner = some inner)
    (houter : (if x.outer.marked then σ.lookup? (.var x.outer) else some (.var x.outer)) =
      some outer) :
    Expr.occursFree outer inner = false := by
  have hs : Heeds x s := ⟨hx, by rw [hnone]; nofun⟩
  have hrespects := (((Heeds.stable R x).solved (ht.heeds hs) hu).solutions σ hσ).2
  rw [EquationSet.respects, hinner] at hrespects
  dsimp only at hrespects
  rw [houter] at hrespects
  exact Bool.not_eq_true' _ ▸ hrespects

/-- `λ[x, _f(x)]` should equal `λ[y, g(y, b)]`, so that the value of `_f` must
not name `x`. -/
def guarded : Equation :=
  let lambda : Sym := ⟨"lambda", "fns1", false⟩
  let x : Expr := .var ⟨"x", false⟩
  ⟨.bind lambda ⟨⟨"x", false⟩, []⟩ (({} : Reserved).apply (.var ⟨"f", true⟩) x []),
    .bind lambda ⟨⟨"y", false⟩, []⟩ (.app (.var ⟨"g", false⟩) [.var ⟨"y", false⟩, .var ⟨"b", false⟩])⟩

/-- `occursFree_eq_false_of_exclusion` at the search for `guarded`.  An
imitation brings in two temporary unknowns, which inherit that they must not
name `x`.  So the first of them becomes a projection, where a constant function
would do as well, and `_f` ends as `λv1. g(v1, b)`. -/
theorem occursFree_guarded : ∃ (s u : Search) (σ : EquationSet) (value : Expr),
    s = { pending := EquationSet.ofList [guarded] } ∧
    ⟨.var ⟨"f", true⟩, ⟨"x", false⟩⟩ ∈ s.pending.exclusions ∧
    s.solved {} 8 = some ⟨u, .ok ()⟩ ∧ u.solutions = [σ] ∧
    σ.lookup? (.var ⟨"f", true⟩) = some value ∧
    (value == Reserved.lambda {} ⟨⟨"v1", false⟩, []⟩
      (.app (.var ⟨"g", false⟩) [.var ⟨"v1", false⟩, .var ⟨"b", false⟩])) = true ∧
    Expr.occursFree (.var ⟨"x", false⟩) value = false := by
  let s : Search := { pending := EquationSet.ofList [guarded] }
  let f : Expr := .var ⟨"f", true⟩
  let expected : Expr := Reserved.lambda {} ⟨⟨"v1", false⟩, []⟩
    (.app (.var ⟨"g", false⟩) [.var ⟨"v1", false⟩, .var ⟨"b", false⟩])
  have hx : (⟨f, ⟨"x", false⟩⟩ : Exclusion) ∈ s.pending.exclusions := by
    refine EquationSet.mem_exclusions_add.2 (.inr ⟨guarded, List.mem_cons_self, ?_⟩)
    exact EquationSet.mem_exclusionsOf.2
      ⟨_, _, _, List.mem_cons_self, List.mem_cons_self, List.mem_cons_self⟩
  have hsolved : (s.solved {} 8).map (fun r => (r.result.toBool,
      r.state.solutions.map fun σ => (σ.lookup? f).map (· == expected))) = some (true, [some true]) := by
    decide +kernel
  obtain ⟨⟨u, r⟩, hu, hanswer⟩ := Option.map_eq_some_iff.1 hsolved
  obtain ⟨hreturned, hsolutions⟩ := Prod.mk.inj hanswer
  cases r with
  | error fault => cases hreturned
  | ok =>
    obtain ⟨σ, hσ, hvalue⟩ := List.map_eq_singleton_iff.1 hsolutions
    obtain ⟨value, hlookup, hexpected⟩ := Option.map_eq_some_iff.1 hvalue
    have hmem : σ ∈ u.solutions := hσ ▸ List.mem_cons_self
    exact ⟨s, u, σ, value, rfl, hx, hu, hσ, hlookup, hexpected,
      occursFree_eq_false_of_exclusion rfl hx .refl hu hmem hlookup rfl⟩

end Search
end SecondOrder
