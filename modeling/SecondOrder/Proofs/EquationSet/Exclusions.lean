/-
# Exclusions accumulate

What is recorded for a pattern can be told by positions
(`EquationSet.Derived`): wherever a binding stands in it and an unknown stands
free in the binding, the unknown must not take a value with one of the
binding's variables free.  Recording keeps what is there, appends what is new
without repetition, and appends nothing else.  `add` records all patterns, and
only these two touch the exclusions, so no call takes one back or records it
twice, and after every `add` those of all patterns are there
(`EquationSet.exclusions_accumulate`).
-/

import SecondOrder.Proofs.EquationSet.Calls
import SecondOrder.Proofs.Expr.Occurrence

namespace SecondOrder

open SecondOrder.Expr

namespace EquationSet

/-- The exclusion follows from a pattern: a binding in it binds the variable,
and the unknown stands free in the binding. -/
inductive Derived (pattern : Expr) : Exclusion → Prop
  | of_binding {place inside : Path} {f : Sym} {xs : Binders} {b u : Expr} {x : Var}
      (binding : pattern.at? place = some (bind f xs b)) (unknown : u.isMarked = true)
      (free : (bind f xs b).FreeAt inside u) (slot : x ∈ xs.toList) : Derived pattern ⟨u, x⟩

variable {R : Reserved} {p : Expr} {x : Exclusion}

/-- The exclusions of a pattern are those that follow from it. -/
theorem mem_exclusionsOf_iff : x ∈ exclusionsOf p ↔ Derived p x := by
  rw [mem_exclusionsOf]
  constructor
  · rintro ⟨f, xs, b, hnode, hfree, hslot⟩
    obtain ⟨hfree, hmarked⟩ := List.mem_filter.1 hfree
    obtain ⟨place, hplace⟩ := mem_nodes_iff.1 hnode
    obtain ⟨inside, hinside⟩ := (mem_freeNames_iff (isName_of_isMarked hmarked)).1 hfree
    exact .of_binding hplace hmarked hinside hslot
  · rintro ⟨binding, unknown, free, slot⟩
    refine ⟨_, _, _, mem_nodes_iff.2 ⟨_, binding⟩, List.mem_filter.2 ⟨?_, unknown⟩, slot⟩
    exact (mem_freeNames_iff (isName_of_isMarked unknown)).2 ⟨_, free⟩

/-- `t` has the exclusions of `s` in front, and after them new ones, none of
them twice. -/
def Retains (s t : EquationSet) : Prop :=
  ∃ new : List Exclusion, t.exclusions = s.exclusions ++ new ∧ new.Nodup ∧ ∀ x ∈ new, x ∉ s.exclusions

/-- A set with the same exclusions has none to add. -/
theorem Retains.of_eq {s t : EquationSet} (h : t.exclusions = s.exclusions) : Retains s t :=
  ⟨[], by rw [h, List.append_nil], .nil, List.forall_mem_nil _⟩

/-- What is retained twice is retained, and new exclusions are new both
times. -/
theorem Retains.trans {s t u : EquationSet} (hst : Retains s t) (htu : Retains t u) : Retains s u := by
  obtain ⟨new, ht, hnew, hs⟩ := hst
  obtain ⟨new', hu, hnew', ht'⟩ := htu
  rw [ht] at ht'
  refine ⟨new ++ new', by rw [hu, ht, List.append_assoc], ?_, fun x hx => ?_⟩
  · refine List.nodup_append.2 ⟨hnew, hnew', ?_⟩
    rintro x hx _ hx' rfl
    exact ht' x hx' (List.mem_append_right _ hx)
  · rcases List.mem_append.1 hx with hx | hx
    · exact hs x hx
    · exact fun hmem => ht' x hx (List.mem_append_left _ hmem)

/-- A set without repetitions gets none. -/
theorem Retains.nodup {s t : EquationSet} (h : Retains s t) (hs : s.exclusions.Nodup) : t.exclusions.Nodup := by
  obtain ⟨new, ht, hnew, hnot⟩ := h
  rw [ht]
  refine List.nodup_append.2 ⟨hs, hnew, ?_⟩
  rintro x hx _ hx' rfl
  exact hnot x hx' hx

/-- To record a pattern keeps what is there, -/
theorem retains_record (s : EquationSet) (p : Expr) : Retains s (s.record p) := by
  obtain ⟨new, heq, hnodup, hiff⟩ := exclusions_record s p
  exact ⟨new, heq, hnodup, fun x hx => ((hiff x).1 hx).2⟩

/-- and so does adding equations, which records their patterns one after
another. -/
theorem retains_add (s : EquationSet) (cs : List Equation) : Retains s (s.add cs) := by
  have hall (cs : List Equation) (t : EquationSet) : Retains t (cs.foldl (fun s c => s.record c.pattern) t) := by
    induction cs generalizing t with
    | nil => exact .of_eq rfl
    | cons c cs ih => exact (retains_record t c.pattern).trans (ih _)
  exact (Retains.of_eq (exclusions_foldl_insert s cs)).trans (hall _ _)

/-- No call takes an exclusion back or records it twice. -/
theorem retains_after (R : Reserved) (s : EquationSet) (k : Call) : Retains s (k.after R s) := by
  cases k with
  | add cs => exact retains_add s cs
  | record p => exact retains_record s p
  | _ => exact .of_eq rfl

/-- The same holds for any calls one after another. -/
theorem retains_run (R : Reserved) (s : EquationSet) (ks : List Call) : Retains s (run R s ks) := by
  induction ks generalizing s with
  | nil => exact .of_eq rfl
  | cons k ks ih => exact (retains_after R s k).trans (ih _)

/-- **Exclusions are recorded exactly and only accumulate.**  To record a
pattern keeps what is there and appends, without repetition, what follows from
the pattern and is not there yet.  Whatever calls are made, what was recorded
before stays in front, and nothing is there twice.  After every `add` all that
follows from the patterns is recorded. -/
theorem exclusions_accumulate (R : Reserved) :
    (∀ (s : EquationSet) (p : Expr), ∃ new, (s.record p).exclusions = s.exclusions ++ new ∧ new.Nodup ∧
      ∀ x, x ∈ new ↔ Derived p x ∧ x ∉ s.exclusions) ∧
    (∀ (cs : List Equation) (before after : List Call),
      (run R (ofList cs) before).exclusions <+: (run R (ofList cs) (before ++ after)).exclusions ∧
        (run R (ofList cs) before).exclusions.Nodup) ∧
    ∀ (s : EquationSet) (cs : List Equation), ∀ c ∈ (s.add cs).equations, ∀ x, Derived c.pattern x →
      x ∈ (s.add cs).exclusions := by
  refine ⟨fun s p => ?_, fun cs before after => ⟨?_, ?_⟩, fun s cs c hc x hx => ?_⟩
  · simp only [← mem_exclusionsOf_iff]
    exact exclusions_record s p
  · rw [run_append]
    obtain ⟨new, hnew, -⟩ := retains_run R (run R (ofList cs) before) after
    exact ⟨new, hnew.symm⟩
  · exact (retains_run R _ before).nodup ((retains_add {} cs).nodup .nil)
  · exact mem_exclusions_add.2 (.inr ⟨c, hc, mem_exclusionsOf_iff.2 hx⟩)

/-- In `f[x. p(_x, g[_y, x. q(_x, _y, _m)])]` neither `_x` nor `_m` may name
`x` or `_y`, and `_y` is no unknown. -/
example :
    let x : Var := ⟨"x", false⟩
    let y : Var := ⟨"y", true⟩
    let u (name : String) : Expr := var ⟨name, true⟩
    let s (name : String) : Sym := ⟨name, "base", false⟩
    let inner : Expr := bind (s "g") ⟨y, [x]⟩ (app (sym (s "q")) [u "x", u "y", u "m"])
    let pattern : Expr := bind (s "f") ⟨x, []⟩ (app (sym (s "p")) [u "x", inner])
    (({} : EquationSet).record pattern).exclusions = [⟨u "x", x⟩, ⟨u "m", x⟩, ⟨u "x", y⟩, ⟨u "m", y⟩] := by
  intro x y u s inner pattern
  cbv

end EquationSet
end SecondOrder
