/-
# Sorted expressions

Unknowns are of two sorts: some stand for functions of a fixed number of
arguments and are applied to as many wherever they occur, the others stand for
expressions and are never applied.  `Sorted R arity e` says that `e` uses its
unknowns so, that nothing but an unknown is ever applied, and that no binding
has an unknown in a slot or lists a variable twice.

The head of a binding is never replaced, so that an unknown there counts for
nothing: `Expr.names` are the free names outside heads of bindings.

An expression is `Ground` when it has no unknown that could be given a value.
-/

import SecondOrder.Expr.Freeness
import SecondOrder.Lambda.Basic

namespace SecondOrder

/-- The number of arguments of every unknown that stands for a function. -/
abbrev Arity := Expr → Option Nat

namespace Expr

/-- A variable or a symbol. -/
def IsName (e : Expr) : Prop := (∃ x, e = var x) ∨ ∃ f, e = sym f

/-- An unknown is a variable or a symbol. -/
theorem isName_of_isMarked {m : Expr} (h : m.isMarked = true) : IsName m := by
  cases m <;> first | exact .inl ⟨_, rfl⟩ | exact .inr ⟨_, rfl⟩ | cases h

/-- An unknown has no parts. -/
theorem isCompound_of_isMarked {m : Expr} (h : m.isMarked = true) : m.isCompound = false := by
  cases m <;> first | rfl | cases h

/-- A name equals no other node. -/
theorem beq_name_iff {e v : Expr} (hv : IsName v) : (e == v) = true ↔ e = v := by
  rw [beq_eq_same]
  rcases hv with ⟨x, rfl⟩ | ⟨f, rfl⟩
  · exact same_var_iff
  · cases e <;> simp [same]

mutual

/-- The variables in all binder slots. -/
def slots : Expr → List Var
  | app f as => slots f ++ slotsAll as
  | bind _ xs b => xs.toList ++ slots b
  | _ => []

def slotsAll : List Expr → List Var
  | [] => []
  | a :: as => slots a ++ slotsAll as

end

/-- The slots in a list of expressions are those of its members, in order. -/
theorem slotsAll_eq_flatMap (as : List Expr) : slotsAll as = as.flatMap slots := by
  induction as with
  | nil => rfl
  | cons a as ih => rw [slotsAll, ih, List.flatMap_cons]

/-- The slots in an application are those in its parts. -/
theorem mem_slots_app {f : Expr} {as : List Expr} {x : Var} :
    x ∈ (app f as).slots ↔ x ∈ f.slots ∨ ∃ a ∈ as, x ∈ a.slots := by
  rw [slots, slotsAll_eq_flatMap, List.mem_append, List.mem_flatMap]

/-- The variables in an application, bound or free, are those in its parts. -/
theorem mem_vars_app {f : Expr} {as : List Expr} {x : Var} :
    x ∈ (app f as).vars ↔ x ∈ f.vars ∨ ∃ a ∈ as, x ∈ a.vars := by
  rw [vars, varsAll_eq_flatMap, List.mem_append, List.mem_flatMap]

/-- The variables in a binding are those that it binds and those in its
body. -/
theorem mem_vars_bind {f : Sym} {xs : Binders} {b : Expr} {x : Var} :
    x ∈ (bind f xs b).vars ↔ x ∈ xs.toList ∨ x ∈ b.vars := by
  rw [vars, List.mem_append]

/-- The slots in a binding are its own and those in its body. -/
theorem mem_slots_bind {f : Sym} {xs : Binders} {b : Expr} {x : Var} :
    x ∈ (bind f xs b).slots ↔ x ∈ xs.toList ∨ x ∈ b.slots := by
  rw [slots, List.mem_append]

/-- A variable that is bound somewhere is one of the variables of the
expression, even if it occurs nowhere else. -/
theorem mem_vars_of_mem_slots {e : Expr} {x : Var} (h : x ∈ e.slots) : x ∈ e.vars := by
  induction e with
  | app f as ihf ihas =>
    rcases mem_slots_app.1 h with h | ⟨a, ha, h⟩
    · exact mem_vars_app.2 (.inl (ihf h))
    · exact mem_vars_app.2 (.inr ⟨a, ha, ihas a ha h⟩)
  | bind f xs b ih => exact mem_vars_bind.2 ((mem_slots_bind.1 h).imp_right ih)
  | _ => cases h

/-- What a binding inside the expression binds is a slot of the expression. -/
theorem mem_slots_of_mem_nodes {p b : Expr} {f : Sym} {xs : Binders} (h : bind f xs b ∈ p.nodes) :
    ∀ x ∈ xs.toList, x ∈ p.slots := by
  induction p with
  | app g as ihg ihas =>
    rw [nodes, nodesAll_eq_flatMap, List.mem_cons, List.mem_append, List.mem_flatMap] at h
    rcases h with h | h | ⟨a, ha, h⟩
    · cases h
    · exact fun x hx => mem_slots_app.2 (.inl (ihg h x hx))
    · exact fun x hx => mem_slots_app.2 (.inr ⟨a, ha, ihas a ha h x hx⟩)
  | bind g ys c ih =>
    rw [nodes, List.mem_cons, List.mem_cons, List.mem_append] at h
    rcases h with h | h | h | h
    · cases h
      exact fun x hx => mem_slots_bind.2 (.inl hx)
    · cases h
    · obtain ⟨y, -, h⟩ := List.mem_map.1 h
      cases h
    · exact fun x hx => mem_slots_bind.2 (.inr (ih h x hx))
  | _ => cases List.mem_singleton.1 h

mutual

/-- The free occurrences of variables and symbols outside heads of bindings. -/
def names : Expr → List Expr
  | var x => [var x]
  | sym f => [sym f]
  | app f as => names f ++ namesAll as
  | bind _ xs b => (names b).filter fun e => !xs.binds e
  | _ => []

def namesAll : List Expr → List Expr
  | [] => []
  | a :: as => names a ++ namesAll as

end

/-- The free names of a list of expressions are those of its members, in
order. -/
theorem namesAll_eq_flatMap (as : List Expr) : namesAll as = as.flatMap names := by
  induction as with
  | nil => rfl
  | cons a as ih => rw [namesAll, ih, List.flatMap_cons]

/-- The expression applies unknowns only, each to as many arguments as its sort
demands, and keeps its binders free of unknowns and of repetitions. -/
inductive Sorted (R : Reserved) (arity : Arity) : Expr → Prop
  | var {x : Var} (plain : x.marked = true → arity (.var x) = none) : Sorted R arity (.var x)
  | sym {f : Sym} (unreserved : f ≠ R.applySym)
      (plain : f.marked = true → arity (.sym f) = none) : Sorted R arity (.sym f)
  | int (n : Int) : Sorted R arity (.int n)
  | float (x : FloatLit) : Sorted R arity (.float x)
  | str (s : String) : Sorted R arity (.str s)
  | app {f : Expr} {as : List Expr} (head : Sorted R arity f)
      (args : ∀ a ∈ as, Sorted R arity a) : Sorted R arity (.app f as)
  | apply {m : Expr} {as : List Expr} (unknown : m.isMarked = true) (nonempty : as ≠ [])
      (takes : arity m = some as.length) (args : ∀ a ∈ as, Sorted R arity a) :
      Sorted R arity (.app (.sym R.applySym) (m :: as))
  | bind {f : Sym} {xs : Binders} {b : Expr}
      (slots : ∀ x ∈ xs.toList, x.marked = false) (distinct : xs.toList.Nodup)
      (body : Sorted R arity b) : Sorted R arity (.bind f xs b)

/-- No unknown occurs in the expression, and nothing is applied in it. -/
abbrev Ground (R : Reserved) (e : Expr) : Prop := ∀ arity, Sorted R arity e

variable {R : Reserved} {arity arity' : Arity} {e : Expr}

/-- The symbol of application stands nowhere but at the head of an application,
so it is not sorted by itself. -/
theorem Sorted.ne_applySym (h : Sorted R arity e) : e ≠ .sym R.applySym := by
  rintro rfl
  cases h
  contradiction

/-- An expression without unknowns is not one itself. -/
theorem not_isMarked_of_ground (h : Ground R e) : e.isMarked = false := by
  cases e with
  | var x =>
    refine Bool.eq_false_iff.2 fun hx => ?_
    cases h fun _ => some 0
    next plain => cases plain hx
  | sym f =>
    refine Bool.eq_false_iff.2 fun hf => ?_
    cases h fun _ => some 0
    next plain => cases plain hf
  | _ => rfl

/-- The parts of an application without unknowns have none. -/
theorem ground_of_app {f : Expr} {as : List Expr} (h : Ground R (.app f as)) :
    Ground R f ∧ ∀ a ∈ as, Ground R a := by
  have happ (arity : Arity) : Sorted R arity f ∧ ∀ a ∈ as, Sorted R arity a := by
    cases h arity with
    | app head args => exact ⟨head, args⟩
    | apply =>
      cases h fun _ => none with
      | app head => exact absurd rfl head.ne_applySym
      | apply _ _ takes => cases takes
  exact ⟨fun arity => (happ arity).1, fun a ha arity => (happ arity).2 a ha⟩

/-- A binding is sorted if its body is, and if it binds different variables
none of which is an unknown.  What the unknowns take does not matter for the
slots. -/
theorem sorted_bind {f : Sym} {xs : Binders} {b : Expr} : Sorted R arity (.bind f xs b) ↔
    (∀ x ∈ xs.toList, x.marked = false) ∧ xs.toList.Nodup ∧ Sorted R arity b := by
  constructor
  · intro h
    cases h with
    | bind slots distinct body => exact ⟨slots, distinct, body⟩
  · rintro ⟨slots, distinct, body⟩
    exact .bind slots distinct body

/-- The body of a binding without unknowns has none. -/
theorem ground_of_bind {f : Sym} {xs : Binders} {b : Expr} (h : Ground R (.bind f xs b)) :
    Ground R b := fun arity => (sorted_bind.1 (h arity)).2.2

/-- The names of a binding are those of its body that it does not bind. -/
theorem mem_names_bind {f : Sym} {xs : Binders} {b n : Expr} :
    n ∈ (bind f xs b).names ↔ n ∈ b.names ∧ ∀ x ∈ xs.toList, n ≠ .var x := by
  rw [names, List.mem_filter, Bool.not_eq_true', Bool.eq_false_iff]
  refine and_congr_right fun _ => ⟨?_, fun hfree hbinds => ?_⟩
  · rintro hfree x hx rfl
    exact hfree (Binders.binds_var.2 hx)
  · obtain ⟨x, hx⟩ := Option.isSome_iff_exists.1 hbinds
    obtain ⟨rfl, hmem⟩ := Binders.bound?_eq_some.1 hx
    exact hfree x hmem rfl

/-- A name is free in an application if it is free in one of its parts. -/
theorem mem_names_app {f : Expr} {as : List Expr} {n : Expr} :
    n ∈ (app f as).names ↔ n ∈ f.names ∨ ∃ a ∈ as, n ∈ a.names := by
  rw [names, namesAll_eq_flatMap, List.mem_append, List.mem_flatMap]

/-- A variable that is free is one of the variables of the expression. -/
theorem mem_vars_of_mem_names {e : Expr} {x : Var} (h : var x ∈ e.names) : x ∈ e.vars := by
  induction e with
  | var y => cases List.mem_singleton.1 h; exact List.mem_singleton.2 rfl
  | sym f => cases List.mem_singleton.1 h
  | app f as ihf ihas =>
    rcases mem_names_app.1 h with h | ⟨a, ha, h⟩
    · exact mem_vars_app.2 (.inl (ihf h))
    · exact mem_vars_app.2 (.inr ⟨a, ha, ihas a ha h⟩)
  | bind f xs b ih => exact mem_vars_bind.2 (.inr (ih (mem_names_bind.1 h).1))
  | _ => cases h

/-- The listed free names of an application are those listed for its parts. -/
theorem mem_freeNames_app {f : Expr} {as : List Expr} {n : Expr} :
    n ∈ (app f as).freeNames ↔ n ∈ f.freeNames ∨ ∃ a ∈ as, n ∈ a.freeNames := by
  rw [freeNames, freeNamesAll_eq_flatMap, List.mem_append, List.mem_flatMap]

/-- A name is one of the free names, and for a variable the two are the
same. -/
theorem mem_freeNames_of_mem_names {e n : Expr} (h : n ∈ e.names) : n ∈ e.freeNames := by
  induction e with
  | var x => exact h
  | sym f => exact h
  | app f as ihf ihas =>
    exact mem_freeNames_app.2 ((mem_names_app.1 h).imp ihf fun ⟨a, ha, h⟩ => ⟨a, ha, ihas a ha h⟩)
  | bind f xs b ih =>
    obtain ⟨hb, hbinds⟩ := List.mem_filter.1 h
    exact List.mem_cons_of_mem _ (List.mem_filter.2 ⟨ih hb, hbinds⟩)
  | _ => cases h

/-- The list of free names misses no variable that is free. -/
theorem var_mem_freeNames_iff {e : Expr} {x : Var} : var x ∈ e.freeNames ↔ var x ∈ e.names := by
  refine ⟨fun h => ?_, mem_freeNames_of_mem_names⟩
  induction e with
  | var y => exact h
  | sym f => exact h
  | app f as ihf ihas =>
    exact mem_names_app.2 ((mem_freeNames_app.1 h).imp ihf fun ⟨a, ha, h⟩ => ⟨a, ha, ihas a ha h⟩)
  | bind f xs b ih =>
    rcases List.mem_cons.1 h with h | h
    · cases h
    · obtain ⟨hb, hbinds⟩ := List.mem_filter.1 h
      exact List.mem_filter.2 ⟨ih hb, hbinds⟩
  | _ => cases h

/-- The unknowns of a binding are those of its body. -/
theorem mem_names_bind_iff {f : Sym} {xs : Binders} {b n : Expr}
    (slots : ∀ x ∈ xs.toList, x.marked = false) (hn : n.isMarked = true) :
    n ∈ (bind f xs b).names ↔ n ∈ b.names := by
  refine ⟨fun h => (mem_names_bind.1 h).1, fun h => mem_names_bind.2 ⟨h, ?_⟩⟩
  rintro x hx rfl
  exact Bool.false_ne_true ((slots x hx).symm.trans hn)

section Unknown

variable {m n : Expr} {f : Sym} {as : List Expr} {x : Var}

/-- The symbol of application is no unknown. -/
theorem ne_applySym_of_isMarked (h : m.isMarked = true) : m ≠ sym R.applySym := by
  rintro rfl
  cases h

/-- An unknown is free in itself, and nothing else is. -/
theorem names_of_isMarked (h : m.isMarked = true) : m.names = [m] := by
  rcases isName_of_isMarked h with ⟨x, rfl⟩ | ⟨f, rfl⟩ <;> rfl

/-- An unknown lists itself only. -/
theorem freeNames_of_isMarked (h : m.isMarked = true) : m.freeNames = [m] := by
  rcases isName_of_isMarked h with ⟨x, rfl⟩ | ⟨f, rfl⟩ <;> rfl

/-- An unknown binds nothing. -/
theorem slots_of_isMarked (h : m.isMarked = true) : m.slots = [] := by
  rcases isName_of_isMarked h with ⟨x, rfl⟩ | ⟨f, rfl⟩ <;> rfl

/-- An unknown is free in itself. -/
theorem mem_names_self (h : m.isMarked = true) : m ∈ m.names := by
  rw [names_of_isMarked h, List.mem_singleton]

/-- An application of an unknown has the names of its arguments besides the
unknown and the symbol that applies it. -/
theorem mem_names_apply (unknown : m.isMarked = true) :
    n ∈ (app (sym f) (m :: as)).names ↔ n = sym f ∨ n = m ∨ ∃ a ∈ as, n ∈ a.names := by
  rw [mem_names_app, names, List.mem_singleton, ← List.mem_flatMap, List.flatMap_cons,
    names_of_isMarked unknown, List.singleton_append, List.mem_cons, List.mem_flatMap]

/-- Where an unknown is applied, the names are the symbol at the head, the
unknown and those of the arguments. -/
theorem mem_freeNames_apply (unknown : m.isMarked = true) :
    n ∈ (app (sym f) (m :: as)).freeNames ↔ n = sym f ∨ n = m ∨ ∃ a ∈ as, n ∈ a.freeNames := by
  rw [mem_freeNames_app, freeNames, List.mem_singleton, ← List.mem_flatMap, List.flatMap_cons,
    freeNames_of_isMarked unknown, List.singleton_append, List.mem_cons, List.mem_flatMap]

/-- Its binder slots are those of its arguments. -/
theorem mem_slots_apply (unknown : m.isMarked = true) :
    x ∈ (app (sym f) (m :: as)).slots ↔ ∃ a ∈ as, x ∈ a.slots := by
  have hsym : (sym f).slots = [] := rfl
  rw [slots, hsym, List.nil_append, slotsAll, slots_of_isMarked unknown, List.nil_append,
    slotsAll_eq_flatMap, List.mem_flatMap]

end Unknown

/-- Only the sorts of the unknowns that occur matter. -/
theorem Sorted.congr (h : Sorted R arity e)
    (same : ∀ n ∈ e.names, n.isMarked = true → arity' n = arity n) : Sorted R arity' e := by
  induction h with
  | @var x plain => exact .var fun hx => (same _ (List.mem_singleton.2 rfl) hx).trans (plain hx)
  | @sym f unreserved plain =>
    exact .sym unreserved fun hf => (same _ (List.mem_singleton.2 rfl) hf).trans (plain hf)
  | int n => exact .int n
  | float x => exact .float x
  | str s => exact .str s
  | app head args ihf ihas =>
    refine .app (ihf fun n hn => same n (mem_names_app.2 (.inl hn))) fun a ha => ?_
    exact ihas a ha fun n hn => same n (mem_names_app.2 (.inr ⟨a, ha, hn⟩))
  | @apply m as unknown nonempty takes args ihas =>
    refine .apply unknown nonempty ?_ fun a ha => ihas a ha fun n hn => ?_
    · exact (same m ((mem_names_apply unknown).2 (.inr (.inl rfl))) unknown).trans takes
    · exact same n ((mem_names_apply unknown).2 (.inr (.inr ⟨a, ha, hn⟩)))
  | bind slots distinct body ih =>
    exact .bind slots distinct (ih fun n hn hm => same n ((mem_names_bind_iff slots hm).2 hn) hm)

end Expr
end SecondOrder
