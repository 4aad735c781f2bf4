/-
# Expressions

Symbolic expressions with named variables, namespaced symbols, literals,
applications and bindings.  A variable or a symbol may be *marked*: a marked
node is an unknown that matching may give a value.  The mark is part of the
identity of a node, so `_x` and `x` are different variables.

An application has at least one child and a binding at least one bound
variable; both hold by the shape of the type (`Expr.app` keeps the first child
apart, `Binders` the first variable).

`Expr.same` is node equality.  It is an equivalence (`Expr.same_refl`,
`Expr.same_symm`, `Expr.same_trans`), and it is identity of nodes except that
the two floating-point zeros are equal while each keeps its own spelling.
-/

namespace SecondOrder

/-- A variable, marked if it is an unknown. -/
structure Var where
  name : String
  marked : Bool := false
deriving DecidableEq, Inhabited

/-- A symbol `cd.name` of the namespace `cd`, marked if it is an unknown. -/
structure Sym where
  name : String
  cd : String
  marked : Bool := false
deriving DecidableEq, Inhabited

/-- A floating-point literal, given by its shortest decimal spelling.  There is
one literal that is not a number, spelled `nan`, and it equals itself: where
literals are objects of their own, one of these may differ from another, and
here it does not. -/
structure FloatLit where
  text : String
deriving DecidableEq, Inhabited

/-- The spelling shared by all literals of one value: the two zeros have the
same value, and any other value has one spelling only. -/
def FloatLit.key (x : FloatLit) : String :=
  if x.text = "-0.0" then "0.0" else x.text

/-- The bound variables of a binding, at least one.  A variable may be listed
more than once. -/
structure Binders where
  first : Var
  rest : List Var := []
deriving DecidableEq, Inhabited

namespace Binders

/-- The bound variables in order. -/
def toList (xs : Binders) : List Var := xs.first :: xs.rest

/-- The list as binders, unless it is empty. -/
def ofList? : List Var → Option Binders
  | [] => none
  | x :: xs => some ⟨x, xs⟩

def length (xs : Binders) : Nat := xs.rest.length + 1

def map (f : Var → Var) (xs : Binders) : Binders := ⟨f xs.first, xs.rest.map f⟩

/-- Puts `y` into every slot that holds `x`. -/
def rename (xs : Binders) (x y : Var) : Binders :=
  xs.map fun z => if z = x then y else z

/-- The list of binders is as long as the binders. -/
@[simp] theorem length_toList (xs : Binders) : xs.toList.length = xs.length := rfl

/-- To map binders is to map their list. -/
@[simp] theorem toList_map (f : Var → Var) (xs : Binders) :
    (xs.map f).toList = xs.toList.map f := rfl

/-- To map binders keeps their number. -/
@[simp] theorem length_map (f : Var → Var) (xs : Binders) :
    (xs.map f).length = xs.length := by
  simp [length, map]

/-- To rename a variable keeps the number of slots. -/
@[simp] theorem length_rename (xs : Binders) (x y : Var) :
    (xs.rename x y).length = xs.length := length_map _ _

/-- Binders can be read from their list again. -/
theorem ofList?_toList (xs : Binders) : ofList? xs.toList = some xs := rfl

end Binders

/-- An expression: a variable, a symbol, a literal, the application of a head
to arguments, or a binding `head[binders, body]`. -/
inductive Expr where
  | var (x : Var)
  | sym (f : Sym)
  | int (n : Int)
  | float (x : FloatLit)
  | str (s : String)
  | app (head : Expr) (args : List Expr)
  | bind (head : Sym) (binders : Binders) (body : Expr)
deriving Inhabited

namespace Expr

/-- **Induction on expressions**, with the hypothesis for every argument of an
application. -/
@[elab_as_elim, induction_eliminator]
theorem induct {P : Expr → Prop} (var : ∀ x, P (.var x)) (sym : ∀ f, P (.sym f))
    (int : ∀ n, P (.int n)) (float : ∀ x, P (.float x)) (str : ∀ s, P (.str s))
    (app : ∀ f as, P f → (∀ a ∈ as, P a) → P (.app f as))
    (bind : ∀ f xs b, P b → P (.bind f xs b)) (e : Expr) : P e :=
  @Expr.rec P (fun as => ∀ a ∈ as, P a) var sym int float str app bind
    (fun _ h => absurd h List.not_mem_nil)
    (fun _ _ ha has a h => by
      rcases List.mem_cons.1 h with rfl | h
      · exact ha
      · exact has a h) e

mutual

/-- The number of nodes, with a binding's head and slots counted as part of
the binding itself. -/
def size : Expr → Nat
  | app f as => size f + sizeAll as
  | bind _ _ b => size b + 1
  | _ => 1

/-- The nodes of the listed expressions and the node that holds the list. -/
def sizeAll : List Expr → Nat
  | [] => 1
  | a :: as => size a + sizeAll as

end

/-- Even no arguments have a size, for the list counts as a node. -/
theorem sizeAll_pos (as : List Expr) : 0 < sizeAll as := by
  induction as with
  | nil => simp only [sizeAll]; omega
  | cons a as ih => simp only [sizeAll]; omega

/-- Every expression has a node. -/
theorem size_pos (e : Expr) : 0 < e.size := by
  cases e with
  | app f as => have := sizeAll_pos as; simp only [size]; omega
  | _ => simp only [size]; omega

mutual

/-- Node equality. -/
def same : Expr → Expr → Bool
  | var x, var y => x == y
  | sym f, sym g => f == g
  | int m, int n => m == n
  | float x, float y => x.key == y.key
  | str s, str t => s == t
  | app f as, app g bs => same f g && sameAll as bs
  | bind f xs b, bind g ys c => f == g && xs == ys && same b c
  | _, _ => false

def sameAll : List Expr → List Expr → Bool
  | [], [] => true
  | a :: as, b :: bs => same a b && sameAll as bs
  | _, _ => false

end

instance : BEq Expr := ⟨same⟩

/-- The equality test is node equality. -/
theorem beq_eq_same (a b : Expr) : (a == b) = same a b := rfl

/-- Lists of arguments are equal to themselves, if their members are. -/
theorem sameAll_refl {as : List Expr} (h : ∀ a ∈ as, same a a = true) : sameAll as as = true := by
  induction as with
  | nil => rfl
  | cons a as ih =>
    rw [sameAll, h a (List.mem_cons_self ..), ih fun b hb => h b (List.mem_cons_of_mem _ hb)]
    rfl

/-- **Node equality is reflexive.** -/
theorem same_refl (e : Expr) : same e e = true := by
  induction e with
  | app f as hf has => rw [same, hf, sameAll_refl has]; rfl
  | bind f xs b hb => rw [same, hb]; simp
  | _ => simp [same]

/-- Equality of arguments is symmetric, if that of their members is. -/
theorem sameAll_symm {as bs : List Expr} (h : ∀ a ∈ as, ∀ b, same a b = true → same b a = true)
    (hs : sameAll as bs = true) : sameAll bs as = true := by
  induction as generalizing bs with
  | nil => cases bs with
    | nil => rfl
    | cons => simp [sameAll] at hs
  | cons a as ih => cases bs with
    | nil => simp [sameAll] at hs
    | cons b bs =>
      simp only [sameAll, Bool.and_eq_true] at hs ⊢
      exact ⟨h a (List.mem_cons_self ..) b hs.1,
        ih (fun c hc => h c (List.mem_cons_of_mem _ hc)) hs.2⟩

/-- **Node equality is symmetric.** -/
theorem same_symm {a b : Expr} (h : same a b = true) : same b a = true := by
  induction a generalizing b with
  | app f as hf has =>
    cases b <;> simp only [same, Bool.and_eq_true, Bool.false_eq_true] at h ⊢
    exact ⟨hf h.1, sameAll_symm (fun a ha _ => has a ha) h.2⟩
  | bind f xs c hc =>
    cases b <;> simp only [same, Bool.and_eq_true, beq_iff_eq, Bool.false_eq_true] at h ⊢
    exact ⟨⟨h.1.1.symm, h.1.2.symm⟩, hc h.2⟩
  | _ => cases b <;> simp_all [same]

/-- Equality of arguments is transitive, if that of their members is. -/
theorem sameAll_trans {as bs cs : List Expr}
    (h : ∀ a ∈ as, ∀ b c, same a b = true → same b c = true → same a c = true)
    (hab : sameAll as bs = true) (hbc : sameAll bs cs = true) : sameAll as cs = true := by
  induction as generalizing bs cs with
  | nil => cases bs with
    | nil => exact hbc
    | cons => simp [sameAll] at hab
  | cons a as ih => cases bs with
    | nil => simp [sameAll] at hab
    | cons b bs => cases cs with
      | nil => simp [sameAll] at hbc
      | cons c cs =>
        simp only [sameAll, Bool.and_eq_true] at hab hbc ⊢
        exact ⟨h a (List.mem_cons_self ..) b c hab.1 hbc.1,
          ih (fun d hd => h d (List.mem_cons_of_mem _ hd)) hab.2 hbc.2⟩

/-- **Node equality is transitive.** -/
theorem same_trans {a b c : Expr} (hab : same a b = true) (hbc : same b c = true) :
    same a c = true := by
  induction a generalizing b c with
  | app f as hf has =>
    cases b <;> simp only [same, Bool.and_eq_true, Bool.false_eq_true] at hab
    cases c <;> simp only [same, Bool.and_eq_true, Bool.false_eq_true] at hbc ⊢
    exact ⟨hf hab.1 hbc.1, sameAll_trans (fun a ha _ _ => has a ha) hab.2 hbc.2⟩
  | bind f xs d hd =>
    cases b <;> simp only [same, Bool.and_eq_true, beq_iff_eq, Bool.false_eq_true] at hab
    cases c <;> simp only [same, Bool.and_eq_true, beq_iff_eq, Bool.false_eq_true] at hbc ⊢
    exact ⟨⟨hab.1.1.trans hbc.1.1, hab.1.2.trans hbc.1.2⟩, hd hab.2 hbc.2⟩
  | _ => cases b <;> cases c <;> simp_all [same]

instance : EquivBEq Expr where
  rfl := same_refl _
  symm := same_symm
  trans := same_trans

/-- A variable equals no other node. -/
theorem same_var_iff {x : Var} {e : Expr} : same e (var x) = true ↔ e = var x := by
  cases e <;> simp [same]

/-- Both expressions are of the same class. -/
def sameKind : Expr → Expr → Bool
  | var _, var _ | sym _, sym _ | int _, int _ | float _, float _ | str _, str _ => true
  | app .., app .. | bind .., bind .. => true
  | _, _ => false

def isVar : Expr → Bool
  | var _ => true
  | _ => false

def isSym : Expr → Bool
  | sym _ => true
  | _ => false

def isApp : Expr → Bool
  | app .. => true
  | _ => false

def isBind : Expr → Bool
  | bind .. => true
  | _ => false

/-- Applications and bindings are compound, everything else is atomic. -/
def isCompound (e : Expr) : Bool := e.isApp || e.isBind

/-- An unknown is a marked variable or a marked symbol. -/
def isMarked : Expr → Bool
  | var x => x.marked
  | sym f => f.marked
  | _ => false

/-- The name of a variable or a symbol. -/
def name? : Expr → Option String
  | var x => some x.name
  | sym f => some f.name
  | _ => none

/-- Sets or clears the mark of a variable or a symbol; other expressions carry
none and stay as they are. -/
def setMark (marked : Bool) : Expr → Expr
  | var x => var { x with marked }
  | sym f => sym { f with marked }
  | e => e

/-- The parts of a node in order: head and arguments of an application; head,
bound variables and body of a binding. -/
def parts : Expr → List Expr
  | app f as => f :: as
  | bind f xs b => sym f :: xs.toList.map var ++ [b]
  | _ => []

mutual

/-- Every node of an expression, a node before its parts, and the parts from
left to right. -/
def nodes : Expr → List Expr
  | app f as => app f as :: (nodes f ++ nodesAll as)
  | bind f xs b => bind f xs b :: sym f :: (xs.toList.map var ++ nodes b)
  | e => [e]

def nodesAll : List Expr → List Expr
  | [] => []
  | a :: as => nodes a ++ nodesAll as

end

/-- The nodes of arguments are listed one argument after another. -/
theorem nodesAll_eq_flatMap (as : List Expr) : nodesAll as = as.flatMap nodes := by
  induction as with
  | nil => rfl
  | cons a as ih => rw [nodesAll, ih, List.flatMap_cons]

end Expr

/-- The variable `v` as one of the binders, if it is one. -/
def Binders.bound? (xs : Binders) : Expr → Option Var
  | .var x => if x ∈ xs.toList then some x else none
  | _ => none

/-- Whether `v` is one of the binders; nothing but a variable is. -/
def Binders.binds (xs : Binders) (v : Expr) : Bool := (xs.bound? v).isSome

/-- Binders bind variables only, and those that they list. -/
theorem Binders.bound?_eq_some {xs : Binders} {v : Expr} {x : Var} :
    xs.bound? v = some x ↔ v = .var x ∧ x ∈ xs.toList := by
  cases v with
  | var y =>
    simp only [bound?, Option.ite_none_right_eq_some, Option.some.injEq, Expr.var.injEq]
    exact ⟨fun ⟨h, e⟩ => ⟨e, e ▸ h⟩, fun ⟨e, h⟩ => ⟨e ▸ h, e⟩⟩
  | _ => simp [bound?]

/-- A variable is bound if it is listed. -/
theorem Binders.binds_var {xs : Binders} {x : Var} : xs.binds (.var x) = true ↔ x ∈ xs.toList := by
  simp [binds, bound?]

end SecondOrder
