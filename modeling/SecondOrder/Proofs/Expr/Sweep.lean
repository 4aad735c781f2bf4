/-
# Contraction position by position

The redexes of an expression can be contracted where they stand: list the
positions of all redexes, take the longest positions first and those of one
length in the order of the walk, and exchange the node at each for what it
contracts to (`Expr.sweep`).  The positions are collected before anything is
contracted.  They stay valid all the same, for a contraction changes nothing
but what stands at its position and below, and no shorter position leads there.

So the sweep is contraction by recursion on the expression
(`Expr.sweep_eq_contractAll`), and it is stopped by the same fault.  The
induction is on the expression, for any list of its redex positions in that
order (`Expr.Schedule`).  Of such a list, the positions in one part are a
schedule for the part, and a list that mixes two parts comes to both side by
side (`Expr.foldlM_splitStep`): of two faults the deeper one is met first, and
of two at one depth the one further left.
-/

import Mathlib
import SecondOrder.Expr.Position
import SecondOrder.Proofs.Expr.Inversion

namespace SecondOrder

/-! ## Folds that can be refused -/

section Folds

variable {ε ε' α β γ : Type} {l : List β}

/-- Steps on states that are mapped to others, side by side with steps there,
come to the mapped result, or to the same fault. -/
theorem foldlM_map {f : α → β → Except ε α} {g : γ → β → Except ε γ} {k : α → γ}
    (h : ∀ b ∈ l, ∀ a, g (k a) b = (f a b).map k) (a : α) :
    l.foldlM g (k a) = (l.foldlM f a).map k := by
  induction l generalizing a with
  | nil => rfl
  | cons b l ih =>
    rw [List.forall_mem_cons] at h
    rw [List.foldlM_cons, List.foldlM_cons, h.1 a]
    cases f a b with
    | error => rfl
    | ok a' => exact ih h.2 a'

/-- Steps that differ in their faults only differ in their faults only when
they are carried out in sequence. -/
theorem mapError_foldlM {f : α → β → Except ε α} {g : α → β → Except ε' α} {k : ε → ε'}
    (h : ∀ a b, (f a b).mapError k = g a b) (a : α) :
    (l.foldlM f a).mapError k = l.foldlM g a := by
  induction l generalizing a with
  | nil => rfl
  | cons b l ih =>
    rw [List.foldlM_cons, List.foldlM_cons, ← h a b]
    cases f a b with
    | error => rfl
    | ok a' => exact ih a'

/-- **A stable sort keeps the order of what it does not tell apart.** -/
theorem pairwise_mergeSort_stable {r : α → α → Prop} {le : α → α → Bool}
    (trans : ∀ a b c, le a b = true → le b c = true → le a c = true)
    (total : ∀ a b, (le a b || le b a) = true) {l : List α} (h : l.Pairwise r) :
    (l.mergeSort le).Pairwise fun a b => le a b = true ∧ (le b a = true → r a b) := by
  induction l with
  | nil => simp
  | cons a l ih =>
    obtain ⟨hr, hl⟩ := List.pairwise_cons.1 h
    obtain ⟨l₁, l₂, hcons, hrest, hlt⟩ := List.mergeSort_cons trans total a l
    have hsorted := List.pairwise_mergeSort trans total (a :: l)
    have hpairs := ih hl
    rw [hrest, List.pairwise_append] at hpairs
    rw [hcons, List.pairwise_append] at hsorted
    rw [hcons, List.pairwise_append, List.pairwise_cons]
    refine ⟨hpairs.1, ⟨fun c hc => ?after, hpairs.2.1⟩, fun b hb => List.forall_mem_cons.2 ⟨?before, ?across⟩⟩
    case after =>
      have hmem : c ∈ l := List.mem_mergeSort.1 (hrest ▸ List.mem_append_right _ hc)
      exact ⟨(List.pairwise_cons.1 hsorted.2.1).1 c hc, fun _ => hr c hmem⟩
    case before =>
      have hab : le a b = false := by simpa using hlt b hb
      refine ⟨by simpa [hab] using total a b, fun h => absurd h (Bool.eq_false_iff.1 hab)⟩
    case across => exact fun c hc => hpairs.2.2 b hb c hc

end Folds

namespace Expr

variable {R : Reserved} {e f b n : Expr} {h : Sym} {xs : Binders} {as : List Expr} {p q : Path}
  {L : List Path} {d : Nat}

/-! ## The sweep -/

/-- The positions of all redexes, in the order of the walk. -/
def redexPaths (R : Reserved) (e : Expr) : List Path :=
  (e.walk.filter fun node => node.2.isRedex R).map Prod.fst

/-- Contracts what stands at a position, if it is a redex. -/
def contractAt (R : Reserved) (e : Expr) (p : Path) : Except Fault Expr :=
  match e.at? p with
  | none => .error .outOfRange
  | some node => if node.isRedex R then do e.replaceAt p (← node.contract R) else .ok e

/-- Contracts the redexes that `e` contains at the start, each at its position:
the longest positions first, and those of one length in the order of the
walk. -/
def sweep (R : Reserved) (e : Expr) : Except Fault Expr :=
  ((redexPaths R e).mergeSort fun p q => q.length ≤ p.length).foldlM (contractAt R) e

/-! ## Positions in the walk -/

/-- The walk of a list goes through its beginning and then through the rest,
whose numbers go on from there. -/
theorem walkAll_append {bs : List Expr} (i : Nat) :
    walkAll i (as ++ bs) = walkAll i as ++ walkAll (i + as.length) bs := by
  induction as generalizing i with
  | nil => rfl
  | cons a as ih =>
    rw [List.cons_append, walkAll, walkAll, ih, List.append_assoc, List.length_cons, Nat.add_right_comm,
      Nat.add_assoc i as.length 1]

/-- The walk of slots visits each of them once, by a single step. -/
theorem walkAll_map_var (zs : List Var) (i : Nat) :
    walkAll (i + 1) (zs.map var) = (zs.zipIdx i).map fun (x, j) => ([j + 1], var x) := by
  induction zs generalizing i with
  | nil => rfl
  | cons z zs ih =>
    rw [List.map_cons, walkAll, ih, List.zipIdx_cons, List.map_cons]
    rfl

/-- The walk of an expression visits the expression and then its parts. -/
theorem walk_eq (e : Expr) : e.walk = ([], e) :: walkAll 0 e.parts := by
  cases e with
  | app f as => rfl
  | bind h xs b =>
    have hxs := walkAll_map_var xs.toList 0
    have hparts : walkAll 0 (bind h xs b).parts = ([0], sym h) ::
        walkAll 1 (xs.toList.map var ++ [b]) := rfl
    rw [hparts, walkAll_append, hxs, walkAll, walkAll, List.append_nil, List.length_map, walk,
      Binders.length_toList, Nat.add_comm 1]
  | _ => rfl

/-- The walk of a list visits what the walks of its members visit, each by one
more step, which tells the member. -/
theorem mem_walkAll {i : Nat} :
    (p, n) ∈ walkAll i as ↔ ∃ j q a, p = (i + j) :: q ∧ as[j]? = some a ∧ (q, n) ∈ a.walk := by
  have hunder {i : Nat} {ps : List (Path × Expr)} :
      (p, n) ∈ under i ps ↔ ∃ q, p = i :: q ∧ (q, n) ∈ ps := by
    simp only [under, List.mem_map, Prod.exists, Prod.mk.injEq]
    grind
  induction as generalizing i with
  | nil => simp [walkAll]
  | cons a as ih =>
    refine (List.mem_append.trans (or_congr hunder ih)).trans ?_
    constructor
    · rintro (⟨q, rfl, h⟩ | ⟨j, q, a', rfl, ha, h⟩)
      · exact ⟨0, q, a, rfl, rfl, h⟩
      · exact ⟨j + 1, q, a', by rw [Nat.add_assoc, Nat.add_comm 1], ha, h⟩
    · rintro ⟨_ | j, q, a', rfl, ha, h⟩
      · cases ha
        exact .inl ⟨q, rfl, h⟩
      · exact .inr ⟨j, q, a', by rw [Nat.add_assoc, Nat.add_comm 1], ha, h⟩

/-- **The walk visits every position with its node.** -/
theorem mem_walk : (p, n) ∈ e.walk ↔ e.at? p = some n := by
  induction p generalizing e with
  | nil =>
    rw [walk_eq, List.mem_cons, mem_walkAll, at?]
    simp [eq_comm]
  | cons i p ih =>
    rw [walk_eq, List.mem_cons, mem_walkAll, at?]
    simp only [Nat.zero_add, List.cons.injEq, Prod.mk.injEq, reduceCtorEq, false_and, false_or]
    constructor
    · rintro ⟨j, q, a, ⟨rfl, rfl⟩, ha, h⟩
      rw [ha]
      exact ih.1 h
    · intro h
      cases ha : e.parts[i]? with
      | none =>
        rw [ha] at h
        cases h
      | some a =>
        rw [ha] at h
        exact ⟨i, p, a, ⟨rfl, rfl⟩, ha, ih.2 h⟩

/-- The walk of a list goes from left to right if the walks of its members do,
for all positions in one member are to the left of those in the next. -/
theorem pairwise_walkAll (h : ∀ a ∈ as, (a.walk.map Prod.fst).Pairwise (· < ·)) (i : Nat) :
    ((walkAll i as).map Prod.fst).Pairwise (· < ·) := by
  induction as generalizing i with
  | nil => exact .nil
  | cons a as ih =>
    rw [List.forall_mem_cons] at h
    rw [walkAll, List.map_append, List.pairwise_append]
    refine ⟨?inside, ih h.2 (i + 1), fun p hp q hq => ?across⟩
    case inside =>
      simp only [under, List.map_map, List.pairwise_map, Function.comp_def] at h ⊢
      exact h.1.imp fun hpq => List.cons_lt_cons_iff.2 (.inr ⟨rfl, hpq⟩)
    case across =>
      obtain ⟨⟨p', n⟩, hp', rfl⟩ := List.mem_map.1 hp
      obtain ⟨⟨p₀, n₀⟩, -, hp₀⟩ := List.mem_map.1 hp'
      obtain ⟨⟨q', m⟩, hq', rfl⟩ := List.mem_map.1 hq
      obtain ⟨j, q₀, -, rfl, -⟩ := mem_walkAll.1 hq'
      cases hp₀
      exact List.cons_lt_cons_iff.2 (.inl (by omega))

/-- The walk goes from left to right. -/
theorem pairwise_walk (e : Expr) : (e.walk.map Prod.fst).Pairwise (· < ·) := by
  have hwhole {e : Expr} (h : ∀ a ∈ e.parts, (a.walk.map Prod.fst).Pairwise (· < ·)) :
      (e.walk.map Prod.fst).Pairwise (· < ·) := by
    rw [walk_eq, List.map_cons, List.pairwise_cons]
    refine ⟨fun p hp => ?_, pairwise_walkAll h 0⟩
    obtain ⟨⟨q, n⟩, hq, rfl⟩ := List.mem_map.1 hp
    obtain ⟨j, q', a, rfl, -⟩ := mem_walkAll.1 hq
    exact List.nil_lt_cons ..
  induction e with
  | app f as ihf ihas => exact hwhole (List.forall_mem_cons.2 ⟨ihf, ihas⟩)
  | bind h xs b ih =>
    have hatom {a : Expr} (ha : a.walk = [([], a)]) : (a.walk.map Prod.fst).Pairwise (· < ·) :=
      ha ▸ List.pairwise_singleton ..
    refine hwhole (List.forall_mem_cons.2 ⟨hatom rfl, List.forall_mem_append.2 ⟨?_, ?_⟩⟩)
    · exact List.forall_mem_map.2 fun x _ => hatom rfl
    · exact List.forall_mem_singleton.2 ih
  | _ => exact List.pairwise_singleton ..

/-! ## One position -/

/-- Contracts what stands at a position of one of the listed expressions, of
which the first step of the position gives the number. -/
def contractIn (R : Reserved) : List Expr → Path → Except Fault (List Expr)
  | a :: as, 0 :: p => (contractAt R a p).map (· :: as)
  | a :: as, (i + 1) :: p => (contractIn R as (i :: p)).map (a :: ·)
  | _, _ => .error .outOfRange

/-- To contract in a list is to contract in the member that the first step
leads to. -/
theorem contractIn_cons (as : List Expr) (i : Nat) (p : Path) : contractIn R as (i :: p) =
    match as[i]? with
    | some a => (contractAt R a p).map (as.set i ·)
    | none => .error .outOfRange := by
  induction as generalizing i with
  | nil => rfl
  | cons a as ih =>
    cases i with
    | zero => rfl
    | succ i =>
      rw [contractIn, ih, List.getElem?_cons_succ]
      cases as[i]? with
      | none => rfl
      | some a' =>
        dsimp only
        cases contractAt R a' p <;> rfl

/-- At the root the expression itself is contracted, if it is a redex;
`contract` leaves it alone if not. -/
theorem contractAt_nil (e : Expr) : contractAt R e [] = e.contract R := by
  rw [contractAt, at?]
  dsimp only
  split
  · cases e.contract R <;> rfl
  · next h => exact (contract_of_isRedex_eq_false (Bool.eq_false_iff.2 h)).symm

/-- Below a part that can be exchanged for any other, what stands there is
contracted in the part. -/
theorem contractAt_part {i : Nat} {a : Expr} {k : Expr → Expr} (hpart : e.parts[i]? = some a)
    (hset : ∀ new, e.setPart i new = .ok (k new)) (hself : k a = e) :
    contractAt R e (i :: p) = (contractAt R a p).map k := by
  have hreplace (new : Expr) : e.replaceAt (i :: p) new = (a.replaceAt p new).map k := by
    rw [replaceAt, hpart]
    cases ha : a.replaceAt p new with
    | error => simp [ha]; rfl
    | ok => simp [ha, hset]; rfl
  rw [contractAt, contractAt, at?, hpart]
  dsimp only
  cases a.at? p with
  | none => rfl
  | some node =>
    dsimp only
    split
    · cases node.contract R with
      | error => rfl
      | ok new => exact hreplace new
    · exact congrArg Except.ok hself.symm

/-- Below the head of an application, what stands there is contracted in the
head. -/
theorem contractAt_app_zero : contractAt R (app f as) (0 :: p) = (contractAt R f p).map (app · as) :=
  contractAt_part rfl (fun _ => rfl) rfl

/-- Below an argument, what stands there is contracted in the arguments, whose
numbers start from 0. -/
theorem contractAt_app_succ {i : Nat} :
    contractAt R (app f as) ((i + 1) :: p) = (contractIn R as (i :: p)).map (app f) := by
  rw [contractIn_cons]
  cases ha : as[i]? with
  | none =>
    have hparts : (app f as).parts[i + 1]? = none := ha
    rw [contractAt, at?, hparts]
    rfl
  | some a =>
    obtain ⟨hi, hself⟩ := List.getElem?_eq_some_iff.1 ha
    have hpart : (app f as).parts[i + 1]? = some a := ha
    have hset (new : Expr) : (app f as).setPart (i + 1) new = .ok (app f (as.set i new)) := if_pos hi
    rw [contractAt_part hpart hset (by rw [← hself, List.set_getElem_self])]
    dsimp only
    cases contractAt R a p <;> rfl

/-- The body of a binding is the part behind the head and the slots. -/
theorem getElem?_parts_body (h : Sym) (xs : Binders) (b : Expr) :
    (bind h xs b).parts[xs.length + 1]? = some b := by
  have hlen : (sym h :: xs.toList.map var).length = xs.length + 1 := by simp
  exact (List.getElem?_append_right (Nat.le_of_eq hlen)).trans (by rw [hlen, Nat.sub_self]; rfl)

/-- Below the body of a binding, what stands there is contracted in the
body. -/
theorem contractAt_bind : contractAt R (bind h xs b) ((xs.length + 1) :: p) =
    (contractAt R b p).map (bind h xs) := by
  exact contractAt_part (getElem?_parts_body h xs b) (fun _ => (if_neg (Nat.lt_irrefl _)).trans (if_pos rfl)) rfl

/-! ## Schedules -/

/-- The position `p` comes before `q`: it is longer, or as long and further
left. -/
def Before (p q : Path) : Prop := q.length < p.length ∨ q.length = p.length ∧ p < q

/-- The positions of all redexes of `e`, in the order in which they are
contracted. -/
structure Schedule (R : Reserved) (e : Expr) (L : List Path) : Prop where
  ordered : L.Pairwise Before
  mem_iff : ∀ p, p ∈ L ↔ ∃ n, e.at? p = some n ∧ n.isRedex R = true

/-- The sweep follows a schedule. -/
theorem schedule_sweep (R : Reserved) (e : Expr) :
    Schedule R e ((redexPaths R e).mergeSort fun p q => q.length ≤ p.length) where
  ordered := by
    have hwalk : (redexPaths R e).Pairwise (· < ·) :=
      (pairwise_walk e).sublist (List.filter_sublist.map Prod.fst)
    refine (pairwise_mergeSort_stable ?_ ?_ hwalk).imp fun hpq => ?_
    · exact fun a b c hab hbc => decide_eq_true (Nat.le_trans (of_decide_eq_true hbc) (of_decide_eq_true hab))
    · exact fun a b => by simpa using Nat.le_total b.length a.length
    · simp only [decide_eq_true_eq] at hpq
      rcases Nat.lt_or_eq_of_le hpq.1 with hlt | heq
      · exact .inl hlt
      · exact .inr ⟨heq, hpq.2 (Nat.le_of_eq heq.symm)⟩
  mem_iff p := by
    rw [List.mem_mergeSort, redexPaths, List.mem_map]
    simp only [List.mem_filter, Prod.exists, exists_and_right, exists_eq_right, mem_walk]

/-- The positions of all redexes in the listed expressions, in the order in
which they are contracted. -/
structure ScheduleAll (R : Reserved) (as : List Expr) (L : List Path) : Prop where
  ordered : L.Pairwise Before
  inner : [] ∉ L
  mem_iff : ∀ i p, i :: p ∈ L ↔ ∃ a n, as[i]? = some a ∧ a.at? p = some n ∧ n.isRedex R = true

/-- The expression itself comes last, if it is a redex. -/
theorem Schedule.exists_parts (hL : Schedule R e L) :
    ∃ L', ScheduleAll R e.parts L' ∧ L = L' ++ if e.isRedex R = true then [[]] else [] := by
  have hroot : [] ∈ L ↔ e.isRedex R = true := by
    rw [hL.mem_iff, at?]
    simp
  have hinner (i : Nat) (p : Path) :
      i :: p ∈ L ↔ ∃ a n, e.parts[i]? = some a ∧ a.at? p = some n ∧ n.isRedex R = true := by
    rw [hL.mem_iff, at?]
    cases e.parts[i]? <;> simp
  split
  · next hredex =>
    obtain ⟨L₁, L₂, rfl⟩ := List.append_of_mem (hroot.2 hredex)
    have hord := List.pairwise_append.1 hL.ordered
    have hnil {p : Path} (h : Before [] p) : False := by
      rcases h with h | ⟨hlen, hlt⟩
      · exact Nat.not_lt_zero _ h
      · rw [List.length_eq_zero_iff.1 hlen] at hlt
        exact List.lt_irrefl _ hlt
    obtain rfl : L₂ = [] := List.eq_nil_iff_forall_not_mem.2 fun p hp =>
      hnil ((List.pairwise_cons.1 hord.2.1).1 p hp)
    refine ⟨L₁, ⟨hord.1, fun hmem => hnil (hord.2.2 [] hmem [] List.mem_cons_self), fun i p => ?_⟩, rfl⟩
    rw [← hinner, List.mem_append]
    simp
  · next hredex =>
    exact ⟨L, ⟨hL.ordered, mt hroot.1 hredex, hinner⟩, (List.append_nil L).symm⟩

/-- Of two positions that start with one step, the rest tells which one comes
first. -/
theorem before_cons {i : Nat} : Before (i :: p) (i :: q) ↔ Before p q := by
  simp [Before]

/-- The order of positions in the arguments does not depend on the number that
the first argument has. -/
theorem before_succ {i j : Nat} : Before ((i + 1) :: p) ((j + 1) :: q) ↔ Before (i :: p) (j :: q) := by
  simp [Before, List.cons_lt_cons_iff]

/-! ## Two parts side by side -/

/-- The rest of a position in the first of two parts. -/
def first? : Path → Option Path
  | 0 :: p => some p
  | _ => none

/-- The position in the other parts, counted from the second one. -/
def second? : Path → Option Path
  | (i + 1) :: p => some (i :: p)
  | _ => none

/-- A position in the first of two parts starts with step 0. -/
theorem first?_eq_some : first? q = some p ↔ q = 0 :: p := by
  match q with
  | [] | 0 :: _ | (_ + 1) :: _ => simp [first?]

/-- A position in the other parts starts with a later step, which is counted
down by one. -/
theorem second?_eq_some : second? q = some p ↔ ∃ i p', p = i :: p' ∧ q = (i + 1) :: p' := by
  match q with
  | [] | 0 :: _ => simp [second?]
  | (i + 1) :: q =>
    simp only [second?, Option.some.injEq, List.cons.injEq, Nat.add_right_cancel_iff]
    grind

/-- The positions in the first of two parts. -/
theorem mem_filterMap_first? : p ∈ L.filterMap first? ↔ 0 :: p ∈ L := by
  simp [List.mem_filterMap, first?_eq_some]

/-- The positions in the others. -/
theorem mem_filterMap_second? : p ∈ L.filterMap second? ↔ ∃ i p', p = i :: p' ∧ (i + 1) :: p' ∈ L := by
  simp only [List.mem_filterMap, second?_eq_some]
  grind

/-- A step in the first of two parts or in the others. -/
def splitStep {σ τ ε : Type} (g : σ → Path → Except ε σ) (k : τ → Path → Except ε τ) (s : σ × τ) :
    Path → Except ε (σ × τ)
  | 0 :: p => (g s.1 p).map (·, s.2)
  | (i + 1) :: p => (k s.2 (i :: p)).map (s.1, ·)
  | [] => .ok s

/-- The fault of a failing step is as deep as the position says. -/
def FaultsAt {σ : Type} (depth : Path → Nat) (g : σ → Path → Except DeepFault σ) : Prop :=
  ∀ s p x, g s p = .error x → x.1 = depth p

/-- A fault that stops a sequence of steps has come at one of the positions,
and is as deep as that. -/
theorem exists_of_foldlM_error {σ : Type} {depth : Path → Nat} {g : σ → Path → Except DeepFault σ}
    (hg : FaultsAt depth g) {s : σ} {x : DeepFault} (h : L.foldlM g s = .error x) :
    ∃ p ∈ L, x.1 = depth p := by
  induction L generalizing s with
  | nil => cases h
  | cons p L ih =>
    rw [List.foldlM_cons] at h
    cases hp : g s p with
    | error y =>
      rw [hp] at h
      cases h
      exact ⟨p, List.mem_cons_self, hg s p _ hp⟩
    | ok s' =>
      rw [hp] at h
      obtain ⟨q, hq, hx⟩ := ih h
      exact ⟨q, List.mem_cons_of_mem _ hq, hx⟩

/-- **Steps in two parts, mixed, come to the steps in each part side by side**,
if longer positions come first, and of those of one length the ones in the
first part. -/
theorem foldlM_splitStep {σ τ : Type} {g : σ → Path → Except DeepFault σ}
    {k : τ → Path → Except DeepFault τ} (hg : FaultsAt (fun p => d + p.length) g)
    (hk : FaultsAt (fun p => d + p.tail.length) k) (hL : L.Pairwise Before) (hnil : [] ∉ L)
    (s : σ) (t : τ) :
    L.foldlM (splitStep g k) (s, t) =
      bothDeep ((L.filterMap first?).foldlM g s) ((L.filterMap second?).foldlM k t) := by
  induction L generalizing s t with
  | nil => rfl
  | cons p L ih =>
    rw [List.pairwise_cons] at hL
    rw [List.mem_cons, not_or] at hnil
    have ih := ih hL.2 hnil.2
    match p with
    | [] => exact absurd rfl hnil.1
    | 0 :: p =>
      have hfirst : List.filterMap first? ((0 :: p) :: L) = p :: L.filterMap first? := rfl
      have hsecond : List.filterMap second? ((0 :: p) :: L) = L.filterMap second? := rfl
      rw [hfirst, hsecond, List.foldlM_cons, List.foldlM_cons, splitStep]
      dsimp only
      cases hp : g s p with
      | ok s' => exact ih s' t
      | error x =>
        cases hq : (L.filterMap second?).foldlM k t with
        | ok => rfl
        | error y =>
          obtain ⟨q, hmem, hy⟩ := exists_of_foldlM_error hk hq
          obtain ⟨i, q', rfl, hq'⟩ := mem_filterMap_second?.1 hmem
          -- Nothing in the second part is left that is deeper, so this fault is the one reported.
          have hlen : q'.length ≤ p.length := by
            have hbefore := hL.1 _ hq'
            simp only [Before, List.length_cons] at hbefore
            omega
          have hx := hg s p x hp
          refine congrArg Except.error (if_neg ?_).symm
          rw [hx, hy]
          simpa using hlen
    | (i + 1) :: p =>
      have hfirst : List.filterMap first? (((i + 1) :: p) :: L) = L.filterMap first? := rfl
      have hsecond : List.filterMap second? (((i + 1) :: p) :: L) = (i :: p) :: L.filterMap second? := rfl
      rw [hfirst, hsecond, List.foldlM_cons, List.foldlM_cons, splitStep]
      dsimp only
      cases hp : k t (i :: p) with
      | ok t' => exact ih s t'
      | error y =>
        cases hq : (L.filterMap first?).foldlM g s with
        | ok => rfl
        | error x =>
          obtain ⟨q, hmem, hx⟩ := exists_of_foldlM_error hg hq
          -- All that is left in the first part is less deep, so this fault is the one reported.
          have hlen : q.length < p.length := by
            have hbefore := hL.1 _ (mem_filterMap_first?.1 hmem)
            simp only [Before, List.length_cons, List.cons_lt_cons_iff] at hbefore
            omega
          have hy := hk t (i :: p) y hp
          refine congrArg Except.error (if_pos ?_).symm
          rw [hx, hy]
          simpa using hlen

/-! ## The sweep is contraction by recursion -/

/-- The fault of a step is as deep as the position. -/
def deepAt (R : Reserved) (d : Nat) (e : Expr) (p : Path) : Except DeepFault Expr :=
  (contractAt R e p).mapError fun fault => (d + p.length, fault)

def deepIn (R : Reserved) (d : Nat) (as : List Expr) (p : Path) : Except DeepFault (List Expr) :=
  (contractIn R as p).mapError fun fault => (d + p.tail.length, fault)

/-- A fault of a contraction is as deep as the position at which it is
tried. -/
theorem faultsAt_deepAt : FaultsAt (fun p => d + p.length) (deepAt R d) := by
  intro e p x h
  rw [deepAt] at h
  cases hp : contractAt R e p with
  | ok =>
    rw [hp] at h
    cases h
  | error =>
    rw [hp] at h
    cases h
    rfl

/-- In a list of arguments, the step that leads to an argument does not count
for the depth. -/
theorem faultsAt_deepIn : FaultsAt (fun p => d + p.tail.length) (deepIn R d) := by
  intro as p x h
  rw [deepIn] at h
  cases hp : contractIn R as p with
  | ok =>
    rw [hp] at h
    cases h
  | error =>
    rw [hp] at h
    cases h
    rfl

/-- No parts, no positions. -/
theorem ScheduleAll.eq_nil (hL : ScheduleAll R [] L) : L = [] := by
  refine List.eq_nil_iff_forall_not_mem.2 fun p hp => ?_
  match p with
  | [] => exact hL.inner hp
  | i :: p =>
    obtain ⟨_, _, h, -⟩ := (hL.mem_iff i p).1 hp
    cases h

/-- A schedule for several parts holds one for the first of them. -/
theorem ScheduleAll.first {a : Expr} (hL : ScheduleAll R (a :: as) L) :
    Schedule R a (L.filterMap first?) where
  ordered := by
    refine List.pairwise_filterMap.2 (hL.ordered.imp fun hpq p hp q hq => ?_)
    obtain rfl := first?_eq_some.1 hp
    obtain rfl := first?_eq_some.1 hq
    exact before_cons.1 hpq
  mem_iff p := by
    rw [mem_filterMap_first?, hL.mem_iff]
    simp

/-- It holds one for the others. -/
theorem ScheduleAll.second {a : Expr} (hL : ScheduleAll R (a :: as) L) :
    ScheduleAll R as (L.filterMap second?) where
  ordered := by
    refine List.pairwise_filterMap.2 (hL.ordered.imp fun hpq p hp q hq => ?_)
    obtain ⟨i, p, rfl, rfl⟩ := second?_eq_some.1 hp
    obtain ⟨j, q, rfl, rfl⟩ := second?_eq_some.1 hq
    exact before_succ.1 hpq
  inner hnil := by
    obtain ⟨_, _, h, -⟩ := mem_filterMap_second?.1 hnil
    cases h
  mem_iff i p := by
    rw [mem_filterMap_second?]
    simp [hL.mem_iff]

/-- **A schedule for several parts contracts them as the recursion does,** if
schedules for each of them do.  The induction is on the list of parts: the
schedule is split into that for the first part and that for the others. -/
theorem ScheduleAll.foldlM_deepIn (hL : ScheduleAll R as L)
    (h : ∀ a ∈ as, ∀ L, Schedule R a L → L.foldlM (deepAt R d) a = contractFrom R d a) :
    L.foldlM (deepIn R d) as = contractFromAll R d as := by
  induction as generalizing L with
  | nil =>
    rw [hL.eq_nil]
    rfl
  | cons a as ih =>
    rw [List.forall_mem_cons] at h
    have hstep (p : Path) (hp : p ∈ L) (s : Expr × List Expr) :
        deepIn R d (s.1 :: s.2) p = (splitStep (deepAt R d) (deepIn R d) s p).map fun s => s.1 :: s.2 := by
      match p with
      | [] => exact absurd hp hL.inner
      | 0 :: p =>
        rw [splitStep, deepIn, deepAt, contractIn]
        cases contractAt R s.1 p <;> rfl
      | (i + 1) :: p =>
        rw [splitStep, deepIn, deepIn, contractIn]
        cases contractIn R s.2 (i :: p) <;> rfl
    have hfold := foldlM_map hstep (a, as)
    dsimp only at hfold
    rw [hfold, foldlM_splitStep faultsAt_deepAt faultsAt_deepIn hL.ordered hL.inner,
      h.1 _ hL.first, ih hL.second h.2, contractFromAll]

/-- No redex stands at a position in an atom. -/
theorem not_isRedex_of_atom {a : Expr} (ha : a.isCompound = false) (hparts : a.parts = [])
    (hn : a.at? p = some n) : ¬n.isRedex R = true := by
  cases p with
  | nil =>
    cases hn
    intro hredex
    obtain ⟨xs, b, a', as, rfl⟩ := isRedex_iff.1 hredex
    cases ha
  | cons i p =>
    rw [at?, hparts] at hn
    cases hn

/-- A schedule for a binding is one for its body. -/
theorem ScheduleAll.body (hL : ScheduleAll R (bind h xs b).parts L) :
    Schedule R b (L.map List.tail) ∧ ∀ p ∈ L, ∃ q, p = (xs.length + 1) :: q := by
  have hlen : (sym h :: xs.toList.map var).length = xs.length + 1 := by simp
  have hbody := getElem?_parts_body h xs b
  have hform (p : Path) (hp : p ∈ L) : ∃ q, p = (xs.length + 1) :: q := by
    obtain ⟨i, q, rfl⟩ := List.exists_cons_of_ne_nil fun hnil => hL.inner (hnil ▸ hp)
    obtain ⟨a, n, ha, hn, hredex⟩ := (hL.mem_iff i q).1 hp
    rcases Nat.lt_trichotomy i (xs.length + 1) with hlt | rfl | hgt
    · -- the head and the slots hold no redex
      have hmem := List.mem_of_getElem? ((List.getElem?_append_left (hlen ▸ hlt)).symm.trans ha)
      rcases List.mem_cons.1 hmem with rfl | hmem
      · exact absurd hredex (not_isRedex_of_atom rfl rfl hn)
      · obtain ⟨x, -, rfl⟩ := List.mem_map.1 hmem
        exact absurd hredex (not_isRedex_of_atom rfl rfl hn)
    · exact ⟨q, rfl⟩
    · have hparts : (bind h xs b).parts.length = xs.length + 2 := by simp [parts]
      rw [List.getElem?_eq_none (by omega)] at ha
      cases ha
  refine ⟨⟨?_, fun p => ?_⟩, hform⟩
  · refine List.pairwise_map.2 (hL.ordered.imp_of_mem fun hp hq hpq => ?_)
    obtain ⟨p, rfl⟩ := hform _ hp
    obtain ⟨q, rfl⟩ := hform _ hq
    exact before_cons.1 hpq
  · rw [List.mem_map]
    constructor
    · rintro ⟨q, hq, rfl⟩
      obtain ⟨p, rfl⟩ := hform q hq
      obtain ⟨a, n, ha, hn⟩ := (hL.mem_iff _ p).1 hq
      cases hbody.symm.trans ha
      exact ⟨n, hn⟩
    · rintro ⟨n, hn⟩
      exact ⟨_, (hL.mem_iff _ p).2 ⟨b, n, hbody, hn⟩, rfl⟩

/-- **Contraction along a schedule is contraction by recursion.** -/
theorem Schedule.foldlM_deepAt (hL : Schedule R e L) : L.foldlM (deepAt R d) e = contractFrom R d e := by
  induction e generalizing L d with
  | app f as ihf ihas =>
    obtain ⟨L', hparts, rfl⟩ := hL.exists_parts
    have hstep (p : Path) (hp : p ∈ L') (s : Expr × List Expr) : deepAt R d (app s.1 s.2) p =
        (splitStep (deepAt R (d + 1)) (deepIn R (d + 1)) s p).map fun s => app s.1 s.2 := by
      match p with
      | [] => exact absurd hp hparts.inner
      | 0 :: p =>
        rw [splitStep, deepAt, deepAt, contractAt_app_zero, List.length_cons, Nat.add_assoc, Nat.add_comm 1]
        cases contractAt R s.1 p <;> rfl
      | (i + 1) :: p =>
        rw [splitStep, deepAt, deepIn, contractAt_app_succ, List.length_cons, Nat.add_assoc, Nat.add_comm 1]
        cases contractIn R s.2 (i :: p) <;> rfl
    have hfold := foldlM_map hstep (f, as)
    dsimp only at hfold
    rw [foldlM_splitStep faultsAt_deepAt faultsAt_deepIn hparts.ordered hparts.inner, ihf hparts.first,
      hparts.second.foldlM_deepIn fun a ha L hL => ihas a ha hL] at hfold
    rw [List.foldlM_append, hfold, contractFrom]
    cases bothDeep (contractFrom R (d + 1) f) (contractFromAll R (d + 1) as) with
    | error => rfl
    | ok s =>
      dsimp only
      split
      · rw [← contractAt_nil]
        exact bind_pure (deepAt R d (app s.1 s.2) [])
      · rfl
  | bind h xs b ih =>
    obtain ⟨L', hparts, rfl⟩ := hL.exists_parts
    obtain ⟨hbody, hform⟩ := hparts.body
    have hstep (p : Path) (hp : p ∈ L') (c : Expr) :
        deepAt R d (bind h xs c) p = (deepAt R (d + 1) c p.tail).map (bind h xs) := by
      obtain ⟨q, rfl⟩ := hform p hp
      rw [deepAt, deepAt, contractAt_bind, List.length_cons, List.tail_cons, Nat.add_assoc, Nat.add_comm 1]
      cases contractAt R c q <;> rfl
    have hnotRedex : (bind h xs b).isRedex R = false := rfl
    have hfold : L'.foldlM (deepAt R d) (bind h xs b) = _ := foldlM_map hstep b
    rw [hnotRedex, if_neg Bool.false_ne_true, List.append_nil, hfold, contractFrom, ← ih hbody,
      List.foldlM_map]
  | _ =>
    obtain ⟨L', hparts, rfl⟩ := hL.exists_parts
    rw [hparts.eq_nil]
    rfl

/-- **The sweep is contraction by recursion on the expression,** and it is
stopped by the same fault. -/
theorem sweep_eq_contractAll (R : Reserved) (e : Expr) : sweep R e = contractAll R e := by
  rw [contractAll, ← (schedule_sweep R e).foldlM_deepAt, sweep]
  refine (mapError_foldlM (fun e p => ?_) e).symm
  rw [deepAt]
  cases contractAt R e p <;> rfl

end Expr
end SecondOrder
