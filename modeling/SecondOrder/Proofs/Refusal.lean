/-
# Computations that can be refused

How a computation in `Except` that is not refused is taken apart: into its two
halves, and along the list that it traverses.
-/

import Mathlib.Data.List.Forall2

namespace SecondOrder

variable {ε α β : Type}

/-- Two computations after one another succeed if the first does and then the
second. -/
theorem bind_eq_ok {x : Except ε α} {f : α → Except ε β} {b : β} :
    x >>= f = .ok b ↔ ∃ a, x = .ok a ∧ f a = .ok b := by
  cases x with
  | error e => exact ⟨nofun, fun ⟨_, h, _⟩ => nomatch h⟩
  | ok a => exact ⟨fun h => ⟨a, rfl, h⟩, fun ⟨_, h, hf⟩ => Except.ok.inj h ▸ hf⟩

/-- **A traversal that is not refused is not refused anywhere,** and it
collects the results in order. -/
theorem mapM_eq_ok {f : α → Except ε β} {as : List α} {bs : List β} :
    as.mapM f = .ok bs ↔ List.Forall₂ (fun a b => f a = .ok b) as bs := by
  induction as generalizing bs with
  | nil => exact ⟨fun h => Except.ok.inj h ▸ .nil, fun h => by cases h; rfl⟩
  | cons a as ih =>
    rw [List.mapM_cons, bind_eq_ok, List.forall₂_cons_left_iff]
    constructor
    · rintro ⟨b, hb, h⟩
      obtain ⟨cs, hcs, h⟩ := bind_eq_ok.1 h
      exact ⟨b, cs, hb, ih.1 hcs, (Except.ok.inj h).symm⟩
    · rintro ⟨b, cs, hb, hcs, rfl⟩
      exact ⟨b, hb, bind_eq_ok.2 ⟨cs, ih.2 hcs, rfl⟩⟩

/-- Traversals by functions that agree up to a change of their results. -/
theorem mapM_map {γ : Type} {f : α → Except ε β} {g : α → Except ε γ} {h : β → γ}
    (hfg : ∀ a, g a = (f a).map h) (as : List α) : as.mapM g = (as.mapM f).map (List.map h) := by
  induction as with
  | nil => rfl
  | cons a as ih =>
    rw [List.mapM_cons, List.mapM_cons, hfg, ih]
    cases f a with
    | error => rfl
    | ok b => cases as.mapM f <;> rfl

/-- A traversal by a function under which every member passes. -/
theorem mapM_map_of_ok {g : α → Except ε β} {h : β → α} (hgh : ∀ b, g (h b) = .ok b) (bs : List β) :
    (bs.map h).mapM g = .ok bs :=
  mapM_eq_ok.2 (List.forall₂_map_left_iff.2 (List.forall₂_same.2 fun b _ => hgh b))

/-- Among members that pass one may be refused. -/
theorem mapM_set_of_ok {g : α → Except ε β} {h : β → α} (hgh : ∀ b, g (h b) = .ok b) {bs : List β} {i : Nat}
    (hi : i < bs.length) (a : α) : ((bs.map h).set i a).mapM g = (g a).map (bs.set i ·) := by
  induction bs generalizing i with
  | nil => exact absurd hi (Nat.not_lt_zero i)
  | cons b bs ih =>
    cases i with
    | zero =>
      rw [List.map_cons, List.set_cons_zero, List.mapM_cons, mapM_map_of_ok hgh]
      cases g a <;> rfl
    | succ i =>
      rw [List.map_cons, List.set_cons_succ, List.mapM_cons, hgh, ih (Nat.lt_of_succ_lt_succ hi)]
      cases g a <;> rfl

/-- Lists whose members agree place by place under two functions. -/
theorem map_eq_of_forall₂ {γ : Type} {f : α → γ} {g : β → γ} {as : List α} {bs : List β}
    (h : List.Forall₂ (fun a b => g b = f a) as bs) : bs.map g = as.map f := by
  induction h with
  | nil => rfl
  | cons first _ ih => rw [List.map_cons, List.map_cons, first, ih]

/-- What two lists have in common place by place may use that the members
belong to them. -/
theorem forall₂_imp_of_mem {P Q : α → β → Prop} {as : List α} {bs : List β} (h : List.Forall₂ P as bs)
    (himp : ∀ a ∈ as, ∀ b ∈ bs, P a b → Q a b) : List.Forall₂ Q as bs := by
  induction h with
  | nil => exact .nil
  | cons first _ ih =>
    refine .cons (himp _ List.mem_cons_self _ List.mem_cons_self first) (ih fun a ha b hb => ?_)
    exact himp a (List.mem_cons_of_mem _ ha) b (List.mem_cons_of_mem _ hb)

/-- Lists that correspond are empty together. -/
theorem ne_nil_of_forall₂ {P : α → β → Prop} {as : List α} {bs : List β} (h : List.Forall₂ P as bs)
    (hne : as ≠ []) : bs ≠ [] := by
  rintro rfl
  exact hne (List.forall₂_nil_right_iff.1 h)

/-- Members that each have something make a list. -/
theorem exists_forall₂ {P : α → β → Prop} {as : List α} (h : ∀ a ∈ as, ∃ b, P a b) :
    ∃ bs, List.Forall₂ P as bs := by
  induction as with
  | nil => exact ⟨[], .nil⟩
  | cons a as ih =>
    obtain ⟨b, hb⟩ := h a List.mem_cons_self
    obtain ⟨bs, hbs⟩ := ih fun a ha => h a (List.mem_cons_of_mem _ ha)
    exact ⟨b :: bs, .cons hb hbs⟩

/-- Every member of the second list belongs to one of the first. -/
theorem exists_of_forall₂ {P : α → β → Prop} {as : List α} {bs : List β}
    (h : List.Forall₂ P as bs) : ∀ b ∈ bs, ∃ a ∈ as, P a b := by
  induction h with
  | nil => nofun
  | cons first _ ih =>
    intro b hb
    rcases List.mem_cons.1 hb with rfl | hb
    · exact ⟨_, List.mem_cons_self, first⟩
    · obtain ⟨a, ha, hab⟩ := ih b hb
      exact ⟨a, List.mem_cons_of_mem _ ha, hab⟩

/-- Every member of the first list has one of the second. -/
theorem exists_of_forall₂_left {P : α → β → Prop} {as : List α} {bs : List β}
    (h : List.Forall₂ P as bs) : ∀ a ∈ as, ∃ b ∈ bs, P a b :=
  exists_of_forall₂ (List.Forall₂.flip (R := fun b a => P a b) h)

/-- What belongs to the members of a list through those of another. -/
theorem forall₂_trans {γ : Type} {P : α → β → Prop} {Q : β → γ → Prop} {S : α → γ → Prop} {as : List α}
    {bs : List β} {cs : List γ} (hPQ : ∀ a b c, P a b → Q b c → S a c) (h : List.Forall₂ P as bs)
    (h' : List.Forall₂ Q bs cs) : List.Forall₂ S as cs := by
  induction h generalizing cs with
  | nil =>
    cases h'
    exact .nil
  | cons first _ ih =>
    cases h' with
    | cons first' rest' => exact .cons (hPQ _ _ _ first first') (ih rest')

/-- Members that are related by way of something in between are, one list after
the other. -/
theorem exists_forall₂_between {γ : Type} {P : α → β → Prop} {Q : β → γ → Prop} {as : List α} {cs : List γ}
    (h : List.Forall₂ (fun a c => ∃ b, P a b ∧ Q b c) as cs) :
    ∃ bs, List.Forall₂ P as bs ∧ List.Forall₂ Q bs cs := by
  induction h with
  | nil => exact ⟨[], .nil, .nil⟩
  | cons first _ ih =>
    obtain ⟨b, hab, hbc⟩ := first
    obtain ⟨bs, habs, hbcs⟩ := ih
    exact ⟨b :: bs, .cons hab habs, .cons hbc hbcs⟩

/-- What belongs to each member only as itself is the list itself. -/
theorem eq_of_forall₂ {P : α → α → Prop} {as bs : List α} (h : List.Forall₂ P as bs)
    (hP : ∀ a ∈ as, ∀ b, P a b → b = a) : bs = as := by
  induction h with
  | nil => rfl
  | cons first _ ih =>
    rw [List.forall_mem_cons] at hP
    rw [hP.1 _ first, ih hP.2]

/-- What belongs to the members of two lists in a row splits between them. -/
theorem exists_append_of_forall₂ {P : α → β → Prop} {as bs : List α} {cs : List β}
    (h : List.Forall₂ P (as ++ bs) cs) :
    ∃ cs₁ cs₂, cs = cs₁ ++ cs₂ ∧ List.Forall₂ P as cs₁ ∧ List.Forall₂ P bs cs₂ := by
  induction as generalizing cs with
  | nil => exact ⟨[], cs, rfl, .nil, h⟩
  | cons a as ih =>
    cases h with
    | cons first rest =>
      obtain ⟨cs₁, cs₂, rfl, h₁, h₂⟩ := ih rest
      exact ⟨_, cs₂, rfl, .cons first h₁, h₂⟩

/-- What a traversal collects comes from what it traversed. -/
theorem exists_of_mapM_eq_ok {f : α → Except ε β} {as : List α} {bs : List β}
    (h : as.mapM f = .ok bs) : ∀ b ∈ bs, ∃ a ∈ as, f a = .ok b :=
  exists_of_forall₂ (mapM_eq_ok.1 h)

end SecondOrder
