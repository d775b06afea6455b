import Mathlib.Logic.Relation
import Mathlib.Order.WellFounded
import Mathlib.Data.Fintype.EquivFin
import Mathlib.Data.Finset.Card
import Mathlib.Order.RelClasses
import Mathlib.Data.Set.Finite.Basic
import Mathlib.Data.List.Chain

/-!
# Cycles of relations on finite lists

A relation in which every listed element has a listed successor runs into a cycle, and the elements
on cycles are themselves such a family. These two facts are the two halves of every argument that a
peeling loop gets stuck exactly on cyclic graphs.
-/

namespace Descent

open Relation

variable {α : Type*} {R : α → α → Prop}

/-- An element on a cycle. -/
def OnCycle (R : α → α → Prop) (x : α) : Prop :=
  TransGen R x x

/-- Every element on a cycle has a successor on the same cycle. -/
theorem OnCycle.exists_succ {x : α} (h : OnCycle R x) : ∃ y, R x y ∧ OnCycle R y := by
  obtain ⟨y, hxy, hyx⟩ := TransGen.head'_iff.1 h
  exact ⟨y, hxy, TransGen.tail' hyx hxy⟩

/-- The image of a cycle. -/
theorem OnCycle.lift {β : Type*} {S : β → β → Prop} (f : α → β) (h : ∀ x y, R x y → S (f x) (f y))
    {x : α} (hx : OnCycle R x) : OnCycle S (f x) :=
  TransGen.lift f h x x hx

/-- What holds of all elements that a cycle leads to and back from holds all along the cycle. -/
theorem OnCycle.within {x : α} {P : α → Prop} (h : OnCycle R x)
    (hP : ∀ y, ReflTransGen R x y → TransGen R y x → P y) :
    OnCycle (fun y z ↦ R y z ∧ P y ∧ P z) x := by
  have hx : P x := hP x .refl h
  -- every part of the cycle runs through elements that the rest of it leads back from
  have hpath : ∀ y, ReflTransGen R x y → TransGen R y x →
      ReflTransGen (fun y z ↦ R y z ∧ P y ∧ P z) x y := by
    intro y hxy
    induction hxy with
    | refl => exact fun _ ↦ .refl
    | @tail y z hxy hyz ih =>
      intro hzx
      have hyx : TransGen R y x := .head hyz hzx
      exact (ih hyx).tail ⟨hyz, hP y hxy hyx, hP z (hxy.tail hyz) hzx⟩
  obtain ⟨y, hxy, hyx⟩ := TransGen.tail'_iff.1 h
  exact .tail' (hpath y hxy (.single hyx)) ⟨hyx, hP y hxy (.single hyx), hx⟩

/-- If every member of a nonempty list has a successor in the list, the relation has a cycle
through one of them. -/
theorem exists_onCycle {l : List α} (hne : l ≠ []) (h : ∀ x ∈ l, ∃ y ∈ l, R x y) :
    ∃ x ∈ l, OnCycle R x := by
  by_contra hno
  push Not at hno
  -- without cycles the reversed transitive closure is a strict order on the finite set of members
  let below : {x // x ∈ l} → {x // x ∈ l} → Prop := fun a b ↦ TransGen R b.1 a.1
  have htrans : IsTrans {x // x ∈ l} below := ⟨fun _ _ _ hab hbc ↦ TransGen.trans hbc hab⟩
  have hirrefl : Std.Irrefl below := ⟨fun a ha ↦ hno a.1 a.2 ha⟩
  have hfin : Finite {x // x ∈ l} := (List.finite_toSet l).to_subtype
  have hwf : WellFounded below := Finite.wellFounded_of_trans_of_irrefl below
  obtain ⟨x, hx⟩ := List.exists_mem_of_ne_nil l hne
  obtain ⟨a, -, hmin⟩ := hwf.has_min Set.univ ⟨⟨x, hx⟩, Set.mem_univ _⟩
  obtain ⟨y, hy, hay⟩ := h a.1 a.2
  exact hmin ⟨y, hy⟩ (Set.mem_univ _) (TransGen.single hay)

/-- Among finitely many elements without cycles there are no infinite paths. -/
theorem acc_of_not_onCycle {l : List α} {P : α → Prop} (hmem : ∀ x, P x → x ∈ l)
    (hclosed : ∀ x y, P x → R x y → P y) (hacyclic : ∀ x, P x → ¬OnCycle R x) {x : α} (hx : P x) :
    Acc (flip R) x := by
  classical
  by_contra hno
  have hin : ∀ {y}, y ∈ l.filter (fun y ↦ P y ∧ ¬Acc (flip R) y) ↔ P y ∧ ¬Acc (flip R) y := by
    intro y
    rw [List.mem_filter, decide_eq_true_eq]
    exact and_iff_right_of_imp fun h ↦ hmem y h.1
  obtain ⟨y, hy, hcycle⟩ := exists_onCycle (List.ne_nil_of_mem (hin.2 ⟨hx, hno⟩)) fun y hy ↦ by
    obtain ⟨hPy, hnoy⟩ := hin.1 hy
    by_contra hall
    push Not at hall
    refine hnoy (Acc.intro y fun z hz ↦ ?_)
    by_contra hnoz
    exact hall z (hin.2 ⟨hclosed y z hPy hz, hnoz⟩) hz
  exact hacyclic y (hin.1 hy).1 hcycle

/-- No cycle passes through an accessible element. -/
theorem not_onCycle_of_acc {x : α} (h : Acc (flip R) x) : ¬OnCycle R x := by
  induction h with
  | intro x _ ih =>
    intro hx
    obtain ⟨y, hxy, hy⟩ := hx.exists_succ
    exact ih y hxy hy

/-- Ranks that every successor lowers leave no room for cycles. -/
theorem not_onCycle_of_rank {ρ : α → ℕ → Prop} (h : ∀ x i, ρ x i → ∀ y, R x y → ∃ j < i, ρ y j)
    {x : α} {i : ℕ} (hx : ρ x i) : ¬OnCycle R x := by
  induction i using Nat.strong_induction_on generalizing x with
  | _ i ih =>
    intro hcycle
    obtain ⟨y, hxy, hy⟩ := hcycle.exists_succ
    obtain ⟨j, hj, hyj⟩ := h x i hx y hxy
    exact ih j hj hyj hy

/-- Without cycles the elements of a list can be ordered so that the relation only leads back. -/
theorem exists_perm_backward {l : List α} (hacyclic : ∀ x ∈ l, ¬OnCycle R x) :
    ∃ l' : List α, l'.Perm l ∧ l'.Pairwise fun x y ↦ ¬R x y := by
  classical
  induction hn : l.length generalizing l with
  | zero => exact ⟨l, .refl l, by rw [List.length_eq_zero_iff.1 hn]; exact .nil⟩
  | succ n ih =>
    have hne : l ≠ [] := fun h ↦ by rw [h] at hn; cases hn
    obtain ⟨x, hx, hsink⟩ : ∃ x ∈ l, ∀ y ∈ l, ¬R x y := by
      by_contra hno
      push Not at hno
      obtain ⟨x, hx, hcycle⟩ := exists_onCycle hne hno
      exact hacyclic x hx hcycle
    obtain ⟨l', hperm, hback⟩ := ih (fun y hy ↦ hacyclic y (List.mem_of_mem_erase hy))
      (by rw [List.length_erase_of_mem hx, hn]; rfl)
    refine ⟨x :: l', (hperm.cons x).trans (List.perm_cons_erase hx).symm, ?_⟩
    exact .cons (fun y hy ↦ hsink y (List.mem_of_mem_erase (hperm.mem_iff.1 hy))) hback

/-- A path can be taken without visiting anything twice. -/
theorem exists_nodup_path [DecidableEq α] {x y : α} (h : ReflTransGen R x y) :
    ∃ l, (x :: l).IsChain R ∧ (x :: l).Nodup ∧ (x :: l).getLast (List.cons_ne_nil x l) = y := by
  induction h using ReflTransGen.head_induction_on with
  | refl => exact ⟨[], .singleton y, List.nodup_singleton y, rfl⟩
  | @head x z hxz _ ih =>
    obtain ⟨l, hchain, hnodup, hlast⟩ := ih
    by_cases hx : x ∈ z :: l
    · -- the path comes back to `x`: keep what follows
      obtain ⟨before, after, heq⟩ := List.append_of_mem hx
      refine ⟨after, ?_, ?_, ?_⟩
      · exact (heq ▸ hchain : (before ++ x :: after).IsChain R).right_of_append
      · exact (heq ▸ hnodup).of_append_right
      · rw [← hlast]
        simp only [heq]
        exact (List.getLast_append_of_ne_nil _ (List.cons_ne_nil x after)).symm
    · exact ⟨z :: l, hchain.cons_cons hxz, List.nodup_cons.2 ⟨hx, hnodup⟩, by
        rw [List.getLast_cons (List.cons_ne_nil z l)]
        exact hlast⟩

end Descent
