import Mathlib.Data.List.Basic
import Mathlib.Logic.Relation

/-!
# Walks along a partial function

At most one step leads on from each element. A walk that notes what it has visited either ends or
comes back to what it has noted, and in the second case it has seen everything it will ever see
(`not_transGen_of_closed`). Among finitely many elements it cannot go on noting
(`unvisited_cons_lt`).
-/

namespace Walk

open Relation

variable {α : Type} {next : α → Option α} {a b c : α}

/-- One step of the walk. -/
def Follows (next : α → Option α) (a b : α) : Prop :=
  next a = some b

/-- A walk goes through the one element that comes next. -/
theorem transGen_iff_of_next (h : next a = some b) :
    TransGen (Follows next) a c ↔ b = c ∨ TransGen (Follows next) b c := by
  rw [TransGen.head'_iff]
  constructor
  · rintro ⟨b', hstep, hrest⟩
    obtain rfl : b = b' := Option.some.inj (h.symm.trans hstep)
    exact (reflTransGen_iff_eq_or_transGen.1 hrest).imp Eq.symm id
  · rintro (rfl | hrest)
    · exact ⟨b, h, .refl⟩
    · exact ⟨b, h, hrest.to_reflTransGen⟩

/-- A walk that has ended leads nowhere. -/
theorem not_transGen_of_end (h : next a = none) : ¬TransGen (Follows next) a c := by
  intro hwalk
  obtain ⟨b, hstep, -⟩ := TransGen.head'_iff.1 hwalk
  exact absurd (h.symm.trans hstep) (by simp)

/-- A walk does not leave what is closed under steps. -/
theorem not_transGen_of_closed {S : α → Prop} (hclosed : ∀ a b, S a → next a = some b → S b)
    (ha : S a) (hc : ¬S c) : ¬TransGen (Follows next) a c := by
  intro hwalk
  refine hc ?_
  induction hwalk with
  | single hstep => exact hclosed _ _ ha hstep
  | tail _ hstep ih => exact hclosed _ _ (ih fun hb ↦ hc (hclosed _ _ hb hstep)) hstep

/-- How a walk to an element goes does not depend on where that element leads. -/
theorem transGen_of_agree {next' : α → Option α} (h : ∀ i, i ≠ c → next i = next' i) (ha : a ≠ c)
    (hwalk : TransGen (Follows next) a c) : TransGen (Follows next') a c := by
  induction hwalk using TransGen.head_induction_on with
  | single hstep => exact .single ((h _ ha).symm.trans hstep)
  | @head a b hstep _ ih =>
    have hstep' : Follows next' a b := (h a ha).symm.trans hstep
    by_cases hb : b = c
    · exact .single (hb ▸ hstep')
    · exact .head hstep' (ih hb)

variable [DecidableEq α]

/-- How many of the elements have not been visited. -/
def unvisited (elements visited : List α) : ℕ :=
  (elements.filter fun a ↦ a ∉ visited).length

theorem unvisited_cons_lt {elements visited : List α} (ha : a ∈ elements) (hnew : a ∉ visited) :
    unvisited elements (a :: visited) < unvisited elements visited := by
  have hfilter : elements.filter (fun b ↦ b ∉ a :: visited) =
      (elements.filter fun b ↦ b ∉ visited).filter fun b ↦ b ≠ a := by
    rw [List.filter_filter]
    exact List.filter_congr fun b _ ↦ by simp [not_or]
  rw [unvisited, hfilter]
  refine List.length_filter_lt_length_iff_exists.2 ⟨a, ?_, by simp⟩
  exact List.mem_filter.2 ⟨ha, decide_eq_true hnew⟩

end Walk
