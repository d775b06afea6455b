import Mathlib.Data.Nat.Init
import Mathlib.Logic.Relation

/-!
# Systems that come to an end

A system whose steps use something up, and that is stuck nowhere but at its end, comes to it.
-/

namespace Progress

open Relation

variable {σ : Type*} {Inv : σ → Prop} {s : σ}

/-- Steps that use something up lead to an end, as long as only the end has no further step. -/
theorem exists_end {next : σ → σ → Prop} {done : σ → Prop} (left : σ → ℕ)
    (hnext : ∀ s s', Inv s → next s s' → Inv s' ∧ left s' < left s)
    (hprogress : ∀ s, Inv s → ¬done s → ∃ s', next s s') (hs : Inv s) :
    ∃ s', ReflTransGen next s s' ∧ done s' := by
  induction hn : left s using Nat.strongRecOn generalizing s with
  | ind n ih =>
    by_cases hdone : done s
    · exact ⟨s, .refl, hdone⟩
    · obtain ⟨s', hstep⟩ := hprogress s hs hdone
      obtain ⟨hs', hlt⟩ := hnext s s' hs hstep
      obtain ⟨t, hreach, ht⟩ := ih (left s') (hn ▸ hlt) hs' rfl
      exact ⟨t, .head hstep hreach, ht⟩

end Progress
