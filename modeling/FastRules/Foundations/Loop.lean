import Mathlib.Data.Nat.Basic
import Mathlib.Logic.Relation
import Mathlib.Tactic.Cases

/-!
# Unbounded loops as iterated exits

The semantics of a `while` loop whose termination is a theorem rather than a syntactic fact: one
pass either continues with a new state or leaves with a result, `Loop.run` makes at most a given
number of passes, and `Loop.Returns` says that some number of passes suffices. A loop without any
result is one on which `Returns` fails for every value.

Nothing here knows what is being iterated. The rules a client uses are

* `Returns.unique` — the result does not depend on the number of passes allowed;
* `exists_returns_of_measure` — a natural-number measure that every continuing pass lowers;
* `not_returns_of_invariant` — an invariant under which every pass continues rules out a result;
* `Returns.invariant` — whatever every pass preserves holds of the state the loop leaves from.
-/

namespace Loop

variable {σ α : Type*}

/-- Make at most `fuel` passes of `step`. `Sum.inl` continues, `Sum.inr` leaves the loop. -/
def run (step : σ → σ ⊕ α) : ℕ → σ → Option α
  | 0, _ => none
  | fuel + 1, s =>
    match step s with
    | Sum.inl s' => run step fuel s'
    | Sum.inr a => some a

/-- The loop started in `s` ends with `a`. -/
def Returns (step : σ → σ ⊕ α) (s : σ) (a : α) : Prop :=
  ∃ fuel, run step fuel s = some a

/-- The loop started in `s` passes through `t`. -/
def Reaches (step : σ → σ ⊕ α) : σ → σ → Prop :=
  Relation.ReflTransGen fun s s' ↦ step s = Sum.inl s'

variable {step : σ → σ ⊕ α} {s s' t : σ} {a b : α}

theorem run_succ_of_continue (h : step s = Sum.inl s') (fuel : ℕ) :
    run step (fuel + 1) s = run step fuel s' := by
  rw [run, h]

theorem run_succ_of_exit (h : step s = Sum.inr a) (fuel : ℕ) :
    run step (fuel + 1) s = some a := by
  rw [run, h]

/-- More passes never change a result that was reached. -/
theorem run_mono {m n : ℕ} (hmn : m ≤ n) (h : run step m s = some a) : run step n s = some a := by
  induction m generalizing n s with
  | zero => simp [run] at h
  | succ m ih =>
    obtain ⟨n, rfl⟩ : ∃ k, n = k + 1 := ⟨n - 1, by omega⟩
    rcases hs : step s with s' | c
    · rw [run_succ_of_continue hs] at h ⊢
      exact ih (by omega) h
    · rw [run_succ_of_exit hs] at h ⊢
      exact h

/-- The result of a loop is unique. -/
theorem Returns.unique (ha : Returns step s a) (hb : Returns step s b) : a = b := by
  obtain ⟨m, hm⟩ := ha
  obtain ⟨n, hn⟩ := hb
  have h₁ := run_mono (Nat.le_max_left m n) hm
  have h₂ := run_mono (Nat.le_max_right m n) hn
  exact Option.some.inj (h₁.symm.trans h₂)

/-- Whatever every continuing pass preserves holds of every state the loop passes through. -/
theorem Reaches.invariant {Inv : σ → Prop} (hstep : ∀ s s', Inv s → step s = Sum.inl s' → Inv s')
    (hs : Inv s) (h : Reaches step s t) : Inv t := by
  induction h with
  | refl => exact hs
  | tail _ hlast ih => exact hstep _ _ ih hlast

/-- Whatever every continuing pass preserves holds of the state the loop finally leaves from. -/
theorem Returns.invariant {Inv : σ → Prop} (hstep : ∀ s s', Inv s → step s = Sum.inl s' → Inv s')
    (hs : Inv s) (h : Returns step s a) : ∃ t, Inv t ∧ step t = Sum.inr a := by
  obtain ⟨fuel, hfuel⟩ := h
  induction fuel generalizing s with
  | zero => simp [run] at hfuel
  | succ fuel ih =>
    rcases hc : step s with s' | c
    · rw [run_succ_of_continue hc] at hfuel
      exact ih (hstep s s' hs hc) hfuel
    · rw [run_succ_of_exit hc] at hfuel
      exact ⟨s, hs, hc.trans (congrArg Sum.inr (Option.some.inj hfuel))⟩

/-- A loop that goes on to a state ends as it does from there. -/
theorem Reaches.returns (h : Reaches step s t) (ha : Returns step t a) : Returns step s a := by
  induction h using Relation.ReflTransGen.head_induction_on with
  | refl => exact ha
  | head hstep _ ih =>
    obtain ⟨fuel, hfuel⟩ := ih
    exact ⟨fuel + 1, (run_succ_of_continue hstep fuel).trans hfuel⟩

/-- A measure that every continuing pass lowers bounds the number of passes. -/
theorem run_isSome_of_measure (Inv : σ → Prop) (μ : σ → ℕ)
    (hstep : ∀ s s', Inv s → step s = Sum.inl s' → Inv s' ∧ μ s' < μ s) (hs : Inv s) {fuel : ℕ}
    (hfuel : μ s < fuel) : (run step fuel s).isSome := by
  induction fuel generalizing s with
  | zero => omega
  | succ fuel ih =>
    rcases hc : step s with s' | c
    · obtain ⟨hInv, hlt⟩ := hstep s s' hs hc
      rw [run_succ_of_continue hc]
      exact ih hInv (by omega)
    · rw [run_succ_of_exit hc]
      rfl

/-- A loop with such a measure has a result. -/
theorem exists_returns_of_measure (Inv : σ → Prop) (μ : σ → ℕ)
    (hstep : ∀ s s', Inv s → step s = Sum.inl s' → Inv s' ∧ μ s' < μ s) (hs : Inv s) :
    ∃ a, Returns step s a := by
  obtain ⟨a, ha⟩ :=
    Option.isSome_iff_exists.1 (run_isSome_of_measure Inv μ hstep hs (Nat.lt_succ_self _))
  exact ⟨a, _, ha⟩

/-- An invariant under which every pass continues rules out any result. -/
theorem not_returns_of_invariant (Inv : σ → Prop)
    (hstep : ∀ s, Inv s → ∃ s', step s = Sum.inl s' ∧ Inv s') (hs : Inv s) (a : α) :
    ¬Returns step s a := by
  rintro ⟨fuel, hfuel⟩
  induction fuel generalizing s with
  | zero => simp [run] at hfuel
  | succ fuel ih =>
    obtain ⟨s', hc, hInv⟩ := hstep s hs
    rw [run_succ_of_continue hc] at hfuel
    exact ih hInv hfuel

end Loop
