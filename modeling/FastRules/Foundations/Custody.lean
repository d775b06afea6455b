import Mathlib.Algebra.BigOperators.Group.Finset.Basic
import Mathlib.Algebra.Order.BigOperators.Group.Finset
import Mathlib.Data.Multiset.UnionInter
import Mathlib.Logic.Function.Basic
import Mathlib.Logic.Relation

/-!
# Things in custody

Things that are handed between finitely many holders. Each holder holds a multiset, given by its
state, and `custody` is everything that is held. A step that changes the state of one holder changes
the custody by what that holder takes and gives (`custody_update`); as long as the custody has no
duplicates, no two holders hold the same thing and nobody holds a thing twice.

`Runs` are the finite runs of a transition relation from its initial states.
-/

/-! ### Runs -/

/-- The states that are reached from an initial state. -/
def Runs {σ : Type} (Start : σ → Prop) (Step : σ → σ → Prop) (s : σ) : Prop :=
  ∃ s₀, Start s₀ ∧ Relation.ReflTransGen Step s₀ s

/-- What holds at the start and is kept by every step holds throughout every run. -/
theorem Runs.invariant {σ : Type} {Start : σ → Prop} {Step : σ → σ → Prop} {Inv : σ → Prop}
    (hstart : ∀ s, Start s → Inv s) (hstep : ∀ s s', Inv s → Step s s' → Inv s') {s : σ}
    (h : Runs Start Step s) : Inv s := by
  obtain ⟨s₀, hs₀, hreach⟩ := h
  induction hreach with
  | refl => exact hstart s₀ hs₀
  | tail _ hlast ih => exact hstep _ _ ih hlast

/-- A run goes on. -/
theorem Runs.tail {σ : Type} {Start : σ → Prop} {Step : σ → σ → Prop} {s s' : σ}
    (h : Runs Start Step s) (hstep : Step s s') : Runs Start Step s' := by
  obtain ⟨s₀, hs₀, hreach⟩ := h
  exact ⟨s₀, hs₀, hreach.tail hstep⟩

/-! ### Custody -/

variable {ι α σ : Type} [Fintype ι]

/-- Everything that is held. -/
def custody (held : σ → Multiset α) (state : ι → σ) : Multiset α :=
  ∑ i, held (state i)

/-- Who holds nothing does not matter. -/
theorem custody_eq_zero {held : σ → Multiset α} {state : ι → σ} (h : ∀ i, held (state i) = 0) :
    custody held state = 0 :=
  Finset.sum_eq_zero fun i _ ↦ h i

theorem le_custody (held : σ → Multiset α) (state : ι → σ) (i : ι) :
    held (state i) ≤ custody held state :=
  Finset.single_le_sum (f := fun j ↦ held (state j)) (fun _ _ ↦ zero_le) (Finset.mem_univ i)

variable [DecidableEq ι]

/-- One holder changes its state. -/
theorem custody_update (held : σ → Multiset α) (state : ι → σ) (i : ι) (x : σ) :
    custody held (Function.update state i x) + held (state i) = custody held state + held x := by
  have hrest : ∑ j ∈ Finset.univ.erase i, held (Function.update state i x j) =
      ∑ j ∈ Finset.univ.erase i, held (state j) := by
    refine Finset.sum_congr rfl fun j hj ↦ ?_
    rw [Function.update_of_ne (Finset.ne_of_mem_erase hj)]
  rw [custody, custody, ← Finset.add_sum_erase _ _ (Finset.mem_univ i),
    ← Finset.add_sum_erase _ _ (Finset.mem_univ i), hrest, Function.update_self]
  ac_rfl

/-- A holder takes something in. -/
theorem custody_update_take {held : σ → Multiset α} {state : ι → σ} {i : ι} {x : σ} {d : Multiset α}
    (h : held x = held (state i) + d) :
    custody held (Function.update state i x) = custody held state + d := by
  have hsum := custody_update held state i x
  rw [h, add_comm (held (state i)) d, ← add_assoc] at hsum
  exact add_right_cancel hsum

/-- A holder gives something away. -/
theorem custody_update_give {held : σ → Multiset α} {state : ι → σ} {i : ι} {x : σ} {d : Multiset α}
    (h : held (state i) = held x + d) :
    custody held (Function.update state i x) + d = custody held state := by
  have hsum := custody_update held state i x
  rw [h, add_comm (held x) d, ← add_assoc] at hsum
  exact add_right_cancel hsum

/-- A holder that keeps what it has leaves the custody alone. -/
theorem custody_update_keep {held : σ → Multiset α} {state : ι → σ} {i : ι} {x : σ}
    (h : held x = held (state i)) :
    custody held (Function.update state i x) = custody held state := by
  have hsum := custody_update held state i x
  rw [h] at hsum
  exact add_right_cancel hsum

/-- Two holders of a custody without duplicates have nothing in common. -/
theorem disjoint_of_nodup_custody {held : σ → Multiset α} {state : ι → σ}
    (h : (custody held state).Nodup) {i j : ι} (hij : i ≠ j) :
    Disjoint (held (state i)) (held (state j)) := by
  have hrest : held (state j) ≤ ∑ k ∈ Finset.univ.erase i, held (state k) :=
    Finset.single_le_sum (f := fun k ↦ held (state k)) (fun _ _ ↦ zero_le)
      (Finset.mem_erase.2 ⟨hij.symm, Finset.mem_univ j⟩)
  rw [custody, ← Finset.add_sum_erase _ _ (Finset.mem_univ i)] at h
  exact (Multiset.nodup_add.1 (Multiset.nodup_of_le (add_le_add_right hrest _) h)).2.2
