import FastRules.Foundations.Interleaving
import Mathlib.Data.Set.Basic
import Mathlib.Data.Set.Insert

/-!
# Locks in descending order

Threads that take locks while they hold others do not deadlock if the locks are ranked and a thread
only ever asks for one that ranks below all it holds. `Interface.ranked` is that rule for one
thread, which knows nothing but the set of locks it holds; `exists_step` is the theorem for all of
them.
-/

namespace Locking

open Program Interleaving

variable {ι Op κ α σ : Type} {Ans : Op → Type}

/-- Which lock a request takes, and which one it gives back. -/
structure Discipline (Op κ : Type) where
  acquires : Op → Option κ
  releases : Op → Option κ

namespace Discipline

variable (D : Discipline Op κ)

/-- The locks that are held after a request. -/
def after (op : Op) (held : Set κ) : Set κ :=
  match D.acquires op with
  | some k => insert k held
  | none =>
    match D.releases op with
    | some k => held \ {k}
    | none => held

/-- Only locks below all that are held are taken, and only what is held is given back. -/
def ranked (rank : κ → ℕ) : Interface Op Ans (Set κ) where
  pre op held := (∀ k, D.acquires op = some k → ∀ q ∈ held, rank k < rank q) ∧
    ∀ k, D.releases op = some k → k ∈ held
  step op held _ held' := held' = D.after op held

end Discipline

variable [DecidableEq κ]

/-- The steps are those of locks: who owns which is kept in the state. A request that takes a lock
waits until nobody owns it, no other request waits. -/
structure Locks (D : Discipline Op κ) (owner : σ → κ → Option ι)
    (step : ι → (op : Op) → σ → Ans op → σ → Prop) : Prop where
  acquire : ∀ i op s a s' k, step i op s a s' → D.acquires op = some k →
    owner s k = none ∧ owner s' = Function.update (owner s) k (some i)
  release : ∀ i op s a s' k, step i op s a s' → D.acquires op = none → D.releases op = some k →
    owner s' = Function.update (owner s) k none
  other : ∀ i op s a s', step i op s a s' → D.acquires op = none → D.releases op = none →
    owner s' = owner s
  enabled : ∀ i op s, (∀ k, D.acquires op = some k → owner s k = none) → ∃ a s', step i op s a s'

/-- The locks a thread owns. -/
def held (owner : σ → κ → Option ι) (i : ι) (s : σ) : Set κ :=
  {k | owner s k = some i}

variable {D : Discipline Op κ} {owner : σ → κ → Option ι} {rank : κ → ℕ}
  {step : ι → (op : Op) → σ → Ans op → σ → Prop} {i j : ι} {op : Op} {s s' : σ} {a : Ans op}

/-- A request does to the locks of its thread what the discipline says. -/
theorem Locks.held_own (h : Locks D owner step) (hstep : step i op s a s') :
    held owner i s' = D.after op (held owner i s) := by
  rw [Discipline.after]
  rcases hacq : D.acquires op with - | k
  · rcases hrel : D.releases op with - | k
    · rw [held, h.other i op s a s' hstep hacq hrel]
      rfl
    · ext q
      rw [held, h.release i op s a s' k hstep hacq hrel]
      show Function.update (owner s) k none q = some i ↔ owner s q = some i ∧ q ∉ ({k} : Set κ)
      rcases eq_or_ne q k with rfl | hne
      · simp
      · rw [Function.update_of_ne hne]
        exact (and_iff_left hne).symm
  · ext q
    rw [held, (h.acquire i op s a s' k hstep hacq).2]
    show Function.update (owner s) k (some i) q = some i ↔ q = k ∨ owner s q = some i
    rcases eq_or_ne q k with rfl | hne
    · simp
    · rw [Function.update_of_ne hne]
      exact (or_iff_right hne).symm

/-- And nothing to the locks of the others. -/
theorem Locks.held_foreign (h : Locks D owner step) (hne : j ≠ i)
    (hpre : (D.ranked rank : Interface Op Ans _).pre op (held owner i s))
    (hstep : step i op s a s') :
    held owner j s' = held owner j s := by
  rcases hacq : D.acquires op with - | k
  · rcases hrel : D.releases op with - | k
    · rw [held, h.other i op s a s' hstep hacq hrel]
      rfl
    · have hown : owner s k = some i := hpre.2 k hrel
      ext q
      rw [held, h.release i op s a s' k hstep hacq hrel]
      show Function.update (owner s) k none q = some j ↔ owner s q = some j
      rcases eq_or_ne q k with rfl | hqk
      · rw [Function.update_self, hown]
        exact iff_of_false (by simp) fun he ↦ hne (Option.some.inj he).symm
      · rw [Function.update_of_ne hqk]
  · obtain ⟨hnone, howner⟩ := h.acquire i op s a s' k hstep hacq
    ext q
    rw [held, howner]
    show Function.update (owner s) k (some i) q = some j ↔ owner s q = some j
    rcases eq_or_ne q k with rfl | hqk
    · rw [Function.update_self, hnone]
      exact iff_of_false (fun he ↦ hne (Option.some.inj he).symm) (by simp)
    · rw [Function.update_of_ne hqk]

theorem Locks.compatible (h : Locks D owner step) :
    Compatible step (fun _ _ _ ↦ False) (fun _ ↦ True) (held owner) (fun _ ↦ D.ranked rank)
      (fun _ (_ : α) locks ↦ locks = ∅) where
  own _ _ _ _ _ _ _ hstep := ⟨trivial, h.held_own hstep⟩
  foreign _ _ _ _ _ _ hne _ hpre hstep := h.held_foreign hne hpre hstep
  other _ _ _ _ _ := False.elim

variable [DecidableEq ι] {c₀ c : Config ι Op Ans α σ}

/-- When all threads have returned nobody owns a lock. -/
theorem Locks.owner_eq_none (h : Locks D owner step)
    (hstart : ∀ i, (c₀.thread i).Ensures (D.ranked rank) (fun _ locks ↦ locks = ∅)
      (held owner i c₀.state))
    (hreach : Reaches step (fun _ _ _ ↦ False) c₀ c) (hdone : ∀ i, ∃ a, c.thread i = .ret a)
    (k : κ) :
    owner c.state k = none := by
  have hens := (h.compatible.ensures ⟨trivial, hstart⟩ hreach).2
  rcases howner : owner c.state k with - | i
  · rfl
  · obtain ⟨a, hret⟩ := hdone i
    have hi := hens i
    rw [hret] at hi
    have hempty : held owner i c.state = ∅ := hi
    exact absurd (show k ∈ held owner i c.state from howner) (by simp [hempty])

/-- **No deadlock.** If each thread respects the order and gives back all it takes, then as long as
a thread has not returned, some thread can make a step. -/
theorem Locks.exists_step (h : Locks D owner step)
    (hstart : ∀ i, (c₀.thread i).Ensures (D.ranked rank) (fun _ locks ↦ locks = ∅)
      (held owner i c₀.state))
    (hreach : Reaches step (fun _ _ _ ↦ False) c₀ c)
    (hrunning : ∃ i, (c.thread i).hasReturned = false) :
    ∃ c', Step step (fun _ _ _ ↦ False) c c' := by
  have hens := (h.compatible.ensures ⟨trivial, hstart⟩ hreach).2
  by_contra hstuck
  -- whoever is stuck waits for a lock that somebody owns
  have hwaits : ∀ i, (c.thread i).hasReturned = false → ∃ op next k j, c.thread i = .ask op next ∧
      D.acquires op = some k ∧ owner c.state k = some j := by
    intro i hi
    rcases hthread : c.thread i with a | ⟨op, next⟩
    · rw [hthread] at hi
      cases hi
    · by_contra hfree
      push Not at hfree
      obtain ⟨a, s', hstep⟩ := h.enabled i op c.state fun k hk ↦ by
        rcases howner : owner c.state k with - | j
        · rfl
        · exact absurd howner (hfree op next k j rfl hk)
      exact hstuck ⟨_, .own hthread hstep⟩
  -- there is no lowest such lock, since its owner waits for a lower one
  have hnone : ∀ n i op next k, c.thread i = .ask op next → D.acquires op = some k →
      rank k = n → ∀ j, owner c.state k ≠ some j := by
    intro n
    induction n using Nat.strong_induction_on with
    | h n ih =>
      intro i op next k hthread hk hrank j howner
      have hj := hens j
      rcases hj' : (c.thread j).hasReturned with - | -
      · obtain ⟨op', next', k', l, hthread', hk', howner'⟩ := hwaits j hj'
        rw [hthread'] at hj
        exact ih (rank k') (hrank ▸ hj.1.1 k' hk' k howner) j op' next' k' hthread' hk' rfl
          l howner'
      · rcases hret : c.thread j with a | ⟨op', next'⟩
        · rw [hret] at hj
          have hempty : held owner j c.state = ∅ := hj
          exact absurd (show k ∈ held owner j c.state from howner) (by simp [hempty])
        · rw [hret] at hj'
          cases hj'
  obtain ⟨i, hi⟩ := hrunning
  obtain ⟨op, next, k, j, hthread, hk, howner⟩ := hwaits i hi
  exact hnone (rank k) i op next k hthread hk rfl j howner

end Locking
