import FastRules.Foundations.Program
import Mathlib.Data.Fintype.Basic
import Mathlib.Logic.Function.Basic
import Mathlib.Logic.Hydra
import Mathlib.Logic.Relation

/-!
# Interleaving

Several programs that share a state. A step is one request of one thread, or a step of whoever
supervises the threads (`other`), which may depend on which of them have returned what.

The rule is `Relying.ensures`: if each thread has its own view of the state, knows what its own
requests do to that view, and reckons with what everybody else's steps may do to it, then every
thread ensures under every schedule what it ensures alone. `Compatible.ensures` is the case in which
nobody else's steps change the view. Finitely many threads without a supervisor come to their ends
(`wellFounded_step`), and what holds wherever they can end holds in the end (`Inevitably`).
-/

namespace Interleaving

variable {ι Op : Type} {Ans : Op → Type} {α σ τ : Type}

/-- The threads and the shared state. -/
structure Config (ι Op : Type) (Ans : Op → Type) (α σ : Type) where
  thread : ι → Program Op Ans α
  state : σ

/-- One step: a request of some thread, or a step of the supervisor. -/
inductive Step [DecidableEq ι] (step : ι → (op : Op) → σ → Ans op → σ → Prop)
    (other : (ι → Program Op Ans α) → σ → σ → Prop) :
    Config ι Op Ans α σ → Config ι Op Ans α σ → Prop
  | own {c : Config ι Op Ans α σ} {i : ι} {op : Op} {next : Ans op → Program Op Ans α} {a : Ans op}
      {s' : σ} (hthread : c.thread i = .ask op next) (hstep : step i op c.state a s') :
      Step step other c ⟨Function.update c.thread i (next a), s'⟩
  | other {c : Config ι Op Ans α σ} {s' : σ} (hother : other c.thread c.state s') :
      Step step other c ⟨c.thread, s'⟩

/-- Any number of steps. -/
def Reaches [DecidableEq ι] (step : ι → (op : Op) → σ → Ans op → σ → Prop)
    (other : (ι → Program Op Ans α) → σ → σ → Prop) :
    Config ι Op Ans α σ → Config ι Op Ans α σ → Prop :=
  Relation.ReflTransGen (Step step other)

/-- A thread can go ahead alone. -/
theorem Reaches.of_steps [DecidableEq ι] {step : ι → (op : Op) → σ → Ans op → σ → Prop}
    {other : (ι → Program Op Ans α) → σ → σ → Prop} {c : Config ι Op Ans α σ} {i : ι}
    {p : Program Op Ans α} {s : σ} (h : Program.Steps (step i) (c.thread i, c.state) (p, s)) :
    Reaches step other c ⟨Function.update c.thread i p, s⟩ := by
  generalize hp : (p, s) = q at h
  induction h generalizing p s with
  | refl =>
    obtain ⟨rfl, rfl⟩ := Prod.mk.inj hp
    rw [Function.update_eq_self]
    exact .refl
  | @tail q r _ hlast ih =>
    obtain @⟨op, next, s₁, _, a, hstep⟩ := hlast
    obtain ⟨rfl, rfl⟩ := Prod.mk.inj hp
    have hown : Step step other ⟨Function.update c.thread i (.ask op next), s₁⟩
        ⟨Function.update (Function.update c.thread i (.ask op next)) i (next a), s⟩ :=
      Step.own (Function.update_self i _ c.thread) hstep
    rw [Function.update_idem] at hown
    exact (ih rfl).tail hown

/-- The threads rely on each other: under a common invariant each thread's requests do to its view
what its interface says and move the views of the others along `rely` at most, which the interfaces
of the others reckon with. -/
structure Relying (step : ι → (op : Op) → σ → Ans op → σ → Prop)
    (other : (ι → Program Op Ans α) → σ → σ → Prop) (Inv : σ → Prop) (view : ι → σ → τ)
    (rely : ι → τ → τ → Prop) (I : ι → Program.Interface Op Ans τ) (Q : ι → α → τ → Prop) :
    Prop where
  own : ∀ i op s a s', Inv s → (I i).pre op (view i s) → step i op s a s' →
    Inv s' ∧ (I i).step op (view i s) a (view i s')
  foreign : ∀ i j op s a s', j ≠ i → Inv s → (I i).pre op (view i s) → step i op s a s' →
    rely j (view j s) (view j s')
  other : ∀ thread s s', Inv s → (∀ i, (thread i).Ensures (I i) (Q i) (view i s)) →
    other thread s s' → Inv s' ∧ ∀ j, rely j (view j s) (view j s')
  stable_pre : ∀ j op t t', rely j t t' → (I j).pre op t → (I j).pre op t'
  stable_step : ∀ j op t t' a t'', rely j t t' → (I j).step op t' a t'' → (I j).step op t a t''
  stable_post : ∀ j a t t', rely j t t' → Q j a t → Q j a t'

/-- The threads get along: under a common invariant each thread's requests do to its view what its
interface says, and leave the views of the others alone. -/
structure Compatible (step : ι → (op : Op) → σ → Ans op → σ → Prop)
    (other : (ι → Program Op Ans α) → σ → σ → Prop) (Inv : σ → Prop) (view : ι → σ → τ)
    (I : ι → Program.Interface Op Ans τ) (Q : ι → α → τ → Prop) : Prop where
  own : ∀ i op s a s', Inv s → (I i).pre op (view i s) → step i op s a s' →
    Inv s' ∧ (I i).step op (view i s) a (view i s')
  foreign : ∀ i j op s a s', j ≠ i → Inv s → (I i).pre op (view i s) → step i op s a s' →
    view j s' = view j s
  other : ∀ thread s s', Inv s → (∀ i, (thread i).Ensures (I i) (Q i) (view i s)) →
    other thread s s' → Inv s' ∧ ∀ j, view j s' = view j s

variable [DecidableEq ι] {step : ι → (op : Op) → σ → Ans op → σ → Prop}
  {other : (ι → Program Op Ans α) → σ → σ → Prop} {Inv : σ → Prop} {view : ι → σ → τ}
  {I : ι → Program.Interface Op Ans τ} {Q : ι → α → τ → Prop} {c c' : Config ι Op Ans α σ}

omit [DecidableEq ι] in
/-- Threads that leave each other's views alone rely on that. -/
theorem Compatible.relying (h : Compatible step other Inv view I Q) :
    Relying step other Inv view (fun _ t t' ↦ t' = t) I Q where
  own := h.own
  foreign := h.foreign
  other := h.other
  stable_pre j op t t' := by
    rintro rfl
    exact id
  stable_step j op t t' a t'' := by
    rintro rfl
    exact id
  stable_post j a t t' := by
    rintro rfl
    exact id

section Relying

variable {rely : ι → τ → τ → Prop}

/-- A step keeps what all threads ensure. -/
theorem Relying.step_ensures (h : Relying step other Inv view rely I Q)
    (hc : Inv c.state ∧ ∀ i, (c.thread i).Ensures (I i) (Q i) (view i c.state))
    (hstep : Step step other c c') :
    Inv c'.state ∧ ∀ i, (c'.thread i).Ensures (I i) (Q i) (view i c'.state) := by
  obtain ⟨hinv, hens⟩ := hc
  have hmoved : ∀ j s', rely j (view j c.state) (view j s') →
      (c.thread j).Ensures (I j) (Q j) (view j s') := fun j s' hrely ↦
    (hens j).of_rely (h.stable_pre j) (fun op t t' a t'' ↦ h.stable_step j op t t' a t'')
      (h.stable_post j) hrely
  rcases hstep with ⟨hthread, hstep⟩ | hother
  · rename_i i op next a s'
    have hi := hens i
    rw [hthread] at hi
    obtain ⟨hinv', hown⟩ := h.own i op c.state a s' hinv hi.1 hstep
    refine ⟨hinv', fun j ↦ ?_⟩
    rcases eq_or_ne j i with rfl | hji
    · show (Function.update c.thread j (next a) j).Ensures _ _ _
      rw [Function.update_self]
      exact hi.2 a _ hown
    · show (Function.update c.thread i (next a) j).Ensures _ _ (view j s')
      rw [Function.update_of_ne hji]
      exact hmoved j s' (h.foreign i j op c.state a s' hji hinv hi.1 hstep)
  · rename_i s'
    obtain ⟨hinv', hview⟩ := h.other c.thread c.state s' hinv hens hother
    exact ⟨hinv', fun j ↦ hmoved j s' (hview j)⟩

/-- Under every schedule each thread ensures what it ensures alone, if the others do no more to it
than it relies on. -/
theorem Relying.ensures (h : Relying step other Inv view rely I Q)
    (hc : Inv c.state ∧ ∀ i, (c.thread i).Ensures (I i) (Q i) (view i c.state))
    (hreach : Reaches step other c c') :
    Inv c'.state ∧ ∀ i, (c'.thread i).Ensures (I i) (Q i) (view i c'.state) := by
  induction hreach with
  | refl => exact hc
  | tail _ hlast ih => exact h.step_ensures ih hlast

end Relying

/-- Under every schedule each thread ensures what it ensures alone. -/
theorem Compatible.ensures (h : Compatible step other Inv view I Q)
    (hc : Inv c.state ∧ ∀ i, (c.thread i).Ensures (I i) (Q i) (view i c.state))
    (hreach : Reaches step other c c') :
    Inv c'.state ∧ ∀ i, (c'.thread i).Ensures (I i) (Q i) (view i c'.state) :=
  h.relying.ensures hc hreach

/-- When all others have returned it is the remaining thread that makes a step. -/
theorem Step.alone {i : ι} (h : Step step (fun _ _ _ ↦ False) c c')
    (hothers : ∀ j, j ≠ i → (c.thread j).hasReturned = true) :
    ∃ op next a, c.thread i = .ask op next ∧ step i op c.state a c'.state ∧
      c'.thread = Function.update c.thread i (next a) := by
  rcases h with ⟨hthread, hstep⟩ | hother
  · rename_i j op next a s'
    rcases eq_or_ne j i with rfl | hne
    · exact ⟨op, next, a, hthread, hstep, rfl⟩
    · have hreturned := hothers j hne
      rw [hthread] at hreturned
      cases hreturned
  · exact absurd hother id

/-! ### Termination -/

/-- One program is what is left of the other after a request. -/
def Left (p' p : Program Op Ans α) : Prop :=
  ∃ op next a, p = .ask op next ∧ p' = next a

theorem wellFounded_left : WellFounded (@Left Op Ans α) := by
  refine ⟨fun p ↦ ?_⟩
  induction p with
  | ret a =>
    refine ⟨_, fun p' h ↦ ?_⟩
    obtain ⟨op, next, b, heq, -⟩ := h
    cases heq
  | ask op next ih =>
    refine ⟨_, fun p' h ↦ ?_⟩
    obtain ⟨op', next', b, heq, rfl⟩ := h
    cases heq
    exact ih b

/-- Finitely many threads make finitely many steps, if every step of the supervisor brings a measure
down that the threads leave alone. -/
theorem wellFounded_step_of_measure (active : Finset ι) (μ : σ → ℕ)
    {Valid : Config ι Op Ans α σ → Prop}
    (hactive : ∀ c, Valid c → ∀ i, i ∉ active → (c.thread i).hasReturned = true)
    (hown : ∀ i op s a s', step i op s a s' → μ s' = μ s)
    (hother : ∀ thread s s', other thread s s' → μ s' < μ s) :
    WellFounded fun c' c : Config ι Op Ans α σ ↦ Valid c ∧ Step step other c c' := by
  -- the programs of the threads, of which a request replaces one by what is left of it
  let programs : Config ι Op Ans α σ → Multiset (Program Op Ans α) :=
    fun c ↦ active.val.map c.thread
  have hlex : WellFounded (Prod.Lex (· < ·) (Relation.CutExpand (@Left Op Ans α))) :=
    WellFounded.prod_lex (wellFounded_lt : WellFounded ((· < ·) : ℕ → ℕ → Prop))
      wellFounded_left.cutExpand
  refine Subrelation.wf (fun {c' c} h ↦ ?_) (InvImage.wf (fun c ↦ (μ c.state, programs c)) hlex)
  obtain ⟨hvalid, hstep⟩ := h
  rcases hstep with ⟨hthread, hstep⟩ | hsup
  · rename_i i op next a s'
    have hi : i ∈ active := by
      by_contra hnot
      have hreturned := hactive c hvalid i hnot
      rw [hthread] at hreturned
      cases hreturned
    have huniv : active.val = i ::ₘ (active.erase i).val := by
      rw [← Finset.insert_val_of_notMem (Finset.notMem_erase i _), Finset.insert_erase hi]
    have hrest : (active.erase i).val.map (Function.update c.thread i (next a)) =
        (active.erase i).val.map c.thread :=
      Multiset.map_congr rfl fun j hj ↦
        Function.update_of_ne (Finset.ne_of_mem_erase hj) _ _
    have hcut : Relation.CutExpand Left (active.val.map (Function.update c.thread i (next a)))
        (active.val.map c.thread) := by
      rw [huniv, Multiset.map_cons, Multiset.map_cons, Function.update_self, hrest]
      exact Relation.cutExpand_single_add ⟨op, next, a, hthread, rfl⟩ _
    show Prod.Lex _ _ (μ s', active.val.map (Function.update c.thread i (next a)))
      (μ c.state, active.val.map c.thread)
    rw [hown i op c.state a s' hstep]
    exact Prod.Lex.right _ hcut
  · exact Prod.Lex.left _ _ (hother c.thread c.state _ hsup)

/-- Without a supervisor, finitely many threads make finitely many steps. -/
theorem wellFounded_step [Fintype ι] : WellFounded fun c' c : Config ι Op Ans α σ ↦
    Step step (fun _ _ _ ↦ False) c c' := by
  have hwf : WellFounded fun c' c : Config ι Op Ans α σ ↦
      True ∧ Step step (fun _ _ _ ↦ False) c c' :=
    wellFounded_step_of_measure Finset.univ (fun _ ↦ 0)
      (fun _ _ i hi ↦ absurd (Finset.mem_univ i) hi) (fun _ _ _ _ _ _ ↦ rfl)
      fun _ _ _ ↦ False.elim
  exact Subrelation.wf (fun h ↦ ⟨trivial, h⟩) hwf

/-! ### Coming to an end -/

/-- Whatever steps are made, a state with `P` is reached. -/
inductive Inevitably {σ : Type} (step : σ → σ → Prop) (P : σ → Prop) : σ → Prop
  | now {s : σ} (h : P s) : Inevitably step P s
  | later {s : σ} (hcan : ∃ s', step s s') (h : ∀ s', step s s' → Inevitably step P s') :
      Inevitably step P s

theorem Inevitably.mono {σ : Type} {step : σ → σ → Prop} {P P' : σ → Prop}
    (hP : ∀ s, P s → P' s) {s : σ} (h : Inevitably step P s) : Inevitably step P' s := by
  induction h with
  | now h => exact .now (hP _ h)
  | later hcan _ ih => exact .later hcan ih

theorem Inevitably.exists {σ : Type} {step : σ → σ → Prop} {P : σ → Prop} {s : σ}
    (h : Inevitably step P s) : ∃ s', P s' := by
  induction h with
  | now h => exact ⟨_, h⟩
  | later hcan _ ih =>
    obtain ⟨s', hstep⟩ := hcan
    exact ih s' hstep

/-- Steps that come to an end, and that are stuck in states with `P` only, lead to one. -/
theorem Inevitably.of_invariant {σ : Type} {step : σ → σ → Prop} {P : σ → Prop} (Inv : σ → Prop)
    (hwf : WellFounded fun s' s ↦ Inv s ∧ step s s') (hkeep : ∀ s s', Inv s → step s s' → Inv s')
    (hstuck : ∀ s, Inv s → (¬∃ s', step s s') → P s) {s : σ} (hs : Inv s) :
    Inevitably step P s := by
  induction s using hwf.induction with
  | h s ih =>
    by_cases hcan : ∃ s', step s s'
    · exact .later hcan fun s' hstep ↦ ih s' ⟨hs, hstep⟩ (hkeep s s' hs hstep)
    · exact .now (hstuck s hs hcan)

end Interleaving
