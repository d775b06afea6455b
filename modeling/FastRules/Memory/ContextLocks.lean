import FastRules.Foundations.Progress
import Mathlib.Algebra.Order.BigOperators.Group.Finset
import Mathlib.Data.Fintype.Basic

/-!
# The locks of contexts

Several threads call `RuleContext`s, each of which has a `shared_mutex`. The copy assignment locks
the other context to read it and then its own to write it, and nothing orders the two. A shared lock
is granted as long as nobody owns the mutex alone.

All calls come to their ends, in whatever order the steps are taken, unless there are threads with
an assignment each such that the target of each is the source of another (`completes_iff`). What the
calls do to the contents has no influence on that and is left out.
-/

namespace FastRules

namespace RuleContext

open Relation

variable {κ ι : Type}

/-- A call of a member of `RuleContext`. -/
inductive Call (κ : Type)
  /-- The copy assignment. -/
  | assign (target source : κ)
  /-- `getResult`, `hasResult`, `getVariable`, `getLastError` and the copy constructor. -/
  | read (context : κ)
  /-- `setResult`, `setVariable`, `setLastError`, `clearLastError` and `clear`. -/
  | write (context : κ)

/-- Where a thread is. -/
inductive Phase (κ : Type)
  | between
  | reading (context : κ)
  | writing (context : κ)
  /-- `otherLock` is held, `thisLock` is not. -/
  | waiting (target source : κ)
  | copying (target source : κ)

/-- A thread with the calls that it has not come to. -/
structure Thread (κ : Type) where
  phase : Phase κ := .between
  calls : List (Call κ)

/-- The thread holds a shared lock. -/
def Thread.Shares (t : Thread κ) (c : κ) : Prop :=
  t.phase = .reading c ∨ (∃ target, t.phase = .waiting target c) ∨
    ∃ target, t.phase = .copying target c

/-- The thread holds a unique lock. -/
def Thread.Owns (t : Thread κ) (c : κ) : Prop :=
  t.phase = .writing c ∨ ∃ source, t.phase = .copying c source

/-- Nobody owns the mutex of a context alone. -/
def Unowned (s : ι → Thread κ) (c : κ) : Prop :=
  ∀ i, ¬(s i).Owns c

/-- Nobody holds a lock of a context. -/
def Unlocked (s : ι → Thread κ) (c : κ) : Prop :=
  ∀ i, ¬(s i).Owns c ∧ ¬(s i).Shares c

variable [DecidableEq ι]

/-- A step of one of the threads. -/
inductive Step (s : ι → Thread κ) : (ι → Thread κ) → Prop
  /-- `if (this != &other)`. -/
  | skip {i c calls} (h : s i = ⟨.between, .assign c c :: calls⟩) :
      Step s (Function.update s i ⟨.between, calls⟩)
  /-- `std::shared_lock otherLock(other.mutex_)`. -/
  | lockOther {i target source calls} (h : s i = ⟨.between, .assign target source :: calls⟩)
      (hne : target ≠ source) (hfree : Unowned s source) :
      Step s (Function.update s i ⟨.waiting target source, calls⟩)
  /-- `std::unique_lock thisLock(mutex_)`. -/
  | lockThis {i target source calls} (h : s i = ⟨.waiting target source, calls⟩)
      (hfree : Unlocked s target) :
      Step s (Function.update s i ⟨.copying target source, calls⟩)
  | unlockBoth {i target source calls} (h : s i = ⟨.copying target source, calls⟩) :
      Step s (Function.update s i ⟨.between, calls⟩)
  | lockShared {i c calls} (h : s i = ⟨.between, .read c :: calls⟩) (hfree : Unowned s c) :
      Step s (Function.update s i ⟨.reading c, calls⟩)
  | unlockShared {i c calls} (h : s i = ⟨.reading c, calls⟩) :
      Step s (Function.update s i ⟨.between, calls⟩)
  | lockUnique {i c calls} (h : s i = ⟨.between, .write c :: calls⟩) (hfree : Unlocked s c) :
      Step s (Function.update s i ⟨.writing c, calls⟩)
  | unlockUnique {i c calls} (h : s i = ⟨.writing c, calls⟩) :
      Step s (Function.update s i ⟨.between, calls⟩)

/-- No thread is in a call, and each has these calls before it. -/
def start (calls : ι → List (Call κ)) (i : ι) : Thread κ :=
  ⟨.between, calls i⟩

/-- All calls have come to their ends. -/
def Done (s : ι → Thread κ) : Prop :=
  ∀ i, s i = ⟨.between, []⟩

/-- Threads with an assignment each, the target of each of which is the source of another. -/
def Circular (calls : ι → List (Call κ)) : Prop :=
  ∃ (threads : Finset ι) (target source : ι → κ), threads.Nonempty ∧
    ∀ i ∈ threads, .assign (target i) (source i) ∈ calls i ∧ target i ≠ source i ∧
      ∃ j ∈ threads, source j = target i

/-! ### Progress -/

variable {s s' : ι → Thread κ} {calls : ι → List (Call κ)} {i : ι}

/-- The steps that a thread has before it. -/
def Thread.left (t : Thread κ) : ℕ :=
  3 * t.calls.length + match t.phase with
    | .between => 0
    | .waiting _ _ => 2
    | _ => 1

/-- What a thread assigns now or later is among its calls. -/
structure Within (calls : ι → List (Call κ)) (s : ι → Thread κ) : Prop where
  subset : ∀ i, (s i).calls ⊆ calls i
  waits : ∀ i target source, (s i).phase = .waiting target source →
    Call.assign target source ∈ calls i ∧ target ≠ source

omit [DecidableEq ι] in
theorem within_start (calls : ι → List (Call κ)) : Within calls (start calls) where
  subset := fun i ↦ List.Subset.refl (calls i)
  waits := by
    rintro i target source h
    cases h

theorem Within.update (h : Within calls s) {t : Thread κ} (hcalls : t.calls ⊆ calls i)
    (hwaiting : ∀ target source, t.phase = .waiting target source →
      Call.assign target source ∈ calls i ∧ target ≠ source) :
    Within calls (Function.update s i t) where
  subset := by
    intro j
    by_cases hj : j = i
    · rw [hj, Function.update_self]
      exact hcalls
    · rw [Function.update_of_ne hj]
      exact h.subset j
  waits := by
    intro j target source hphase
    by_cases hj : j = i
    · rw [hj, Function.update_self] at hphase
      exact hj ▸ hwaiting target source hphase
    · rw [Function.update_of_ne hj] at hphase
      exact h.waits j target source hphase

/-- A step is one of a thread, which has less before it then. A thread that waits goes on when
nobody holds a lock of its target. -/
theorem Step.cases (h : Step s s') (hs : Within calls s) :
    ∃ i t, s' = Function.update s i t ∧ t.left < (s i).left ∧ Within calls s' ∧
      ∀ target source, (s i).phase = .waiting target source → Unlocked s target := by
  suffices hthread : ∃ i t, s' = Function.update s i t ∧ t.left < (s i).left ∧ t.calls ⊆ calls i ∧
      (∀ target source, t.phase = .waiting target source →
        Call.assign target source ∈ calls i ∧ target ≠ source) ∧
      ∀ target source, (s i).phase = .waiting target source → Unlocked s target by
    obtain ⟨i, t, rfl, hlt, hcalls, hwaits, hmoves⟩ := hthread
    exact ⟨i, t, rfl, hlt, hs.update hcalls hwaits, hmoves⟩
  have hrest {i : ι} {phase : Phase κ} {call : Call κ} {rest : List (Call κ)}
      (hi : s i = ⟨phase, call :: rest⟩) : call ∈ calls i ∧ rest ⊆ calls i := by
    have hcalls := hs.subset i
    rw [hi] at hcalls
    exact List.cons_subset.1 hcalls
  have hsame {i : ι} {phase : Phase κ} {rest : List (Call κ)}
      (hi : s i = ⟨phase, rest⟩) : rest ⊆ calls i := by
    have hcalls := hs.subset i
    rwa [hi] at hcalls
  have hidle {i : ι} {phase : Phase κ} {rest : List (Call κ)} (hi : s i = ⟨phase, rest⟩)
      (hphase : ∀ target source, phase ≠ .waiting target source) :
      ∀ target source, (s i).phase = .waiting target source → Unlocked s target := by
    intro target source hw
    rw [hi] at hw
    exact absurd hw (hphase target source)
  cases h with
  | @skip i c rest hi =>
    refine ⟨i, _, rfl, ?_, (hrest hi).2, fun _ _ ↦ nofun, hidle hi fun _ _ ↦ nofun⟩
    rw [hi]
    simp only [Thread.left, List.length_cons]
    omega
  | @lockOther i target source rest hi hne hfree =>
    refine ⟨i, _, rfl, ?_, (hrest hi).2, ?_, hidle hi fun _ _ ↦ nofun⟩
    · rw [hi]
      simp only [Thread.left, List.length_cons]
      omega
    · rintro _ _ ⟨⟩
      exact ⟨(hrest hi).1, hne⟩
  | @lockThis i target source rest hi hfree =>
    refine ⟨i, _, rfl, ?_, hsame hi, fun _ _ ↦ nofun, ?_⟩
    · rw [hi]
      simp only [Thread.left]
      omega
    · intro target' source' hw
      rw [hi] at hw
      cases hw
      exact hfree
  | @unlockBoth i target source rest hi =>
    refine ⟨i, _, rfl, ?_, hsame hi, fun _ _ ↦ nofun, hidle hi fun _ _ ↦ nofun⟩
    rw [hi]
    simp only [Thread.left]
    omega
  | @lockShared i c rest hi hfree =>
    refine ⟨i, _, rfl, ?_, (hrest hi).2, fun _ _ ↦ nofun, hidle hi fun _ _ ↦ nofun⟩
    rw [hi]
    simp only [Thread.left, List.length_cons]
    omega
  | @unlockShared i c rest hi =>
    refine ⟨i, _, rfl, ?_, hsame hi, fun _ _ ↦ nofun, hidle hi fun _ _ ↦ nofun⟩
    rw [hi]
    simp only [Thread.left]
    omega
  | @lockUnique i c rest hi hfree =>
    refine ⟨i, _, rfl, ?_, (hrest hi).2, fun _ _ ↦ nofun, hidle hi fun _ _ ↦ nofun⟩
    rw [hi]
    simp only [Thread.left, List.length_cons]
    omega
  | @unlockUnique i c rest hi =>
    refine ⟨i, _, rfl, ?_, hsame hi, fun _ _ ↦ nofun, hidle hi fun _ _ ↦ nofun⟩
    rw [hi]
    simp only [Thread.left]
    omega

/-- Where no thread can make a step, none is inside its locks. -/
theorem phase_of_stuck (hstuck : ∀ s', ¬Step s s') (i : ι) :
    (s i).phase = .between ∨ ∃ target source, (s i).phase = .waiting target source := by
  rcases hi : s i with ⟨phase, rest⟩
  cases phase with
  | between => exact .inl rfl
  | waiting target source => exact .inr ⟨target, source, rfl⟩
  | reading c => exact absurd (.unlockShared hi) (hstuck _)
  | writing c => exact absurd (.unlockUnique hi) (hstuck _)
  | copying target source => exact absurd (.unlockBoth hi) (hstuck _)

/-- Where no thread can make a step, all locks are those of threads that wait. -/
theorem unowned_of_stuck (hstuck : ∀ s', ¬Step s s') (c : κ) : Unowned s c := by
  intro i howns
  rcases phase_of_stuck hstuck i with h | ⟨target, source, h⟩
  · rcases howns with howns | ⟨_, howns⟩ <;> rw [h] at howns <;> cases howns
  · rcases howns with howns | ⟨_, howns⟩ <;> rw [h] at howns <;> cases howns

theorem waiting_of_shares (hstuck : ∀ s', ¬Step s s') {c : κ} (hshares : (s i).Shares c) :
    ∃ target, (s i).phase = .waiting target c := by
  rcases hshares with h | h | ⟨target, h⟩
  · exact absurd (show s i = ⟨.reading c, (s i).calls⟩ by rw [← h]) fun hi ↦
      hstuck _ (.unlockShared hi)
  · exact h
  · exact absurd (show s i = ⟨.copying target c, (s i).calls⟩ by rw [← h]) fun hi ↦
      hstuck _ (.unlockBoth hi)

/-- Without circular assignments some thread can make a step until all have ended. -/
theorem exists_step [Fintype ι] (hs : Within calls s) (hcircular : ¬Circular calls)
    (hdone : ¬Done s) : ∃ s', Step s s' := by
  classical
  by_contra hnone
  have hstuck : ∀ s', ¬Step s s' := fun s' h ↦ hnone ⟨s', h⟩
  by_cases hwaiting : ∃ i target source, (s i).phase = .waiting target source
  · -- the threads that wait block each other
    obtain ⟨i, t, u, hi⟩ := hwaiting
    have : Nonempty κ := ⟨t⟩
    let threads := Finset.univ.filter fun i ↦ ∃ target source, (s i).phase = .waiting target source
    have hmem {j : ι} : j ∈ threads ↔ ∃ target source, (s j).phase = .waiting target source := by
      simp [threads]
    choose! target source hphase using fun j (hj : j ∈ threads) ↦ hmem.1 hj
    refine hcircular ⟨threads, target, source, ⟨i, hmem.2 ⟨t, u, hi⟩⟩, fun j hj ↦ ?_⟩
    obtain ⟨hcall, hne⟩ := hs.waits j _ _ (hphase j hj)
    refine ⟨hcall, hne, ?_⟩
    have hlocked : ¬Unlocked s (target j) := fun hfree ↦
      have hj' : s j = ⟨.waiting (target j) (source j), (s j).calls⟩ := by rw [← hphase j hj]
      hstuck _ (.lockThis hj' hfree)
    rw [Unlocked, not_forall] at hlocked
    obtain ⟨k, hk⟩ := hlocked
    rw [and_iff_right (unowned_of_stuck hstuck _ k), not_not] at hk
    obtain ⟨target', hk⟩ := waiting_of_shares hstuck hk
    have hkmem : k ∈ threads := hmem.2 ⟨_, _, hk⟩
    have heq := (hphase k hkmem).symm.trans hk
    injection heq with _ hsource
    exact ⟨k, hkmem, hsource⟩
  · -- nobody holds a lock
    have hunlocked (c : κ) : Unlocked s c := fun i ↦
      ⟨unowned_of_stuck hstuck c i, fun hshares ↦
        hwaiting ⟨i, (waiting_of_shares hstuck hshares).choose, c,
          (waiting_of_shares hstuck hshares).choose_spec⟩⟩
    refine hdone fun i ↦ ?_
    rcases hi : s i with ⟨phase, rest⟩
    have hphase : phase = .between := by
      rcases phase_of_stuck hstuck i with h | h
      · rwa [hi] at h
      · exact absurd ⟨i, h⟩ hwaiting
    subst hphase
    cases rest with
    | nil => rfl
    | cons call rest =>
      exfalso
      cases call with
      | assign target source =>
        by_cases hne : target = source
        · subst hne
          exact hstuck _ (.skip hi)
        · exact hstuck _ (.lockOther hi hne (unowned_of_stuck hstuck source))
      | read c => exact hstuck _ (.lockShared hi (unowned_of_stuck hstuck c))
      | write c => exact hstuck _ (.lockUnique hi (hunlocked c))

theorem sum_left_lt [Fintype ι] {t : Thread κ} (h : t.left < (s i).left) :
    ∑ j, (Function.update s i t j).left < ∑ j, (s j).left := by
  refine Finset.sum_lt_sum (fun j _ ↦ ?_) ⟨i, Finset.mem_univ i, ?_⟩
  · by_cases hj : j = i
    · rw [hj, Function.update_self]
      exact h.le
    · rw [Function.update_of_ne hj]
  · rw [Function.update_self]
    exact h

/-! ### Circular assignments -/

/-- Threads that wait for one another. -/
def Blocked (threads : Finset ι) (target source : ι → κ) (s : ι → Thread κ) : Prop :=
  ∀ i ∈ threads, (s i).phase = .waiting (target i) (source i) ∧ ∃ j ∈ threads, source j = target i

variable {threads : Finset ι} {target source : ι → κ}

/-- They wait for ever. -/
theorem Blocked.step (h : Blocked threads target source s) (hs : Within calls s)
    (hstep : Step s s') : Blocked threads target source s' := by
  obtain ⟨i, t, rfl, -, -, hmoves⟩ := hstep.cases hs
  have hi : i ∉ threads := by
    intro hi
    obtain ⟨hphase, j, hj, hsource⟩ := h i hi
    refine (hmoves _ _ hphase j).2 (.inr (.inl ⟨target j, ?_⟩))
    rw [← hsource]
    exact (h j hj).1
  intro j hj
  have hne : j ≠ i := fun he ↦ hi (he ▸ hj)
  rw [Function.update_of_ne hne]
  exact h j hj

omit [DecidableEq ι] in
theorem Blocked.not_done (h : Blocked threads target source s) (hne : threads.Nonempty) :
    ¬Done s := by
  intro hdone
  obtain ⟨i, hi⟩ := hne
  have hphase := (h i hi).1
  rw [hdone i] at hphase
  cases hphase

/-- Where no thread is in a call, one of them can make any number of its calls. -/
theorem reaches_calls (hbetween : ∀ j, (s j).phase = .between) {before rest : List (Call κ)}
    (hi : s i = ⟨.between, before ++ rest⟩) :
    ReflTransGen Step s (Function.update s i ⟨.between, rest⟩) := by
  induction before generalizing s with
  | nil =>
    have hself : Function.update s i ⟨.between, rest⟩ = s := by
      rw [Function.update_eq_self_iff]
      exact hi.symm
    rw [hself]
  | cons call before ih =>
    have hunlocked (c : κ) : Unlocked s c := by
      intro j
      constructor
      · rintro (h | ⟨_, h⟩) <;> rw [hbetween j] at h <;> cases h
      · rintro (h | ⟨_, h⟩ | ⟨_, h⟩) <;> rw [hbetween j] at h <;> cases h
    have hafter : ReflTransGen Step (Function.update s i ⟨.between, before ++ rest⟩)
        (Function.update s i ⟨.between, rest⟩) := by
      have hreach := ih (s := Function.update s i ⟨.between, before ++ rest⟩) (fun j ↦ by
        by_cases hj : j = i
        · rw [hj, Function.update_self]
        · rw [Function.update_of_ne hj, hbetween j]) (Function.update_self _ _ _)
      rwa [Function.update_idem] at hreach
    refine ReflTransGen.trans ?_ hafter
    cases call with
    | assign target source =>
      by_cases hne : target = source
      · subst hne
        exact .single (.skip hi)
      · have hfree : Unlocked (Function.update s i ⟨.waiting target source, before ++ rest⟩)
            target := by
          intro j
          by_cases hj : j = i
          · rw [hj, Function.update_self]
            constructor
            · rintro (h | ⟨_, h⟩) <;> cases h
            · rintro (h | ⟨_, h⟩ | ⟨_, h⟩) <;> cases h
              exact hne rfl
          · rw [Function.update_of_ne hj]
            exact hunlocked target j
        have hother := Step.lockOther hi hne fun j ↦ (hunlocked source j).1
        have hthis := Step.lockThis (Function.update_self i _ s) hfree
        rw [Function.update_idem] at hthis
        have hboth := Step.unlockBoth (Function.update_self i
          (⟨.copying target source, before ++ rest⟩ : Thread κ) s)
        rw [Function.update_idem] at hboth
        exact ((ReflTransGen.single hother).tail hthis).tail hboth
    | read c =>
      have hlock := Step.lockShared hi fun j ↦ (hunlocked c j).1
      have hunlock := Step.unlockShared (Function.update_self i
        (⟨.reading c, before ++ rest⟩ : Thread κ) s)
      rw [Function.update_idem] at hunlock
      exact (ReflTransGen.single hlock).tail hunlock
    | write c =>
      have hlock := Step.lockUnique hi (hunlocked c)
      have hunlock := Step.unlockUnique (Function.update_self i
        (⟨.writing c, before ++ rest⟩ : Thread κ) s)
      rw [Function.update_idem] at hunlock
      exact (ReflTransGen.single hlock).tail hunlock

/-- One thread after the other goes from where it is to another place. -/
theorem reaches_all {P : Thread κ → Prop} {a b : ι → Thread κ} {l : List ι} (hl : l.Nodup)
    (hone : ∀ s, ∀ i ∈ l, (∀ j, P (s j)) → s i = a i →
      ReflTransGen Step s (Function.update s i (b i)))
    (hb : ∀ i ∈ l, P (b i)) (hs : ∀ j, P (s j)) (ha : ∀ i ∈ l, s i = a i) :
    ∃ s', ReflTransGen Step s s' ∧ (∀ j, P (s' j)) ∧ (∀ i ∈ l, s' i = b i) ∧
      ∀ i ∉ l, s' i = s i := by
  induction l generalizing s with
  | nil => exact ⟨s, .refl, hs, fun i hi ↦ absurd hi List.not_mem_nil, fun _ _ ↦ rfl⟩
  | cons i l ih =>
    obtain ⟨hi, hl⟩ := List.nodup_cons.1 hl
    have hfirst := hone s i List.mem_cons_self hs (ha i List.mem_cons_self)
    obtain ⟨s', hreach, hs', hmem, hrest⟩ := ih hl
      (fun s j hj ↦ hone s j (List.mem_cons_of_mem i hj))
      (fun j hj ↦ hb j (List.mem_cons_of_mem i hj))
      (s := Function.update s i (b i))
      (fun j ↦ by
        by_cases hj : j = i
        · rw [hj, Function.update_self]
          exact hb i List.mem_cons_self
        · rw [Function.update_of_ne hj]
          exact hs j)
      (fun j hj ↦ by
        rw [Function.update_of_ne fun he : j = i ↦ hi (he ▸ hj)]
        exact ha j (List.mem_cons_of_mem i hj))
    refine ⟨s', hfirst.trans hreach, hs', fun j hj ↦ ?_, fun j hj ↦ ?_⟩
    · rcases List.mem_cons.1 hj with rfl | hj
      · rw [hrest j hi, Function.update_self]
      · exact hmem j hj
    · rw [List.mem_cons, not_or] at hj
      rw [hrest j hj.2, Function.update_of_ne hj.1]

/-- The threads of a circle come to wait for one another. -/
theorem exists_blocked (h : ∀ i ∈ threads, Call.assign (target i) (source i) ∈ calls i ∧
      target i ≠ source i ∧ ∃ j ∈ threads, source j = target i) :
    ∃ s, ReflTransGen Step (start calls) s ∧ Blocked threads target source s := by
  have hsplit : ∀ i ∈ threads, ∃ before rest,
      calls i = before ++ .assign (target i) (source i) :: rest := fun i hi ↦
    List.append_of_mem (h i hi).1
  choose! before rest hcalls using hsplit
  -- all of them come to their assignments, then they lock what they read
  obtain ⟨s, hreach, hbetween, hs, -⟩ := reaches_all (P := fun t ↦ t.phase = .between)
    (s := start calls) (a := start calls)
    (b := fun i ↦ ⟨.between, .assign (target i) (source i) :: rest i⟩) threads.nodup_toList
    (fun s i hi hbetween hstart ↦ reaches_calls hbetween
      (hstart.trans (by rw [start, hcalls i (Finset.mem_toList.1 hi)])))
    (fun _ _ ↦ rfl) (fun _ ↦ rfl) (fun _ _ ↦ rfl)
  obtain ⟨s', hreach', -, hs', -⟩ := reaches_all (P := fun t ↦ ∀ c, ¬t.Owns c)
    (s := s) (a := s) (b := fun i ↦ ⟨.waiting (target i) (source i), rest i⟩)
    threads.nodup_toList
    (fun t i hi howns hstart ↦ .single (.lockOther (hstart.trans (hs i hi))
      (h i (Finset.mem_toList.1 hi)).2.1 fun j ↦ howns j _))
    (fun i _ c ↦ by rintro (hp | ⟨_, hp⟩) <;> cases hp)
    (fun j c ↦ by rintro (hp | ⟨_, hp⟩) <;> rw [hbetween j] at hp <;> cases hp) (fun _ _ ↦ rfl)
  refine ⟨s', hreach.trans hreach', fun i hi ↦ ⟨?_, (h i hi).2.2⟩⟩
  rw [hs' i (Finset.mem_toList.2 hi)]

/-- **Assignments deadlock when they are circular.** From every state that can be reached all calls
can come to their ends exactly if there are no threads with an assignment each such that the target
of each is the source of another. -/
theorem completes_iff [Fintype ι] (calls : ι → List (Call κ)) :
    (∀ s, ReflTransGen Step (start calls) s → ∃ s', ReflTransGen Step s s' ∧ Done s') ↔
      ¬Circular calls := by
  have hwithin {s : ι → Thread κ} (hreach : ReflTransGen Step (start calls) s) :
      Within calls s := by
    induction hreach with
    | refl => exact within_start calls
    | tail _ hstep ih =>
      obtain ⟨-, -, -, -, hs', -⟩ := hstep.cases ih
      exact hs'
  constructor
  · rintro hall ⟨threads, target, source, hne, hcircle⟩
    obtain ⟨s, hreach, hblocked⟩ := exists_blocked hcircle
    obtain ⟨s', hreach', hdone⟩ := hall s hreach
    have hblocked' : Blocked threads target source s' := by
      clear hdone
      induction hreach' with
      | refl => exact hblocked
      | tail hpath hstep ih => exact ih.step (hwithin (hreach.trans hpath)) hstep
    exact hblocked'.not_done hne hdone
  · intro hcircular s hreach
    have hnext (s s' : ι → Thread κ) (hs : Within calls s) (hstep : Step s s') :
        Within calls s' ∧ ∑ i, (s' i).left < ∑ i, (s i).left := by
      obtain ⟨i, t, rfl, hlt, hs', -⟩ := hstep.cases hs
      exact ⟨hs', sum_left_lt hlt⟩
    exact Progress.exists_end _ hnext (fun s hs hdone ↦ exists_step hs hcircular hdone)
      (hwithin hreach)

end RuleContext

end FastRules
