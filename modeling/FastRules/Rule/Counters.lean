import FastRules.Foundations.SharedCounters
import FastRules.Rule.Execute
import Mathlib.Algebra.BigOperators.Group.Finset.Piecewise
import Mathlib.Data.List.Infix

/-!
# The performance counters

`PerformanceCounters` is one object for all threads. Its counters are atomic, but a call makes
several accesses to them, and others come in between. `recordExecution` counts the execution first
and its outcome after that, so that at any moment the outcomes that are missing are those of the
threads between the two (`counters_exact`). `getCounters` loads one counter after the other, the
executions first: what it returns is no state that the counters were ever in, but misses no more
outcomes than there are other threads (`getCounters_bounds`).
-/

namespace FastRules

open SharedCounters

/-- The members of `PerformanceCounters::Counters`. -/
inductive Counter
  | totalRulesExecuted
  | totalRulesSuccessful
  | totalRulesFailed
  | totalRulesSkipped
  | totalRulesCached
  | totalRulesTimedOut
  | totalRulesRateLimited
  | totalCompileCount
  | totalCompileFailures
  | totalExecutionTimeNs
  deriving DecidableEq, Repr

namespace PerformanceCounters

open Counter

/-- In the order in which the members are copied and reset. -/
def members : List Counter :=
  [totalRulesExecuted, totalRulesSuccessful, totalRulesFailed, totalRulesSkipped, totalRulesCached,
    totalRulesTimedOut, totalRulesRateLimited, totalCompileCount, totalCompileFailures,
    totalExecutionTimeNs]

/-- A counter is a `uint64_t`. -/
abbrev modulus : ℕ :=
  2 ^ 64

/-- `counter.fetch_add(1)`. -/
def increment (c : Counter) : Access Counter :=
  .add c 1

/-- `if (flag) counter.fetch_add(1)`. -/
def incrementIf (flag : Bool) (c : Counter) : List (Access Counter) :=
  if flag then [increment c] else []

/-- The counter for the outcome of an execution. -/
def outcome (success : Bool) : Counter :=
  if success then totalRulesSuccessful else totalRulesFailed

/-- The operations of `PerformanceCounters`. -/
inductive Call
  | recordExecution (record : ExecutionRecord)
  | recordCompile (success : Bool)
  | recordExecutionTime (duration : Time)
  | getCounters
  | reset
  deriving DecidableEq

/-- What an operation does to the counters, one access after the other. -/
def Call.accesses : Call → List (Access Counter)
  | recordExecution record =>
    increment totalRulesExecuted :: increment (outcome record.success) ::
      (incrementIf record.skipped totalRulesSkipped ++
        incrementIf record.cached totalRulesCached ++
        incrementIf record.timedOut totalRulesTimedOut ++
        incrementIf record.rateLimited totalRulesRateLimited)
  | recordCompile success =>
    increment totalCompileCount :: incrementIf (!success) totalCompileFailures
  | recordExecutionTime duration => [.add totalExecutionTimeNs (duration % modulus).toNat]
  | getCounters => members.map .load
  | reset => members.map fun c ↦ .store c 0

variable {ι : Type}

/-- The states that threads with these calls can get the counters into. -/
def Reachable [DecidableEq ι] (calls : ι → List Call) (s : Config ι Counter) : Prop :=
  Runs (· = Config.start fun i ↦ (calls i).map Call.accesses) (Step modulus) s

/-- What the calls of all threads add to the counters, one by one. -/
def recorded [Fintype ι] (calls : ι → List Call) : Multiset Counter :=
  ∑ i, ((calls i).map fun call ↦ added call.accesses).sum

/-- The next access counts the outcome of an execution, which is already counted itself. -/
def midway : List (Access Counter) → Bool
  | .add c _ :: _ => c = totalRulesSuccessful || c = totalRulesFailed
  | _ => false

/-! ### Executions and outcomes -/

/-- Outcomes are added for what executions are added, and for the one whose outcome is next. -/
def Fair (accesses : List (Access Counter)) : Prop :=
  (added accesses).count totalRulesExecuted + (midway accesses).toNat =
    (added accesses).count totalRulesSuccessful + (added accesses).count totalRulesFailed

/-- The access is not about executions and outcomes. -/
def IsOther : Access Counter → Prop
  | .add c _ => c ∉ [totalRulesExecuted, totalRulesSuccessful, totalRulesFailed]
  | _ => True

theorem count_added_other {l : List (Access Counter)} (h : ∀ a ∈ l, IsOther a) {c : Counter}
    (hc : c ∈ [totalRulesExecuted, totalRulesSuccessful, totalRulesFailed]) :
    (added l).count c = 0 := by
  induction l with
  | nil => rfl
  | cons a l ih =>
    obtain ⟨ha, hl⟩ := List.forall_mem_cons.1 h
    cases a with
    | add c' n =>
      have hne : c' ≠ c := fun heq ↦ ha (heq ▸ hc)
      rw [added, Multiset.count_add, ih hl, Multiset.count_replicate, if_neg hne]
    | load c' => exact ih hl
    | store c' n => exact ih hl

theorem fair_of_other {l : List (Access Counter)} (h : ∀ a ∈ l, IsOther a) : Fair l := by
  have hmidway : midway l = false := by
    rcases l with - | ⟨a, l⟩
    · rfl
    · have ha := h a List.mem_cons_self
      cases a with
      | add c n =>
        have hc : c ∉ [totalRulesExecuted, totalRulesSuccessful, totalRulesFailed] := ha
        rw [midway, Bool.or_eq_false_iff, decide_eq_false_iff_not, decide_eq_false_iff_not]
        constructor
        · rintro rfl
          exact hc (by decide)
        · rintro rfl
          exact hc (by decide)
      | load c => rfl
      | store c n => rfl
  rw [Fair, hmidway, count_added_other h (by decide), count_added_other h (by decide),
    count_added_other h (by decide)]
  rfl

theorem isOther_incrementIf {flag : Bool} {c : Counter}
    (hc : c ∉ [totalRulesExecuted, totalRulesSuccessful, totalRulesFailed]) :
    ∀ a ∈ incrementIf flag c, IsOther a := by
  intro a ha
  rw [incrementIf] at ha
  split at ha
  · rw [List.mem_singleton.1 ha]
    exact hc
  · exact absurd ha List.not_mem_nil

/-- An outcome that is next is that of an execution that was counted, or will be before. -/
theorem fair_outcome {l : List (Access Counter)} (h : ∀ a ∈ l, IsOther a) (success : Bool) :
    Fair (increment (outcome success) :: l) ∧
      Fair (increment totalRulesExecuted :: increment (outcome success) :: l) := by
  have hexecuted : (added l).count totalRulesExecuted = 0 := count_added_other h (by decide)
  have hsuccessful : (added l).count totalRulesSuccessful = 0 := count_added_other h (by decide)
  have hfailed : (added l).count totalRulesFailed = 0 := count_added_other h (by decide)
  cases success <;>
    simp [Fair, midway, added, increment, outcome, hexecuted, hsuccessful, hfailed]

/-- Wherever a thread is in a call, outcomes and executions go together. -/
theorem fair_suffix {call : Call} {l : List (Access Counter)} (h : l <:+ call.accesses) :
    Fair l := by
  cases call with
  | recordExecution record =>
    have hother : ∀ a ∈ incrementIf record.skipped totalRulesSkipped ++
        incrementIf record.cached totalRulesCached ++
        incrementIf record.timedOut totalRulesTimedOut ++
        incrementIf record.rateLimited totalRulesRateLimited, IsOther a := by
      simp only [List.forall_mem_append]
      exact ⟨⟨⟨isOther_incrementIf (by decide), isOther_incrementIf (by decide)⟩,
        isOther_incrementIf (by decide)⟩, isOther_incrementIf (by decide)⟩
    rcases List.suffix_cons_iff.1 h with rfl | h
    · exact (fair_outcome hother record.success).2
    · rcases List.suffix_cons_iff.1 h with rfl | h
      · exact (fair_outcome hother record.success).1
      · exact fair_of_other fun a ha ↦ hother a (h.mem ha)
  | recordCompile success =>
    refine fair_of_other fun a ha ↦ ?_
    rcases List.mem_cons.1 (h.mem ha) with rfl | ha
    · show totalCompileCount ∉ _
      decide
    · exact isOther_incrementIf (by decide) a ha
  | recordExecutionTime duration =>
    refine fair_of_other fun a ha ↦ ?_
    rw [List.mem_singleton.1 (h.mem ha)]
    show totalExecutionTimeNs ∉ _
    decide
  | getCounters =>
    refine fair_of_other fun a ha ↦ ?_
    obtain ⟨c, -, rfl⟩ := List.mem_map.1 (h.mem ha)
    trivial
  | reset =>
    refine fair_of_other fun a ha ↦ ?_
    obtain ⟨c, -, rfl⟩ := List.mem_map.1 (h.mem ha)
    trivial

/-! ### What every step keeps -/

/-- The thread is somewhere in a call that is no `reset`, and has none to come. -/
structure Sound (t : Thread Counter) : Prop where
  left : ∃ call : Call, call ≠ .reset ∧ t.left <:+ call.accesses
  calls : ∀ accesses ∈ t.calls, ∃ call : Call, call ≠ .reset ∧ accesses = call.accesses

theorem fair_calls {calls : List (List (Access Counter))}
    (h : ∀ accesses ∈ calls, ∃ call : Call, call ≠ .reset ∧ accesses = call.accesses) :
    (calls.map added).sum.count totalRulesExecuted =
      (calls.map added).sum.count totalRulesSuccessful +
        (calls.map added).sum.count totalRulesFailed := by
  induction calls with
  | nil => rfl
  | cons accesses calls ih =>
    obtain ⟨⟨call, -, rfl⟩, hcalls⟩ := List.forall_mem_cons.1 h
    have hwhole := fair_suffix (@List.suffix_rfl _ call.accesses)
    have hmidway : midway call.accesses = false := by cases call <;> rfl
    rw [Fair, hmidway, Bool.toNat_false] at hwhole
    have hrest := ih hcalls
    simp only [List.map_cons, List.sum_cons, Multiset.count_add]
    omega

/-- What a thread owes to the executions and to the outcomes. -/
theorem Sound.fair {t : Thread Counter} (h : Sound t) :
    t.owed.count totalRulesExecuted + (midway t.left).toNat =
      t.owed.count totalRulesSuccessful + t.owed.count totalRulesFailed := by
  obtain ⟨call, -, hleft⟩ := h.left
  have hfair := fair_suffix hleft
  have hcalls := fair_calls h.calls
  rw [Fair] at hfair
  simp only [Thread.owed, Multiset.count_add]
  omega

variable [Fintype ι] [DecidableEq ι] {calls : ι → List Call} {s s' : Config ι Counter}

omit [Fintype ι] in
theorem Sound.step (h : ∀ i, Sound (s.threads i)) (hstep : Step modulus s s') (i : ι) :
    Sound (s'.threads i) := by
  obtain ⟨⟨call, hcall, hleft⟩, hcalls⟩ := h i
  rcases hstep.thread i with hbegin | ⟨hsame, hsuffix, -⟩
  · rw [hbegin] at hcalls
    obtain ⟨⟨call', hcall', heq⟩, hrest⟩ := List.forall_mem_cons.1 hcalls
    exact ⟨⟨call', hcall', heq ▸ List.suffix_rfl⟩, hrest⟩
  · exact ⟨⟨call, hcall, hsuffix.trans hleft⟩, hsame ▸ hcalls⟩

omit [Fintype ι] [DecidableEq ι] in
theorem store_notMem {call : Call} (h : call ≠ .reset) (c : Counter) (n : ℕ) :
    .store c n ∉ call.accesses := by
  have hincrement (flag : Bool) (c' : Counter) : .store c n ∉ incrementIf flag c' := by
    cases flag <;> simp [incrementIf, increment]
  cases call with
  | recordExecution record => simp [Call.accesses, increment, hincrement]
  | recordCompile success => simp [Call.accesses, increment, hincrement]
  | recordExecutionTime duration => simp [Call.accesses]
  | getCounters => simp [Call.accesses]
  | reset => exact absurd rfl h

omit [DecidableEq ι] in
theorem custody_start (calls : ι → List Call) :
    custody Thread.owed (Config.start fun i ↦ (calls i).map Call.accesses).threads =
      recorded calls := by
  refine Finset.sum_congr rfl fun i _ ↦ ?_
  rw [Config.start, Thread.owed, List.map_map]
  exact zero_add _

/-- What holds in every state. -/
structure Invariant (calls : ι → List Call) (s : Config ι Counter) : Prop where
  balanced : Balanced (recorded calls) s
  sound : ∀ i, Sound (s.threads i)

theorem Reachable.invariant (hreset : ∀ i, .reset ∉ calls i)
    (hfit : ∀ c, (recorded calls).count c < modulus) (h : Reachable calls s) :
    Invariant calls s := by
  have hne {i : ι} {call : Call} (hcall : call ∈ calls i) : call ≠ .reset :=
    fun heq ↦ hreset i (heq ▸ hcall)
  refine Runs.invariant (fun s hs ↦ ?_) (fun s s' hs hstep ↦ ?_) h
  · subst hs
    refine ⟨?_, fun i ↦ ⟨⟨.getCounters, by decide, List.nil_suffix⟩, fun accesses haccesses ↦ ?_⟩⟩
    · have hstart := balanced_start fun i call (hcall : call ∈ (calls i).map Call.accesses) c n ↦ by
        obtain ⟨call, hmem, rfl⟩ := List.mem_map.1 hcall
        exact store_notMem (hne hmem) c n
      rwa [custody_start] at hstart
    · obtain ⟨call, hmem, rfl⟩ := List.mem_map.1 haccesses
      exact ⟨call, hne hmem, rfl⟩
  · exact ⟨(hs.balanced.step hfit hstep).1, Sound.step hs.sound hstep⟩

omit [DecidableEq ι] in
/-- At any moment, the outcomes that are missing are those of the executions that are being
counted. -/
theorem Invariant.executed (h : Invariant calls s) (hreset : ∀ i, .reset ∉ calls i) :
    s.counters totalRulesExecuted =
      s.counters totalRulesSuccessful + s.counters totalRulesFailed +
        (Finset.univ.filter fun i ↦ midway (s.threads i).left).card := by
  have hcustody (c : Counter) : (custody Thread.owed s.threads).count c =
      ∑ i, (s.threads i).owed.count c := Multiset.count_sum'
  have howed : ∑ i, (s.threads i).owed.count totalRulesExecuted +
      ∑ i, (midway (s.threads i).left).toNat =
        ∑ i, (s.threads i).owed.count totalRulesSuccessful +
          ∑ i, (s.threads i).owed.count totalRulesFailed := by
    rw [← Finset.sum_add_distrib, ← Finset.sum_add_distrib]
    exact Finset.sum_congr rfl fun i _ ↦ (h.sound i).fair
  have hcard : (Finset.univ.filter fun i ↦ midway (s.threads i).left).card =
      ∑ i, (midway (s.threads i).left).toNat := by
    rw [Finset.card_filter]
    exact Finset.sum_congr rfl fun i _ ↦ by cases midway (s.threads i).left <;> rfl
  have htotal : (recorded calls).count totalRulesExecuted =
      (recorded calls).count totalRulesSuccessful + (recorded calls).count totalRulesFailed := by
    rw [recorded, Multiset.count_sum', Multiset.count_sum', Multiset.count_sum',
      ← Finset.sum_add_distrib]
    refine Finset.sum_congr rfl fun i _ ↦ ?_
    have hfair := fair_calls fun accesses (hmem : accesses ∈ (calls i).map Call.accesses) ↦ by
      obtain ⟨call, hcall, rfl⟩ := List.mem_map.1 hmem
      exact ⟨call, fun heq ↦ hreset i (heq ▸ hcall), rfl⟩
    rwa [List.map_map] at hfair
  have hexecuted := h.balanced.balance totalRulesExecuted
  have hsuccessful := h.balanced.balance totalRulesSuccessful
  have hfailed := h.balanced.balance totalRulesFailed
  rw [hcustody] at hexecuted hsuccessful hfailed
  omega

/-- **Every execution is counted once.** As long as nobody resets the counters, and what is recorded
fits into them, a counter is what has been recorded but for what the threads are still to add, and
what was recorded when they are done. All executions that were counted have an outcome that was
counted, but for those of the threads that are between the two. -/
theorem counters_exact (hreset : ∀ i, .reset ∉ calls i)
    (hfit : ∀ c, (recorded calls).count c < modulus) (h : Reachable calls s) :
    (∀ c, s.counters c + (custody Thread.owed s.threads).count c = (recorded calls).count c) ∧
    ((∀ i, (s.threads i).Done) → ∀ c, s.counters c = (recorded calls).count c) ∧
    s.counters totalRulesExecuted =
      s.counters totalRulesSuccessful + s.counters totalRulesFailed +
        (Finset.univ.filter fun i ↦ midway (s.threads i).left).card := by
  have hinv := h.invariant hreset hfit
  refine ⟨hinv.balanced.balance, fun hdone c ↦ ?_, hinv.executed hreset⟩
  have hbalance := hinv.balanced.balance c
  rwa [custody_eq_zero fun i ↦ (hdone i).owed, Multiset.count_zero, Nat.add_zero] at hbalance

/-- One thread records an execution, another one takes a snapshot. -/
def busy : Bool → List Call
  | false => [.recordExecution { success := true }]
  | true => [.getCounters]

theorem busy_fits (c : Counter) : (recorded busy).count c < modulus := by
  cases c <;> decide

/-- The states of the two under a schedule. -/
def busyAt (schedule : List Bool) : Config Bool Counter :=
  (Config.start fun i ↦ (busy i).map Call.accesses).follow modulus schedule

theorem reachable_busyAt (schedule : List Bool) : Reachable busy (busyAt schedule) :=
  ⟨_, rfl, reaches_follow _ _ _⟩

/-- The execution is counted, and its outcome is not. -/
theorem busy_midway :
    (busyAt [false, false]).counters totalRulesExecuted = 1 ∧
      (busyAt [false, false]).counters totalRulesSuccessful +
        (busyAt [false, false]).counters totalRulesFailed +
          (Finset.univ.filter fun i ↦ midway ((busyAt [false, false]).threads i).left).card = 1 :=
  ⟨rfl, (counters_exact (by decide) busy_fits (reachable_busyAt _)).2.2.symm.trans rfl⟩

/-- Where a reset comes between an execution and its outcome, the outcome remains alone. -/
example :
    let resetting : Bool → List Call := fun i ↦ if i then [.reset] else busy false
    let s := (Config.start fun i ↦ (resetting i).map Call.accesses).follow modulus
      ([false, false] ++ List.replicate 11 true ++ [false])
    s.counters totalRulesExecuted = 0 ∧ s.counters totalRulesSuccessful = 1 :=
  ⟨rfl, rfl⟩

/-! ### Snapshots -/

/-- The executions that the thread has loaded in its call have outcomes that it has seen, but for
those of one execution for each other thread. -/
def Misses (calls : List (List (Access Counter))) (i : ι) (s : Config ι Counter) : Prop :=
  (s.threads i).calls = calls → ∀ n, (totalRulesExecuted, n) ∈ (s.threads i).loaded →
    n ≤ s.seen i totalRulesSuccessful + s.seen i totalRulesFailed + (Fintype.card ι - 1)

variable {i : ι} {before : Counter → ℕ} {rest : List (List (Access Counter))}

omit [Fintype ι] [DecidableEq ι] in
/-- A thread that loads the executions in `getCounters` has loaded nothing else before. -/
theorem loaded_eq_nil {left : List (Access Counter)}
    (hloading : (s.threads i).loading = members)
    (hleft : (s.threads i).left = .load totalRulesExecuted :: left) : (s.threads i).loaded = [] := by
  rw [Thread.loading, hleft, loads] at hloading
  rcases hloaded : (s.threads i).loaded with - | ⟨e, loaded⟩
  · rfl
  · rw [hloaded] at hloading
    have htail : loaded.map Prod.fst ++ totalRulesExecuted :: loads left = members.tail :=
      (List.cons.inj hloading).2
    have hmem : totalRulesExecuted ∈ members.tail := by
      rw [← htail]
      exact List.mem_append_right _ List.mem_cons_self
    exact absurd hmem (by decide)

theorem Misses.step (h : Misses rest i s) (hinv : Invariant calls s)
    (hreset : ∀ i, .reset ∉ calls i) (hle : ∀ c, s.counters c ≤ s'.counters c)
    (hbracketed : Bracketed before Call.getCounters.accesses rest i s)
    (hstep : Step modulus s s') : Misses rest i s' := by
  intro hcalls n hn
  rcases hstep.thread i with hbegin | ⟨hsame, -, -, hgo⟩
  · -- the call is over
    rcases hbracketed with hlater | ⟨hnow, -⟩
    · rw [hbegin, hcalls] at hlater
      exact absurd hlater (Nat.not_lt.2 (Nat.le_succ _))
    · rw [hnow, hcalls] at hbegin
      exact absurd (congrArg List.length hbegin) (Nat.ne_of_lt (Nat.lt_succ_self _))
  · have hsucc := hstep.seen_le hle hsame totalRulesSuccessful
    have hfail := hstep.seen_le hle hsame totalRulesFailed
    have hmem : (totalRulesExecuted, n) ∈ (s.threads i).loaded ∨
        n = s.counters totalRulesExecuted ∧
          (s.threads i).left = .load totalRulesExecuted :: (s'.threads i).left := by
      rcases hgo with hkeep | ⟨c, hleft, -, hnew⟩
      · exact .inl (hkeep ▸ hn)
      · rw [hnew] at hn
        refine (List.mem_append.1 hn).imp_right fun hn ↦ ?_
        obtain ⟨rfl, rfl⟩ := Prod.mk.inj (List.mem_singleton.1 hn)
        exact ⟨rfl, hleft⟩
    rcases hmem with hold | ⟨rfl, hleft⟩
    · have := h (hsame ▸ hcalls) n hold
      omega
    · -- the thread itself is not counting an execution
      rcases hbracketed with hlater | ⟨-, hloading, -⟩
      · rw [← hsame, hcalls] at hlater
        exact absurd hlater (Nat.lt_irrefl _)
      have hnil := loaded_eq_nil hloading hleft
      have hseen (c : Counter) : s.seen i c = s.counters c := by
        rw [Config.seen, hnil]
        rfl
      have hothers : (Finset.univ.filter fun j ↦ midway (s.threads j).left).card ≤
          Fintype.card ι - 1 := by
        rw [← Finset.card_univ, ← Finset.card_erase_of_mem (Finset.mem_univ i)]
        refine Finset.card_le_card fun j hj ↦ Finset.mem_erase.2 ⟨?_, Finset.mem_univ j⟩
        rintro rfl
        rw [Finset.mem_filter, hleft] at hj
        exact Bool.false_ne_true hj.2
      have hexecuted := hinv.executed hreset
      rw [hseen] at hsucc hfail
      omega

/-- **What a snapshot says.** What `getCounters` returns lies, counter by counter, between what the
counters held when the call began and what they hold when it returns: nothing that was recorded
before is missing. It may have outcomes of executions that it does not have, but lacks the outcomes
of no more executions than there are other threads. -/
theorem getCounters_bounds (hreset : ∀ i, .reset ∉ calls i)
    (hfit : ∀ c, (recorded calls).count c < modulus) (h : Reachable calls s)
    (hbegin : s.threads i = ⟨Call.getCounters.accesses, [], rest⟩)
    (hreach : Relation.ReflTransGen (Step modulus) s s')
    (hend : (s'.threads i).left = [] ∧ (s'.threads i).calls = rest) :
    ∃ snapshot : Counter → ℕ,
      (s'.threads i).loaded = members.map (fun c ↦ (c, snapshot c)) ∧
      (∀ c, s.counters c ≤ snapshot c ∧ snapshot c ≤ s'.counters c) ∧
      snapshot totalRulesExecuted ≤
        snapshot totalRulesSuccessful + snapshot totalRulesFailed + (Fintype.card ι - 1) := by
  have hrun : Invariant calls s' ∧ Bracketed s.counters Call.getCounters.accesses rest i s' ∧
      Misses rest i s' := by
    clear hend
    induction hreach with
    | refl =>
      refine ⟨h.invariant hreset hfit, bracketed_start hbegin, fun _ n hn ↦ ?_⟩
      rw [hbegin] at hn
      exact absurd hn List.not_mem_nil
    | @tail s₁ s₂ _ hstep ih =>
      obtain ⟨hinv, hbracketed, hmisses⟩ := ih
      obtain ⟨hbalanced, hle⟩ := hinv.balanced.step hfit hstep
      exact ⟨⟨hbalanced, Sound.step hinv.sound hstep⟩, hbracketed.step hstep hle,
        hmisses.step hinv hreset hle hbracketed hstep⟩
  obtain ⟨hleft, hcalls⟩ := hend
  obtain ⟨-, hlater | ⟨-, hloading, -, hloaded⟩, hmisses⟩ := hrun
  · rw [hcalls] at hlater
    exact absurd hlater (Nat.lt_irrefl _)
  rw [Thread.loading, hleft, loads, List.append_nil] at hloading
  have hkeys : (s'.threads i).loaded.map Prod.fst = members := hloading
  obtain ⟨snapshot, hmap⟩ : ∃ snapshot : Counter → ℕ,
      (s'.threads i).loaded = members.map fun c ↦ (c, snapshot c) := by
    have hnodup : ((s'.threads i).loaded.map Prod.fst).Nodup := hkeys ▸ by decide
    exact ⟨_, (loaded_eq_map hnodup).trans (congrArg (List.map _) hkeys)⟩
  have hmem (c : Counter) : (c, snapshot c) ∈ (s'.threads i).loaded := by
    rw [hmap]
    exact List.mem_map_of_mem (by cases c <;> decide)
  have hseen (c : Counter) : s'.seen i c = snapshot c := by
    rw [Config.seen, hmap]
    cases c <;> rfl
  have hexecuted := hmisses hcalls _ (hmem totalRulesExecuted)
  rw [hseen, hseen] at hexecuted
  exact ⟨snapshot, hmap, fun c ↦ hloaded _ (hmem c), hexecuted⟩

/-- A snapshot of the execution without its outcome. -/
theorem busy_snapshot : ∃ snapshot : Counter → ℕ,
    ((busyAt ([false, false, true] ++ List.replicate 10 true)).threads true).loaded =
      members.map (fun c ↦ (c, snapshot c)) ∧
    1 ≤ snapshot totalRulesExecuted ∧
    snapshot totalRulesExecuted ≤
      snapshot totalRulesSuccessful + snapshot totalRulesFailed + 1 := by
  have hreach : Relation.ReflTransGen (Step modulus) (busyAt [false, false, true])
      (busyAt ([false, false, true] ++ List.replicate 10 true)) := by
    rw [busyAt, busyAt, Config.follow, Config.follow, List.foldl_append]
    exact reaches_follow _ _ _
  have hbegin : (busyAt [false, false, true]).threads true =
      ⟨Call.getCounters.accesses, [], []⟩ := rfl
  have hleft : ((busyAt ([false, false, true] ++ List.replicate 10 true)).threads true).left =
      [] := rfl
  obtain ⟨snapshot, hloaded, hbounds, hexecuted⟩ :=
    getCounters_bounds (by decide) busy_fits (reachable_busyAt _) hbegin hreach ⟨hleft, rfl⟩
  exact ⟨snapshot, hloaded, (hbounds totalRulesExecuted).1, hexecuted⟩

end PerformanceCounters

end FastRules
