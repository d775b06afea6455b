import FastRules.Limiter.RateLimiter

/-!
# The limiter is an exact sliding window

For a key whose configuration stays as it is, both queues show the log of the instants at which
executions were allowed (`Exact`), so `isAllowed` compares its limits with the number of executions
in the last second and the last minute (`isAllowed_iff`), and no closed interval of that length ever
holds more of them than its limit.

The queues are not as short as the limiter says they are: without a limit per minute the queue of
the last minute grows beyond the burst limit (`windows_bounded_iff`).
-/

namespace FastRules

open SlidingWindow

/-! ### Limits as numbers -/

theorem pos_iff_toNatClampNeg {limit : Int32} : 0 < limit ↔ 0 < limit.toNatClampNeg := by
  rw [Int32.lt_iff_toInt_lt, Int32.toNatClampNeg]
  show (0 : Int) < limit.toInt ↔ _
  omega

/-- The comparison is exact as long as the size is not beyond the limit. -/
theorem le_intOfSize_iff {limit : Int32} {size : ℕ} (hlimit : 0 < limit)
    (hsize : size ≤ limit.toNatClampNeg) : limit ≤ intOfSize size ↔ limit.toNatClampNeg ≤ size := by
  have hlt : size < 2 ^ 31 := hsize.trans_lt limit.toNatClampNeg_lt
  have hpos : (0 : Int) < limit.toInt := Int32.lt_iff_toInt_lt.1 hlimit
  rw [Int32.le_iff_toInt_le, intOfSize, Int32.toInt_ofNat_of_lt hlt, Int32.toNatClampNeg]
  omega

/-! ### The states of a key -/

/-- The limits that are in force admit an instant after the log. -/
def LimiterConfig.Admits (config : LimiterConfig) (log : List Time) (now : Time) : Prop :=
  (0 < config.maxExecutionsPerSecond →
      (within (now - oneSecond) now log).length < config.burst.toNatClampNeg) ∧
    (0 < config.maxExecutionsPerMinute →
      (within (now - oneMinute) now log).length < config.maxExecutionsPerMinute.toNatClampNeg)

/-- The state of a key with the configuration, given when executions have been allowed. -/
structure RuleState.Exact (config : LimiterConfig) (log : List Time) (now : Time)
    (state : RuleState) : Prop where
  config_eq : state.config = config
  sorted : log.Pairwise (· ≤ ·)
  le_now : ∀ t ∈ log, t ≤ now
  second : Shows (now - oneSecond) log state.secondWindow
  minute : Shows (now - oneMinute) log state.minuteWindow
  perSecond : 0 < config.maxExecutionsPerSecond → Admitted oneSecond config.burst.toNatClampNeg log
  perMinute : 0 < config.maxExecutionsPerMinute →
    Admitted oneMinute config.maxExecutionsPerMinute.toNatClampNeg log

section Exact

variable {config : LimiterConfig} {log : List Time} {now t : Time} {state : RuleState}

theorem LimiterConfig.burst_pos (h : 0 < config.maxExecutionsPerSecond) : 0 < config.burst := by
  rw [LimiterConfig.burst]
  split_ifs with hburst
  · exact hburst
  · exact h

/-- Nothing in the log is later than now. -/
theorem within_eq_since (h : ∀ t ∈ log, t ≤ now) (first : Time) :
    within first now log = since first log := by
  rw [within, since]
  refine List.filter_congr fun t ht ↦ decide_eq_decide.2 ?_
  exact and_iff_left (h t ht)

/-- The state of a key that has just been configured. -/
theorem RuleState.exact_fresh (config : LimiterConfig) (now : Time) :
    ({ config } : RuleState).Exact config [] now where
  config_eq := rfl
  sorted := List.Pairwise.nil
  le_now _ h := absurd h List.not_mem_nil
  second := shows_nil _
  minute := shows_nil _
  perSecond _ := admitted_nil _ _
  perMinute _ := admitted_nil _ _

/-- Time may pass. -/
theorem RuleState.Exact.mono (h : state.Exact config log now) (hle : now ≤ t) :
    state.Exact config log t where
  config_eq := h.config_eq
  sorted := h.sorted
  le_now u hu := (h.le_now u hu).trans hle
  second := h.second.mono (Int.sub_le_sub_right hle _)
  minute := h.minute.mono (Int.sub_le_sub_right hle _)
  perSecond := h.perSecond
  perMinute := h.perMinute

/-- What has expired may be dropped. -/
theorem RuleState.Exact.cleanup (h : state.Exact config log now) :
    (state.cleanupOldEntries now).Exact config log now where
  config_eq := h.config_eq
  sorted := h.sorted
  le_now := h.le_now
  second := h.second.expire h.sorted
  minute := h.minute.expire h.sorted
  perSecond := h.perSecond
  perMinute := h.perMinute

/-- The number of executions in a window whose limit is in force does not exceed the limit. -/
theorem length_since_le_of_admitted {width : Time} {limit : ℕ} (hle : ∀ t ∈ log, t ≤ now)
    (h : Admitted width limit log) : (since (now - width) log).length ≤ limit := by
  have hwithin := h.length_within_le (now - width)
  rwa [sub_add_cancel, within_eq_since hle] at hwithin

/-- After the cleanup the limits are exhausted exactly if they admit nothing more. -/
theorem RuleState.Exact.isExhausted_iff (h : state.Exact config log now) :
    (state.cleanupOldEntries now).isExhausted = false ↔ config.Admits log now := by
  have hsecond : (state.cleanupOldEntries now).secondWindow = since (now - oneSecond) log :=
    h.second.expire_eq h.sorted
  have hminute : (state.cleanupOldEntries now).minuteWindow = since (now - oneMinute) log :=
    h.minute.expire_eq h.sorted
  have hconfig : (state.cleanupOldEntries now).config = config := h.config_eq
  rw [isExhausted, hsecond, hminute, hconfig, Bool.or_eq_false_iff, LimiterConfig.Admits,
    within_eq_since h.le_now, within_eq_since h.le_now]
  refine and_congr ?_ ?_
  · by_cases hpos : 0 < config.maxExecutionsPerSecond
    · have hle := length_since_le_of_admitted h.le_now (h.perSecond hpos)
      simp [hpos, le_intOfSize_iff (LimiterConfig.burst_pos hpos) hle]
    · simp [hpos]
  · by_cases hpos : 0 < config.maxExecutionsPerMinute
    · have hle := length_since_le_of_admitted h.le_now (h.perMinute hpos)
      simp [hpos, le_intOfSize_iff hpos hle]
    · simp [hpos]

/-- Recording an instant that is admitted. -/
theorem RuleState.Exact.record (h : state.Exact config log now) (hadmits : config.Admits log now) :
    (state.record now).Exact config (log ++ [now]) now where
  config_eq := h.config_eq
  sorted := by
    refine List.pairwise_append.2 ⟨h.sorted, List.pairwise_singleton _ _, fun u hu v hv ↦ ?_⟩
    obtain rfl := List.mem_singleton.1 hv
    exact h.le_now u hu
  le_now u hu := by
    rcases List.mem_append.1 hu with hu | hu
    · exact h.le_now u hu
    · exact (List.mem_singleton.1 hu).le
  second := h.second.concat (sub_le_self now (by decide))
  minute := h.minute.concat (sub_le_self now (by decide))
  perSecond hpos := by
    have hlt := hadmits.1 hpos
    rw [within_eq_since h.le_now] at hlt
    exact (h.perSecond hpos).concat hlt
  perMinute hpos := by
    have hlt := hadmits.2 hpos
    rw [within_eq_since h.le_now] at hlt
    exact (h.perMinute hpos).concat hlt

/-- **One call.** It allows the execution exactly if the limits admit it, and keeps what the state
shows. -/
theorem RuleState.Exact.isAllowed (h : state.Exact config log now)
    (henabled : config.isEnabled = true) :
    ((state.isAllowed now now).1 = true ↔ config.Admits log now) ∧
      (state.isAllowed now now).2.Exact config
        (log ++ if (state.isAllowed now now).1 then [now] else []) now := by
  rw [state.isAllowed_enabled (h.config_eq ▸ henabled)]
  rcases hexhausted : (state.cleanupOldEntries now).isExhausted with - | -
  · have hadmits := h.isExhausted_iff.1 hexhausted
    exact ⟨iff_of_true rfl hadmits, h.cleanup.record hadmits⟩
  · have hdenied : ¬config.Admits log now := fun hadmits ↦ by
      rw [h.isExhausted_iff.2 hadmits] at hexhausted
      cases hexhausted
    refine ⟨iff_of_false Bool.false_ne_true hdenied, ?_⟩
    show (state.cleanupOldEntries now).Exact config (log ++ []) now
    rw [List.append_nil]
    exact h.cleanup

end Exact

/-! ### Runs -/

/-- The state of the key is exact about when the run has allowed executions. -/
def LimiterRun.Exact (config : LimiterConfig) (key : String) (now : Time) (run : LimiterRun) :
    Prop :=
  ∃ state, run.limiter.states key = some state ∧ state.Exact config run.allowed now

section Runs

variable {config : LimiterConfig} {key key' : String} {now t : Time} {limiter : RateLimiter}

theorem RateLimiter.setState_self (limiter : RateLimiter) (key : String) (state : RuleState) :
    (limiter.setState key state).states key = some state :=
  Function.update_self _ _ _

theorem RateLimiter.setState_of_ne (limiter : RateLimiter) (h : key ≠ key') (state : RuleState) :
    (limiter.setState key' state).states key = limiter.states key :=
  Function.update_of_ne h _ _

theorem RateLimiter.isAllowed_some {state : RuleState} (h : limiter.states key = some state)
    (cleanupTime now : Time) :
    limiter.isAllowed cleanupTime now key =
      ((state.isAllowed cleanupTime now).1, limiter.setState key
        (state.isAllowed cleanupTime now).2) := by
  rw [isAllowed, h]

/-- A call about another key leaves the state of the key alone. -/
theorem RateLimiter.isAllowed_frame (h : key ≠ key') (cleanupTime now : Time) :
    (limiter.isAllowed cleanupTime now key').2.states key = limiter.states key := by
  rw [isAllowed]
  split
  · rfl
  · exact limiter.setState_of_ne h _

theorem RateLimiter.count_frame (h : key ≠ key') (now : Time) (window : RuleState → List Time) :
    (limiter.count now key' window).2.states key = limiter.states key := by
  rw [count]
  split
  · rfl
  · exact limiter.setState_of_ne h _

/-- Counting only drops what has expired. -/
theorem RateLimiter.count_states {state : RuleState} (h : limiter.states key = some state)
    (now : Time) (window : RuleState → List Time) :
    (limiter.count now key window).2.states key = some (state.cleanupOldEntries now) := by
  rw [count, h]
  exact limiter.setState_self key _

variable {run : LimiterRun}

theorem LimiterRun.Exact.mono (h : run.Exact config key now) (hle : now ≤ t) :
    run.Exact config key t := by
  obtain ⟨state, hstate, hexact⟩ := h
  exact ⟨state, hstate, hexact.mono hle⟩

/-- The metrics allow nothing. -/
theorem LimiterRun.Exact.count (h : run.Exact config key now) (hle : now ≤ t) (key' : String)
    (window : RuleState → List Time) :
    LimiterRun.Exact config key t ⟨(run.limiter.count t key' window).2, run.allowed ++ []⟩ := by
  obtain ⟨state, hstate, hexact⟩ := h.mono hle
  rw [List.append_nil]
  by_cases hkey : key = key'
  · subst hkey
    exact ⟨_, RateLimiter.count_states hstate t window, hexact.cleanup⟩
  · exact ⟨state, (RateLimiter.count_frame hkey t window).trans hstate, hexact⟩

/-- **The step.** Every call keeps the state of the key exact. -/
theorem LimiterRun.Exact.step (h : run.Exact config key now) (henabled : config.isEnabled = true)
    (call : LimiterCall) (hle : now ≤ call.time) :
    (run.step key call).Exact config key call.time := by
  cases call with
  | isAllowed key' t =>
    obtain ⟨state, hstate, hexact⟩ := h.mono hle
    -- a call on another key touches nothing of this one
    by_cases hkey : key' = key
    · subst hkey
      have hallowed := run.limiter.isAllowed_some hstate t t
      refine ⟨(state.isAllowed t t).2, ?_, ?_⟩
      · show ((run.limiter.isAllowed t t key').2).states key' = _
        rw [hallowed]
        exact run.limiter.setState_self key' _
      · show (state.isAllowed t t).2.Exact config
          (run.allowed ++ if (decide (key' = key') && (run.limiter.isAllowed t t key').1) then [t]
            else []) t
        rw [hallowed, decide_eq_true rfl, Bool.true_and]
        exact (hexact.isAllowed henabled).2
    · refine ⟨state, (RateLimiter.isAllowed_frame (Ne.symm hkey) t t).trans hstate, ?_⟩
      show state.Exact config
        (run.allowed ++ if (decide (key' = key) && (run.limiter.isAllowed t t key').1) then [t]
          else []) t
      rw [decide_eq_false hkey, Bool.false_and, if_neg Bool.false_ne_true, List.append_nil]
      exact hexact
  | getCurrentExecutionsPerSecond key' t => exact h.count hle key' RuleState.secondWindow
  | getCurrentExecutionsPerMinute key' t => exact h.count hle key' RuleState.minuteWindow

/-- **The run.** -/
theorem LimiterRun.Exact.foldl (h : run.Exact config key now) (henabled : config.isEnabled = true)
    {calls : List LimiterCall}
    (hsorted : (now :: calls.map LimiterCall.time ++ [t]).Pairwise (· ≤ ·)) :
    (calls.foldl (LimiterRun.step key) run).Exact config key t := by
  induction calls generalizing run now with
  | nil => exact h.mono (List.rel_of_pairwise_cons hsorted (List.mem_singleton_self t))
  | cons call calls ih =>
    have hle : now ≤ call.time := List.rel_of_pairwise_cons hsorted List.mem_cons_self
    exact ih (h.step henabled call hle) (List.pairwise_cons.1 hsorted).2

/-- A run from a fresh configuration. -/
theorem LimiterRun.of_exact (hstate : limiter.states key = some { config })
    (henabled : config.isEnabled = true) {calls : List LimiterCall}
    (hsorted : (calls.map LimiterCall.time ++ [t]).Pairwise (· ≤ ·)) :
    (LimiterRun.of limiter key calls).Exact config key t := by
  have hstart (now : Time) : LimiterRun.Exact config key now { limiter } :=
    ⟨_, hstate, RuleState.exact_fresh config now⟩
  cases calls with
  | nil => exact hstart t
  | cons call calls =>
    exact ((hstart call.time).step henabled call le_rfl).foldl henabled hsorted

end Runs

/-- **The limiter is an exact sliding window.** An execution is allowed exactly if the executions
allowed in the closed windows before it are fewer than the limits, and no closed interval of a
second or a minute ever holds more of them than the limit. -/
theorem isAllowed_iff (limiter : RateLimiter) (key : String) (config : LimiterConfig)
    (hstate : limiter.states key = some { config }) (henabled : config.isEnabled = true)
    (calls : List LimiterCall) (t : Time)
    (hsorted : (calls.map LimiterCall.time ++ [t]).Pairwise (· ≤ ·)) :
    (((LimiterRun.of limiter key calls).limiter.isAllowed t t key).1 = true ↔
      (0 < config.maxExecutionsPerSecond →
        (within (t - oneSecond) t (LimiterRun.of limiter key calls).allowed).length <
          config.burst.toNatClampNeg) ∧
      (0 < config.maxExecutionsPerMinute →
        (within (t - oneMinute) t (LimiterRun.of limiter key calls).allowed).length <
          config.maxExecutionsPerMinute.toNatClampNeg)) ∧
    ∀ first,
      (0 < config.maxExecutionsPerSecond →
        (within first (first + oneSecond) (LimiterRun.of limiter key calls).allowed).length ≤
          config.burst.toNatClampNeg) ∧
      (0 < config.maxExecutionsPerMinute →
        (within first (first + oneMinute) (LimiterRun.of limiter key calls).allowed).length ≤
          config.maxExecutionsPerMinute.toNatClampNeg) := by
  obtain ⟨state, hrun, hexact⟩ := LimiterRun.of_exact hstate henabled hsorted
  refine ⟨?_, fun first ↦ ⟨fun hpos ↦ ?_, fun hpos ↦ ?_⟩⟩
  · rw [RateLimiter.isAllowed_some hrun]
    exact (hexact.isAllowed henabled).1
  · exact (hexact.perSecond hpos).length_within_le first
  · exact (hexact.perMinute hpos).length_within_le first

/-- A limiter that allows `A` one execution per second. -/
def oncePerSecond : LimiterConfig where
  ruleName := "A"
  maxExecutionsPerSecond := 1

/-- An execution exactly one second ago still counts. -/
theorem oncePerSecond_boundary :
    ((LimiterRun.of (({} : RateLimiter).configure oncePerSecond) "A"
      [.isAllowed "A" 0]).limiter.isAllowed oneSecond oneSecond "A").1 = false := by
  have h :=
    (isAllowed_iff (({} : RateLimiter).configure oncePerSecond) "A" oncePerSecond rfl (by decide)
    [.isAllowed "A" 0] oneSecond (by decide)).1
  rw [← Bool.not_eq_true, h]
  exact fun hadmits ↦ absurd (hadmits.1 (by decide)) (by decide)

/-! ### The length of the queues -/

section Length

variable {config : LimiterConfig} {key : String} {log : List Time} {t : Time} {state : RuleState}

/-- After a call both queues hold exactly what is in the windows. -/
theorem RuleState.Exact.isAllowed_windows (h : state.Exact config log t)
    (henabled : config.isEnabled = true) :
    (state.isAllowed t t).2.secondWindow =
        since (t - oneSecond) (log ++ if (state.isAllowed t t).1 then [t] else []) ∧
      (state.isAllowed t t).2.minuteWindow =
        since (t - oneMinute) (log ++ if (state.isAllowed t t).1 then [t] else []) := by
  have hsecond : (state.cleanupOldEntries t).secondWindow = since (t - oneSecond) log :=
    h.second.expire_eq h.sorted
  have hminute : (state.cleanupOldEntries t).minuteWindow = since (t - oneMinute) log :=
    h.minute.expire_eq h.sorted
  have hnow {width : Time} (hwidth : 0 ≤ width) : since (t - width) [t] = [t] :=
    since_eq_self fun u hu ↦ by
      obtain rfl := List.mem_singleton.1 hu
      exact sub_le_self u hwidth
  rw [state.isAllowed_enabled (h.config_eq ▸ henabled)]
  rcases (state.cleanupOldEntries t).isExhausted with - | -
  · show _ = since (t - oneSecond) (log ++ [t]) ∧ _ = since (t - oneMinute) (log ++ [t])
    rw [since_append, since_append, hnow (by decide), hnow (by decide), ← hsecond, ← hminute]
    exact ⟨rfl, rfl⟩
  · show _ = since (t - oneSecond) (log ++ []) ∧ _ = since (t - oneMinute) (log ++ [])
    rw [List.append_nil]
    exact ⟨hsecond, hminute⟩

/-- With a limit per minute, neither queue is longer than the limit after a call. -/
theorem RuleState.Exact.length_windows_le (h : state.Exact config log t)
    (henabled : config.isEnabled = true) (hminute : 0 < config.maxExecutionsPerMinute) :
    (state.isAllowed t t).2.secondWindow.length ≤ config.maxExecutionsPerMinute.toNatClampNeg ∧
      (state.isAllowed t t).2.minuteWindow.length ≤
        config.maxExecutionsPerMinute.toNatClampNeg := by
  have hexact := (h.isAllowed henabled).2
  obtain ⟨hsecond, hminute'⟩ := h.isAllowed_windows henabled
  have hle := length_since_le_of_admitted hexact.le_now (hexact.perMinute hminute)
  rw [hsecond, hminute']
  refine ⟨(length_since_anti ?_ _).trans hle, hle⟩
  exact Int.sub_le_sub_left (by decide) t

/-- Without a limit per minute, as many executions as the burst limit says are allowed at once. -/
theorem burst_at_once (hsecond : 0 < config.maxExecutionsPerSecond)
    (hminute : ¬0 < config.maxExecutionsPerMinute) {limiter : RateLimiter}
    (hstate : limiter.states key = some { config }) {k : ℕ} (hk : k ≤ config.burst.toNatClampNeg) :
    (LimiterRun.of limiter key (List.replicate k (.isAllowed key 0))).limiter.states key =
      some { config, secondWindow := List.replicate k 0, minuteWindow := List.replicate k 0 } := by
  induction k with
  | zero => exact hstate
  | succ k ih =>
    have henabled : config.isEnabled = true := by simp [LimiterConfig.isEnabled, hsecond]
    let state : RuleState :=
      { config, secondWindow := List.replicate k 0, minuteWindow := List.replicate k 0 }
    -- at the same instant nothing expires
    have hkeep {width : Time} (hwidth : 0 ≤ width) :
        expire (0 - width) (List.replicate k (0 : Time)) = List.replicate k 0 := by
      rw [expire_eq_since (List.pairwise_replicate.2 (.inr le_rfl))]
      refine since_eq_self fun u hu ↦ ?_
      rw [List.eq_of_mem_replicate hu]
      exact sub_le_self 0 hwidth
    have hcleanup : state.cleanupOldEntries 0 = state := by
      rw [RuleState.cleanupOldEntries, hkeep (by decide), hkeep (by decide)]
    have hroom : state.isExhausted = false := by
      have hlength : (List.replicate k (0 : Time)).length = k := List.length_replicate
      have hlt : ¬config.burst ≤ intOfSize k := by
        rw [le_intOfSize_iff (LimiterConfig.burst_pos hsecond) (Nat.le_of_succ_le hk)]
        exact not_le.2 hk
      simp [RuleState.isExhausted, state, hlt, hminute]
    have hallowed : state.isAllowed 0 0 = (true, state.record 0) := by
      rw [state.isAllowed_enabled henabled, hcleanup, hroom, if_neg Bool.false_ne_true]
    rw [List.replicate_succ', LimiterRun.of, List.foldl_append]
    show ((LimiterRun.of limiter key _).limiter.isAllowed 0 0 key).2.states key = _
    rw [RateLimiter.isAllowed_some (ih (Nat.le_of_succ_le hk)), hallowed, RateLimiter.setState_self,
      RuleState.record]
    simp only [List.replicate_succ']
    rfl

/-- In every run of `isAllowed` calls on a key that has been given the configuration, neither queue
is longer than the greater of the burst limit and the limit per minute. -/
def LimiterConfig.BoundsWindows (config : LimiterConfig) : Prop :=
  ∀ (limiter : RateLimiter) (key : String), limiter.states key = some { config } →
    ∀ times : List Time, times.Pairwise (· ≤ ·) → ∀ state,
      (LimiterRun.of limiter key (times.map (.isAllowed key))).limiter.states key = some state →
      state.secondWindow.length ≤
          max config.burst.toNatClampNeg config.maxExecutionsPerMinute.toNatClampNeg ∧
        state.minuteWindow.length ≤
          max config.burst.toNatClampNeg config.maxExecutionsPerMinute.toNatClampNeg

/-- A limit per minute bounds both queues. -/
theorem boundsWindows_of_minute (henabled : config.isEnabled = true)
    (hminute : 0 < config.maxExecutionsPerMinute) : config.BoundsWindows := by
  intro limiter key hstate times hsorted state hrun
  rcases List.eq_nil_or_concat' times with rfl | ⟨times, t, rfl⟩
  · obtain rfl := Option.some.inj (hstate.symm.trans hrun)
    exact ⟨Nat.zero_le _, Nat.zero_le _⟩
  · have hcalls : ((times.map (LimiterCall.isAllowed key)).map LimiterCall.time ++ [t]).Pairwise
        (· ≤ ·) := by
      rw [List.map_map]
      exact (List.map_id times).symm ▸ hsorted
    obtain ⟨before, hbefore, hexact⟩ := LimiterRun.of_exact hstate henabled hcalls
    have hlast :
        (LimiterRun.of limiter key ((times ++ [t]).map (.isAllowed key))).limiter.states key =
          some (before.isAllowed t t).2 := by
      rw [List.map_append, LimiterRun.of, List.foldl_append]
      show ((LimiterRun.of limiter key _).limiter.isAllowed t t key).2.states key = _
      rw [RateLimiter.isAllowed_some hbefore]
      exact RateLimiter.setState_self _ _ _
    obtain rfl := Option.some.inj (hlast.symm.trans hrun)
    obtain ⟨hsecond, hminute'⟩ := hexact.length_windows_le henabled hminute
    exact ⟨hsecond.trans (le_max_right _ _), hminute'.trans (le_max_right _ _)⟩

/-- Without it the queue of the last minute takes a burst and what is allowed two seconds later. -/
theorem exists_windows_exceed (hsecond : 0 < config.maxExecutionsPerSecond)
    (hminute : ¬0 < config.maxExecutionsPerMinute) {limiter : RateLimiter}
    (hstate : limiter.states key = some { config }) :
    let times : List Time := List.replicate config.burst.toNatClampNeg 0 ++ [2 * oneSecond]
    ∃ state, (LimiterRun.of limiter key (times.map (.isAllowed key))).limiter.states key =
      some state ∧
      state.minuteWindow.length = config.burst.toNatClampNeg + 1 := by
  intro times
  have henabled : config.isEnabled = true := by simp [LimiterConfig.isEnabled, hsecond]
  let state : RuleState :=
    { config
      secondWindow := List.replicate config.burst.toNatClampNeg 0
      minuteWindow := List.replicate config.burst.toNatClampNeg 0 }
  have hcalls : times.map (LimiterCall.isAllowed key) =
      List.replicate config.burst.toNatClampNeg (.isAllowed key 0) ++
        [.isAllowed key (2 * oneSecond)] := by
    rw [List.map_append, List.map_replicate, List.map_singleton]
  have hsorted : (List.replicate config.burst.toNatClampNeg (0 : Time)).Pairwise (· ≤ ·) :=
    List.pairwise_replicate.2 (.inr le_rfl)
  -- two seconds after the burst the queue of the last second is empty, the other one is full
  have hsecondWindow : (state.cleanupOldEntries (2 * oneSecond)).secondWindow = [] := by
    refine (expire_eq_since hsorted).trans (List.filter_eq_nil_iff.2 fun u hu ↦ ?_)
    rw [List.eq_of_mem_replicate hu]
    decide
  have hminuteWindow :
      (state.cleanupOldEntries (2 * oneSecond)).minuteWindow = state.minuteWindow := by
    refine (expire_eq_since hsorted).trans (since_eq_self fun u hu ↦ ?_)
    rw [List.eq_of_mem_replicate hu]
    decide
  have hroom : (state.cleanupOldEntries (2 * oneSecond)).isExhausted = false := by
    have hlt : ¬config.burst ≤ intOfSize 0 := by
      rw [le_intOfSize_iff (LimiterConfig.burst_pos hsecond) (Nat.zero_le _), not_le]
      exact pos_iff_toNatClampNeg.1 (LimiterConfig.burst_pos hsecond)
    rw [RuleState.isExhausted, hsecondWindow]
    simp [RuleState.cleanupOldEntries, state, hlt, hminute]
  have hallowed : state.isAllowed (2 * oneSecond) (2 * oneSecond) =
      (true, (state.cleanupOldEntries (2 * oneSecond)).record (2 * oneSecond)) := by
    rw [state.isAllowed_enabled henabled, hroom, if_neg Bool.false_ne_true]
  refine ⟨(state.cleanupOldEntries (2 * oneSecond)).record (2 * oneSecond), ?_, ?_⟩
  · rw [hcalls, LimiterRun.of, List.foldl_append]
    show ((LimiterRun.of limiter key _).limiter.isAllowed (2 * oneSecond) (2 * oneSecond)
      key).2.states
      key = _
    rw [RateLimiter.isAllowed_some (burst_at_once hsecond hminute hstate le_rfl), hallowed]
    exact RateLimiter.setState_self _ _ _
  · show ((state.cleanupOldEntries (2 * oneSecond)).minuteWindow ++ [2 * oneSecond]).length = _
    rw [hminuteWindow, List.length_append, List.length_replicate, List.length_singleton]

end Length

/-- **The queues stay within the documented bound** exactly under a limit per minute. -/
theorem windows_bounded_iff (config : LimiterConfig) (henabled : config.isEnabled = true) :
    config.BoundsWindows ↔ 0 < config.maxExecutionsPerMinute := by
  refine ⟨fun h ↦ ?_, boundsWindows_of_minute henabled⟩
  by_contra hminute
  have hsecond : 0 < config.maxExecutionsPerSecond := by
    simpa [LimiterConfig.isEnabled, hminute] using henabled
  have hzero : config.maxExecutionsPerMinute.toNatClampNeg = 0 :=
    Nat.eq_zero_of_not_pos fun hpos ↦ hminute (pos_iff_toNatClampNeg.2 hpos)
  let limiter : RateLimiter := { states := fun _ ↦ some { config } }
  obtain ⟨state, hrun, hlength⟩ := exists_windows_exceed hsecond hminute
    (show limiter.states "" = some { config } from rfl)
  have hsorted : (List.replicate config.burst.toNatClampNeg (0 : Time) ++ [2 * oneSecond]).Pairwise
      (· ≤ ·) := by
    refine List.pairwise_append.2 ⟨List.pairwise_replicate.2 (.inr le_rfl),
      List.pairwise_singleton _ _,
      fun u hu v hv ↦ ?_⟩
    rw [List.eq_of_mem_replicate hu, List.mem_singleton.1 hv]
    decide
  have hle := (h limiter "" rfl _ hsorted state hrun).2
  rw [hlength, hzero, Nat.max_zero] at hle
  exact Nat.not_succ_le_self _ hle

/-- A limiter that also allows `A` at most thirty executions per minute. -/
def thirtyPerMinute : LimiterConfig where
  ruleName := "A"
  maxExecutionsPerSecond := 1
  maxExecutionsPerMinute := 30

theorem thirtyPerMinute_bounded : thirtyPerMinute.BoundsWindows :=
  (windows_bounded_iff thirtyPerMinute (by decide)).2 (by decide)

/-- One execution per second, and two of them in the queue of the last minute. -/
theorem oncePerSecond_exceeds : oncePerSecond.isEnabled = true ∧
    (LimiterRun.of (({} : RateLimiter).configure oncePerSecond) "A"
        [.isAllowed "A" 0, .isAllowed "A" (2 * oneSecond)]).limiter.states "A" =
      some { config := oncePerSecond, secondWindow := [2 * oneSecond],
             minuteWindow := [0, 2 * oneSecond] } ∧
    ¬oncePerSecond.BoundsWindows := by
  refine ⟨by decide, by decide, fun h ↦ ?_⟩
  have hle := (h (({} : RateLimiter).configure oncePerSecond) "A" rfl [0, 2 * oneSecond] (by decide)
    { config := oncePerSecond, secondWindow := [2 * oneSecond], minuteWindow := [0, 2 * oneSecond] }
    (by decide)).2
  exact absurd hle (by decide)

end FastRules
