import FastRules.Parallel.Modes
import Mathlib.Data.Rat.Defs

/-!
# Adaptive execution

`Workflow::executeAdaptive` runs a workflow one rule after the other if it has few rules, and in
parallel otherwise. With auto-detection, one call in a hundred measures both ways and moves the
threshold by one. The arithmetic is that of `size_t`, and each of the two moves is bounded on the
side it goes to only, so it matters where the threshold comes from.

Nothing is assumed of the clock, of the arithmetic of `double` or of the two ways to execute.
-/

namespace FastRules

/-- The operations of `double` on the measured times. -/
structure DoubleOps (F : Type) where
  ofSize : UInt64 → F
  ofMicroseconds : Int → F
  add : F → F → F
  mul : F → F → F
  div : F → F → F
  lt : F → F → Bool
  /-- The literal `0.8`. -/
  fourFifths : F

/-- The members of a `Workflow` that `executeAdaptive` works on. -/
structure AdaptiveTuning (F : Type) where
  adaptiveThreshold : UInt64 := 4
  autoDetectThreshold : Bool := false
  sequentialAvgTime : F
  parallelAvgTime : F
  sequentialRuns : UInt64 := 0
  parallelRuns : UInt64 := 0

/-- The same of a state with `Float`s for the `double`s. -/
def AdaptiveState.tuning (s : AdaptiveState) : AdaptiveTuning Float where
  adaptiveThreshold := s.adaptiveThreshold
  autoDetectThreshold := s.autoDetectThreshold
  sequentialAvgTime := s.sequentialAvgTime
  parallelAvgTime := s.parallelAvgTime
  sequentialRuns := s.sequentialRuns
  parallelRuns := s.parallelRuns

/-- What a workflow does besides; `σ` is the state of everything else. -/
structure AdaptiveEnvironment (σ : Type) where
  /-- `high_resolution_clock::now()`. -/
  now : σ → Time × σ
  /-- `if (!compiled_) compile(engine)`. -/
  ensureCompiled : σ → Except Exn Unit × σ
  execute : σ → Except Exn (List RuleResult) × σ
  executeParallel : σ → Except Exn (List RuleResult) × σ

/-- A way to execute. -/
inductive ExecutionMode
  | sequential
  | parallel
  deriving DecidableEq, Repr

/-- How the threshold is moved in favour of one way to execute. -/
def ExecutionMode.adjust : ExecutionMode → UInt64 → UInt64
  | sequential, threshold => min (threshold + 1) 20
  | parallel, threshold => max (threshold - 1) 2

namespace ExecutionMode

theorem toNat_adjust_sequential (threshold : UInt64) :
    (sequential.adjust threshold).toNat = min ((threshold.toNat + 1) % 2 ^ 64) 20 := by
  show (if threshold + 1 ≤ 20 then threshold + 1 else 20).toNat = _
  have hsum : (threshold + 1).toNat = (threshold.toNat + 1) % 2 ^ 64 := UInt64.toNat_add _ _
  split_ifs with hle
  · rw [UInt64.le_iff_toNat_le, hsum] at hle
    exact hsum.trans (min_eq_left hle).symm
  · rw [UInt64.le_iff_toNat_le, hsum] at hle
    exact (min_eq_right (not_le.1 hle).le).symm

theorem toNat_adjust_parallel (threshold : UInt64) :
    (parallel.adjust threshold).toNat = max ((threshold.toNat + (2 ^ 64 - 1)) % 2 ^ 64) 2 := by
  show (if threshold - 1 ≤ 2 then 2 else threshold - 1).toNat = _
  have hdifference : (threshold - 1).toNat = (threshold.toNat + (2 ^ 64 - 1)) % 2 ^ 64 := by
    rw [UInt64.toNat_sub, Nat.add_comm]
    rfl
  split_ifs with hle
  · rw [UInt64.le_iff_toNat_le, hdifference] at hle
    exact (max_eq_right hle).symm
  · rw [UInt64.le_iff_toNat_le, hdifference] at hle
    exact hdifference.trans (max_eq_left (not_le.1 hle).le).symm

end ExecutionMode

namespace AdaptiveTuning

section Averages

variable {F : Type} (x : DoubleOps F)

/-- A rolling average with one more time in it. -/
def average (avg : F) (runs : UInt64) (time : F) : F :=
  x.div (x.add (x.mul avg (x.ofSize runs)) time) (x.ofSize (runs + 1))

def recordSequential (time : F) (w : AdaptiveTuning F) : AdaptiveTuning F :=
  { w with
    sequentialAvgTime := average x w.sequentialAvgTime w.sequentialRuns time
    sequentialRuns := w.sequentialRuns + 1 }

def recordParallel (time : F) (w : AdaptiveTuning F) : AdaptiveTuning F :=
  { w with
    parallelAvgTime := average x w.parallelAvgTime w.parallelRuns time
    parallelRuns := w.parallelRuns + 1 }

/-- The way to execute that is significantly faster on the average. -/
def faster (w : AdaptiveTuning F) : Option ExecutionMode :=
  if x.lt w.sequentialAvgTime (x.mul w.parallelAvgTime x.fourFifths) then some .sequential
  else if x.lt w.parallelAvgTime (x.mul w.sequentialAvgTime x.fourFifths) then some .parallel
  else none

/-- Adjust the threshold, if one way to execute is significantly faster. -/
def adjustThreshold (w : AdaptiveTuning F) : AdaptiveTuning F :=
  match w.faster x with
  | some mode => { w with adaptiveThreshold := mode.adjust w.adaptiveThreshold }
  | none => w

end Averages

end AdaptiveTuning

/-- The arithmetic of `Float`. -/
def DoubleOps.float : DoubleOps Float where
  ofSize n := n.toFloat
  ofMicroseconds n := .ofInt n
  add a b := a + b
  mul a b := a * b
  div a b := a / b
  lt a b := a < b
  fourFifths := 0.8

theorem AdaptiveState.tuning_faster (s : AdaptiveState) :
    s.tuning.faster .float =
      if s.sequentialAvgTime < s.parallelAvgTime * 0.8 then some .sequential
      else if s.parallelAvgTime < s.sequentialAvgTime * 0.8 then some .parallel
      else none := by
  simp only [AdaptiveTuning.faster, DoubleOps.float, AdaptiveState.tuning, decide_eq_true_eq]

/-- The adjustment after a test of both strategies, with `Float`s. -/
theorem AdaptiveState.tuning_adjust (s : AdaptiveState) (seqTime parTime : Float) :
    (s.sample seqTime parTime).adjust.tuning =
      ((s.tuning.recordSequential .float seqTime).recordParallel .float parTime).adjustThreshold
        .float := by
  have hsample : (s.sample seqTime parTime).tuning =
      (s.tuning.recordSequential .float seqTime).recordParallel .float parTime := rfl
  rw [← hsample, AdaptiveTuning.adjustThreshold, AdaptiveState.tuning_faster, AdaptiveState.adjust]
  split_ifs <;> rfl

/-! ### `executeAdaptive` -/

section Execute

variable {F σ : Type} (x : DoubleOps F) (env : AdaptiveEnvironment σ)

/-- Execute and measure the time. An exception leaves no measurement. -/
def measure (execute : σ → Except Exn (List RuleResult) × σ) (s : σ) :
    Except Exn (List RuleResult × F) × σ :=
  let (start, s₁) := env.now s
  match execute s₁ with
  | (.error e, s₂) => (.error e, s₂)
  | (.ok results, s₂) =>
    let (finish, s₃) := env.now s₂
    (.ok (results, x.ofMicroseconds ((finish - start).tdiv 1000)), s₃)

/-- Measure both ways to execute. -/
def measureBoth (w : AdaptiveTuning F) (s : σ) :
    Except Exn (List RuleResult) × AdaptiveTuning F × σ :=
  match measure x env env.execute s with
  | (.error e, s₁) => (.error e, w, s₁)
  | (.ok (seqResults, seqTime), s₁) =>
    let w₁ := w.recordSequential x seqTime
    match measure x env env.executeParallel s₁ with
    | (.error e, s₂) => (.error e, w₁, s₂)
    | (.ok (parResults, parTime), s₂) =>
      (.ok (if x.lt seqTime parTime then seqResults else parResults),
        w₁.recordParallel x parTime, s₂)

/-- Measure both ways to execute and adjust the threshold. -/
def sampleBoth (w : AdaptiveTuning F) (s : σ) :
    Except Exn (List RuleResult) × AdaptiveTuning F × σ :=
  match measureBoth x env w s with
  | (.error e, w₁, s₁) => (.error e, w₁, s₁)
  | (.ok results, w₁, s₁) => (.ok results, w₁.adjustThreshold x, s₁)

/-- The call is one of those that measure. -/
def samples (ruleCount checkCounter : UInt64) (w : AdaptiveTuning F) : Bool :=
  w.autoDetectThreshold && 2 < ruleCount && (checkCounter + 1) % 100 = 0

/-- The execution by the threshold. -/
def executeByThreshold (ruleCount : UInt64) (w : AdaptiveTuning F) (s : σ) :
    Except Exn (List RuleResult) × σ :=
  if ruleCount ≤ w.adaptiveThreshold then env.execute s else env.executeParallel s

/-- `Workflow::executeAdaptive`. The counter of the thread is also counted by other workflows, so
each call is told what it finds there. -/
def executeAdaptive (ruleCount checkCounter : UInt64) (w : AdaptiveTuning F) (s : σ) :
    Except Exn (List RuleResult) × AdaptiveTuning F × σ :=
  match env.ensureCompiled s with
  | (.error e, s₁) => (.error e, w, s₁)
  | (.ok _, s₁) =>
    if samples ruleCount checkCounter w then sampleBoth x env w s₁
    else
      let (outcome, s₂) := executeByThreshold env ruleCount w s₁
      (outcome, w, s₂)

/-- What is called on a workflow. -/
inductive AdaptiveCall
  | setAdaptiveThreshold (threshold : UInt64)
  | enableAutoDetection (enabled : Bool)
  | executeAdaptive (ruleCount checkCounter : UInt64)

/-- What a call does. -/
def AdaptiveCall.perform (w : AdaptiveTuning F) (s : σ) : AdaptiveCall → AdaptiveTuning F × σ
  | setAdaptiveThreshold threshold => ({ w with adaptiveThreshold := threshold }, s)
  | enableAutoDetection enabled => ({ w with autoDetectThreshold := enabled }, s)
  | executeAdaptive ruleCount checkCounter =>
    (FastRules.executeAdaptive x env ruleCount checkCounter w s).2

/-- The way to execute in favour of which a call adjusts the threshold, if it gets that far. -/
def AdaptiveCall.adjusts (w : AdaptiveTuning F) (s : σ) : AdaptiveCall → Option ExecutionMode
  | setAdaptiveThreshold _ => none
  | enableAutoDetection _ => none
  | executeAdaptive ruleCount checkCounter =>
    match env.ensureCompiled s with
    | (.error _, _) => none
    | (.ok _, s₁) =>
      if samples ruleCount checkCounter w then
        match measureBoth x env w s₁ with
        | (.error _, _, _) => none
        | (.ok _, w₁, _) => w₁.faster x
      else none

/-- The call sets the threshold. -/
def AdaptiveCall.setsThreshold : AdaptiveCall → Bool
  | setAdaptiveThreshold _ => true
  | enableAutoDetection _ => false
  | executeAdaptive _ _ => false

end Execute

/-! ### Adjustments -/

/-- An adjustment of the threshold, as an observer sees it. -/
structure Adjustment where
  mode : ExecutionMode
  before : UInt64
  after : UInt64
  /-- There has been no adjustment since the threshold was set. -/
  first : Bool
  deriving DecidableEq, Repr

namespace Adjustment

/-- The threshold does not go the wrong way, and ends in the range. -/
def Sound (a : Adjustment) : Prop :=
  (match a.mode with
    | .sequential => a.before ≤ a.after
    | .parallel => a.after ≤ a.before) ∧ 2 ≤ a.after ∧ a.after ≤ 20

/-- One step leads from the threshold into the range. -/
def StartsInReach (a : Adjustment) : Prop :=
  match a.mode with
  | .sequential => 1 ≤ a.before ∧ a.before ≤ 20
  | .parallel => 2 ≤ a.before ∧ a.before ≤ 21

/-- **One adjustment** is sound exactly if one step leads into the range. -/
theorem sound_iff {a : Adjustment} (h : a.after = a.mode.adjust a.before) :
    a.Sound ↔ a.StartsInReach := by
  obtain ⟨mode, before, after, first⟩ := a
  obtain rfl : after = mode.adjust before := h
  have hlt := before.toNat_lt
  cases mode with
  | sequential =>
    show (before ≤ ExecutionMode.sequential.adjust before ∧ _ ∧ _) ↔ 1 ≤ before ∧ before ≤ 20
    simp only [UInt64.le_iff_toNat_le, ExecutionMode.toNat_adjust_sequential]
    show (_ ∧ 2 ≤ _ ∧ _ ≤ 20) ↔ 1 ≤ _ ∧ _ ≤ 20
    -- at the largest number the sum is 0
    rcases Nat.lt_or_ge (before.toNat + 1) (2 ^ 64) with hroom | hwrap
    · rw [Nat.mod_eq_of_lt hroom]
      omega
    · have hzero : (before.toNat + 1) % 2 ^ 64 = 0 := by omega
      rw [hzero]
      omega
  | parallel =>
    show (ExecutionMode.parallel.adjust before ≤ before ∧ _ ∧ _) ↔ 2 ≤ before ∧ before ≤ 21
    simp only [UInt64.le_iff_toNat_le, ExecutionMode.toNat_adjust_parallel]
    show (_ ∧ 2 ≤ _ ∧ _ ≤ 20) ↔ 2 ≤ _ ∧ _ ≤ 21
    -- at 0 the difference is the largest number
    rcases Nat.eq_zero_or_pos before.toNat with hzero | hpos
    · rw [hzero]
      omega
    · have hsub : (before.toNat + (2 ^ 64 - 1)) % 2 ^ 64 = before.toNat - 1 := by omega
      rw [hsub]
      omega

/-- Within the range any adjustment may start. -/
theorem startsInReach_of_range {a : Adjustment} (h : 2 ≤ a.before ∧ a.before ≤ 20) :
    a.StartsInReach := by
  have hlow : 2 ≤ a.before.toNat := UInt64.le_iff_toNat_le.1 h.1
  have hhigh : a.before.toNat ≤ 20 := UInt64.le_iff_toNat_le.1 h.2
  rw [StartsInReach]
  cases a.mode with
  | sequential => exact ⟨UInt64.le_iff_toNat_le.2 (by show 1 ≤ _; omega), h.2⟩
  | parallel => exact ⟨h.1, UInt64.le_iff_toNat_le.2 (by show _ ≤ 21; omega)⟩

end Adjustment

section Run

variable {F σ : Type} (x : DoubleOps F) (env : AdaptiveEnvironment σ)

/-- The adjustments that a sequence of calls makes. -/
def adjustments (first : Bool) (w : AdaptiveTuning F) (s : σ) : List AdaptiveCall → List Adjustment
  | [] => []
  | call :: calls =>
    let next := call.perform x env w s
    match call.adjusts x env w s with
    | some mode =>
      ⟨mode, w.adaptiveThreshold, next.1.adaptiveThreshold, first⟩ ::
        adjustments false next.1 next.2 calls
    | none => adjustments (first || call.setsThreshold) next.1 next.2 calls

variable {x env} {w : AdaptiveTuning F} {s : σ} {call : AdaptiveCall}

theorem adjusts_of_setsThreshold (h : call.setsThreshold = true) :
    call.adjusts x env w s = none := by
  cases call with
  | setAdaptiveThreshold threshold => rfl
  | enableAutoDetection enabled => cases h
  | executeAdaptive ruleCount checkCounter => cases h

theorem measureBoth_threshold :
    (measureBoth x env w s).2.1.adaptiveThreshold = w.adaptiveThreshold := by
  rw [measureBoth]
  rcases measure x env env.execute s with ⟨e | ⟨seqResults, seqTime⟩, s₁⟩
  · rfl
  · dsimp only
    rcases measure x env env.executeParallel s₁ with ⟨e | ⟨parResults, parTime⟩, s₂⟩ <;> rfl

/-- The threshold after an execution. -/
theorem perform_threshold (h : call.setsThreshold = false) :
    (call.perform x env w s).1.adaptiveThreshold =
      (call.adjusts x env w s).elim w.adaptiveThreshold fun mode ↦
        mode.adjust w.adaptiveThreshold := by
  cases call with
  | setAdaptiveThreshold threshold => cases h
  | enableAutoDetection enabled => rfl
  | executeAdaptive ruleCount checkCounter =>
    rw [AdaptiveCall.perform, FastRules.executeAdaptive, AdaptiveCall.adjusts]
    rcases env.ensureCompiled s with ⟨e | ⟨⟩, s₁⟩
    · rfl
    dsimp only
    split_ifs with hsamples
    · have hthreshold : (measureBoth x env w s₁).2.1.adaptiveThreshold = w.adaptiveThreshold :=
        measureBoth_threshold
      rw [sampleBoth]
      rcases hboth : measureBoth x env w s₁ with ⟨e | results, w₁, s₂⟩ <;> rw [hboth] at hthreshold
      · exact hthreshold
      · dsimp only
        rw [AdaptiveTuning.adjustThreshold]
        rcases w₁.faster x with - | mode
        · exact hthreshold
        · exact congrArg mode.adjust hthreshold
    · rfl

/-- An adjustment moves the threshold by the rule for its mode. -/
theorem perform_of_adjusts {mode : ExecutionMode} (h : call.adjusts x env w s = some mode) :
    (call.perform x env w s).1.adaptiveThreshold = mode.adjust w.adaptiveThreshold := by
  have hset : call.setsThreshold = false := by
    by_contra hset
    rw [adjusts_of_setsThreshold (by simpa using hset)] at h
    cases h
  rw [perform_threshold hset, h]
  rfl

theorem adjustments_of_some {first : Bool} {calls : List AdaptiveCall} {mode : ExecutionMode}
    (h : call.adjusts x env w s = some mode) :
    adjustments x env first w s (call :: calls) =
      ⟨mode, w.adaptiveThreshold, mode.adjust w.adaptiveThreshold, first⟩ ::
        adjustments x env false (call.perform x env w s).1 (call.perform x env w s).2 calls := by
  rw [adjustments, h, ← perform_of_adjusts h]

theorem adjustments_of_none {first : Bool} {calls : List AdaptiveCall}
    (h : call.adjusts x env w s = none) :
    adjustments x env first w s (call :: calls) =
      adjustments x env (first || call.setsThreshold) (call.perform x env w s).1
        (call.perform x env w s).2 calls := by
  rw [adjustments, h]

/-- Every adjustment of a run moves the threshold by the rule for its mode. -/
theorem adjustments_after {first : Bool} {calls : List AdaptiveCall} {a : Adjustment}
    (ha : a ∈ adjustments x env first w s calls) : a.after = a.mode.adjust a.before := by
  induction calls generalizing first w s with
  | nil => cases ha
  | cons call calls ih =>
    rcases hmode : call.adjusts x env w s with - | mode
    · rw [adjustments_of_none hmode] at ha
      exact ih ha
    · rw [adjustments_of_some hmode] at ha
      rcases List.mem_cons.1 ha with rfl | ha
      · rfl
      · exact ih ha

/-- **The run.** All adjustments are sound if those are that come first after the threshold was
set. -/
theorem sound_of_first {first : Bool} {calls : List AdaptiveCall}
    (hrange : first = false → 2 ≤ w.adaptiveThreshold ∧ w.adaptiveThreshold ≤ 20)
    (h : ∀ a ∈ adjustments x env first w s calls, a.first = true → a.Sound) :
    ∀ a ∈ adjustments x env first w s calls, a.Sound := by
  induction calls generalizing first w s with
  | nil => exact fun a ha ↦ by cases ha
  | cons call calls ih =>
    rcases hmode : call.adjusts x env w s with - | mode
    · rw [adjustments_of_none hmode] at h ⊢
      refine ih (fun hfirst ↦ ?_) h
      -- the threshold is the one before, and it has not been set
      rw [Bool.or_eq_false_iff] at hfirst
      rw [perform_threshold hfirst.2, hmode]
      exact hrange hfirst.1
    · rw [adjustments_of_some hmode] at h ⊢
      rw [List.forall_mem_cons] at h ⊢
      have hsound : Adjustment.Sound
          ⟨mode, w.adaptiveThreshold, mode.adjust w.adaptiveThreshold, first⟩ := by
        cases hfirst : first with
        | false =>
          exact (Adjustment.sound_iff rfl).2 (Adjustment.startsInReach_of_range (hrange hfirst))
        | true => exact hfirst ▸ h.1 hfirst
      refine ⟨hsound, ih (fun _ ↦ ?_) h.2⟩
      rw [perform_of_adjusts hmode]
      exact hsound.2

/-- **Adaptive tuning is sound** exactly if, wherever the threshold was set, one step of the first
adjustment leads into the range. -/
theorem adjustments_sound_iff (w : AdaptiveTuning F) (s : σ) (calls : List AdaptiveCall) :
    (∀ a ∈ adjustments x env true w s calls, a.Sound) ↔
      ∀ a ∈ adjustments x env true w s calls, a.first = true → a.StartsInReach := by
  refine ⟨fun h a ha _ ↦ (Adjustment.sound_iff (adjustments_after ha)).1 (h a ha), fun h ↦ ?_⟩
  refine sound_of_first (fun hfirst ↦ by cases hfirst) fun a ha hfirst ↦ ?_
  exact (Adjustment.sound_iff (adjustments_after ha)).2 (h a ha hfirst)

end Run

/-- Exact arithmetic in place of that of `double`. -/
def DoubleOps.exact : DoubleOps ℚ where
  ofSize n := n.toNat
  ofMicroseconds n := n
  add a b := a + b
  mul a b := a * b
  div a b := a / b
  lt a b := a < b
  fourFifths := 4 / 5

/-- Executions that take so many microseconds. -/
def AdaptiveEnvironment.timed (sequential parallel : Int) : AdaptiveEnvironment Int where
  now s := (s, s)
  ensureCompiled s := (.ok (), s)
  execute s := (.ok [], s + 1000 * sequential)
  executeParallel s := (.ok [], s + 1000 * parallel)

/-- The threshold 0 is set, and parallel execution is the faster one. -/
def tunedFromZero : List Adjustment :=
  adjustments .exact (.timed 10 1) true
    { autoDetectThreshold := true, sequentialAvgTime := 0, parallelAvgTime := 0 } 0
    [.setAdaptiveThreshold 0, .executeAdaptive 3 99]

/-- The threshold wraps around. -/
theorem tunedFromZero_raises :
    tunedFromZero = [⟨.parallel, 0, 0xFFFFFFFFFFFFFFFF, true⟩] ∧
      ¬∀ a ∈ tunedFromZero, a.Sound := by
  have htuned : tunedFromZero = [⟨.parallel, 0, 0xFFFFFFFFFFFFFFFF, true⟩] := by
    decide +kernel
  refine ⟨htuned, fun h ↦ ?_⟩
  have hsound := h _ (by rw [htuned]; exact List.mem_singleton_self _)
  exact absurd hsound.1 (by decide)

end FastRules
