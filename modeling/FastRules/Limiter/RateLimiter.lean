import FastRules.Foundations.SlidingWindow
import FastRules.Rule.Result
import Mathlib.Algebra.Order.Group.Int

/-!
# The rate limiter

`RateLimiter` as a value: for each configured key a configuration and two queues of instants, of the
last second and of the last minute. An instant that is allowed enters both. A call reads the clock
in `cleanupOldEntries` and, if the key is limited, once more for the instant it records.
-/

namespace FastRules

open SlidingWindow

/-- A `RateLimiter::Config`. -/
structure LimiterConfig where
  ruleName : String := ""
  maxExecutionsPerSecond : Int32 := 0
  maxExecutionsPerMinute : Int32 := 0
  burstSize : Int32 := 0
  deriving DecidableEq

namespace LimiterConfig

variable (config : LimiterConfig)

def isEnabled : Bool :=
  0 < config.maxExecutionsPerSecond || 0 < config.maxExecutionsPerMinute

/-- `config.burstSize > 0 ? config.burstSize : config.maxExecutionsPerSecond`. -/
def burst : Int32 :=
  if 0 < config.burstSize then config.burstSize else config.maxExecutionsPerSecond

end LimiterConfig

/-- `std::chrono::seconds(1)`. -/
def oneSecond : Time := 1000000000

/-- `std::chrono::minutes(1)`. -/
def oneMinute : Time := 60000000000

/-- `static_cast<int>(window.size())`. -/
def intOfSize (size : ℕ) : Int32 :=
  Int32.ofNat size

/-- A `RateLimiter::RuleState`. The front of a queue is the head of its list. -/
structure RuleState where
  config : LimiterConfig := {}
  secondWindow : List Time := []
  minuteWindow : List Time := []
  deriving DecidableEq

namespace RuleState

variable (state : RuleState)

/-- `RateLimiter::cleanupOldEntries`. -/
def cleanupOldEntries (now : Time) : RuleState :=
  { state with
    secondWindow := expire (now - oneSecond) state.secondWindow
    minuteWindow := expire (now - oneMinute) state.minuteWindow }

/-- The burst limit or the limit per minute is reached. -/
def isExhausted : Bool :=
  (0 < state.config.maxExecutionsPerSecond &&
      state.config.burst ≤ intOfSize state.secondWindow.length) ||
    (0 < state.config.maxExecutionsPerMinute &&
      state.config.maxExecutionsPerMinute ≤ intOfSize state.minuteWindow.length)

/-- Record an instant in both windows. -/
def record (now : Time) : RuleState :=
  { state with
    secondWindow := state.secondWindow ++ [now]
    minuteWindow := state.minuteWindow ++ [now] }

/-- `RateLimiter::isAllowed` for a configured key. -/
def isAllowed (cleanupTime now : Time) : Bool × RuleState :=
  let state := state.cleanupOldEntries cleanupTime
  if !state.config.isEnabled then (true, state)
  else if state.isExhausted then (false, state)
  else (true, state.record now)

theorem isAllowed_enabled {cleanupTime now : Time} (h : state.config.isEnabled = true) :
    state.isAllowed cleanupTime now =
      if (state.cleanupOldEntries cleanupTime).isExhausted then
        (false, state.cleanupOldEntries cleanupTime)
      else (true, (state.cleanupOldEntries cleanupTime).record now) := by
  show (if !state.config.isEnabled then _ else _) = _
  rw [h, Bool.not_true, if_neg Bool.false_ne_true]

end RuleState

/-- A `RateLimiter`: the states of the configured keys. -/
structure RateLimiter where
  states : String → Option RuleState := fun _ ↦ none

namespace RateLimiter

variable (limiter : RateLimiter)

def setState (key : String) (state : RuleState) : RateLimiter where
  states := Function.update limiter.states key (some state)

/-- A key that is not configured is always allowed. -/
def isAllowed (cleanupTime now : Time) (key : String) : Bool × RateLimiter :=
  match limiter.states key with
  | none => (true, limiter)
  | some state =>
    let (allowed, state) := state.isAllowed cleanupTime now
    (allowed, limiter.setState key state)

/-- `RateLimiter::configure`: the windows of a key that is configured again are kept. -/
def configure (config : LimiterConfig) : RateLimiter :=
  limiter.setState config.ruleName { (limiter.states config.ruleName).getD {} with config }

/-- The common part of the metrics: clean up and count. -/
def count (now : Time) (key : String) (window : RuleState → List Time) : Int32 × RateLimiter :=
  match limiter.states key with
  | none => (0, limiter)
  | some state =>
    let state := state.cleanupOldEntries now
    (intOfSize (window state).length, limiter.setState key state)

def getCurrentExecutionsPerSecond (now : Time) (key : String) : Int32 × RateLimiter :=
  limiter.count now key RuleState.secondWindow

def getCurrentExecutionsPerMinute (now : Time) (key : String) : Int32 × RateLimiter :=
  limiter.count now key RuleState.minuteWindow

end RateLimiter

/-! ### Runs -/

/-- A call that reads the clock once. -/
inductive LimiterCall
  | isAllowed (key : String) (time : Time)
  | getCurrentExecutionsPerSecond (key : String) (time : Time)
  | getCurrentExecutionsPerMinute (key : String) (time : Time)

namespace LimiterCall

def time : LimiterCall → Time
  | isAllowed _ t => t
  | getCurrentExecutionsPerSecond _ t => t
  | getCurrentExecutionsPerMinute _ t => t

/-- What a call leaves behind. -/
def after (limiter : RateLimiter) : LimiterCall → RateLimiter
  | isAllowed key t => (limiter.isAllowed t t key).2
  | getCurrentExecutionsPerSecond key t => (limiter.getCurrentExecutionsPerSecond t key).2
  | getCurrentExecutionsPerMinute key t => (limiter.getCurrentExecutionsPerMinute t key).2

/-- The call allows an execution of the key. -/
def allows (limiter : RateLimiter) (key : String) : LimiterCall → Bool
  | isAllowed key' t => key' = key && (limiter.isAllowed t t key').1
  | _ => false

end LimiterCall

/-- A limiter, and when it has allowed executions of the key. -/
structure LimiterRun where
  limiter : RateLimiter
  allowed : List Time := []

namespace LimiterRun

/-- Make one more call. -/
def step (key : String) (run : LimiterRun) (call : LimiterCall) : LimiterRun where
  limiter := call.after run.limiter
  allowed := run.allowed ++ if call.allows run.limiter key then [call.time] else []

/-- Make calls one after the other. -/
def of (limiter : RateLimiter) (key : String) (calls : List LimiterCall) : LimiterRun :=
  calls.foldl (step key) { limiter }

end LimiterRun

end FastRules
