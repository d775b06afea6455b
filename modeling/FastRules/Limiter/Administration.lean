import FastRules.Limiter.Exactness

/-!
# The rate limiter while it is administered

Keys are configured, configured again, removed and reset between the calls that ask for an
execution. What the limiter does then is what `Accounts` do, which for each configured key keep
every instant that was recorded and count those of the last second and the last minute
(`answers_eq`): to configure a key again keeps what it has used up, to remove it forgets that, and
while its limits are disabled nothing is used up.
-/

namespace FastRules

open SlidingWindow

namespace RateLimiter

/-- `RateLimiter::remove`. -/
def remove (limiter : RateLimiter) (key : String) : RateLimiter where
  states := Function.update limiter.states key none

/-- `RateLimiter::reset`. -/
def reset (_limiter : RateLimiter) : RateLimiter where
  states _ := none

end RateLimiter

/-- A call of a member of `RateLimiter`, with what it reads off the clock. -/
inductive LimiterRequest
  | isAllowed (key : String) (cleanupTime now : Time)
  | getCurrentExecutionsPerSecond (key : String) (now : Time)
  | getCurrentExecutionsPerMinute (key : String) (now : Time)
  | configure (config : LimiterConfig)
  | remove (key : String)
  | reset

inductive LimiterAnswer
  | allowed (b : Bool)
  | executions (n : Int)
  | done
  deriving DecidableEq

def LimiterRequest.times : LimiterRequest → List Time
  | isAllowed _ cleanupTime now => [cleanupTime, now]
  | getCurrentExecutionsPerSecond _ now => [now]
  | getCurrentExecutionsPerMinute _ now => [now]
  | _ => []

/-- What a call returns and leaves behind. -/
def RateLimiter.answer (limiter : RateLimiter) : LimiterRequest → LimiterAnswer × RateLimiter
  | .isAllowed key cleanupTime now =>
    let (allowed, limiter) := limiter.isAllowed cleanupTime now key
    (.allowed allowed, limiter)
  | .getCurrentExecutionsPerSecond key now =>
    let (n, limiter) := limiter.getCurrentExecutionsPerSecond now key
    (.executions n.toInt, limiter)
  | .getCurrentExecutionsPerMinute key now =>
    let (n, limiter) := limiter.getCurrentExecutionsPerMinute now key
    (.executions n.toInt, limiter)
  | .configure config => (.done, limiter.configure config)
  | .remove key => (.done, limiter.remove key)
  | .reset => (.done, limiter.reset)

/-- Calls one after the other. -/
def RateLimiter.answers : RateLimiter → List LimiterRequest → List LimiterAnswer
  | _, [] => []
  | limiter, request :: requests =>
    (limiter.answer request).1 :: (limiter.answer request).2.answers requests

/-! ### What it is for -/

/-- The limits of a key and all executions that were recorded for it. -/
structure Account where
  config : LimiterConfig
  log : List Time := []

/-- Fewer executions than the limits in force allow since a second and a minute before. -/
def Account.HasRoom (account : Account) (now : Time) : Prop :=
  (0 < account.config.maxExecutionsPerSecond →
      ((since (now - oneSecond) account.log).length : Int) < account.config.burst.toInt) ∧
    (0 < account.config.maxExecutionsPerMinute →
      ((since (now - oneMinute) account.log).length : Int) <
        account.config.maxExecutionsPerMinute.toInt)

instance (account : Account) (now : Time) : Decidable (account.HasRoom now) :=
  inferInstanceAs (Decidable (_ ∧ _))

/-- The accounts of the configured keys. -/
abbrev Accounts := String → Option Account

namespace Accounts

variable (accounts : Accounts)

def isAllowed (key : String) (cleanupTime now : Time) : Bool × Accounts :=
  match accounts key with
  | none => (true, accounts)
  | some account =>
    if !account.config.isEnabled then (true, accounts)
    else if account.HasRoom cleanupTime then
      (true, Function.update accounts key (some { account with log := account.log ++ [now] }))
    else (false, accounts)

/-- How many executions of a key were recorded within some time. -/
def executions (key : String) (width now : Time) : Int :=
  match accounts key with
  | none => 0
  | some account => (since (now - width) account.log).length

def answer : LimiterRequest → LimiterAnswer × Accounts
  | .isAllowed key cleanupTime now =>
    let (allowed, accounts) := accounts.isAllowed key cleanupTime now
    (.allowed allowed, accounts)
  | .getCurrentExecutionsPerSecond key now =>
    (.executions (accounts.executions key oneSecond now), accounts)
  | .getCurrentExecutionsPerMinute key now =>
    (.executions (accounts.executions key oneMinute now), accounts)
  | .configure config =>
    (.done, Function.update accounts config.ruleName
      (some { config, log := (accounts config.ruleName).elim [] Account.log }))
  | .remove key => (.done, Function.update accounts key none)
  | .reset => (.done, fun _ ↦ none)

def answers : Accounts → List LimiterRequest → List LimiterAnswer
  | _, [] => []
  | accounts, request :: requests =>
    (accounts.answer request).1 :: answers (accounts.answer request).2 requests

end Accounts

/-! ### A key -/

/-- The state of a key holds of its account what has not expired; fewer than `n` executions were
recorded. -/
structure RuleState.Keeps (now : Time) (n : ℕ) (state : RuleState) (account : Account) : Prop where
  config : state.config = account.config
  sorted : account.log.Pairwise (· ≤ ·)
  le_now : ∀ t ∈ account.log, t ≤ now
  second : Shows (now - oneSecond) account.log state.secondWindow
  minute : Shows (now - oneMinute) account.log state.minuteWindow
  length : account.log.length ≤ n

namespace RuleState.Keeps

variable {now t cleanupTime : Time} {n m : ℕ} {state : RuleState} {account : Account}
  {config : LimiterConfig}

theorem fresh (config : LimiterConfig) (now : Time) (n : ℕ) :
    RuleState.Keeps now n { config } { config } where
  config := rfl
  sorted := List.Pairwise.nil
  le_now := fun _ ht ↦ absurd ht List.not_mem_nil
  second := shows_nil _
  minute := shows_nil _
  length := Nat.zero_le n

variable (h : state.Keeps now n account)
include h

theorem mono (hle : now ≤ t) (hn : n ≤ m) : state.Keeps t m account where
  config := h.config
  sorted := h.sorted
  le_now := fun u hu ↦ (h.le_now u hu).trans hle
  second := h.second.mono (Int.sub_le_sub_right hle _)
  minute := h.minute.mono (Int.sub_le_sub_right hle _)
  length := h.length.trans hn

theorem cleanup : (state.cleanupOldEntries now).Keeps now n account where
  config := h.config
  sorted := h.sorted
  le_now := h.le_now
  second := h.second.expire h.sorted
  minute := h.minute.expire h.sorted
  length := h.length

/-- To configure a key again keeps what is recorded. -/
theorem configure (config : LimiterConfig) :
    RuleState.Keeps now n { state with config } { account with config } where
  config := rfl
  sorted := h.sorted
  le_now := h.le_now
  second := h.second
  minute := h.minute
  length := h.length

theorem record (hle : now ≤ t) :
    (state.record t).Keeps t (n + 1) { account with log := account.log ++ [t] } where
  config := h.config
  sorted := List.pairwise_append.2 ⟨h.sorted, List.pairwise_singleton _ _, fun u hu v hv ↦ by
    rw [List.mem_singleton.1 hv]
    exact (h.le_now u hu).trans hle⟩
  le_now := by
    intro u hu
    rcases List.mem_append.1 hu with hu | hu
    · exact (h.le_now u hu).trans hle
    · exact (List.mem_singleton.1 hu).le
  second := (h.second.mono (Int.sub_le_sub_right hle _)).concat (Int.sub_le_self t (by decide))
  minute := (h.minute.mono (Int.sub_le_sub_right hle _)).concat (Int.sub_le_self t (by decide))
  length := by
    rw [List.length_append, List.length_singleton]
    exact Nat.succ_le_succ h.length

omit h in
/-- Comparisons with sizes of type `int` are exact. -/
theorem le_intOfSize_iff {limit : Int32} {size : ℕ} (hsize : size < 2 ^ 31) :
    limit ≤ intOfSize size ↔ limit.toInt ≤ size := by
  rw [Int32.le_iff_toInt_le, intOfSize, Int32.toInt_ofNat_of_lt hsize]

theorem isExhausted_iff (hn : n < 2 ^ 31) :
    (state.cleanupOldEntries now).isExhausted = true ↔ ¬account.HasRoom now := by
  have hwindow (width : Time) : (since (now - width) account.log).length < 2 ^ 31 :=
    ((length_since_le _ _).trans h.length).trans_lt hn
  have hsecond : (state.cleanupOldEntries now).secondWindow = since (now - oneSecond) account.log :=
    h.second.expire_eq h.sorted
  have hminute : (state.cleanupOldEntries now).minuteWindow = since (now - oneMinute) account.log :=
    h.minute.expire_eq h.sorted
  have hconfig : (state.cleanupOldEntries now).config = account.config := h.config
  rw [isExhausted, hsecond, hminute, hconfig, Account.HasRoom, not_and_or, Bool.or_eq_true,
    Bool.and_eq_true, Bool.and_eq_true, decide_eq_true_eq, decide_eq_true_eq, decide_eq_true_eq,
    decide_eq_true_eq, le_intOfSize_iff (hwindow _), le_intOfSize_iff (hwindow _),
    Classical.not_imp, Classical.not_imp, Int.not_lt, Int.not_lt]

end RuleState.Keeps

/-! ### All keys -/

/-- The limiter has a state for each account. -/
def RateLimiter.Follows (now : Time) (n : ℕ) (limiter : RateLimiter) (accounts : Accounts) : Prop :=
  ∀ key, Option.Rel (RuleState.Keeps now n) (limiter.states key) (accounts key)

namespace RateLimiter.Follows

variable {now t cleanupTime : Time} {n m : ℕ} {limiter : RateLimiter} {accounts : Accounts}
  {key : String} {state : RuleState} {account : Account}

theorem mono (h : limiter.Follows now n accounts) (hle : now ≤ t) (hn : n ≤ m) :
    limiter.Follows t m accounts := by
  intro key
  have hkey := h key
  generalize limiter.states key = o, accounts key = o' at hkey
  cases hkey with
  | none => exact .none
  | some hkeeps => exact .some (hkeeps.mono hle hn)

theorem update (h : limiter.Follows now n accounts) {o : Option RuleState} {o' : Option Account}
    (hkey : Option.Rel (RuleState.Keeps now n) o o') :
    RateLimiter.Follows now n ⟨Function.update limiter.states key o⟩
      (Function.update accounts key o') := by
  intro key'
  by_cases hne : key' = key
  · subst hne
    show Option.Rel _ (Function.update limiter.states key' o key') _
    rw [Function.update_self, Function.update_self]
    exact hkey
  · show Option.Rel _ (Function.update limiter.states key o key') _
    rw [Function.update_of_ne hne, Function.update_of_ne hne]
    exact h key'

/-- The state of a key is replaced by one for the same account. -/
theorem setState (h : limiter.Follows now n accounts) (haccount : accounts key = some account)
    (hkeeps : state.Keeps now n account) : (limiter.setState key state).Follows now n accounts := by
  have hupdate : Follows now n (limiter.setState key state)
      (Function.update accounts key (some account)) := h.update (.some hkeeps)
  rwa [← haccount, Function.update_eq_self] at hupdate

theorem count (h : limiter.Follows now n accounts) (hn : n < 2 ^ 31) (key : String) (width : Time)
    (window : RuleState → List Time)
    (hwindow : ∀ (state : RuleState) (account : Account), state.Keeps now n account →
      window (state.cleanupOldEntries now) = since (now - width) account.log) :
    (limiter.count now key window).1.toInt = accounts.executions key width now ∧
      (limiter.count now key window).2.Follows now n accounts := by
  have hkey := h key
  rw [RateLimiter.count, Accounts.executions]
  rcases hstate : limiter.states key with - | state <;>
    rcases haccount : accounts key with - | account <;> rw [hstate, haccount] at hkey
  · exact ⟨rfl, h⟩
  · cases hkey
  · cases hkey
  · obtain ⟨hkeeps⟩ := hkey
    have hlt : (since (now - width) account.log).length < 2 ^ 31 :=
      ((length_since_le _ _).trans hkeeps.length).trans_lt hn
    refine ⟨?_, h.setState haccount hkeeps.cleanup⟩
    show (intOfSize (window (state.cleanupOldEntries now)).length).toInt = _
    rw [hwindow state account hkeeps, intOfSize, Int32.toInt_ofNat_of_lt hlt]

theorem isAllowed (h : limiter.Follows cleanupTime n accounts) (hn : n < 2 ^ 31)
    (hle : cleanupTime ≤ now) (key : String) :
    (limiter.isAllowed cleanupTime now key).1 = (accounts.isAllowed key cleanupTime now).1 ∧
      (limiter.isAllowed cleanupTime now key).2.Follows now (n + 1)
        (accounts.isAllowed key cleanupTime now).2 := by
  have hkey := h key
  have hlater := h.mono hle (Nat.le_succ n)
  rw [RateLimiter.isAllowed, Accounts.isAllowed]
  rcases hstate : limiter.states key with - | state <;>
    rcases haccount : accounts key with - | account <;> rw [hstate, haccount] at hkey
  · exact ⟨rfl, hlater⟩
  · cases hkey
  · cases hkey
  · obtain ⟨hkeeps⟩ := hkey
    have hclean := hkeeps.cleanup.mono hle (Nat.le_succ n)
    have hconfig : (state.cleanupOldEntries cleanupTime).config.isEnabled =
        account.config.isEnabled := congrArg LimiterConfig.isEnabled hkeeps.config
    dsimp only
    rw [RuleState.isAllowed, hconfig]
    rcases henabled : account.config.isEnabled with - | -
    · exact ⟨rfl, hlater.setState haccount hclean⟩
    · rw [Bool.not_true, if_neg Bool.false_ne_true, if_neg Bool.false_ne_true]
      by_cases hroom : account.HasRoom cleanupTime
      · rw [if_neg (fun he ↦ (hkeeps.isExhausted_iff hn).1 he hroom), if_pos hroom]
        exact ⟨rfl, hlater.update (.some (hkeeps.cleanup.record hle))⟩
      · rw [if_pos ((hkeeps.isExhausted_iff hn).2 hroom), if_neg hroom]
        exact ⟨rfl, hlater.setState haccount hclean⟩

theorem configure (h : limiter.Follows now n accounts) (config : LimiterConfig) :
    (limiter.configure config).Follows now n (accounts.answer (.configure config)).2 := by
  refine h.update ?_
  have hkey := h config.ruleName
  rcases hstate : limiter.states config.ruleName with - | state <;>
    rcases haccount : accounts config.ruleName with - | account <;> rw [hstate, haccount] at hkey
  · exact .some (RuleState.Keeps.fresh config now n)
  · cases hkey
  · cases hkey
  · obtain ⟨hkeeps⟩ := hkey
    exact .some (hkeeps.configure config)

/-- A call is answered as by the accounts. -/
theorem answer (h : limiter.Follows now n accounts) (hn : n < 2 ^ 31) {request : LimiterRequest}
    (hle : ∀ t ∈ request.times, now ≤ t) (hsorted : request.times.Pairwise (· ≤ ·)) :
    (limiter.answer request).1 = (accounts.answer request).1 ∧
      ∃ t, (∀ u, (∀ v ∈ request.times, v ≤ u) → now ≤ u → t ≤ u) ∧
        (limiter.answer request).2.Follows t (n + 1) (accounts.answer request).2 := by
  cases request with
  | isAllowed key cleanupTime now' =>
    have hcleanup : now ≤ cleanupTime := hle cleanupTime List.mem_cons_self
    have hnow : cleanupTime ≤ now' := (List.pairwise_cons.1 hsorted).1 now' List.mem_cons_self
    obtain ⟨hallowed, hnext⟩ := (h.mono hcleanup (Nat.le_refl n)).isAllowed hn hnow key
    exact ⟨congrArg LimiterAnswer.allowed hallowed, now',
      fun u hu _ ↦ hu now' (List.mem_cons_of_mem _ List.mem_cons_self), hnext⟩
  | getCurrentExecutionsPerSecond key now' =>
    have hnow := h.mono (hle now' List.mem_cons_self) (Nat.le_refl n)
    obtain ⟨hcount, hnext⟩ := hnow.count hn key oneSecond RuleState.secondWindow fun _ _ hkeeps ↦
      hkeeps.second.expire_eq hkeeps.sorted
    exact ⟨congrArg LimiterAnswer.executions hcount, now',
      fun u hu _ ↦ hu now' List.mem_cons_self, hnext.mono le_rfl (Nat.le_succ n)⟩
  | getCurrentExecutionsPerMinute key now' =>
    have hnow := h.mono (hle now' List.mem_cons_self) (Nat.le_refl n)
    obtain ⟨hcount, hnext⟩ := hnow.count hn key oneMinute RuleState.minuteWindow fun _ _ hkeeps ↦
      hkeeps.minute.expire_eq hkeeps.sorted
    exact ⟨congrArg LimiterAnswer.executions hcount, now',
      fun u hu _ ↦ hu now' List.mem_cons_self, hnext.mono le_rfl (Nat.le_succ n)⟩
  | configure config =>
    exact ⟨rfl, now, fun _ _ hu ↦ hu, (h.configure config).mono le_rfl (Nat.le_succ n)⟩
  | remove key =>
    have hremoved : (limiter.remove key).Follows now n (Function.update accounts key none) :=
      h.update .none
    exact ⟨rfl, now, fun _ _ hu ↦ hu, hremoved.mono le_rfl (Nat.le_succ n)⟩
  | reset => exact ⟨rfl, now, fun _ _ hu ↦ hu, fun _ ↦ .none⟩

theorem answers (h : limiter.Follows now n accounts) {requests : List LimiterRequest}
    (hn : n + requests.length ≤ 2 ^ 31) (hle : ∀ t ∈ requests.flatMap LimiterRequest.times, now ≤ t)
    (hsorted : (requests.flatMap LimiterRequest.times).Pairwise (· ≤ ·)) :
    limiter.answers requests = accounts.answers requests := by
  induction requests generalizing now n limiter accounts with
  | nil => rfl
  | cons request requests ih =>
    rw [List.length_cons] at hn
    rw [List.flatMap_cons] at hle hsorted
    obtain ⟨hfirst, hrest, hbetween⟩ := List.pairwise_append.1 hsorted
    obtain ⟨hanswer, t, ht, hnext⟩ := h.answer (by omega)
      (fun t ht ↦ hle t (List.mem_append_left _ ht)) hfirst
    refine congrArg₂ List.cons hanswer (ih hnext (by omega) (fun u hu ↦ ?_) hrest)
    exact ht u (fun v hv ↦ hbetween v hv u hu) (hle u (List.mem_append_right _ hu))

end RateLimiter.Follows

/-- **The limiter is its accounts.** As long as the clock does not go back and fewer than 2³¹ calls
are made, every call of every run on a new limiter returns what the accounts say, whatever was
configured, removed or reset in between. -/
theorem answers_eq {requests : List LimiterRequest} (hlength : requests.length < 2 ^ 31)
    (hclock : (requests.flatMap LimiterRequest.times).Pairwise (· ≤ ·)) :
    ({} : RateLimiter).answers requests = Accounts.answers (fun _ ↦ none) requests := by
  rcases htimes : requests.flatMap LimiterRequest.times with - | ⟨now, times⟩
  · have hstart : ({} : RateLimiter).Follows 0 0 fun _ ↦ none := fun _ ↦ .none
    refine hstart.answers (by omega) ?_ hclock
    rw [htimes]
    exact fun t ht ↦ absurd ht List.not_mem_nil
  · have hstart : ({} : RateLimiter).Follows now 0 fun _ ↦ none := fun _ ↦ .none
    refine hstart.answers (by omega) ?_ hclock
    rw [htimes] at hclock ⊢
    intro t ht
    rcases List.mem_cons.1 ht with rfl | ht
    · exact le_rfl
    · exact (List.pairwise_cons.1 hclock).1 t ht

/-- A limit is raised after it was exhausted, and the key removed later. -/
def raisedLimit : List LimiterRequest :=
  [.configure { ruleName := "r", maxExecutionsPerMinute := 1 },
    .isAllowed "r" 0 0, .isAllowed "r" 5 5,
    .configure { ruleName := "r", maxExecutionsPerMinute := 2 },
    .isAllowed "r" 6 7, .isAllowed "r" 8 8, .remove "r", .isAllowed "r" 9 9]

theorem raisedLimit_answers : ({} : RateLimiter).answers raisedLimit =
    [.done, .allowed true, .allowed false, .done, .allowed true, .allowed false, .done,
      .allowed true] :=
  have hanswers : ({} : RateLimiter).answers raisedLimit =
      Accounts.answers (fun _ ↦ none) raisedLimit := answers_eq (by decide) (by decide)
  hanswers.trans (by decide)

end FastRules
