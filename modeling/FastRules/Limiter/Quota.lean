import FastRules.Limiter.RateLimiter
import FastRules.Rule.World

/-!
# What a refused execution costs

`Rule::execute` asks the limiter for the id of the rule and then for its name. Each question records
an execution if it is answered with yes, so a refusal under the name comes after an execution has
been recorded under the id. Apart from that a refusal changes nothing but what has expired
(`refusal_costs_nothing_iff`).
-/

namespace FastRules

open Program SlidingWindow

/-! ### Up to what has expired -/

/-- The state without what has expired at the instant. -/
def RuleState.upToExpired (t : Time) (state : RuleState) : RuleState :=
  { state with
    secondWindow := since (t - oneSecond) state.secondWindow
    minuteWindow := since (t - oneMinute) state.minuteWindow }

section UpToExpired

variable {t now : Time} (state : RuleState)

theorem RuleState.upToExpired_cleanup (h : now ≤ t) :
    (state.cleanupOldEntries now).upToExpired t = state.upToExpired t := by
  rw [upToExpired, upToExpired, cleanupOldEntries]
  dsimp only
  rw [since_expire (Int.sub_le_sub_right h _), since_expire (Int.sub_le_sub_right h _)]

/-- A recorded instant makes no difference once a minute has passed. -/
theorem RuleState.upToExpired_record (h : now < t - oneMinute) :
    (state.record now).upToExpired t = state.upToExpired t := by
  have hsecond : now < t - oneSecond := h.trans (Int.sub_lt_sub_left (by decide) t)
  have hnone {cutoff : Time} (hlt : now < cutoff) : since cutoff [now] = [] :=
    List.filter_cons_of_neg (by simpa using hlt)
  rw [upToExpired, upToExpired, record]
  dsimp only
  rw [since_append, since_append, hnone h, hnone hsecond, List.append_nil, List.append_nil]

/-- Until then it does. -/
theorem RuleState.upToExpired_record_ne (h : t - oneMinute ≤ now) :
    (state.record now).upToExpired t ≠ state.upToExpired t := by
  intro heq
  have hminute : since (t - oneMinute) (state.minuteWindow ++ [now]) =
      since (t - oneMinute) state.minuteWindow := congrArg RuleState.minuteWindow heq
  have hone : since (t - oneMinute) [now] = [now] := since_eq_self fun u hu ↦ by
    obtain rfl := List.mem_singleton.1 hu
    exact h
  rw [since_append, hone] at hminute
  have hlength := congrArg List.length hminute
  rw [List.length_append, List.length_singleton] at hlength
  omega

end UpToExpired

/-! ### An environment with limiters -/

/-- Rate limiters beside an environment. The limiter without an address is the global one. -/
structure Limited (E : Type) where
  base : E
  limiters : Option LimiterPtr → RateLimiter

namespace Limited

variable {E : Type}

/-- Change the state of one key. -/
def setState (e : Limited E) (limiter : Option LimiterPtr) (key : String) (state : RuleState) :
    Limited E :=
  { e with
    limiters := Function.update e.limiters limiter ((e.limiters limiter).setState key state) }

/-- What all keys hold up to what has expired. -/
def upToExpired (t : Time) (e : Limited E) (limiter : Option LimiterPtr) (key : String) :
    Option RuleState :=
  ((e.limiters limiter).states key).map (RuleState.upToExpired t)

theorem setState_states_self (e : Limited E) (limiter : Option LimiterPtr) (key : String)
    (state : RuleState) :
    ((e.setState limiter key state).limiters limiter).states key = some state := by
  rw [setState]
  dsimp only
  rw [Function.update_self]
  exact Function.update_self _ _ _

theorem setState_states_of_ne (e : Limited E) {limiter limiter' : Option LimiterPtr}
    {key key' : String} (h : limiter' ≠ limiter ∨ key' ≠ key) (state : RuleState) :
    ((e.setState limiter key state).limiters limiter').states key' =
      (e.limiters limiter').states key' := by
  rw [setState]
  dsimp only
  rcases eq_or_ne limiter' limiter with rfl | hne
  · rw [Function.update_self]
    exact Function.update_of_ne (h.resolve_left (not_not.2 rfl)) _ _
  · rw [Function.update_of_ne hne]

/-- A state that differs in what has expired only changes nothing up to that. -/
theorem upToExpired_setState (e : Limited E) {limiter : Option LimiterPtr} {key : String}
    {state state' : RuleState} (h : (e.limiters limiter).states key = some state) {t : Time}
    (hsame : state'.upToExpired t = state.upToExpired t) :
    (e.setState limiter key state').upToExpired t = e.upToExpired t := by
  funext limiter' key'
  rw [upToExpired, upToExpired]
  by_cases hne : limiter' ≠ limiter ∨ key' ≠ key
  · rw [setState_states_of_ne e hne]
  · push Not at hne
    obtain ⟨rfl, rfl⟩ := hne
    rw [setState_states_self, h, Option.map_some, Option.map_some, hsame]

end Limited

namespace Environment

variable {E : Type} (env : Environment E)

/-- `RateLimiter::isAllowed` by the clock of the environment, which is read only for a key that is
configured, and twice only for one that is limited. -/
def askLimiter (limiter : Option LimiterPtr) (key : String) (e : Limited E) : Bool × Limited E :=
  match (e.limiters limiter).states key with
  | none => (true, e)
  | some state =>
    let (cleanupTime, base) := env.now e.base
    if state.config.isEnabled then
      let (now, base) := env.now base
      let (allowed, state) := state.isAllowed cleanupTime now
      (allowed, { e with base }.setState limiter key state)
    else (true, { e with base }.setState limiter key (state.cleanupOldEntries cleanupTime))

/-- The environment whose limiters are rate limiters. -/
def limited : Environment (Limited E) where
  now e := ((env.now e.base).1, { e with base := (env.now e.base).2 })
  isAllowed := env.askLimiter
  beginExpression engine r parameters e :=
    ((env.beginExpression engine r parameters e.base).1,
      { e with base := (env.beginExpression engine r parameters e.base).2 })
  beginAction engine r parameters e :=
    ((env.beginAction engine r parameters e.base).1,
      { e with base := (env.beginAction engine r parameters e.base).2 })
  endScript engine answers e := { e with base := env.endScript engine answers e.base }
  deadlinePassed engine timeout e :=
    ((env.deadlinePassed engine timeout e.base).1,
      { e with base := (env.deadlinePassed engine timeout e.base).2 })
  cacheOrder := env.cacheOrder

/-- `steady_clock` does not go back. -/
def Steady : Prop :=
  ∀ e, (env.now e).1 ≤ (env.now (env.now e).2).1

end Environment

/-! ### One question -/

section Ask

variable {E : Type} {env : Environment E} {limiter : Option LimiterPtr} {key : String}
  {e : Limited E}

theorem askLimiter_unconfigured (h : (e.limiters limiter).states key = none) :
    env.askLimiter limiter key e = (true, e) := by
  rw [Environment.askLimiter, h]

theorem askLimiter_disabled {state : RuleState} (h : (e.limiters limiter).states key = some state)
    (henabled : state.config.isEnabled = false) :
    env.askLimiter limiter key e =
      (true, { e with base := (env.now e.base).2 }.setState limiter key
        (state.cleanupOldEntries (env.now e.base).1)) := by
  rw [Environment.askLimiter, h]
  dsimp only
  rw [henabled, if_neg Bool.false_ne_true]

theorem askLimiter_full {state : RuleState} (h : (e.limiters limiter).states key = some state)
    (henabled : state.config.isEnabled = true)
    (hfull : (state.cleanupOldEntries (env.now e.base).1).isExhausted = true) :
    env.askLimiter limiter key e =
      (false, { e with base := (env.now (env.now e.base).2).2 }.setState limiter key
        (state.cleanupOldEntries (env.now e.base).1)) := by
  rw [Environment.askLimiter, h]
  dsimp only
  rw [henabled, if_pos rfl, state.isAllowed_enabled henabled, if_pos hfull]

theorem askLimiter_room {state : RuleState} (h : (e.limiters limiter).states key = some state)
    (henabled : state.config.isEnabled = true)
    (hroom : (state.cleanupOldEntries (env.now e.base).1).isExhausted = false) :
    env.askLimiter limiter key e =
      (true, { e with base := (env.now (env.now e.base).2).2 }.setState limiter key
        ((state.cleanupOldEntries (env.now e.base).1).record (env.now (env.now e.base).2).1)) := by
  rw [Environment.askLimiter, h]
  dsimp only
  rw [henabled, if_pos rfl, state.isAllowed_enabled henabled, hroom, if_neg Bool.false_ne_true]

variable (env limiter key e)

/-- The ways a question is answered. -/
theorem askLimiter_cases :
    (e.limiters limiter).states key = none ∨
      ∃ state, (e.limiters limiter).states key = some state ∧
        (state.config.isEnabled = false ∨ state.config.isEnabled = true ∧
          ((state.cleanupOldEntries (env.now e.base).1).isExhausted = true ∨
            (state.cleanupOldEntries (env.now e.base).1).isExhausted = false)) := by
  rcases (e.limiters limiter).states key with - | state
  · exact .inl rfl
  · refine .inr ⟨state, rfl, ?_⟩
    rcases state.config.isEnabled with - | -
    · exact .inl rfl
    · exact .inr ⟨rfl, (Bool.eq_false_or_eq_true _)⟩

/-- The clock goes on while the limiter is asked. -/
theorem askLimiter_now (hsteady : env.Steady) :
    (env.now e.base).1 ≤ (env.now (env.askLimiter limiter key e).2.base).1 := by
  rcases askLimiter_cases env limiter key e with h |
    ⟨state, h, hdisabled | ⟨henabled, hfull | hroom⟩⟩
  · rw [askLimiter_unconfigured h]
  · rw [askLimiter_disabled h hdisabled]
    exact hsteady e.base
  · rw [askLimiter_full h henabled hfull]
    exact (hsteady e.base).trans (hsteady _)
  · rw [askLimiter_room h henabled hroom]
    exact (hsteady e.base).trans (hsteady _)

/-- The question is answered with yes, at an instant that has not expired at `t`. -/
def Environment.Consumes (t : Time) : Prop :=
  ∃ state, (e.limiters limiter).states key = some state ∧ state.config.isEnabled = true ∧
    (state.cleanupOldEntries (env.now e.base).1).isExhausted = false ∧
    t - oneMinute ≤ (env.now (env.now e.base).2).1

variable {env limiter key e}

/-- A question that is answered with no consumes nothing. -/
theorem not_consumes_of_denied {t : Time} (hdenied : (env.askLimiter limiter key e).1 = false) :
    ¬env.Consumes limiter key e t := by
  rintro ⟨state, h, henabled, hroom, -⟩
  rw [askLimiter_room h henabled hroom] at hdenied
  exact Bool.false_ne_true hdenied.symm

/-- A question changes no key up to what has expired, unless it consumes. -/
theorem upToExpired_askLimiter (hsteady : env.Steady) {t : Time}
    (ht : (env.now (env.askLimiter limiter key e).2.base).1 ≤ t) :
    (env.askLimiter limiter key e).2.upToExpired t = e.upToExpired t ↔
      ¬env.Consumes limiter key e t := by
  have hcleanup : (env.now e.base).1 ≤ t := (askLimiter_now env limiter key e hsteady).trans ht
  rcases askLimiter_cases env limiter key e with h |
    ⟨state, h, hdisabled | ⟨henabled, hfull | hroom⟩⟩
  · rw [askLimiter_unconfigured h]
    refine iff_of_true rfl ?_
    rintro ⟨state, hstate, -⟩
    exact absurd (h.symm.trans hstate) (by simp)
  · rw [askLimiter_disabled h hdisabled]
    refine iff_of_true (Limited.upToExpired_setState _ h (state.upToExpired_cleanup hcleanup)) ?_
    rintro ⟨state', hstate, henabled, -⟩
    obtain rfl : state = state' := Option.some.inj (h.symm.trans hstate)
    exact Bool.false_ne_true (hdisabled.symm.trans henabled)
  · have hask := askLimiter_full h henabled hfull
    refine iff_of_true ?_ (not_consumes_of_denied (congrArg Prod.fst hask))
    rw [hask]
    exact Limited.upToExpired_setState _ h (state.upToExpired_cleanup hcleanup)
  · rw [askLimiter_room h henabled hroom]
    constructor
    · -- the recorded instant is still in the queue of the last minute
      rintro hsame ⟨-, -, -, -, hrecent⟩
      have hstate := congrFun (congrFun hsame limiter) key
      rw [Limited.upToExpired, Limited.setState_states_self, Limited.upToExpired, h,
        Option.map_some,
        Option.map_some, ← state.upToExpired_cleanup hcleanup] at hstate
      exact RuleState.upToExpired_record_ne _ hrecent (Option.some.inj hstate)
    · intro hconsumes
      have hold : (env.now (env.now e.base).2).1 < t - oneMinute := by
        by_contra hrecent
        exact hconsumes ⟨state, h, henabled, hroom, not_lt.1 hrecent⟩
      exact Limited.upToExpired_setState _ h
        ((RuleState.upToExpired_record _ hold).trans (state.upToExpired_cleanup hcleanup))

end Ask

/-! ### The refusal -/

/-- A request that only uses the clock leaves the environment as it is, or later. -/
theorem handle_env_of_usesClockOnly {E : Type} (env : Environment E) {op : Op}
    (hop : op.UsesClockOnly) (w : World E) :
    (env.handle op w).2.env = w.env ∨ (env.handle op w).2.env = (env.now w.env).2 := by
  cases op with
  | lookupCache rule parameters =>
    rcases env.lookupCache_cases rule parameters w with h | ⟨entry, h, hlive | hlive⟩
    · exact .inl (congrArg (fun x ↦ x.2.env) (env.lookupCache_missing h))
    · exact .inr (congrArg (fun x ↦ x.2.env) (env.lookupCache_live h hlive))
    · exact .inr (congrArg (fun x ↦ x.2.env) (env.lookupCache_stale h hlive))
  | storeInCache | now => exact .inr rfl
  | isAllowed | beginExpression | beginAction | endScript | deadlinePassed => exact absurd hop id
  | _ => exact .inl rfl

section Refused

variable {E : Type}

namespace Rule

section

variable (env : Environment E) (parameters : List RuleParameter) (r : Rule) (w : World E)

/-- The state in which the limiter is asked: after the cache and the clock, which is read twice. -/
def atCheck : World E :=
  (env.handle .now (env.handle .now ((r.lookupCache parameters).run env.handle w).2).2).2

/-- The execution of the rule ends in a `RateLimitException`. -/
structure Refused : Prop where
  isActive : r.isActive = true
  missed : ((r.lookupCache parameters).run env.handle w).1 = none
  denied : ∃ e, (r.checkRateLimit.run env.handle (r.atCheck env parameters w)).1 = .error e

end

/-- After a refusal the exception is handled and nothing else is done. -/
theorem Refused.run_execute {env : Environment E} {parameters : List RuleParameter} {r : Rule}
    {w : World E} (h : r.Refused env parameters w) (engine : EnginePtr) (context : ContextPtr) :
    ∃ startTime result e, (r.execute engine context parameters).run env.handle w =
      (r.settle context parameters startTime result (.thrown e)).run env.handle
        (r.checkRateLimit.run env.handle (r.atCheck env parameters w)).2 := by
  obtain ⟨hactive, hmissed, e, hdenied⟩ := h
  rw [Rule.execute_eq, executeWith, run_bind, hmissed]
  dsimp only
  rw [executeUncached, run_bind]
  dsimp only
  rw [hactive, if_pos rfl, run_bind, run_bind, attempt, run_bind]
  simp only [request, run_perform]
  rw [← atCheck, hdenied]
  exact ⟨_, _, _, rfl⟩

/-- A failed check: the key of the id is denied, or it is not and the name is. -/
theorem checkRateLimit_denied (env : Environment E) (r : Rule) (w : World E)
    (h : ∃ e, (r.checkRateLimit.run env.handle w).1 = .error e) :
    let byId := env.isAllowed r.rateLimiter (toString r.id) w.env
    let byName := env.isAllowed r.rateLimiter r.name byId.2
    byId.1 = false ∧ (r.checkRateLimit.run env.handle w).2.env = byId.2 ∨
      byName.1 = false ∧ (r.checkRateLimit.run env.handle w).2.env = byName.2 := by
  intro byId byName
  have hrun : r.checkRateLimit.run env.handle w =
      let allowed := (r.allowedByName byId.1).run env.handle { w with env := byId.2 }
      (if allowed.1 then .ok ()
        else .error (.rateLimit ("Rate limit exceeded for rule '" ++ r.displayName ++ "'")),
        allowed.2) := by
    rw [checkRateLimit, run_bind, run_bind]
    rfl
  rw [hrun] at h ⊢
  obtain ⟨e, h⟩ := h
  rw [allowedByName] at h ⊢
  dsimp only at h ⊢
  -- the name is asked only after the id was allowed, and only if it is another key
  by_cases hname : (byId.1 && r.name ≠ "" && r.name ≠ toString r.id) = true
  · rw [if_pos hname] at h ⊢
    refine .inr ⟨?_, rfl⟩
    rcases hallowed : byName.1 with - | -
    · rfl
    · change (if byName.1 = true then _ else _) = _ at h
      rw [hallowed, if_pos rfl] at h
      exact absurd h (by simp)
  · rw [if_neg hname] at h ⊢
    refine .inl ⟨?_, rfl⟩
    rcases hallowed : byId.1 with - | -
    · rfl
    · rw [run_pure, hallowed, if_pos rfl] at h
      exact absurd h (by simp)

end Rule

/-! ### Limiters through an execution -/

variable {env : Environment E} {w w' : World (Limited E)}

/-- Nothing has been asked of the limiters since, and the clock has not gone back. -/
def SinceWithoutLimiters (env : Environment E) (w w' : World (Limited E)) : Prop :=
  w'.env.limiters = w.env.limiters ∧ (env.now w.env.base).1 ≤ (env.now w'.env.base).1

theorem SinceWithoutLimiters.refl (w : World (Limited E)) : SinceWithoutLimiters env w w :=
  ⟨rfl, le_rfl⟩

/-- One more request that only uses the clock. -/
theorem SinceWithoutLimiters.handle (hsteady : env.Steady) {op : Op} (hop : op.UsesClockOnly)
    (h : SinceWithoutLimiters env w w') :
    SinceWithoutLimiters env w (env.limited.handle op w').2 := by
  rcases handle_env_of_usesClockOnly env.limited hop w' with henv | henv
  · rwa [SinceWithoutLimiters, henv]
  · rw [SinceWithoutLimiters, henv]
    exact ⟨h.1, h.2.trans (hsteady w'.env.base)⟩

theorem SinceWithoutLimiters.run (hsteady : env.Steady) {α : Type} {p : RuleProgram α}
    (hp : Asks Op.UsesClockOnly p) (h : SinceWithoutLimiters env w w') :
    SinceWithoutLimiters env w (p.run env.limited.handle w').2 :=
  hp.run_invariant (fun _ _ hop h ↦ h.handle hsteady hop) h

theorem SinceWithoutLimiters.upToExpired (h : SinceWithoutLimiters env w w') (t : Time) :
    w'.env.upToExpired t = w.env.upToExpired t := by
  funext limiter key
  rw [Limited.upToExpired, Limited.upToExpired, h.1]

/-- What the clock shows in a state. -/
def World.clock (env : Environment E) (w : World (Limited E)) : Time :=
  (env.now w.env.base).1

/-- Until the limiter is asked, nothing is asked of it. -/
theorem sinceWithoutLimiters_atCheck (hsteady : env.Steady) (parameters : List RuleParameter)
    (r : Rule) (w : World (Limited E)) :
    SinceWithoutLimiters env w (r.atCheck env.limited parameters w) := by
  have h := (SinceWithoutLimiters.refl w).run hsteady (lookupCache_usesClockOnly parameters r)
  have hnow : Op.UsesClockOnly .now := trivial
  exact (h.handle hsteady hnow).handle hsteady hnow

/-- What a failed check costs is what the question under the id costs: the question under the name
has been answered with no, if it has been asked. -/
theorem upToExpired_checkRateLimit (hsteady : env.Steady) {r : Rule} {w : World (Limited E)}
    (hdenied : ∃ e, (r.checkRateLimit.run env.limited.handle w).1 = .error e) {t : Time}
    (ht : (r.checkRateLimit.run env.limited.handle w).2.clock env ≤ t) :
    (r.checkRateLimit.run env.limited.handle w).2.env.upToExpired t = w.env.upToExpired t ↔
      ¬env.Consumes r.rateLimiter (toString r.id) w.env t := by
  rcases r.checkRateLimit_denied env.limited w hdenied with ⟨hbyId, henv⟩ | ⟨hbyName, henv⟩
  · rw [World.clock, henv] at ht
    rw [henv]
    exact upToExpired_askLimiter hsteady ht
  · rw [World.clock, henv] at ht
    have hbefore := (askLimiter_now env r.rateLimiter r.name _ hsteady).trans ht
    have hname := (upToExpired_askLimiter hsteady ht).2 (not_consumes_of_denied hbyName)
    rw [henv]
    exact (Eq.congr_left hname).trans (upToExpired_askLimiter hsteady hbefore)

/-- **A refusal consumes no quota** exactly if the question under the id has consumed none: then all
keys of all limiters hold what they held before, up to what has expired at the end of the
attempt. -/
theorem refusal_costs_nothing_iff (hsteady : env.Steady) {parameters : List RuleParameter}
    {r : Rule}
    (hrefused : r.Refused env.limited parameters w) (engine : EnginePtr) (context : ContextPtr) :
    let after := ((r.execute engine context parameters).run env.limited.handle w).2
    after.env.upToExpired (after.clock env) = w.env.upToExpired (after.clock env) ↔
      ¬env.Consumes r.rateLimiter (toString r.id) (r.atCheck env.limited parameters w).env
        (after.clock env) := by
  intro after
  obtain ⟨startTime, result, e, hrun⟩ := hrefused.run_execute engine context
  have hafter : SinceWithoutLimiters env
      (r.checkRateLimit.run env.limited.handle (r.atCheck env.limited parameters w)).2 after := by
    rw [show after = _ from congrArg Prod.snd hrun]
    exact (SinceWithoutLimiters.refl _).run hsteady
      (settle_usesClockOnly context parameters r startTime result (.thrown e))
  have hbefore := sinceWithoutLimiters_atCheck hsteady parameters r w
  rw [hafter.upToExpired, ← hbefore.upToExpired]
  exact upToExpired_checkRateLimit hsteady hrefused.denied hafter.2

end Refused

/-- A clock that moves on by a nanosecond whenever it is read, and no chunks. -/
def Environment.ticking : Environment Time where
  now e := (e, e + 1)
  isAllowed _ _ e := (true, e)
  beginExpression _ _ _ e := (.ok none, e)
  beginAction _ _ _ e := (.ok none, e)
  endScript _ _ e := e
  deadlinePassed _ _ e := (false, e)
  cacheOrder := HashOrder.insertion _

theorem Environment.ticking_steady : ticking.Steady := fun e ↦ (Int.lt_succ e).le

namespace Throttled

/-- The rule `A` with the id 7. -/
def rule : Rule where
  id := 7
  name := "A"

/-- `A` may be executed once per second and has been. -/
def byName : RateLimiter where
  states := Function.update (fun _ ↦ none) "A" (some {
    config := { ruleName := "A", maxExecutionsPerSecond := 1 },
    secondWindow := [0], minuteWindow := [0] })

/-- And 7 may be executed twice per second. -/
def byBoth : RateLimiter :=
  byName.configure { ruleName := "7", maxExecutionsPerSecond := 2 }

/-- One nanosecond later. -/
def world (limiter : RateLimiter) : World (Limited Time) where
  env := { base := 1, limiters := fun _ ↦ limiter }

theorem refused_byName : rule.Refused Environment.ticking.limited [] (world byName) :=
  ⟨rfl, rfl, _, rfl⟩

theorem refused_byBoth : rule.Refused Environment.ticking.limited [] (world byBoth) :=
  ⟨rfl, rfl, _, rfl⟩

/-- Under the name alone the refusal costs nothing. -/
theorem byName_keeps_quota :
    let after := ((rule.execute 0 0 []).run Environment.ticking.limited.handle (world byName)).2
    after.env.upToExpired (after.clock Environment.ticking) =
      (world byName).env.upToExpired (after.clock Environment.ticking) := by
  refine (refusal_costs_nothing_iff Environment.ticking_steady refused_byName 0 0).2 ?_
  rintro ⟨state, hstate, -⟩
  exact absurd (show none = some state from hstate) (by simp)

/-- Under both the refused rule has used up an execution of 7. -/
theorem byBoth_loses_quota :
    let after := ((rule.execute 0 0 []).run Environment.ticking.limited.handle (world byBoth)).2
    rule.Refused Environment.ticking.limited [] (world byBoth) ∧
      (world byBoth).env.upToExpired (after.clock Environment.ticking) none "7" =
        some { config := { ruleName := "7", maxExecutionsPerSecond := 2 } } ∧
      after.env.upToExpired (after.clock Environment.ticking) none "7" =
        some { config := { ruleName := "7", maxExecutionsPerSecond := 2 },
               secondWindow := [4], minuteWindow := [4] } :=
  ⟨refused_byBoth, by decide, by decide⟩

end Throttled

end FastRules
