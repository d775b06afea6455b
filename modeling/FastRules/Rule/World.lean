import FastRules.Rule.Frame

/-!
# What the requests do

The state the requests of rule executions act on: contexts, result caches, counters and the pool of
engines, all shared between threads, and an environment `E` for everything that is not the library's
own data — the clock, the rate limiters, the engines with their Lua states. An `Environment` says
how those answer; nothing is assumed of it here.
-/

namespace FastRules

/-! ### The result cache of a rule -/

/-- `Rule::CacheEntry`. -/
structure CacheEntry where
  result : RuleResult
  expiresAt : Time
  generation : Int

/-- `now < entry.expiresAt && entry.generation == cacheGeneration_`. -/
def CacheEntry.isLive (entry : CacheEntry) (now : Time) (generation : Int) : Bool :=
  now < entry.expiresAt && entry.generation = generation

/-- `cache_` and `cacheGeneration_` of a rule. -/
structure RuleCache where
  entries : List (String × CacheEntry) := []
  generation : Int := 0

/-- `Rule::kMaxCacheEntries`. -/
def kMaxCacheEntries : ℕ := 1024

/-- The text of a parameter's value in a cache key. A value of a type that is not printed is
represented by its type alone. -/
def valueText (p : RuleParameter) : String :=
  match p.value with
  | none => "nil"
  | some v =>
    v.printed.getD ((p.type.elim "unknown" fun t ↦ t.name) ++ "@" ++ toString v.type.hashCode)

/-- The text of one parameter in a cache key. -/
def cacheKeyOf (p : RuleParameter) : String :=
  p.name ++ "=" ++ valueText p ++ ";"

/-- `Rule::buildCacheKey`. -/
def buildCacheKey (id : Id) (parameters : List RuleParameter) : String :=
  toString id ++ "|" ++ String.join (parameters.map cacheKeyOf)

/-- The entry that expires first, the first of them in iteration order. -/
def oldestEntry : List (String × CacheEntry) → Option (String × CacheEntry)
  | [] => none
  | e :: es => some (es.foldl (fun o e ↦ if e.2.expiresAt < o.2.expiresAt then e else o) e)

namespace RuleCache

/-- `cache_.erase(key)`. -/
def erase (c : RuleCache) (key : String) : RuleCache :=
  { c with entries := c.entries.filter fun e ↦ e.1 ≠ key }

/-- What `storeInCache` does before it inserts a new key into a full cache: drop the expired
entries, and if that is not enough the one closest to expiring. -/
def makeRoom (order : HashOrder (String × CacheEntry)) (now : Time) (key : String) (c : RuleCache) :
    RuleCache :=
  if kMaxCacheEntries ≤ c.entries.length ∧ c.entries.lookup key = none then
    let live := { c with entries := c.entries.filter fun e ↦ now < e.2.expiresAt }
    if kMaxCacheEntries ≤ live.entries.length then
      match oldestEntry (order.visit live.entries) with
      | some e => live.erase e.1
      | none => live
    else live
  else c

/-- `cache_[key] = {result, expiresAt, cacheGeneration_}`. -/
def insert (c : RuleCache) (key : String) (result : RuleResult) (expiresAt : Time) : RuleCache :=
  { c with entries := (key, ⟨result, expiresAt, c.generation⟩) :: (c.erase key).entries }

end RuleCache

/-! ### Worlds -/

/-- How the clock, the limiters and the engines answer. -/
structure Environment (E : Type) where
  now : E → Time × E
  isAllowed : Option LimiterPtr → String → E → Bool × E
  beginExpression : EnginePtr → Rule → List RuleParameter → E →
    Except Exn (Option LuaScript) × E
  beginAction : EnginePtr → Rule → List RuleParameter → E → Except Exn (Option LuaScript) × E
  endScript : EnginePtr → List LuaView → E → E
  deadlinePassed : EnginePtr → Int → E → Bool × E
  /-- The iteration order of the result caches. -/
  cacheOrder : HashOrder (String × CacheEntry)

/-- The shared state. -/
structure World (E : Type) where
  contexts : ContextPtr → RuleContext := fun _ ↦ {}
  caches : RulePtr → RuleCache := fun _ ↦ {}
  /-- The calls of `recordExecution` so far, latest first. -/
  executions : List ExecutionRecord := []
  /-- The calls of `recordExecutionTime` so far, latest first. -/
  executionTimes : List Time := []
  /-- The engines that are free, the next one to be handed out first. -/
  pool : List EnginePtr := []
  env : E

namespace World

variable {E : Type}

/-- Change one context. -/
def updateContext (w : World E) (c : ContextPtr) (f : RuleContext → RuleContext) : World E :=
  { w with contexts := Function.update w.contexts c (f (w.contexts c)) }

/-- Change one cache. -/
def updateCache (w : World E) (p : RulePtr) (f : RuleCache → RuleCache) : World E :=
  { w with caches := Function.update w.caches p (f (w.caches p)) }

/-- `RuleContext::setResult`. -/
def setResult (w : World E) (c : ContextPtr) (key : String) (result : RuleResult) : World E :=
  w.updateContext c fun context ↦
    { context with results := Function.update context.results key (some result) }

theorem setResult_results (w : World E) (c : ContextPtr) (key : String) (a : RuleResult) :
    ((w.setResult c key a).contexts c).results =
      Function.update (w.contexts c).results key (some a) := by
  rw [setResult, updateContext]
  dsimp only
  rw [Function.update_self]

end World

namespace Environment

variable {E : Type} (env : Environment E)

/-- The locked lookup at the start of `Rule::execute`: a live entry of the current generation is
returned, any other entry of the key is erased. -/
def lookupCache (rule : RuleFields) (parameters : List RuleParameter) (w : World E) :
    Option RuleResult × World E :=
  let key := buildCacheKey rule.id parameters
  match (w.caches rule.ptr).entries.lookup key with
  | none => (none, w)
  | some entry =>
    let w' := { w with env := (env.now w.env).2 }
    if entry.isLive (env.now w.env).1 (w.caches rule.ptr).generation then
      (some entry.result, w')
    else
      (none, w'.updateCache rule.ptr fun c ↦ c.erase key)

/-- The body of `Rule::storeInCache`. -/
def storeInCache (rule : RuleFields) (parameters : List RuleParameter) (result : RuleResult)
    (w : World E) : World E :=
  let key := buildCacheKey rule.id parameters
  let now := (env.now w.env).1
  { w with env := (env.now w.env).2 }.updateCache rule.ptr fun c ↦
    (c.makeRoom env.cacheOrder now key).insert key result
      (now + (rule.cacheDuration.getD 0) * 1000000)

/-- What each request does. An empty pool answers an acquisition with no engine: that is the
acquisition that has waited in vain, and one that goes on waiting is simply not scheduled. -/
def handle : (op : Op) → World E → op.Ans × World E
  | .lookupCache rule parameters, w => env.lookupCache rule parameters w
  | .storeInCache rule parameters result, w => ((), env.storeInCache rule parameters result w)
  | .now, w => ((env.now w.env).1, { w with env := (env.now w.env).2 })
  | .isAllowed limiter key, w =>
    ((env.isAllowed limiter key w.env).1, { w with env := (env.isAllowed limiter key w.env).2 })
  | .recordExecution record, w => ((), { w with executions := record :: w.executions })
  | .recordExecutionTime d, w => ((), { w with executionTimes := d :: w.executionTimes })
  | .getResult c key, w => ((w.contexts c).results key, w)
  | .setResult c key result, w => ((), w.setResult c key result)
  | .setLastError c key message, w =>
    ((), w.updateContext c fun context ↦ { context with lastError := some (key, message) })
  | .beginExpression engine rule parameters, w =>
    ((env.beginExpression engine rule parameters w.env).1,
      { w with env := (env.beginExpression engine rule parameters w.env).2 })
  | .beginAction engine rule parameters, w =>
    ((env.beginAction engine rule parameters w.env).1,
      { w with env := (env.beginAction engine rule parameters w.env).2 })
  | .endScript engine answers, w => ((), { w with env := env.endScript engine answers w.env })
  | .deadlinePassed engine timeout, w =>
    ((env.deadlinePassed engine timeout w.env).1,
      { w with env := (env.deadlinePassed engine timeout w.env).2 })
  | .acquireEngine, w => (w.pool.head?, { w with pool := w.pool.tail })
  | .releaseEngine engine, w => ((), { w with pool := engine :: w.pool })

/-- The environment in which the chunk of a source text is always the same program: a clock that
stands still, no limits, and no chunk for the texts without one. -/
def ofScripts (script : String → Option LuaScript) : Environment Unit where
  now e := (0, e)
  isAllowed _ _ e := (true, e)
  beginExpression _ rule _ e := (.ok (script rule.expression), e)
  beginAction _ rule _ e := (.ok (script rule.action), e)
  endScript _ _ e := e
  deadlinePassed _ _ e := (false, e)
  cacheOrder := HashOrder.insertion _

/-- The environment in which no rule has a chunk to run. -/
def noScripts : Environment Unit :=
  ofScripts fun _ ↦ none

section LookupCache

variable {rule : RuleFields} {parameters : List RuleParameter} {w : World E}

theorem lookupCache_missing
    (h : (w.caches rule.ptr).entries.lookup (buildCacheKey rule.id parameters) = none) :
    env.lookupCache rule parameters w = (none, w) := by
  rw [lookupCache]
  dsimp only
  rw [h]

theorem lookupCache_live {entry : CacheEntry}
    (h : (w.caches rule.ptr).entries.lookup (buildCacheKey rule.id parameters) = some entry)
    (hlive : entry.isLive (env.now w.env).1 (w.caches rule.ptr).generation = true) :
    env.lookupCache rule parameters w =
      (some entry.result, { w with env := (env.now w.env).2 }) := by
  rw [lookupCache]
  dsimp only
  rw [h]
  exact if_pos hlive

theorem lookupCache_stale {entry : CacheEntry}
    (h : (w.caches rule.ptr).entries.lookup (buildCacheKey rule.id parameters) = some entry)
    (hlive : entry.isLive (env.now w.env).1 (w.caches rule.ptr).generation ≠ true) :
    env.lookupCache rule parameters w =
      (none, { w with env := (env.now w.env).2 }.updateCache rule.ptr
        fun c ↦ c.erase (buildCacheKey rule.id parameters)) := by
  rw [lookupCache]
  dsimp only
  rw [h]
  exact if_neg hlive

/-- The three ways a cache lookup ends. -/
theorem lookupCache_cases (rule : RuleFields) (parameters : List RuleParameter) (w : World E) :
    (w.caches rule.ptr).entries.lookup (buildCacheKey rule.id parameters) = none ∨
      ∃ entry, (w.caches rule.ptr).entries.lookup (buildCacheKey rule.id parameters) = some entry ∧
        (entry.isLive (env.now w.env).1 (w.caches rule.ptr).generation = true ∨
          entry.isLive (env.now w.env).1 (w.caches rule.ptr).generation ≠ true) := by
  rcases (w.caches rule.ptr).entries.lookup (buildCacheKey rule.id parameters) with - | entry
  · exact .inl rfl
  · exact .inr ⟨entry, rfl, Classical.em _⟩

theorem lookupCache_contexts (rule : RuleFields) (parameters : List RuleParameter) (w : World E) :
    (env.lookupCache rule parameters w).2.contexts = w.contexts := by
  rcases env.lookupCache_cases rule parameters w with h | ⟨entry, h, hlive | hlive⟩
  · rw [env.lookupCache_missing h]
  · rw [env.lookupCache_live h hlive]
  · rw [env.lookupCache_stale h hlive]
    rfl

end LookupCache

/-- What the requests do to the published results of a context. -/
theorem handle_results (c : ContextPtr) (op : Op) (w : World E)
    (hpre : (resultsInterface c).pre op (w.contexts c).results) :
    (resultsInterface c).step op (w.contexts c).results (env.handle op w).1
      ((env.handle op w).2.contexts c).results := by
  cases op with
  | getResult c' key =>
    obtain rfl : c' = c := hpre
    exact ⟨rfl, rfl⟩
  | setResult c' key result =>
    obtain rfl : c' = c := hpre
    show (Function.update w.contexts c' _ c').results = _
    rw [Function.update_self]
  | setLastError c' key message =>
    show (Function.update w.contexts c' _ c).results = _
    by_cases hc : c = c'
    · subst hc
      rw [Function.update_self]
    · rw [Function.update_of_ne hc]
  | lookupCache rule parameters =>
    show ((env.lookupCache rule parameters w).2.contexts c).results = _
    rw [env.lookupCache_contexts]
  | acquireEngine => exact absurd hpre id
  | releaseEngine engine => exact absurd hpre id
  | _ => rfl

/-- A quiet request changes no published results. -/
theorem handle_results_of_isQuiet (c : ContextPtr) {op : Op} (hop : op.IsQuiet) (w : World E) :
    ((env.handle op w).2.contexts c).results = (w.contexts c).results := by
  cases op with
  | getResult c' key => rfl
  | setLastError c' key message =>
    exact env.handle_results c (.setLastError c' key message) w trivial
  | lookupCache | storeInCache | setResult | acquireEngine | releaseEngine => exact absurd hop id
  | _ => rfl

/-- Whatever is ensured of the published results holds of a run. -/
theorem run_of_results {c : ContextPtr} {α : Type} {p : RuleProgram α} {Q : α → Results → Prop}
    {w : World E} (h : p.Ensures (resultsInterface c) Q (w.contexts c).results) :
    Q (p.run env.handle w).1 ((p.run env.handle w).2.contexts c).results := by
  refine Program.Ensures.run (Q := fun a (w' : World E) ↦ Q a (w'.contexts c).results) ?_
  refine Program.Ensures.of_view (fun w : World E ↦ (w.contexts c).results) ?_ ?_ h
  · exact fun _ _ _ ↦ trivial
  · intro op w a w' hpre hstep
    obtain ⟨rfl, rfl⟩ := Prod.ext_iff.1 (hstep : env.handle op w = (a, w'))
    exact env.handle_results c op w hpre

end Environment

end FastRules
