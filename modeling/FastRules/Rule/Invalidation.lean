import FastRules.Rule.CacheBound
import FastRules.Rule.Semantics

/-!
# Invalidation between lookup and store

Executions that share a cache look it up under its lock, evaluate, and store under its lock again,
and invalidations fall in between anywhere. An observer of the cache counts the invalidations and
notes at which count each evaluation has started. `storeInCache` marks a result with the generation
at which it is stored and not with the one at which its evaluation started, so a hit is fresh as
long as no execution stores after an invalidation that its evaluation has seen
(`timely_stores_deliver_fresh`), and one such store is enough for a hit that is not
(`StaleStore.stale_result_delivered`).
-/

namespace FastRules

open Program

/-- A hit: the invalidations before the evaluation of the result started, and those before the
hit. -/
structure Delivery where
  evaluatedAt : ℕ
  deliveredAt : ℕ
  deriving DecidableEq

/-- No invalidation lies between the start of the evaluation and the hit. -/
def Delivery.IsFresh (d : Delivery) : Prop :=
  d.evaluatedAt = d.deliveredAt

/-- What an observer of one cache notes. -/
structure CacheWatch (ι : Type) where
  /-- The calls of `invalidateCache` that have returned. -/
  invalidations : ℕ := 0
  /-- For each thread, when its last evaluation started. -/
  startedAt : ι → ℕ := fun _ ↦ 0
  /-- For each key, when the evaluation of the result stored last started. -/
  evaluatedAt : String → ℕ := fun _ ↦ 0
  deliveries : List Delivery := []

namespace CacheWatch

variable {ι : Type} [DecidableEq ι]

/-- An evaluation starts when the lookup has found nothing. -/
def after (ptr : RulePtr) (i : ι) : (op : Op) → op.Ans → CacheWatch ι → CacheWatch ι
  | .lookupCache rule _, none, b =>
    if rule.ptr = ptr then
      { b with startedAt := Function.update b.startedAt i b.invalidations }
    else b
  | .lookupCache rule parameters, some _, b =>
    if rule.ptr = ptr then
      { b with deliveries :=
          ⟨b.evaluatedAt (buildCacheKey rule.id parameters), b.invalidations⟩ :: b.deliveries }
    else b
  | .storeInCache rule parameters _, _, b =>
    if rule.ptr = ptr then
      { b with evaluatedAt :=
          Function.update b.evaluatedAt (buildCacheKey rule.id parameters) (b.startedAt i) }
    else b
  | _, _, b => b

end CacheWatch

section Watched

variable {ι E : Type} [DecidableEq ι] (env : Environment E) (ptr : RulePtr)

/-- A request beside the observer. -/
def Environment.watched (i : ι) (op : Op) (s : World E × CacheWatch ι) :
    op.Ans × (World E × CacheWatch ι) :=
  Program.observed env.handle (CacheWatch.after ptr i) op s

/-- A request of an execution. -/
def Environment.watchedStep (i : ι) (op : Op) (s : World E × CacheWatch ι) (a : op.Ans)
    (s' : World E × CacheWatch ι) : Prop :=
  env.watched ptr i op s = (a, s')

/-- A call of `invalidateCache` on the object. -/
def World.invalidateStep {α : Type} (_ : ι → RuleProgram α) (s s' : World E × CacheWatch ι) :
    Prop :=
  s' = ((s.1.invalidateCache ptr).2, { s.2 with invalidations := s.2.invalidations + 1 })

/-- The request does not store after an invalidation that has come since the evaluation started. -/
def Op.IsTimely (i : ι) : Op → World E × CacheWatch ι → Prop
  | storeInCache rule _ _, s => rule.ptr = ptr → s.2.startedAt i = s.2.invalidations
  | _, _ => True

instance (i : ι) : (op : Op) → (s : World E × CacheWatch ι) → Decidable (op.IsTimely ptr i s)
  | .storeInCache rule _ _, s =>
    inferInstanceAs (Decidable (rule.ptr = ptr → s.2.startedAt i = s.2.invalidations))
  | .lookupCache _ _, _ | .now, _ | .isAllowed _ _, _ | .recordExecution _, _
  | .recordExecutionTime _, _ | .getResult _ _, _ | .setResult _ _ _, _ | .setLastError _ _ _, _
  | .beginExpression _ _ _, _ | .beginAction _ _ _, _ | .endScript _ _, _ | .deadlinePassed _ _, _
  | .acquireEngine, _ | .releaseEngine _, _ => isTrue trivial

/-- A timely request of an execution. -/
def Environment.timelyStep (i : ι) (op : Op) (s : World E × CacheWatch ι) (a : op.Ans)
    (s' : World E × CacheWatch ι) : Prop :=
  op.IsTimely ptr i s ∧ env.watchedStep ptr i op s a s'

/-- The executions are about to start. -/
def watchedIn (w : World E) (call : ι → RuleCall) :
    Interleaving.Config ι Op Op.Ans RuleResult (World E × CacheWatch ι) :=
  ⟨fun i ↦ (call i).execute, (w, {})⟩

end Watched

/-! ### Timely stores -/

section Timely

variable {ι E : Type} [DecidableEq ι] {env : Environment E} {ptr : RulePtr}

/-- What is in the cache and what was delivered is fresh. -/
structure CacheIsFresh (ptr : RulePtr) (s : World E × CacheWatch ι) : Prop where
  entries : ∀ e ∈ (s.1.caches ptr).entries, s.2.evaluatedAt e.1 = s.2.invalidations
  deliveries : ∀ d ∈ s.2.deliveries, d.IsFresh

variable {s : World E × CacheWatch ι}

theorem CacheIsFresh.lookupCache (h : CacheIsFresh ptr s) (i : ι) (rule : RuleFields)
    (parameters : List RuleParameter) :
    CacheIsFresh ptr (env.watched ptr i (.lookupCache rule parameters) s).2 := by
  have hentries {e : String × CacheEntry}
      (he : e ∈ ((env.lookupCache rule parameters s.1).2.caches ptr).entries) :
      s.2.evaluatedAt e.1 = s.2.invalidations :=
    h.entries e (Environment.lookupCache_entries_subset rule parameters he)
  show CacheIsFresh ptr ((env.lookupCache rule parameters s.1).2,
    s.2.after ptr i (.lookupCache rule parameters) (env.lookupCache rule parameters s.1).1)
  rcases hfound : (env.lookupCache rule parameters s.1).1 with - | result
  · rw [CacheWatch.after]
    split_ifs
    · exact ⟨fun e he ↦ hentries he, h.deliveries⟩
    · exact ⟨fun e he ↦ hentries he, h.deliveries⟩
  · rw [CacheWatch.after]
    split_ifs with hptr
    · -- the result comes from an entry, and the entry is fresh
      obtain ⟨entry, hentry, -⟩ := Environment.mem_of_lookupCache hfound
      refine ⟨fun e he ↦ hentries he, List.forall_mem_cons.2 ⟨?_, h.deliveries⟩⟩
      exact h.entries _ (hptr ▸ hentry)
    · exact ⟨fun e he ↦ hentries he, h.deliveries⟩

theorem CacheIsFresh.storeInCache (h : CacheIsFresh ptr s) {i : ι} {rule : RuleFields}
    {parameters : List RuleParameter} {result : RuleResult}
    (htimely : Op.IsTimely ptr i (.storeInCache rule parameters result) s) :
    CacheIsFresh ptr (env.watched ptr i (.storeInCache rule parameters result) s).2 := by
  show CacheIsFresh ptr (env.storeInCache rule parameters result s.1,
    s.2.after ptr i (.storeInCache rule parameters result) ())
  rw [CacheWatch.after]
  split_ifs with hptr
  · refine ⟨fun e he ↦ ?_, h.deliveries⟩
    show Function.update s.2.evaluatedAt (buildCacheKey rule.id parameters) (s.2.startedAt i) e.1 =
      s.2.invalidations
    by_cases hkey : e.1 = buildCacheKey rule.id parameters
    · rw [hkey, Function.update_self]
      exact htimely hptr
    · rw [Function.update_of_ne hkey]
      exact h.entries e ((Environment.mem_storeInCache he).resolve_left fun hnew ↦ hkey hnew.2.1)
  · refine ⟨fun e he ↦ ?_, h.deliveries⟩
    exact h.entries e ((Environment.mem_storeInCache he).resolve_left fun hnew ↦ hptr hnew.1)

/-- A timely request keeps the cache fresh. -/
theorem CacheIsFresh.request (env : Environment E) (h : CacheIsFresh ptr s) {i : ι} {op : Op}
    (htimely : op.IsTimely ptr i s) :
    CacheIsFresh ptr (env.watched ptr i op s).2 := by
  cases op with
  | lookupCache rule parameters => exact h.lookupCache i rule parameters
  | storeInCache rule parameters result => exact h.storeInCache htimely
  | _ => exact ⟨h.entries, h.deliveries⟩

omit [DecidableEq ι] in
/-- An invalidation leaves nothing to be delivered. -/
theorem CacheIsFresh.invalidate (h : CacheIsFresh ptr s) :
    CacheIsFresh ptr ((s.1.invalidateCache ptr).2,
      { s.2 with invalidations := s.2.invalidations + 1 }) := by
  refine ⟨fun e he ↦ ?_, h.deliveries⟩
  change e ∈ (Function.update s.1.caches ptr (s.1.caches ptr).invalidate ptr).entries at he
  rw [Function.update_self] at he
  exact absurd he List.not_mem_nil

/-- **Invalidation is a barrier** for executions that store in time: in every run of any executions
and invalidations in which no execution stores after an invalidation that its evaluation has seen,
no hit delivers a result whose evaluation started before an invalidation. -/
theorem timely_stores_deliver_fresh (call : ι → RuleCall) (w : World E)
    {c : Interleaving.Config ι Op Op.Ans RuleResult (World E × CacheWatch ι)}
    (h : Interleaving.Reaches (env.timelyStep ptr) (World.invalidateStep ptr)
    (watchedIn w call) c) :
    ∀ d ∈ c.state.2.deliveries, d.IsFresh := by
  suffices hfresh : CacheIsFresh ptr c.state from hfresh.deliveries
  induction h with
  | refl => exact ⟨fun _ _ ↦ rfl, fun _ hd ↦ absurd hd List.not_mem_nil⟩
  | tail _ hlast ih =>
    rcases hlast with @⟨i, op, next, a, s', hthread, htimely, hstep⟩ | @⟨s', hother⟩
    · have hs' := ih.request env htimely
      rwa [show env.watched ptr i op _ = (a, s') from hstep] at hs'
    · obtain rfl : s' = _ := hother
      exact ih.invalidate

end Timely

/-! ### Runs -/

section Runs

variable {ι E : Type} [DecidableEq ι] {env : Environment E} {ptr : RulePtr}

/-- A thread whose run is timely goes ahead alone. -/
theorem reaches_timely_run (c : Interleaving.Config ι Op Op.Ans RuleResult (World E × CacheWatch ι))
    (i : ι) (h : Guarded (env.watched ptr i) (Op.IsTimely ptr i) (c.thread i) c.state) :
    Interleaving.Reaches (env.timelyStep ptr) (World.invalidateStep ptr) c
      ⟨Function.update c.thread i (.ret ((c.thread i).run (env.watched ptr i) c.state).1),
        ((c.thread i).run (env.watched ptr i) c.state).2⟩ :=
  .of_steps (h.steps fun _ _ htimely ↦ ⟨htimely, rfl⟩)

/-- A thread goes ahead alone. -/
theorem reaches_watched_run (c : Interleaving.Config ι Op Op.Ans RuleResult
    (World E × CacheWatch ι))
    (i : ι) :
    Interleaving.Reaches (env.watchedStep ptr) (World.invalidateStep ptr) c
      ⟨Function.update c.thread i (.ret ((c.thread i).run (env.watched ptr i) c.state).1),
        ((c.thread i).run (env.watched ptr i) c.state).2⟩ := by
  have hany : Guarded (env.watched ptr i) (fun _ _ ↦ True) (c.thread i) c.state :=
    guarded_of_invariant (I := fun _ ↦ True) (fun _ _ _ ↦ trivial) (fun _ _ _ ↦ trivial) _ trivial
  exact .of_steps (hany.steps fun _ _ _ ↦ rfl)

end Runs

namespace StaleStore

/-- A rule that keeps its results for a minute. -/
def rule : Rule :=
  { ptr := 1, id := 1, name := "A", cacheDuration := some 60000 }

/-- Every thread executes it. -/
def call (_ : ℕ) : RuleCall :=
  ⟨0, 0, [], rule⟩

/-- One execution stores, the cache is invalidated, the next one stores again, and the third one is
answered from the cache. -/
theorem timely_delivery :
    ∃ c : Interleaving.Config ℕ Op Op.Ans RuleResult (World Unit × CacheWatch ℕ),
      Interleaving.Reaches (Environment.noScripts.timelyStep 1) (World.invalidateStep 1)
        (watchedIn { env := () } call) c ∧
      c.state.2.deliveries = [⟨1, 1⟩] ∧ ∀ d ∈ c.state.2.deliveries, d.IsFresh := by
  have hfirst : Interleaving.Reaches (Environment.noScripts.timelyStep 1) (World.invalidateStep 1)
      (watchedIn { env := () } call) _ := reaches_timely_run _ 0 (by decide)
  have hinvalidated := hfirst.tail (.other rfl)
  have hsecond := hinvalidated.trans (reaches_timely_run _ 1 (by decide))
  have hthird := hsecond.trans (reaches_timely_run _ 2 (by decide))
  exact ⟨_, hthird, rfl, timely_stores_deliver_fresh call { env := () } hthird⟩

/-- The cache is invalidated while one execution evaluates. It stores nevertheless, and the other
execution is answered with what it has stored. -/
theorem stale_result_delivered :
    ∃ c : Interleaving.Config ℕ Op Op.Ans RuleResult (World Unit × CacheWatch ℕ),
      Interleaving.Reaches (Environment.noScripts.watchedStep 1) (World.invalidateStep 1)
        (watchedIn { env := () } call) c ∧
      c.state.2.deliveries = [⟨0, 1⟩] ∧ ¬∀ d ∈ c.state.2.deliveries, d.IsFresh := by
  have hlookup : Interleaving.Step (Environment.noScripts.watchedStep 1) (World.invalidateStep 1)
      (watchedIn { env := () } call) _ := .own (i := 0) rfl rfl
  have hinvalidated := (Relation.ReflTransGen.single hlookup).tail (.other rfl)
  have hstored := hinvalidated.trans (reaches_watched_run _ 0)
  have hhit := hstored.trans (reaches_watched_run _ 1)
  exact ⟨_, hhit, rfl, fun h ↦ Nat.zero_ne_one (h ⟨0, 1⟩ List.mem_cons_self)⟩

end StaleStore

end FastRules
