import FastRules.Rule.CacheKey
import FastRules.Rule.Presentation
import FastRules.Workflow.SequentialAgreement

/-!
# Caching and repeated calls

A rule that is answered from its cache publishes nothing. Whoever looks up its key, or the key of a
node below it, finds no result, or that of nobody else's making, until somebody publishes there
again. This module follows these keys through a run, as a ghost state beside the world, and shows
that a run in which nobody looks one of them up comes to the value of the rules (`Reflects`): its
results are the outcomes, the context shows the ledger outside the unpublished keys, and every entry
of a cache is an outcome of the log.

Repeated calls of `Workflow::execute` with the same parameters then return the same verdicts as the
rules without caches (`repeated_calls_agree`), as long as no call looks up an unpublished key.
-/

namespace FastRules

open Program

/-! ### Unpublished results -/

/-- The keys with an unpublished result when a request has been answered: an answer from a cache
stands for the results of a whole tree, and a publication makes up for one of them. `hides` tells
which keys belong to the tree of a rule object. -/
def Op.hiding (hides : RulePtr → List String) (c : ContextPtr) :
    (op : Op) → op.Ans → Set String → Set String
  | lookupCache rule _, some _, keys => keys ∪ {key | key ∈ hides rule.ptr}
  | setResult c' key _, _, keys => if c' = c then keys \ {key} else keys
  | _, _, keys => keys

/-- The keys of the trees of the nodes at an address. -/
def keysAt (nodes : List Rule) (ptr : RulePtr) : List String :=
  (nodes.filter fun q ↦ q.ptr = ptr).flatMap Rule.keys

theorem mem_keysAt {nodes : List Rule} {q : Rule} (hq : q ∈ nodes) {key : String}
    (hkey : key ∈ q.keys) : key ∈ keysAt nodes q.ptr :=
  List.mem_flatMap.2 ⟨q, List.mem_filter.2 ⟨hq, by simp⟩, hkey⟩

section Watch

variable {E : Type} (env : Environment E) (hides : RulePtr → List String) (c : ContextPtr)

/-- Answer requests, and keep the keys with unpublished results. -/
def watch : (op : Op) → World E × Set String → op.Ans × (World E × Set String) :=
  observed env.handle (Op.hiding hides c)

/-- In the run of a program no request looks up a key with an unpublished result. -/
abbrev ReadsPublished {α : Type} (p : RuleProgram α) (x : World E × Set String) : Prop :=
  p.Guarded (watch env hides c) (fun op x ↦ op.LooksOutside c x.2) x

end Watch

/-- The world shows the ledger where results are published, and the caches of the nodes hold
outcomes of the log. -/
structure Reflects {E : Type} (c : ContextPtr) (parameters : List RuleParameter) (nodes : List Rule)
    (log : List (RulePtr × Outcome)) (ledger : Ledger) (x : World E × Set String) : Prop where
  results : ∀ key, key ∉ x.2 → ((x.1.contexts c).results key).map RuleResult.outcome = ledger key
  entries : ∀ q ∈ nodes, q.isCaching = true → ∀ key entry,
    (key, entry) ∈ (x.1.caches q.ptr).entries → key = buildCacheKey q.id parameters →
      (q.ptr, entry.result.outcome) ∈ log

section Simulation

variable {E : Type} {env : Environment E} {hides : RulePtr → List String} {c : ContextPtr}
  {parameters : List RuleParameter} {nodes : List Rule} {log : List (RulePtr × Outcome)}
  {ledger : Ledger} {x : World E × Set String} {m : Meaning} {engine : EnginePtr}

/-! ### Single requests -/

theorem Reflects.of_same (h : Reflects c parameters nodes log ledger x) {y : World E × Set String}
    (hresults : (y.1.contexts c).results = (x.1.contexts c).results)
    (hcaches : y.1.caches = x.1.caches) (hkeys : y.2 = x.2) :
    Reflects c parameters nodes log ledger y where
  results key hkey := by
    rw [hresults]
    exact h.results key (hkeys ▸ hkey)
  entries q hq hcaching key entry hentry := by
    rw [hcaches] at hentry
    exact h.entries q hq hcaching key entry hentry

theorem handle_caches_of_isQuiet {op : Op} (hop : op.IsQuiet) (w : World E) :
    (env.handle op w).2.caches = w.caches := by
  cases op <;> first | rfl | exact absurd hop id

variable (env hides) in
theorem Reflects.quiet (h : Reflects c parameters nodes log ledger x) (op : Op) (hop : op.IsQuiet) :
    Reflects c parameters nodes log ledger (watch env hides c op x).2 := by
  refine h.of_same (env.handle_results_of_isQuiet c hop x.1) (handle_caches_of_isQuiet hop x.1) ?_
  cases op <;> first | rfl | exact absurd hop id

variable (env hides) in
/-- Publishing a result enters its outcome. -/
theorem Reflects.setResult (h : Reflects c parameters nodes log ledger x) (key : String)
    (a : RuleResult) :
    Reflects c parameters nodes log (Function.update ledger key (some a.outcome))
      (watch env hides c (.setResult c key a) x).2 where
  results k hk := by
    show (((x.1.setResult c key a).contexts c).results k).map _ = _
    rw [World.setResult_results]
    rcases eq_or_ne k key with rfl | hne
    · rw [Function.update_self, Function.update_self]
      rfl
    · rw [Function.update_of_ne hne, Function.update_of_ne hne]
      refine h.results k fun hin ↦ hk ?_
      show k ∈ if c = c then x.2 \ {key} else x.2
      rw [if_pos rfl]
      exact ⟨hin, hne⟩
  entries := h.entries

/-- Storing an outcome of the log keeps the caches as they should be. -/
theorem Reflects.storeInCache (h : Reflects c parameters nodes log ledger x) (r : RuleFields)
    (a : RuleResult) (ha : (r.ptr, a.outcome) ∈ log) :
    Reflects c parameters nodes log ledger
      (watch env hides c (.storeInCache r parameters a) x).2 where
  results := h.results
  entries q hq hcaching key entry hentry hkey := by
    rcases Environment.mem_storeInCache hentry with ⟨hptr, -, hresult⟩ | hold
    · rw [← hptr, hresult]
      exact ha
    · exact h.entries q hq hcaching key entry hold hkey

variable (env hides) in
/-- What a lookup of a node is answered with is its outcome in the log; a lookup without an answer
changes nothing. -/
theorem Reflects.lookupCache (h : Reflects c parameters nodes log ledger x) {r : Rule}
    (hr : r ∈ nodes) (hcaching : r.isCaching = true) :
    let looked := watch env hides c (.lookupCache r.toRuleFields parameters) x
    (looked.1 = none ∧ Reflects c parameters nodes log ledger looked.2) ∨
      ∃ a, looked.1 = some a ∧ (r.ptr, a.outcome) ∈ log ∧
        (looked.2.1.contexts c).results = (x.1.contexts c).results ∧
        looked.2.1.caches = x.1.caches ∧ looked.2.2 = x.2 ∪ {key | key ∈ hides r.ptr} := by
  dsimp only
  rcases env.lookupCache_cases r.toRuleFields parameters x.1 with hno |
    ⟨entry, hentry, hlive | hstale⟩
  · have hans : watch env hides c (.lookupCache r.toRuleFields parameters) x = (none, x) := by
      rw [watch, observed, Environment.handle, env.lookupCache_missing hno]
      rfl
    rw [hans]
    exact .inl ⟨rfl, h⟩
  · have hans : watch env hides c (.lookupCache r.toRuleFields parameters) x =
        (some entry.result, { x.1 with env := (env.now x.1.env).2 },
          x.2 ∪ {key | key ∈ hides r.ptr}) := by
      rw [watch, observed, Environment.handle, env.lookupCache_live hentry hlive]
      rfl
    rw [hans]
    obtain ⟨before, later, hsplit, -⟩ := List.lookup_eq_some_iff.1 hentry
    refine .inr ⟨entry.result, rfl, h.entries r hr hcaching _ entry ?_ rfl, rfl, rfl, rfl⟩
    rw [hsplit]
    exact List.mem_append_right _ List.mem_cons_self
  · have hans : (watch env hides c (.lookupCache r.toRuleFields parameters) x).1 = none := by
      show (env.lookupCache r.toRuleFields parameters x.1).1 = none
      rw [env.lookupCache_stale hentry hstale]
    refine .inl ⟨hans, fun key hkey ↦ ?_, fun q hq hq' key e he ↦ ?_⟩
    · show (((env.lookupCache r.toRuleFields parameters x.1).2.contexts c).results key).map _ = _
      rw [env.lookupCache_contexts]
      refine h.results key fun hin ↦ hkey ?_
      show key ∈ Op.hiding hides c _ (watch env hides c _ x).1 x.2
      rw [hans]
      exact hin
    · exact h.entries q hq hq' key e (Environment.lookupCache_entries_subset _ _ he)

/-! ### Executions -/

/-- What has to be known of the log and of the keys to follow executions of the nodes. -/
structure Tracked (hides : RulePtr → List String) (nodes : List Rule)
    (log : List (RulePtr × Outcome)) : Prop where
  functional : ∀ ptr o o', (ptr, o) ∈ log → (ptr, o') ∈ log → o = o'
  keys : ∀ q ∈ nodes, q.isCaching = true → ∀ key ∈ q.keys, key ∈ hides q.ptr

/-- A run that looks up published results only presents the ledger. -/
theorem presents_watch (hE : env.Realizes m parameters) (htracked : Tracked hides nodes log) :
    Presents (Interface.assuming (watch env hides c) fun op x ↦ op.LooksOutside c x.2) c m
      parameters
      nodes Set.univ {e | e ∈ log} (Reflects c parameters nodes log) where
  pre _ _ := trivial
  quiet := by
    rintro op x a _ ledger h ⟨-, rfl, rfl⟩ hop
    exact h.quiet env hides op hop
  getResult := by
    rintro key x found _ ledger - h ⟨hkey, rfl, rfl⟩
    exact h.results key (hkey rfl)
  setResult := by
    rintro key a x u _ ledger h ⟨-, rfl, rfl⟩
    exact h.setResult env hides key a
  isAllowed := by
    rintro limiter key x a _ ⟨-, rfl, rfl⟩
    exact hE.isAllowed limiter key x.1.env
  beginExpression := by
    rintro engine r x a _ ⟨-, rfl, rfl⟩
    exact hE.beginExpression engine r x.1.env
  beginAction := by
    rintro engine r x a _ ⟨-, rfl, rfl⟩
    exact hE.beginAction engine r x.1.env
  deadlinePassed := by
    rintro engine t x a _ ⟨-, rfl, rfl⟩
    exact hE.deadlinePassed engine t x.1.env
  lookupCache := by
    rintro r x a _ ledger hr hcaching hlog h ⟨-, rfl, rfl⟩
    rcases h.lookupCache env hides hr hcaching with hnone | ⟨b, hsome, hb, hresults, hcaches, hkeys⟩
    · exact .inl hnone
    · -- the keys of the rule are unpublished from now on
      have hout : b.outcome = (r.value m parameters ledger).result :=
        htracked.functional _ _ _ hb (hlog _ (r.mem_log ledger))
      refine .inr ⟨b, hsome, hout, fun key hkey ↦ ?_, ?_⟩
      · rw [hkeys, Set.mem_union, not_or] at hkey
        rw [hresults, h.results key hkey.1]
        exact (r.value_frame ledger key fun hin ↦
          hkey.2 (htracked.keys r hr hcaching key hin)).symm
      · rw [hcaches]
        exact h.entries
  storeInCache := by
    rintro r b x u _ ledger - - h hb ⟨-, rfl, rfl⟩
    exact h.storeInCache r.toRuleFields b hb

theorem executeLoop_value (hE : env.Realizes m parameters) (htracked : Tracked hides nodes log)
    {rules : List Rule} (hnodes : ∀ q ∈ nodesOf rules, q ∈ nodes) {ledger : Ledger}
    {x : World E × Set String} (h : Reflects c parameters nodes log ledger x)
    (hlog : ∀ e ∈ (loopValue m parameters rules ledger).log, e ∈ log)
    (hg : ReadsPublished env hides c (executeLoop engine c parameters rules) x) :
    let ran := (executeLoop engine c parameters rules).run (watch env hides c) x
    (ran.1.map fun e ↦ e.2.map RuleResult.outcome) = (loopValue m parameters rules ledger).result ∧
      Reflects c parameters nodes log (loopValue m parameters rules ledger).ledger ran.2 :=
  (executeLoop_presents (presents_watch hE htracked) (m.looksUp_univ nodes) hnodes
    (fun _ _ n _ ↦ Set.mem_univ n) hlog h).run_guarded hg

end Simulation

/-! ### Repeated calls -/

section Calls

variable {E : Type} (env : Environment E) (engines : ℕ → EnginePtr) (c : ContextPtr)
  (parameters : List RuleParameter) (order : HashOrder Rule) (rules : List Rule) (world : World E)

/-- The world in which the `k`-th call of `Workflow::execute` enters its loop, with a new context.
The calls may use different engines. -/
def worldBefore : ℕ → World E
  | 0 => world.newContext c
  | k + 1 =>
    match Workflow.execute (engines k) c parameters order rules with
    | .ok program => (program.run env.handle (worldBefore k)).2.newContext c
    | .error _ => (worldBefore k).newContext c

/-- What the `k`-th call returns, or throws. -/
def callResults (k : ℕ) : Except String (List RuleResult) :=
  (Workflow.execute (engines k) c parameters order rules).map fun program ↦
    (program.run env.handle (worldBefore env engines c parameters order rules world k)).1

/-- In the `k`-th call nobody looks up a key with an unpublished result. -/
def CallReadsPublished (hides : RulePtr → List String) (k : ℕ) : Prop :=
  ∀ executionOrder, resolveExecutionOrder order rules = .ok executionOrder →
    ReadsPublished env hides c (executeLoop (engines k) c parameters executionOrder)
      (worldBefore env engines c parameters order rules world k, ∅)

end Calls

/-- A new context is empty; what the caches hold stays. -/
theorem Reflects.newContext {E : Type} {c : ContextPtr} {parameters : List RuleParameter}
    {nodes : List Rule} {log : List (RulePtr × Outcome)} {ledger : Ledger} {w : World E}
    {keys : Set String} (h : Reflects c parameters nodes log ledger (w, keys)) :
    Reflects c parameters nodes log (fun _ ↦ none) (w.newContext c, ∅) where
  results key _ := by
    rw [World.newContext, World.updateContext]
    dsimp only
    rw [Function.update_self]
    rfl
  entries := h.entries

section Calls

variable {E : Type} {env : Environment E} {engines : ℕ → EnginePtr} {c : ContextPtr}
  {parameters : List RuleParameter} {order : HashOrder Rule} {rules executionOrder : List Rule}
  {world : World E} {m : Meaning} {hides : RulePtr → List String} {log : List (RulePtr × Outcome)}

variable (hE : env.Realizes m parameters) (htracked : Tracked hides (nodesOf executionOrder) log)
  (horder : resolveExecutionOrder order rules = .ok executionOrder)
  (hlog : ∀ e ∈ (loopValue m parameters executionOrder fun _ ↦ none).log, e ∈ log)
include hE htracked horder hlog

/-- One call, from a world whose caches hold outcomes of the log. -/
theorem call_value {k : ℕ}
    (h : Reflects c parameters (nodesOf executionOrder) log (fun _ ↦ none)
      (worldBefore env engines c parameters order rules world k, ∅))
    (hreads : CallReadsPublished env engines c parameters order rules world hides k) :
    (callResults env engines c parameters order rules world k).map verdicts =
        .ok (outcomeVerdicts (loopValue m parameters executionOrder fun _ ↦ none).result) ∧
      Reflects c parameters (nodesOf executionOrder) log (fun _ ↦ none)
        (worldBefore env engines c parameters order rules world (k + 1), ∅) := by
  obtain ⟨hout, h'⟩ :=
    executeLoop_value hE htracked (fun _ ↦ id) h hlog (hreads executionOrder horder)
  obtain ⟨hresult, hworld⟩ := run_observed env.handle (Op.hiding hides c)
    (executeLoop (engines k) c parameters executionOrder)
    (worldBefore env engines c parameters order rules world k, ∅)
  have hexecute : Workflow.execute (engines k) c parameters order rules = .ok (do
      let history ← executeLoop (engines k) c parameters executionOrder
      return history.results) := by
    rw [Workflow.execute, horder]
    rfl
  refine ⟨?_, ?_⟩
  · rw [callResults, hexecute, ← hout, ← verdicts_results, watch, hresult]
    simp only [Except.map, run_bind, run_pure]
  · rw [worldBefore, hexecute]
    dsimp only
    rw [run_bind, ← hworld]
    exact h'.newContext

variable (env engines c world hides) in
/-- Every call, if the caches are empty at first. -/
theorem calls_value
    (hempty : ∀ q ∈ nodesOf executionOrder, q.isCaching = true → (world.caches q.ptr).entries = [])
    (k : ℕ)
    (hreads : ∀ j ≤ k, CallReadsPublished env engines c parameters order rules world hides j) :
    (callResults env engines c parameters order rules world k).map verdicts =
      .ok (outcomeVerdicts (loopValue m parameters executionOrder fun _ ↦ none).result) := by
  have hbefore : Reflects c parameters (nodesOf executionOrder) log (fun _ ↦ none)
      (worldBefore env engines c parameters order rules world k, ∅) := by
    induction k with
    | zero =>
      refine ⟨fun key _ ↦ ?_, fun q hq hcaching key entry hentry ↦ ?_⟩
      · rw [worldBefore, World.newContext, World.updateContext]
        dsimp only
        rw [Function.update_self]
        rfl
      · have hnone : (world.caches q.ptr).entries = [] := hempty q hq hcaching
        rw [worldBefore, World.newContext, World.updateContext] at hentry
        dsimp only at hentry
        rw [hnone] at hentry
        exact absurd hentry List.not_mem_nil
    | succ k ih =>
      have hk := ih fun j hj ↦ hreads j (hj.trans (Nat.le_succ k))
      exact (call_value hE htracked horder hlog hk (hreads k (Nat.le_succ k))).2
  exact (call_value hE htracked horder hlog hbefore (hreads k le_rfl)).1

end Calls

/-- An execution order is a rearrangement of the rules. -/
theorem resolveExecutionOrder_perm {order : HashOrder Rule} {rules executionOrder : List Rule}
    (hrules : DistinctIds rules) (h : resolveExecutionOrder order rules = .ok executionOrder) :
    executionOrder.Perm rules := by
  rw [resolveExecutionOrder] at h
  rcases hl : buildDependencyLevels order rules with message | levels
  · rw [hl] at h
    cases h
  · rw [hl] at h
    obtain rfl : levels.flatten = executionOrder := Except.ok.inj h
    obtain ⟨hlay, hall, -⟩ := buildDependencyLevels_ok hrules hl
    exact hlay.flatten_perm hrules.nodup hall

theorem keepsDependencies_uncached : KeepsDependencies Rule.uncached where
  id r := by rw [r.uncached_toRuleFields]; rfl
  name r := by rw [r.uncached_toRuleFields]; rfl
  priority r := by rw [r.uncached_toRuleFields]; rfl
  dependsOnRuleName r := by rw [r.uncached_toRuleFields]; rfl

/-- Where no cached answer hides anything, every program looks up published results only. -/
theorem readsPublished_of_hides_nothing {E : Type} (env : Environment E) (c : ContextPtr) {α : Type}
    (p : RuleProgram α) (w : World E) : ReadsPublished env (fun _ ↦ []) c p (w, ∅) := by
  refine guarded_of_invariant (I := fun x ↦ x.2 = ∅) (fun op x hx ↦ ?_) (fun op x hx ↦ ?_) p rfl
  · rw [hx]
    cases op <;> first | exact fun _ ↦ Set.notMem_empty _ | trivial
  · show Op.hiding (fun _ ↦ []) c op (env.handle op x.1).1 x.2 = ∅
    rw [hx]
    cases op with
    | lookupCache rule parameters =>
      rcases (env.handle (.lookupCache rule parameters) x.1).1 with - | a
      · rfl
      · simp [Op.hiding]
    | setResult c' key a => simp [Op.hiding]
    | _ => rfl

theorem isCaching_of_mem_uncached {rules : List Rule} {q : Rule}
    (hq : q ∈ nodesOf (rules.map Rule.uncached)) : q.isCaching = false := by
  obtain ⟨r', hr', hq⟩ := Rule.mem_nodesOf.1 hq
  obtain ⟨r, -, rfl⟩ := List.mem_map.1 hr'
  exact r.isCaching_uncached q hq

/-- **Caching does not change repeated calls that look up published results only.** A validated
workflow with distinct result keys, whose chunks depend on the rules alone and whose caches are
empty at first, is called any number of times with the same parameters. If in these calls nobody
looks up a key with an unpublished result, each returns the same verdicts as the call of the
workflow without caches, or throws the same exception. -/
theorem repeated_calls_agree {E : Type} (env : Environment E) (m : Meaning)
    (parameters : List RuleParameter) (hE : env.Realizes m parameters) (idOrder : HashOrder Id)
    (order order' : HashOrder Rule) (w w' : Workflow) (hw : w.Fresh)
    (hvalid : w.validate idOrder order = (.ok (), w'))
    (hkeys : ((nodesOf w'.rules).map Rule.resultKey).Nodup)
    (hobjects : ∀ p ∈ nodesOf w'.rules, ∀ q ∈ nodesOf w'.rules, p.ptr = q.ptr → p = q)
    (engines : ℕ → EnginePtr) (c : ContextPtr) (world world' : World E)
    (hempty : ∀ q ∈ nodesOf w'.rules, (world.caches q.ptr).entries = []) (k : ℕ)
    (hreads : ∀ j ≤ k, CallReadsPublished env engines c parameters order w'.rules world
      (keysAt (nodesOf w'.rules)) j) :
    (callResults env engines c parameters order w'.rules world k).map verdicts =
      (callResults env engines c parameters order' (w'.rules.map Rule.uncached) world' k).map
        verdicts := by
  have hdistinct := (Workflow.validate_accepted hw hvalid).distinct
  have horder' := keepsDependencies_uncached.resolveExecutionOrder_map hdistinct order order'
  rcases horder : resolveExecutionOrder order w'.rules with message | executionOrder
  · rw [horder] at horder'
    rw [callResults, callResults, Workflow.execute, Workflow.execute, horder, horder']
    rfl
  · have hperm : (nodesOf executionOrder).Perm (nodesOf w'.rules) := by
      rw [nodesOf_eq_flatMap, nodesOf_eq_flatMap]
      exact (resolveExecutionOrder_perm hdistinct horder).flatMap_right _
    let log := (loopValue m parameters executionOrder fun _ ↦ none).log
    have hptrs : ((nodesOf executionOrder).map fun q ↦ q.ptr).Nodup := by
      refine ((hperm.map _).nodup_iff).2 ?_
      exact (List.Nodup.of_map _ hkeys).map_on fun p hp q hq ↦ hobjects p hp q hq
    have hfunctional : ∀ ptr o o', (ptr, o) ∈ log → (ptr, o') ∈ log → o = o' :=
      loopValue_log_functional hptrs
    have hcached := calls_value env engines c world (keysAt (nodesOf w'.rules)) hE
      ⟨hfunctional, fun q hq _ key hkey ↦ mem_keysAt (hperm.mem_iff.1 hq) hkey⟩ horder
      (fun e he ↦ he) (fun q hq _ ↦ hempty q (hperm.mem_iff.1 hq)) k hreads
    -- the rules without caches have the same value and the same log
    rw [horder] at horder'
    have huncached := calls_value env engines c world' (fun _ ↦ []) hE
      ⟨hfunctional, fun q hq hcaching ↦ absurd hcaching (by simp [isCaching_of_mem_uncached hq])⟩
      horder' (fun e he ↦ by rwa [loopValue_uncached] at he)
      (fun q hq hcaching ↦ absurd hcaching (by simp [isCaching_of_mem_uncached hq])) k
      (fun j _ executionOrder _ ↦ readsPublished_of_hides_nothing env c _ _)
    rw [hcached, huncached, loopValue_uncached]

namespace CachedChild

/-- The expression `context.getResult("C").success`. -/
def readsC (text : String) : Option LuaScript :=
  if text = "c" then some (.ask "C" fun found ↦ .ret (.ok found.success)) else none

def C : Rule := { ptr := 2, id := 2, name := "C", cacheDuration := some 60000 }

def P : Rule := { ptr := 1, id := 1, name := "P", expression := "c", childRules := [C] }

/-- The validated rules. -/
def rules : List Rule := [P.markValidated]

theorem resolves : resolveExecutionOrder (HashOrder.insertion Rule) rules = .ok rules := rfl

theorem ptrs_nodup : ((nodesOf rules).map fun q ↦ q.ptr).Nodup := by decide

/-- The parent publishes what its child has returned before it looks it up, also if that is the
answer of the cache. -/
theorem reads_published :
    ∀ j ≤ 1, CallReadsPublished (Environment.ofScripts readsC) (fun _ ↦ 0) 0 []
    (HashOrder.insertion Rule) rules { env := () } (keysAt (nodesOf rules)) j := by
  intro j hj executionOrder h
  obtain rfl : rules = executionOrder := Except.ok.inj (resolves.symm.trans h)
  obtain rfl | rfl : j = 0 ∨ j = 1 := by omega
  all_goals
    repeat (refine ⟨trivial, ?_⟩)
    refine ⟨fun _ hin ↦ hin.2 rfl, ?_⟩
    repeat (refine ⟨trivial, ?_⟩)
    trivial

/-- The second call of a parent that reads its cached child. -/
theorem second_call :
    (callResults (Environment.ofScripts readsC) (fun _ ↦ 0) 0 [] (HashOrder.insertion Rule) rules
        { env := () } 1).map verdicts =
      (callResults (Environment.ofScripts readsC) (fun _ ↦ 0) 0 [] (HashOrder.insertion Rule)
        (rules.map Rule.uncached) { env := () } 1).map verdicts :=
  repeated_calls_agree (Environment.ofScripts readsC) (Meaning.ofScripts readsC) []
    (Environment.ofScripts_realizes readsC []) (HashOrder.insertion Id) (HashOrder.insertion Rule)
    (HashOrder.insertion Rule) { rules := [P] } { rules, validated := true } ⟨rfl, by decide⟩ rfl
    (by decide : ((nodesOf rules).map Rule.resultKey).Nodup)
    (fun _ hp _ hq ↦ List.inj_on_of_nodup_map ptrs_nodup hp hq) (fun _ ↦ 0) 0
    { env := () } { env := () } (fun _ _ ↦ rfl) 1 reads_published

end CachedChild

/-- A rule with a cache, and a rule that depends on it. -/
def cachedDependency : Workflow where
  rules :=
    [{ ptr := 1, id := 1, name := "A", cacheDuration := some 60000 },
     { ptr := 2, id := 2, name := "B", dependsOnRuleName := some "A" }]

/-- The verdicts of the calls of the validated rules, with their caches or without. -/
def cachedDependency.call (change : Rule → Rule) (k : ℕ) : Except String (List (Id × Bool)) :=
  (callResults Environment.noScripts (fun _ ↦ 0) 0 [] (HashOrder.insertion Rule)
    ((cachedDependency.validate (HashOrder.insertion Id) (HashOrder.insertion Rule)).2.rules.map
      change)
    { env := () } k).map verdicts

/-- From the second call on, `A` is answered from its cache and `B` is no longer executed. -/
theorem cachedDependency_loses_B :
    (cachedDependency.validate (HashOrder.insertion Id) (HashOrder.insertion Rule)).1 = .ok () ∧
      ((nodesOf cachedDependency.rules).map Rule.resultKey).Nodup ∧
      Environment.noScripts.Realizes (Meaning.ofScripts fun _ ↦ none) [] ∧
      cachedDependency.call id 0 = .ok [(1, true), (2, true)] ∧
      cachedDependency.call id 1 = .ok [(1, true)] ∧
      cachedDependency.call Rule.uncached 1 = .ok [(1, true), (2, true)] :=
  ⟨rfl, by decide, Environment.ofScripts_realizes _ [], rfl, rfl, rfl⟩

end FastRules
