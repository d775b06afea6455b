import FastRules.Workflow.Dependencies
import Mathlib.Data.Set.Basic

/-!
# The three sequential executors

`executeWithTrace` and `executeStreaming` publish every result they receive, `execute` leaves that
to the rule. A rule that was executed has published its result; one that was answered from its cache
has not. So after a cached answer the contexts differ, at the key of that rule, until somebody
publishes there again.

The two loops are run side by side (`Ensures.run_congr`) from contexts that agree outside a set of
keys. As long as nobody looks one of these keys up, they return the same.
-/

namespace FastRules

open Program

/-! ### One loop for the tracing and the streaming executor -/

section Programs

variable (engine : EnginePtr) (c : ContextPtr) (parameters : List RuleParameter)

/-- The loop that publishes what each rule returned. -/
def publishingLoop : List Rule → RuleProgram History
  | [] => return []
  | r :: rules => do
    let outcome ← streamStep engine c parameters r
    let history ← publishingLoop rules
    return (r, outcome) :: history

/-- Publish the result of a rule that was executed. -/
def publishOutcome (r : Rule) : Option RuleResult → RuleProgram (Option RuleResult)
  | some result => do
    request (.setResult c r.resultKey result)
    return some result
  | none => return none

/-- A pass of the streaming loop is a pass of the loop of `execute`, and a publication. -/
theorem streamStep_eq (r : Rule) :
    streamStep engine c parameters r =
      executeStep engine c parameters r >>= publishOutcome c r := by
  rw [streamStep, executeStep]
  split_ifs
  · rw [bind_assoc]
    refine congrArg _ (funext fun satisfied ↦ ?_)
    cases satisfied
    · rfl
    · simp [executeIf, traceExecution, publishOutcome]
  · rfl

theorem fst_traceStep (r : Rule) :
    Prod.fst <$> traceStep engine c parameters r = streamStep engine c parameters r := by
  rw [traceStep, streamStep]
  split_ifs
  · rw [map_bind]
    refine congrArg _ (funext fun satisfied ↦ ?_)
    cases satisfied
    · rfl
    · simp
  · rfl

theorem fst_traceLoop (rules : List Rule) :
    Prod.fst <$> traceLoop engine c parameters rules =
      publishingLoop engine c parameters rules := by
  induction rules with
  | nil => rfl
  | cons r rules ih =>
    rw [traceLoop, publishingLoop, ← fst_traceStep, ← ih]
    simp

theorem History.results_cons (r : Rule) (o : Option RuleResult) (history : History) :
    History.results ((r, o) :: history) =
      (o.filter fun a ↦ !a.skipped).toList ++ history.results := by
  rcases o with - | a
  · rfl
  · cases h : a.skipped <;> simp [results, Option.filter, h]

/-- Asking for results until there are none runs the loop to its end. -/
theorem drain_eq {fuel : ℕ} {rules : List Rule} (h : rules.length < fuel) :
    drain engine c parameters fuel rules =
      History.results <$> publishingLoop engine c parameters rules := by
  induction rules generalizing fuel with
  | nil =>
    obtain ⟨fuel, rfl⟩ := Nat.exists_eq_succ_of_ne_zero (Nat.ne_of_gt h)
    rfl
  | cons r rules ih =>
    obtain ⟨fuel, rfl⟩ := Nat.exists_eq_succ_of_ne_zero (Nat.ne_of_gt (Nat.zero_lt_of_lt h))
    have hlater : rules.length < fuel + 1 := (Nat.lt_succ_self _).trans h
    have hrest : rules.length < fuel := Nat.lt_of_succ_lt_succ h
    rw [publishingLoop, map_bind, drain, streamNext, bind_assoc]
    refine congrArg _ (funext fun outcome ↦ ?_)
    have hresults : (History.results <$> do
          let history ← publishingLoop engine c parameters rules
          return (r, outcome) :: history) =
        (fun results ↦ (outcome.filter fun a ↦ !a.skipped).toList ++ results) <$>
          History.results <$> publishingLoop engine c parameters rules := by
      simp [History.results_cons]
    rw [hresults]
    generalize (outcome.filter fun a ↦ !a.skipped) = yielded
    rcases yielded with - | result
    · -- nothing to yield: the generator goes on with the rest
      rw [← ih hlater]
      exact (id_map (drain engine c parameters (fuel + 1) rules)).symm
    · rw [← ih hrest]
      exact (map_eq_pure_bind _ (drain engine c parameters fuel rules)).symm

end Programs

/-! ### Lookups of unpublished results -/

/-- The request does not look up one of the keys. -/
def Op.LooksOutside (c : ContextPtr) (keys : Set String) : Op → Prop
  | getResult c' key => c' = c → key ∉ keys
  | _ => True

/-- The keys that are left when the request has been answered: a publication takes its key away. -/
def Op.unpublished (c : ContextPtr) (keys : Set String) : Op → Set String
  | setResult c' key _ => if c' = c then keys \ {key} else keys
  | _ => keys

section Lookups

variable {E : Type} (env : Environment E) (engine : EnginePtr) (c : ContextPtr)
  (parameters : List RuleParameter)

/-- Requests in a run, none of which looks up a key under which there is an unpublished result. -/
def lookupInterface : Interface Op Op.Ans (World E × Set String) :=
  Interface.ghost env.handle (fun op keys ↦ op.LooksOutside c keys)
    fun op keys ↦ op.unpublished c keys

/-- The keys with an unpublished result after a pass of the loop: the key of the rule is one of them
if the context holds another result than the one the loop has received. -/
def unpublishedAfter (r : Rule) (outcome : Option RuleResult) (w : World E) (keys : Set String) :
    Set String :=
  match outcome with
  | none => keys
  | some a => {key | if key = r.resultKey then (w.contexts c).results key ≠ some a else key ∈ keys}

/-- In the run of the loop of `Workflow::execute` no dependency check and no script looks up a key
under which the loop has received a result that nobody has published. -/
def NoLookupOfUnpublished : List Rule → World E → Set String → Prop
  | [], _, _ => True
  | r :: rules, w, keys =>
    (executeStep engine c parameters r).Ensures (lookupInterface env c)
      (fun outcome s ↦
        NoLookupOfUnpublished rules s.1 (unpublishedAfter c r outcome s.1 s.2)) (w, keys)

end Lookups

/-! ### Two runs side by side -/

namespace World

variable {E : Type}

/-- The same world with other results in one context. -/
def withResults (w : World E) (c : ContextPtr) (results : Results) : World E :=
  w.updateContext c fun context ↦ { context with results }

/-- The worlds differ at most in the results of one context, and there only at the given keys. -/
def AgreeOutside (c : ContextPtr) (keys : Set String) (w v : World E) : Prop :=
  ∃ results : Results, v = w.withResults c results ∧
    ∀ key, key ∉ keys → results key = (w.contexts c).results key

theorem withResults_results (w : World E) (c : ContextPtr) (results : Results) :
    ((w.withResults c results).contexts c).results = results := by
  rw [withResults, updateContext]
  dsimp only
  rw [Function.update_self]

theorem withResults_self (w : World E) (c : ContextPtr) :
    w.withResults c (w.contexts c).results = w := by
  rw [withResults, updateContext, Function.update_eq_self]

theorem AgreeOutside.refl (c : ContextPtr) (keys : Set String) (w : World E) :
    AgreeOutside c keys w w :=
  ⟨(w.contexts c).results, (withResults_self w c).symm, fun _ _ ↦ rfl⟩

theorem updateContext_of_ne (w : World E) {c c' : ContextPtr} (hne : c ≠ c')
    (f : RuleContext → RuleContext) : (w.updateContext c' f).contexts c = w.contexts c :=
  Function.update_of_ne hne _ _

/-- Publishing on the one side what is published on neither. -/
theorem AgreeOutside.setResult_right {c : ContextPtr} {keys keys' : Set String} {w v : World E}
    (h : AgreeOutside c keys w v) {key : String} {a : RuleResult}
    (hkey : key ∉ keys' → (w.contexts c).results key = some a)
    (hkeys : ∀ k, k ≠ key → k ∉ keys' → k ∉ keys) :
    AgreeOutside c keys' w (v.setResult c key a) := by
  obtain ⟨results, rfl, hresults⟩ := h
  refine ⟨Function.update results key (some a), ?_, fun k hk ↦ ?_⟩
  · simp [withResults, setResult, updateContext]
  · rcases eq_or_ne k key with rfl | hne
    · rw [Function.update_self, hkey hk]
    · rw [Function.update_of_ne hne]
      exact hresults k (hkeys k hne hk)

theorem updateContext_comm (w : World E) {c c' : ContextPtr} (hne : c' ≠ c)
    (f g : RuleContext → RuleContext) :
    (w.updateContext c f).updateContext c' g = (w.updateContext c' g).updateContext c f := by
  simp only [updateContext, Function.update_of_ne hne, Function.update_of_ne hne.symm,
    Function.update_comm hne]

theorem updateContext_twice (w : World E) (c : ContextPtr) (f g : RuleContext → RuleContext) :
    (w.updateContext c f).updateContext c g = w.updateContext c fun x ↦ g (f x) := by
  simp only [updateContext, Function.update_self, Function.update_idem]

end World

section Agreement

variable {E : Type} (env : Environment E) (c : ContextPtr)

theorem lookupCache_withResults (rule : RuleFields) (parameters : List RuleParameter) (w : World E)
    (results : Results) :
    env.lookupCache rule parameters (w.withResults c results) =
      ((env.lookupCache rule parameters w).1,
        (env.lookupCache rule parameters w).2.withResults c results) := by
  rcases env.lookupCache_cases rule parameters w with h | ⟨entry, h, hlive | hlive⟩
  · rw [env.lookupCache_missing h]
    exact env.lookupCache_missing (w := w.withResults c results) h
  · rw [env.lookupCache_live h hlive]
    exact env.lookupCache_live (w := w.withResults c results) h hlive
  · rw [env.lookupCache_stale h hlive]
    exact env.lookupCache_stale (w := w.withResults c results) h hlive

/-- A permitted request is answered alike and keeps the agreement. -/
theorem handle_agree (op : Op) (keys : Set String) (w v : World E) (hpre : op.LooksOutside c keys)
    (h : World.AgreeOutside c keys w v) :
    (env.handle op v).1 = (env.handle op w).1 ∧
      World.AgreeOutside c (op.unpublished c keys) (env.handle op w).2 (env.handle op v).2 := by
  obtain ⟨results, rfl, hresults⟩ := h
  cases op with
  | getResult c' key =>
    refine ⟨?_, results, rfl, hresults⟩
    show ((w.withResults c results).contexts c').results key = (w.contexts c').results key
    rcases eq_or_ne c' c with rfl | hne
    · rw [World.withResults_results]
      exact hresults key (hpre rfl)
    · rw [World.withResults, World.updateContext]
      dsimp only
      rw [Function.update_of_ne hne]
  | setResult c' key result =>
    refine ⟨rfl, ?_⟩
    show World.AgreeOutside c (if c' = c then keys \ {key} else keys) (w.setResult c' key result)
      ((w.withResults c results).setResult c' key result)
    split_ifs with hc
    · subst hc
      -- what is published is the same in both worlds from now on
      refine ⟨Function.update results key (some result), ?_, fun k hk ↦ ?_⟩
      · simp only [World.setResult, World.withResults, World.updateContext_twice]
      · rw [World.setResult_results]
        rcases eq_or_ne k key with rfl | hne
        · rw [Function.update_self, Function.update_self]
        · rw [Function.update_of_ne hne, Function.update_of_ne hne]
          exact hresults k fun hin ↦ hk ⟨hin, hne⟩
    · refine ⟨results, World.updateContext_comm w hc _ _, fun k hk ↦ ?_⟩
      rw [World.setResult, World.updateContext_of_ne w (Ne.symm hc)]
      exact hresults k hk
  | setLastError c' key message =>
    refine ⟨rfl, results, ?_, fun k hk ↦ ?_⟩
    · rcases eq_or_ne c' c with rfl | hne
      · simp only [Environment.handle, World.withResults, World.updateContext_twice]
      · simp only [Environment.handle, World.withResults]
        exact World.updateContext_comm w hne _ _
    · rw [hresults k hk]
      exact congrFun (env.handle_results c (.setLastError c' key message) w trivial).symm k
  | lookupCache rule parameters =>
    show (env.lookupCache rule parameters _).1 = (env.lookupCache rule parameters w).1 ∧
      World.AgreeOutside c keys (env.lookupCache rule parameters w).2
        (env.lookupCache rule parameters _).2
    rw [lookupCache_withResults]
    exact ⟨rfl, results, rfl, by rwa [env.lookupCache_contexts]⟩
  | _ => exact ⟨rfl, results, rfl, hresults⟩

variable (engine : EnginePtr) (parameters : List RuleParameter)

/-- One pass of the two loops, started in worlds that agree outside the keys with unpublished
results. -/
theorem streamStep_agree {r : Rule} {Q : Option RuleResult → World E × Set String → Prop}
    {w v : World E} {keys : Set String}
    (hstep : (executeStep engine c parameters r).Ensures (lookupInterface env c) Q (w, keys))
    (h : World.AgreeOutside c keys w v) :
    let ran := (executeStep engine c parameters r).run env.handle w
    let streamed := (streamStep engine c parameters r).run env.handle v
    streamed.1 = ran.1 ∧ ∃ keys',
      World.AgreeOutside c (unpublishedAfter c r ran.1 ran.2 keys') ran.2 streamed.2 ∧
        Q ran.1 (ran.2, keys') := by
  dsimp only
  obtain ⟨hans, keys', hagree, hQ⟩ := hstep.run_congr (handle_agree env c) h
  rw [streamStep_eq, run_bind, hans]
  generalize ((executeStep engine c parameters r).run env.handle w).1 = outcome at hQ ⊢
  rcases outcome with - | a
  · exact ⟨rfl, keys', hagree, hQ⟩
  · refine ⟨rfl, keys', hagree.setResult_right (fun hkey ↦ ?_) (fun k hne hk hin ↦ hk ?_), hQ⟩
    · by_contra hother
      exact hkey (by simpa [unpublishedAfter] using hother)
    · simpa [unpublishedAfter, hne] using hin

/-- The two loops, started in worlds that agree outside the keys with unpublished results, go
through the same history. -/
theorem publishingLoop_agree {rules : List Rule} {w v : World E} {keys : Set String}
    (hrun : NoLookupOfUnpublished env engine c parameters rules w keys)
    (h : World.AgreeOutside c keys w v) :
    ((publishingLoop engine c parameters rules).run env.handle v).1 =
      ((executeLoop engine c parameters rules).run env.handle w).1 := by
  induction rules generalizing w v keys with
  | nil => rfl
  | cons r rules ih =>
    obtain ⟨hans, keys', hagree, hrest⟩ := streamStep_agree env c engine parameters hrun h
    rw [publishingLoop, executeLoop, run_bind, run_bind, run_bind, run_bind, hans, ih hrest hagree]
    rfl

end Agreement

/-- **The sequential executors agree.** From the same world — whatever the rules' caches hold, the
clock says and the scripts do — `execute`, `executeWithTrace` and the drained `executeStreaming`
return the same results, or throw the same exception, if in the run of `execute` nobody looks up a
key under which the loop has received a result that nobody has published. -/
theorem sequential_executors_agree {E : Type} (env : Environment E) (order : HashOrder Rule)
    (rules : List Rule) (engine : EnginePtr) (c : ContextPtr) (parameters : List RuleParameter)
    (world : World E)
    (hrun : ∀ executionOrder, resolveExecutionOrder order rules = .ok executionOrder →
      NoLookupOfUnpublished env engine c parameters executionOrder world ∅) :
    (Workflow.executeWithTrace engine c parameters order rules).map
        (fun p ↦ (p.run env.handle world).1.1) =
      (Workflow.execute engine c parameters order rules).map
        (fun p ↦ (p.run env.handle world).1) ∧
    (Workflow.executeStreaming engine c parameters order rules).map
        (fun p ↦ (p.run env.handle world).1) =
      (Workflow.execute engine c parameters order rules).map
        (fun p ↦ (p.run env.handle world).1) := by
  rw [Workflow.executeWithTrace, Workflow.execute, Workflow.executeStreaming]
  rcases horder : resolveExecutionOrder order rules with message | executionOrder
  · exact ⟨rfl, rfl⟩
  · have hagree := publishingLoop_agree env c engine parameters (hrun executionOrder horder)
      (World.AgreeOutside.refl c ∅ world)
    have htrace : ((traceLoop engine c parameters executionOrder).run env.handle world).1.1 =
        ((executeLoop engine c parameters executionOrder).run env.handle world).1 := by
      rw [← hagree, ← fst_traceLoop, run_map]
    refine ⟨congrArg Except.ok ?_, congrArg Except.ok ?_⟩
    · simp [htrace]
    · dsimp only
      rw [drain_eq engine c parameters (Nat.lt_succ_self _), run_map, hagree]
      simp

/-- Without caches every result is published by the rule itself. -/
theorem noLookupOfUnpublished_of_uncached {E : Type} (env : Environment E) (engine : EnginePtr)
    (c : ContextPtr) (parameters : List RuleParameter) {rules : List Rule}
    (h : ∀ r ∈ rules, r.isCaching = false) (w : World E) :
    NoLookupOfUnpublished env engine c parameters rules w ∅ := by
  induction rules generalizing w with
  | nil => trivial
  | cons r rules ih =>
    refine ensures_ghost_of_fixed (fun op ↦ ?_) (fun op ↦ ?_) ?_
    · cases op <;> simp [Op.LooksOutside]
    · cases op <;> simp [Op.unpublished]
    · have hstep := env.run_of_results
        (executeStep_stepped engine c parameters (h r List.mem_cons_self) (w.contexts c).results)
      generalize (executeStep engine c parameters r).run env.handle w = ran at hstep ⊢
      have hempty : unpublishedAfter c r ran.1 ran.2 ∅ = ∅ := by
        rcases hran : ran.1 with - | a
        · rfl
        · refine Set.eq_empty_of_forall_notMem fun key hkey ↦ ?_
          rcases eq_or_ne key r.resultKey with rfl | hne
          · simp [unpublishedAfter, hstep.published a hran] at hkey
          · simp [unpublishedAfter, hne] at hkey
      rw [hempty]
      exact ih (fun q hq ↦ h q (List.mem_cons_of_mem r hq)) ran.2

/-- `B` depends on `A`. -/
def dependentPair : List Rule :=
  [{ ptr := 1, id := 1, name := "A" },
    { ptr := 2, id := 2, name := "B", dependsOnRuleName := some "A" }]

theorem dependentPair_executors_agree :
    (Workflow.executeStreaming 0 0 [] (HashOrder.insertion Rule) dependentPair).map
        (fun p ↦ (p.run Environment.noScripts.handle { env := () }).1) =
      (Workflow.execute 0 0 [] (HashOrder.insertion Rule) dependentPair).map
        (fun p ↦ (p.run Environment.noScripts.handle { env := () }).1) :=
  (sequential_executors_agree Environment.noScripts (HashOrder.insertion Rule) dependentPair 0 0 []
    { env := () } fun executionOrder horder ↦
      noLookupOfUnpublished_of_uncached _ 0 0 [] (fun r hr ↦
        have hall : ∀ q ∈ dependentPair, q.isCaching = false := by decide
        hall r (mem_of_resolveExecutionOrder (by decide) horder hr)) _).2

/-- `B` depends on `A`, which has a cache. -/
def cachedPair : List Rule :=
  [{ ptr := 1, id := 1, name := "A", cacheDuration := some 60000 },
   { ptr := 2, id := 2, name := "B", dependsOnRuleName := some "A" }]

/-- The cache of `A` holds a success that has not expired. -/
def cachedWorld : World Unit where
  caches := fun p ↦ if p = 1 then
      { entries :=
          [(buildCacheKey 1 [], ⟨{ ruleName := "A", ruleId := 1, success := true }, 1, 0⟩)] }
    else {}
  env := ()

/-- `execute` never executes `B`; the other two do. -/
theorem cachedPair_executors_differ :
    (Workflow.validate (HashOrder.insertion Id) (HashOrder.insertion Rule)
      { rules := cachedPair }).1 =
        .ok () ∧
      (Workflow.execute 0 0 [] (HashOrder.insertion Rule) cachedPair).map
        (fun p ↦ (p.run Environment.noScripts.handle cachedWorld).1.map fun a ↦ a.ruleId) =
          .ok [1] ∧
      (Workflow.executeWithTrace 0 0 [] (HashOrder.insertion Rule) cachedPair).map
        (fun p ↦ (p.run Environment.noScripts.handle cachedWorld).1.1.map fun a ↦ a.ruleId) =
          .ok [1, 2] ∧
      (Workflow.executeStreaming 0 0 [] (HashOrder.insertion Rule) cachedPair).map
        (fun p ↦ (p.run Environment.noScripts.handle cachedWorld).1.map fun a ↦ a.ruleId) =
          .ok [1, 2] :=
  ⟨rfl, rfl, rfl, rfl⟩

end FastRules
