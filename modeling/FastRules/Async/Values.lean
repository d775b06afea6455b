import FastRules.Async.Completion
import FastRules.Rule.Presentation

/-!
# What the asynchronous executor comes to

The tasks of a level work on copies of the shared context, which nobody else touches. So each comes
to the value of its rule, given what has been merged of the earlier levels (`AsyncCall.view`): one
outcome for each rule of these levels, under the name of the rule. The calling thread merges in the
order of the tasks, so that the interleaving does not matter (`Returned.outcomes`).
-/

namespace FastRules

open Program

/-- Enter outcomes under the names of their rules. -/
def mergeOutcomes : List Outcome → Ledger → Ledger
  | [], ledger => ledger
  | o :: os, ledger => mergeOutcomes os (Function.update ledger o.ruleName (some o))

theorem mergeOutcomes_append (os os' : List Outcome) (ledger : Ledger) :
    mergeOutcomes (os ++ os') ledger = mergeOutcomes os' (mergeOutcomes os ledger) := by
  induction os generalizing ledger with
  | nil => rfl
  | cons o os ih => exact ih _

/-! ### Lists in the order of a key -/

section Sorted

variable {α : Type}

theorem take_eq_filter {p : α → Bool} {l : List α} {n : ℕ}
    (h : ∀ i a, l[i]? = some a → (i < n ↔ p a = true)) : l.take n = l.filter p := by
  induction l generalizing n with
  | nil => simp
  | cons a l ih =>
    rcases n with - | n
    · refine (List.filter_eq_nil_iff.2 fun b hb hp ↦ ?_).symm
      obtain ⟨i, hi⟩ := List.mem_iff_getElem?.1 hb
      exact absurd ((h i b hi).2 hp) (Nat.not_lt_zero i)
    · rw [List.take_succ_cons, List.filter_cons_of_pos ((h 0 a rfl).1 (Nat.succ_pos n)),
        ih fun i b hb ↦ Nat.succ_lt_succ_iff.symm.trans (h (i + 1) b hb)]

theorem filter_lt_succ (f : α → ℕ) (k : ℕ) {l : List α} (h : l.Pairwise fun a b ↦ f a ≤ f b) :
    (l.filter fun a ↦ f a < k + 1) = (l.filter fun a ↦ f a < k) ++ l.filter fun a ↦ f a = k := by
  induction l with
  | nil => rfl
  | cons a l ih =>
    obtain ⟨ha, hl⟩ := List.pairwise_cons.1 h
    rcases lt_or_ge (f a) k with hlt | hge
    · have hnext : f a < k + 1 := Nat.lt_succ_of_lt hlt
      simp only [List.filter_cons, hlt, hnext, hlt.ne, ih hl, decide_true, decide_false, ↓reduceIte,
        Bool.false_eq_true, List.cons_append]
    · -- whatever comes later is no smaller
      have hnone : (l.filter fun b ↦ f b < k) = [] :=
        List.filter_eq_nil_iff.2 fun b hb ↦ by simpa using hge.trans (ha b hb)
      rw [hnone, List.nil_append] at ih
      have hiff : f a < k + 1 ↔ f a = k := by omega
      simp only [List.filter_cons, hge.not_gt, hnone, hiff, ih hl, decide_false, ↓reduceIte,
        Bool.false_eq_true, List.nil_append]

end Sorted

/-- The request is about no other context. -/
def Op.UsesContext (c : ContextPtr) : Op → Prop
  | getResult c' _ => c' = c
  | setResult c' _ _ => c' = c
  | setLastError c' _ _ => c' = c
  | _ => True

theorem Op.OnBehalf.usesContext {engine : EnginePtr} {c : ContextPtr} {rules : List Rule} {op : Op}
    (h : op.OnBehalf engine c rules) : op.UsesContext c := by
  cases op
  case getResult | setResult | setLastError => exact h
  all_goals trivial

namespace AsyncCall

variable (x : AsyncCall) (m : Meaning)

/-- What the tasks of a level see: the outcomes of the levels before, each under the name of its
rule. -/
def view : ℕ → Ledger
  | 0 => fun _ ↦ none
  | k + 1 => mergeOutcomes ((x.tasks.filter fun t ↦ t.level = k).map fun t ↦
      (t.rule.value m x.parameters (view k)).result) (view k)

/-- The outcome of a task. -/
def taskOutcome (t : AsyncTask) : Outcome :=
  (t.rule.value m x.parameters (x.view m t.level)).result

/-- What has been merged when the first `n` results have been collected. -/
def merged (n : ℕ) : Ledger :=
  mergeOutcomes ((x.tasks.take n).map (x.taskOutcome m)) fun _ ↦ none

/-- What is assumed of the call: nothing is limited or late, there are no caches, and all rules of
the levels are active. -/
structure Orderly : Prop where
  realizes : AnswersRealize x.answers m x.parameters
  cache : ∀ t ∈ x.tasks, ∀ q ∈ t.rule.nodes, q.isCaching = false
  active : ∀ level ∈ x.levels, ∀ r ∈ level, r.isActive = true

/-- What task `i` ensures. -/
def Valued (i : ℕ) (a : RuleResult) (_ : Results) : Prop :=
  ∀ t, x.tasks[i]? = some t → a.outcome = x.taskOutcome m t

/-- What holds in every configuration of an orderly call. -/
structure Simulates (c : Config) : Prop where
  waiting : ∀ i, ¬x.Entered c.state i → c.thread i = x.task i
  asks : ∀ i, Asks (Op.UsesContext i) (c.thread i)
  running : ∀ i, x.Entered c.state i → Ensures (contextInterface x.answers Set.univ)
    (x.Valued m i) (c.thread i) (c.state.localContexts i).results
  shared : ShowsOn Set.univ (x.merged m c.state.collected) c.state.sharedContext.results
  results : c.state.allResults.map RuleResult.outcome =
    (x.tasks.take c.state.collected).map (x.taskOutcome m)

variable {x m} {c : Config} {i : ℕ}

/-! ### What has been merged -/

theorem view_eq (k : ℕ) : x.view m k =
    mergeOutcomes ((x.tasks.filter fun t ↦ t.level < k).map (x.taskOutcome m)) fun _ ↦ none := by
  induction k with
  | zero =>
    have hnone : (x.tasks.filter fun t ↦ t.level < 0) = [] :=
      List.filter_eq_nil_iff.2 fun t _ ↦ by simp
    rw [hnone]
    rfl
  | succ k ih =>
    have hlevel : ((x.tasks.filter fun t ↦ t.level = k).map fun t ↦
        (t.rule.value m x.parameters (x.view m k)).result) =
          (x.tasks.filter fun t ↦ t.level = k).map (x.taskOutcome m) := by
      refine List.map_congr_left fun t ht ↦ ?_
      obtain rfl : t.level = k := by simpa using (List.mem_filter.1 ht).2
      rfl
    have hsplit : (x.tasks.filter fun t ↦ t.level < k + 1) =
        (x.tasks.filter fun t ↦ t.level < k) ++ x.tasks.filter fun t ↦ t.level = k :=
      filter_lt_succ AsyncTask.level k (asyncTasks_sorted x.levels)
    rw [view, hlevel, ih, hsplit, List.map_append, mergeOutcomes_append]

/-- When a level is entered its tasks see what has been merged. -/
theorem merged_eq_view {k n : ℕ} (h : ∀ i t, x.tasks[i]? = some t → (i < n ↔ t.level < k)) :
    x.merged m n = x.view m k := by
  rw [merged, view_eq, take_eq_filter fun i t ht ↦ (h i t ht).trans decide_eq_true_iff.symm]

theorem merged_succ {n : ℕ} {t : AsyncTask} (ht : x.tasks[n]? = some t) : x.merged m (n + 1) =
    Function.update (x.merged m n) (x.taskOutcome m t).ruleName (some (x.taskOutcome m t)) := by
  rw [merged, List.take_add_one, ht, List.map_append, mergeOutcomes_append]
  rfl

/-! ### Single tasks -/

theorem task_uses (x : AsyncCall) (i : ℕ) : Asks (Op.UsesContext i) (x.task i) := by
  rw [task]
  split
  · rename_i t ht
    refine ⟨trivial, fun engine ↦ ?_⟩
    rcases engine with - | engine
    · trivial
    · have hexecute : Asks (Op.UsesContext i) (t.rule.execute engine i x.parameters) :=
        (execute_asks engine i x.parameters t.rule).mono fun _ hop ↦ hop.usesContext
      exact hexecute.bind fun a ↦ ⟨trivial, fun _ ↦ trivial⟩
  · trivial

/-- A task that is started with what its level sees comes to its outcome. -/
theorem Orderly.task_valued (hx : x.Orderly m) {t : AsyncTask} (ht : x.tasks[i]? = some t)
    {s : Results} (hs : ShowsOn Set.univ (x.view m t.level) s) :
    Ensures (contextInterface x.answers Set.univ) (x.Valued m i) (x.task i) s := by
  have hpresents := presents_context hx.realizes i (hx.cache t (List.mem_of_getElem? ht)) Set.univ
  have htask : x.task i = asyncTask i x.parameters t.rule := by rw [task, ht]
  rw [htask]
  refine ⟨trivial, fun engine s₁ hstep ↦ ?_⟩
  obtain ⟨e, rfl⟩ := Option.isSome_iff_exists.1 hstep.1
  show Ensures _ _ (t.rule.execute e i x.parameters >>= _) s₁
  refine (ensures_bind _ _ _).2 ((execute_presents hpresents (m.looksUp_univ _) t.rule _ s₁
    (fun _ ↦ id) (fun _ _ ↦ Set.mem_univ _) (hs.of_sameOn hstep.2)).mono ?_)
  rintro a s₂ ⟨hout, -⟩
  refine ⟨trivial, fun _ s₃ _ u hu ↦ ?_⟩
  obtain rfl : t = u := Option.some.inj (ht.symm.trans hu)
  exact hout

/-! ### Steps -/

/-- What a request does to the context of its task. -/
theorem contextInterface_step_of_step {op : Op} {s s' : AsyncState} {a : op.Ans}
    (h : x.step i op s a s') (hop : op.UsesContext i) :
    (contextInterface x.answers Set.univ).step op (s.localContexts i).results a
      (s'.localContexts i).results := by
  have hsame (s : Results) : SameOn Set.univ s s := fun _ _ ↦ rfl
  cases op
  case acquireEngine =>
    obtain ⟨-, hworker, rfl, rfl⟩ := h
    obtain ⟨engine, pool, hpool⟩ := WorkerFree.exists_engine hworker
    exact ⟨by rw [hpool]; rfl, hsame _⟩
  case releaseEngine =>
    obtain rfl : s' = _ := h
    exact hsame _
  case getResult c key =>
    obtain rfl : c = i := hop
    obtain ⟨rfl, rfl⟩ := h
    exact ⟨fun _ ↦ rfl, hsame _⟩
  case setResult c key b =>
    obtain rfl : c = i := hop
    obtain rfl : s' = _ := h
    rw [AsyncState.updateLocal]
    dsimp only
    rw [Function.update_self]
    exact hsame _
  case setLastError c key message =>
    obtain rfl : c = i := hop
    obtain rfl : s' = _ := h
    rw [AsyncState.updateLocal]
    dsimp only
    rw [Function.update_self]
    exact hsame _
  all_goals
    obtain ⟨hanswer, rfl⟩ := h
    exact ⟨hanswer, hsame _⟩

/-- A request leaves the contexts of other tasks alone. -/
theorem localContexts_frame {op : Op} {s s' : AsyncState} {a : op.Ans} (h : x.step i op s a s')
    (hop : op.UsesContext i) {j : ℕ} (hne : j ≠ i) : s'.localContexts j = s.localContexts j := by
  cases op
  case acquireEngine =>
    obtain ⟨-, -, -, rfl⟩ := h
    rfl
  case releaseEngine =>
    obtain rfl : s' = _ := h
    rfl
  case setResult c key b | setLastError c key message =>
    obtain rfl : c = i := hop
    obtain rfl : s' = _ := h
    exact Function.update_of_ne hne _ _
  all_goals
    obtain ⟨-, rfl⟩ := h
    rfl

theorem simulates_start : x.Simulates m x.start where
  waiting _ _ := rfl
  asks := x.task_uses
  running _ h := by
    obtain ⟨t, -, hlt⟩ := h
    exact absurd hlt (Nat.not_lt_zero _)
  shared _ _ := rfl
  results := rfl

/-- Only a task whose level has been entered makes requests. -/
theorem Simulates.entered (h : x.Simulates m c) {op : Op} {next : op.Ans → RuleProgram RuleResult}
    (hthread : c.thread i = .ask op next) {a : op.Ans} {s' : AsyncState}
    (hstep : x.step i op c.state a s') : x.Entered c.state i := by
  by_contra hnot
  have htask := (h.waiting i hnot).symm.trans hthread
  rw [task] at htask
  split at htask
  · rename_i t ht
    -- the first request of a task takes an engine, for which its level has to be entered
    cases htask
    exact hnot ⟨t, ht, by simpa [ht] using hstep.1⟩
  · cases htask

/-- A request of a task. -/
theorem Simulates.request (h : x.Simulates m c) {op : Op}
    {next : op.Ans → RuleProgram RuleResult} (hthread : c.thread i = .ask op next) {a : op.Ans}
    {s' : AsyncState} (hstep : x.step i op c.state a s') :
    x.Simulates m ⟨Function.update c.thread i (next a), s'⟩ := by
  have hi : x.Entered c.state i := h.entered hthread hstep
  have hasks := h.asks i
  rw [hthread] at hasks
  obtain ⟨hlevel, hcollected, hshared, hresults⟩ := step_frame hstep
  have hentered : ∀ j, x.Entered s' j ↔ x.Entered c.state j := by
    intro j
    rw [Entered, Entered, hlevel]
  refine ⟨fun j hj ↦ ?_, fun j ↦ ?_, fun j hj ↦ ?_, ?_, ?_⟩
  · have hne : j ≠ i := fun he ↦ hj ((hentered j).2 (he ▸ hi))
    exact (Function.update_of_ne hne _ _).trans (h.waiting j fun hin ↦ hj ((hentered j).2 hin))
  · show Asks _ (Function.update c.thread i (next a) j)
    rcases eq_or_ne j i with rfl | hne
    · rw [Function.update_self]
      exact hasks.2 a
    · rw [Function.update_of_ne hne]
      exact h.asks j
  · have hj' := (hentered j).1 hj
    show Ensures _ _ (Function.update c.thread i (next a) j) (s'.localContexts j).results
    rcases eq_or_ne j i with rfl | hne
    · rw [Function.update_self]
      have hrunning := h.running j hj'
      rw [hthread] at hrunning
      exact hrunning.2 a _ (contextInterface_step_of_step hstep hasks.1)
    · rw [Function.update_of_ne hne, localContexts_frame hstep hasks.1 hne]
      exact h.running j hj'
  · show ShowsOn _ (x.merged m s'.collected) s'.sharedContext.results
    rw [hcollected, hshared]
    exact h.shared
  · show s'.allResults.map _ = (x.tasks.take s'.collected).map _
    rw [hcollected, hresults]
    exact h.results

/-- The calling thread enters a level. -/
theorem Simulates.startLevel (h : x.Simulates m c) (hx : x.Orderly m) (halive : x.Alive c)
    {level : List Rule} (hlevel : x.levels[c.state.level]? = some level)
    (hdone : ∀ i t, x.tasks[i]? = some t → t.level < c.state.level → i < c.state.collected) :
    x.Simulates m ⟨c.thread, x.startLevel c.state level⟩ := by
  have hmono : ∀ j, x.Entered c.state j → x.Entered (x.startLevel c.state level) j :=
    fun j ⟨t, ht, hlt⟩ ↦ ⟨t, ht, Nat.lt_succ_of_lt hlt⟩
  refine ⟨fun j hj ↦ h.waiting j fun hin ↦ hj (hmono j hin), h.asks, fun j hj ↦ ?_, h.shared, ?_⟩
  · obtain ⟨t, ht, hlt⟩ := hj
    show Ensures _ _ (c.thread j) (ite _ _ _ : RuleContext).results
    rcases (Nat.lt_succ_iff.1 hlt).lt_or_eq with hbefore | heq
    · rw [if_neg (by simpa [ht] using hbefore.ne)]
      exact h.running j ⟨t, ht, hbefore⟩
    · -- the task is of the level that is entered, and gets a copy of the shared context
      have hwaiting : ¬x.Entered c.state j := fun ⟨u, hu, hult⟩ ↦ by
        obtain rfl : t = u := Option.some.inj (ht.symm.trans hu)
        exact absurd hult (not_lt.2 heq.ge)
      have hview : x.merged m c.state.collected = x.view m t.level := by
        refine merged_eq_view fun i u hu ↦
          ⟨fun hi ↦ ?_, fun hult ↦ hdone i u hu (hult.trans_eq heq)⟩
        obtain ⟨v, hv, hvlt⟩ := halive.entered i hi
        obtain rfl : u = v := Option.some.inj (hu.symm.trans hv)
        exact hvlt.trans_eq heq.symm
      rw [if_pos (by simpa [ht] using heq), h.waiting j hwaiting]
      exact hx.task_valued ht (hview ▸ h.shared)
  · have hskipped : (level.filter fun r ↦ !r.isActive) = [] := by
      refine List.filter_eq_nil_iff.2 fun r hr ↦ ?_
      simp [hx.active level (List.mem_of_getElem? hlevel) r hr]
    show (c.state.allResults ++ (level.filter fun r ↦ !r.isActive).map skipResult).map _ = _
    rw [hskipped, List.map_nil, List.append_nil]
    exact h.results

/-- The calling thread collects the result of a task. -/
theorem Simulates.collect (h : x.Simulates m c) {t : AsyncTask} {latest : RuleResult}
    (ht : x.tasks[c.state.collected]? = some t) (hlevel : t.level < c.state.level)
    (hready : c.thread c.state.collected = .ret latest) :
    x.Simulates m ⟨c.thread, c.state.collect latest⟩ := by
  have hvalued := h.running _ ⟨t, ht, hlevel⟩
  rw [hready] at hvalued
  have hout : latest.outcome = x.taskOutcome m t := hvalued t ht
  refine ⟨h.waiting, h.asks, h.running, ?_, ?_⟩
  · show ShowsOn _ (x.merged m (c.state.collected + 1))
      (Function.update c.state.sharedContext.results latest.ruleName (some latest))
    rw [merged_succ ht, ← hout]
    exact h.shared.update latest.ruleName latest
  · show (c.state.allResults ++ [latest]).map _ = (x.tasks.take (c.state.collected + 1)).map _
    rw [List.take_add_one, ht, List.map_append, List.map_append, h.results]
    exact congrArg (fun o ↦ _ ++ [o]) hout

/-- **The simulation.** It holds wherever an orderly call can come to. -/
theorem Orderly.simulates (hx : x.Orderly m) (h : x.Reaches c) : x.Simulates m c := by
  induction h with
  | refl => exact simulates_start
  | tail hreach hstep ih =>
    rcases hstep with ⟨hthread, hstep⟩ | hsup
    · exact ih.request hthread hstep
    · rcases hsup with ⟨hlevel, hdone⟩ | ⟨ht, hlevel, hready⟩
      · exact ih.startLevel hx (Reaches.alive hreach) hlevel hdone
      · exact ih.collect ht hlevel hready

/-- **The results are the outcomes of the tasks**, in their order. -/
theorem Orderly.outcomes (hx : x.Orderly m) (h : x.Returned c) :
    c.state.allResults.map RuleResult.outcome = x.tasks.map (x.taskOutcome m) := by
  rw [(hx.simulates h.reaches).results, h.collected, List.take_length]

end AsyncCall

end FastRules
