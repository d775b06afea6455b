import FastRules.Parallel.Safety
import FastRules.Rule.Presentation

/-!
# The parallel executor comes to the values of the rules

A task sees the keys of its own rule and the keys of the rules of earlier batches
(`ParallelCall.visible`). When a batch is launched all earlier tasks have been collected, and the
tasks of the batch publish under keys that none of them but the publisher sees. So each task finds
what it would find if the tasks had run one after the other, whatever the interleaving
(`Simulates`), and the results of a call in which every dependency holds are the values of its rules
in the order of the tasks (`Returned.outcomes`).
-/

namespace FastRules

open Program

/-- Whatever is published by an execution is published under the key of a node. -/
theorem Rule.exists_node_of_mem_keys (r : Rule) :
    ∀ key ∈ r.keys, ∃ q ∈ r.nodes, q.resultKey = key := by
  induction r using induction_children with
  | h r ih =>
    -- an inactive child is published by its parent, under its own key
    have hbelow : ∀ key ∈ r.keysBelow, ∃ q ∈ nodesOf r.childRules, q.resultKey = key := by
      rw [keysBelow_eq]
      generalize r.childRules = children at ih
      induction children with
      | nil => exact fun key hkey ↦ absurd hkey List.not_mem_nil
      | cons child children ihs =>
        intro key hkey
        rw [keysOfChildren, List.mem_cons, List.mem_append] at hkey
        rw [nodesOf]
        rcases hkey with rfl | hchild | hrest
        · exact ⟨child, List.mem_append_left _ child.self_mem_nodes, rfl⟩
        · obtain ⟨q, hq, hqkey⟩ := ih child List.mem_cons_self key (by
            rw [keys]
            split_ifs at hchild ⊢
            · exact List.mem_cons_of_mem _ hchild
            · exact hchild)
          exact ⟨q, List.mem_append_left _ hq, hqkey⟩
        · obtain ⟨q, hq, hqkey⟩ := ihs (fun q hq ↦ ih q (List.mem_cons_of_mem child hq)) key hrest
          exact ⟨q, List.mem_append_right _ hq, hqkey⟩
    intro key hkey
    rw [keys] at hkey
    split_ifs at hkey
    · rcases List.mem_cons.1 hkey with rfl | hkey
      · exact ⟨r, r.self_mem_nodes, rfl⟩
      · obtain ⟨q, hq, hqkey⟩ := hbelow key hkey
        exact ⟨q, mem_nodes_of_mem_below hq, hqkey⟩
    · exact absurd hkey List.not_mem_nil

namespace ParallelCall

variable (x : ParallelCall) (m : Meaning)

/-- The rules of the tasks, in the order of the tasks. -/
def rules : List Rule :=
  x.tasks.map fun t ↦ t.rule

/-- The key is that of a node of the rule of task `i`. -/
def OwnsKey (i : ℕ) (key : String) : Prop :=
  ∃ t, x.tasks[i]? = some t ∧ ∃ q ∈ t.rule.nodes, q.resultKey = key

/-- The keys task `i` sees: whoever publishes under them is task `i` itself, or a task of an earlier
batch. -/
def visible (i : ℕ) : Set String :=
  {key | ∀ j, x.OwnsKey j key → j = i ∨
    ∃ t u, x.tasks[i]? = some t ∧ x.tasks[j]? = some u ∧ u.batch < t.batch}

/-- The ledger of the values of the tasks before task `i`. -/
def ledgerBefore (i : ℕ) : Ledger :=
  (valuesOf m x.parameters (x.rules.take i) fun _ ↦ none).ledger

/-- What is assumed of the call: its tasks look up visible keys only, and their dependencies
hold. -/
structure Orderly : Prop where
  realizes : AnswersRealize x.answers m x.parameters
  keys : x.DistinctKeys
  cache : ∀ t ∈ x.tasks, ∀ q ∈ t.rule.nodes, q.isCaching = false
  looksUp : ∀ (i : ℕ) (t : ParallelTask), x.tasks[i]? = some t → m.LooksUp t.rule.nodes
    (x.visible i)
  dependency : ∀ (i : ℕ) (t : ParallelTask), x.tasks[i]? = some t →
    ∀ n, t.rule.dependsOnRuleName = some n → n ∈ x.visible i
  holds : ∀ (i : ℕ) (t : ParallelTask), x.tasks[i]? = some t →
    t.rule.dependencyHolds (x.ledgerBefore m i) = true

/-- What task `i` ensures. -/
def Valued (i : ℕ) (a : RuleResult) (s : Results) : Prop :=
  ∀ t, x.tasks[i]? = some t → a.outcome =
    (t.rule.value m x.parameters (x.ledgerBefore m i)).result ∧
    ShowsOn (x.visible i) (x.ledgerBefore m (i + 1)) s

/-- What holds in every configuration of an orderly call. -/
structure Simulates (c : Config) : Prop where
  waiting : ∀ i, ¬x.Launched c.state i → c.thread i = x.task i
  asks : ∀ i, Asks (x.Owns i) (c.thread i)
  unpublished : ∀ key, (∀ i, x.Launched c.state i → ¬x.OwnsKey i key) →
    c.state.context.results key = none
  running : ∀ i, x.Launched c.state i → Ensures (contextInterface x.answers (x.visible i))
    (x.Valued m i) (c.thread i) c.state.context.results

variable {x m} {c : Config} {i j : ℕ} {key : String}

/-! ### The values of the tasks -/

theorem getElem?_rules {t : ParallelTask} (ht : x.tasks[i]? = some t) :
    x.rules[i]? = some t.rule := by
  rw [rules, List.getElem?_map, ht]
  rfl

theorem ledgerBefore_succ {t : ParallelTask} (ht : x.tasks[i]? = some t) :
    x.ledgerBefore m (i + 1) = (t.rule.value m x.parameters (x.ledgerBefore m i)).ledger := by
  rw [ledgerBefore, List.take_add_one, getElem?_rules ht]
  exact congrArg Value.ledger (valuesOf_concat _ _ _)

/-- A task changes the ledger under its own keys only. -/
theorem ledgerBefore_frame (hkey : ¬x.OwnsKey i key) :
    x.ledgerBefore m (i + 1) key = x.ledgerBefore m i key := by
  rcases ht : x.tasks[i]? with - | t
  · have hend : x.rules.length ≤ i := by
      rw [rules, List.length_map]
      exact List.getElem?_eq_none_iff.1 ht
    rw [ledgerBefore, ledgerBefore, List.take_of_length_le hend,
      List.take_of_length_le (hend.trans (Nat.le_succ i))]
  · rw [ledgerBefore_succ ht]
    refine t.rule.value_frame _ key fun hin ↦ hkey ?_
    exact ⟨t, ht, t.rule.exists_node_of_mem_keys key hin⟩

theorem ledgerBefore_frame_le (hij : i ≤ j) (hkey : ∀ k, i ≤ k → k < j → ¬x.OwnsKey k key) :
    x.ledgerBefore m j key = x.ledgerBefore m i key := by
  induction j, hij using Nat.le_induction with
  | base => rfl
  | succ j hij ih =>
    rw [ledgerBefore_frame (hkey j hij (Nat.lt_succ_self j)),
      ih fun k hk hlt ↦ hkey k hk (Nat.lt_succ_of_lt hlt)]

/-- The tasks are rules that are active. -/
theorem isActive_of_task {t : ParallelTask} (ht : x.tasks[i]? = some t) :
    t.rule.isActive = true := by
  have hmem : t.rule ∈ x.tasks.map fun t ↦ t.rule := List.mem_map_of_mem (List.mem_of_getElem? ht)
  rw [x.map_rule_tasks] at hmem
  exact (List.mem_filter.1 hmem).2

/-- The value of a task is entered under the key of its rule. -/
theorem ledgerBefore_self {t : ParallelTask} (ht : x.tasks[i]? = some t) :
    x.ledgerBefore m (i + 1) t.rule.resultKey =
      some (t.rule.value m x.parameters (x.ledgerBefore m i)).result := by
  rw [ledgerBefore_succ ht, Rule.value_active (isActive_of_task ht)]
  exact Function.update_self _ _ _

/-! ### Who owns and sees a key -/

theorem DistinctKeys.owner_unique (h : x.DistinctKeys) (hi : x.OwnsKey i key)
    (hj : x.OwnsKey j key) :
    i = j := by
  obtain ⟨t, ht, p, hp, hpkey⟩ := hi
  obtain ⟨u, hu, q, hq, hqkey⟩ := hj
  exact h.eq_of_key ht hu hp hq (hpkey.trans hqkey.symm)

theorem DistinctKeys.mem_visible (h : x.DistinctKeys) (hi : x.OwnsKey i key) : key ∈ x.visible i :=
  fun _ hj ↦ .inl (h.owner_unique hj hi)

/-- A key that a launched task sees and does not own has been left alone since: its owner, if there
is one, has been collected. -/
theorem Progress.owner_collected (h : x.Progress c) (hlaunched : x.Launched c.state i)
    (hkey : key ∈ x.visible i) (hj : x.OwnsKey j key) (hne : j ≠ i) : j < c.state.collected := by
  obtain hji | ⟨t, u, ht, hu, hlt⟩ := hkey j hj
  · exact absurd hji hne
  · obtain ⟨t', ht', hbatch⟩ := hlaunched
    obtain rfl : t = t' := Option.some.inj (ht.symm.trans ht')
    exact h.launched j u hu (by omega)

/-! ### Single tasks -/

section Task

variable (hx : x.Orderly m)
include hx

/-- A task that is started with the ledger of the tasks before it comes to its value. -/
theorem Orderly.task_valued {s : Results} (hs : ShowsOn (x.visible i) (x.ledgerBefore m i) s) :
    Ensures (contextInterface x.answers (x.visible i)) (x.Valued m i) (x.task i) s := by
  rw [task]
  split
  · rename_i t ht
    have hpresents :=
      presents_context hx.realizes 0 (hx.cache t (List.mem_of_getElem? ht)) (x.visible i)
    refine ⟨trivial, fun engine s₁ hstep ↦ ?_⟩
    obtain ⟨e, rfl⟩ := Option.isSome_iff_exists.1 hstep.1
    show Ensures _ _ (dependencySatisfied 0 t.rule >>= _) s₁
    refine (ensures_bind _ _ _).2 ((dependencySatisfied_presents hpresents
      (hx.dependency i t ht) (hs.of_sameOn hstep.2)).mono ?_)
    rintro satisfied s₂ ⟨rfl, hs₂⟩
    rw [if_pos (hx.holds i t ht)]
    refine (ensures_bind _ _ _).2 ((execute_presents hpresents (hx.looksUp i t ht) t.rule _ s₂
      (fun _ ↦ id) (fun _ _ ↦ Set.mem_univ _) hs₂).mono ?_)
    rintro a s₃ ⟨hout, hs₃⟩
    refine ⟨trivial, fun _ s₄ hsame u hu ↦ ?_⟩
    obtain rfl : t = u := Option.some.inj (ht.symm.trans hu)
    refine ⟨hout, ?_⟩
    rw [ledgerBefore_succ ht]
    exact hs₃.of_sameOn hsame
  · rename_i hnone
    intro t ht
    rw [hnone] at ht
    cases ht

end Task

/-- Others may change what the task does not see. -/
theorem ensures_valued_of_sameOn {p : RuleProgram RuleResult} {s s' : Results}
    (h : Ensures (contextInterface x.answers (x.visible i)) (x.Valued m i) p s)
    (hsame : SameOn (x.visible i) s s') :
    Ensures (contextInterface x.answers (x.visible i)) (x.Valued m i) p s' :=
  ensures_of_sameOn (fun _ _ _ hsame h t ht ↦ ⟨(h t ht).1, (h t ht).2.of_sameOn hsame⟩) h hsame

/-! ### Steps -/

theorem simulates_start : x.Simulates m x.start where
  waiting _ _ := rfl
  asks := x.task_owns
  unpublished _ _ := rfl
  running _ h := by
    obtain ⟨t, -, hlt⟩ := h
    exact absurd hlt (Nat.not_lt_zero _)

/-- Only a task that has been launched makes requests. -/
theorem Simulates.launched (h : x.Simulates m c) {op : Op} {next : op.Ans → RuleProgram RuleResult}
    (hthread : c.thread i = .ask op next) {a : op.Ans} {s' : ParallelState}
    (hstep : x.step i op c.state a s') : x.Launched c.state i := by
  by_contra hnot
  have htask := (h.waiting i hnot).symm.trans hthread
  rw [task] at htask
  split at htask
  · -- the first request of a task takes an engine, for which it has to be launched
    cases htask
    obtain ⟨s₁, heffect, -⟩ := hstep
    exact hnot heffect.1
  · cases htask

/-- What a request does to the context, as its task sees it. -/
theorem contextInterface_step_of_effect {op : Op} {s s' : ParallelState} {a : op.Ans}
    (h : x.effect i op s a s') (visible : Set String) :
    (contextInterface x.answers visible).step op s.context.results a s'.context.results := by
  have hsame (s : Results) : SameOn visible s s := fun _ _ ↦ rfl
  cases op
  case acquireEngine =>
    obtain ⟨-, e, pool, -, rfl, rfl⟩ := h
    exact ⟨rfl, hsame _⟩
  case releaseEngine =>
    obtain rfl : s' = _ := h
    exact hsame _
  case getResult c key =>
    obtain ⟨rfl, rfl⟩ := h
    exact ⟨fun _ ↦ rfl, hsame _⟩
  case setResult c key b =>
    obtain rfl : s' = _ := h
    exact hsame _
  case setLastError c key message =>
    obtain rfl : s' = _ := h
    exact hsame _
  all_goals
    obtain ⟨hanswer, rfl⟩ := h
    exact ⟨hanswer, hsame _⟩

/-- A request changes nothing under the keys of other tasks. -/
theorem effect_frame_results {op : Op} {s s' : ParallelState} {a : op.Ans}
    (h : x.effect i op s a s') (hop : x.Owns i op) (hkey : ¬x.OwnsKey i key) :
    s'.context.results key = s.context.results key := by
  cases op
  case acquireEngine =>
    obtain ⟨-, e, pool, -, -, rfl⟩ := h
    rfl
  case setResult c key' b =>
    obtain rfl : s' = _ := h
    obtain ⟨t, ht, q, hq, rfl⟩ := hop
    refine Function.update_of_ne ?_ _ _
    rintro rfl
    exact hkey ⟨t, ht, q, hq, rfl⟩
  case releaseEngine =>
    obtain rfl : s' = _ := h
    rfl
  case setLastError =>
    obtain rfl : s' = _ := h
    rfl
  all_goals
    obtain ⟨-, rfl⟩ := h
    rfl

/-- A request of a task. -/
theorem Simulates.request (h : x.Simulates m c) (hprogress : x.Progress c) {op : Op}
    {next : op.Ans → RuleProgram RuleResult} (hthread : c.thread i = .ask op next) {a : op.Ans}
    {s' : ParallelState} (hstep : x.step i op c.state a s') :
    x.Simulates m ⟨Function.update c.thread i (next a), s'⟩ := by
  have hi : x.Launched c.state i := h.launched hthread hstep
  have hasks := h.asks i
  rw [hthread] at hasks
  obtain ⟨s₁, heffect, rfl⟩ := hstep
  have hbatch : s₁.batch = c.state.batch := (effect_frame heffect).1
  have hlaunched : ∀ j, x.Launched (s₁.enter (.request i op a)) j ↔ x.Launched c.state j := by
    intro j
    show (∃ t : ParallelTask, _ ∧ t.batch < s₁.batch) ↔ _
    rw [hbatch]
    rfl
  refine ⟨fun j hj ↦ ?_, fun j ↦ ?_, fun key hkey ↦ ?_, fun j hj ↦ ?_⟩
  · have hne : j ≠ i := fun he ↦ hj ((hlaunched j).2 (he ▸ hi))
    exact (Function.update_of_ne hne _ _).trans (h.waiting j fun hin ↦ hj ((hlaunched j).2 hin))
  · show Asks _ (Function.update c.thread i (next a) j)
    rcases eq_or_ne j i with rfl | hne
    · rw [Function.update_self]
      exact hasks.2 a
    · rw [Function.update_of_ne hne]
      exact h.asks j
  · show s₁.context.results key = none
    rw [effect_frame_results heffect hasks.1 (hkey i ((hlaunched i).2 hi))]
    exact h.unpublished key fun j hj ↦ hkey j ((hlaunched j).2 hj)
  · have hj' := (hlaunched j).1 hj
    show Ensures _ _ (Function.update c.thread i (next a) j) s₁.context.results
    rcases eq_or_ne j i with rfl | hne
    · rw [Function.update_self]
      have hrunning := h.running j hj'
      rw [hthread] at hrunning
      exact hrunning.2 a _ (contextInterface_step_of_effect heffect _)
    · rw [Function.update_of_ne hne]
      refine ensures_valued_of_sameOn (h.running j hj') fun key hkey ↦ ?_
      refine effect_frame_results heffect hasks.1 fun howns ↦ ?_
      -- an earlier task whose key is visible has returned
      obtain ⟨result, hret, -⟩ := hprogress.returned i
        (hprogress.owner_collected hj' hkey howns hne.symm)
      rw [hthread] at hret
      cases hret

/-- All earlier tasks have been collected when a batch is launched. -/
theorem Simulates.showsOn_of_launch (h : x.Simulates m c) (hprogress : x.Progress c)
    (hkeys : x.DistinctKeys) (hdone : ∀ j, x.Launched c.state j → j < c.state.collected)
    {t : ParallelTask} (ht : x.tasks[i]? = some t) (hbatch : t.batch = c.state.batch) :
    ShowsOn (x.visible i) (x.ledgerBefore m i) c.state.context.results := by
  intro key hkey
  by_cases howner : ∃ j, x.Launched c.state j ∧ x.OwnsKey j key
  · obtain ⟨j, hj, howns⟩ := howner
    obtain ⟨result, hret, -⟩ := hprogress.returned j (hdone j hj)
    obtain ⟨u, hu, hlt⟩ := id hj
    have hji : j < i := lt_of_batch_lt hu ht (hlt.trans_eq hbatch.symm)
    have hvalued := h.running j hj
    rw [hret] at hvalued
    rw [(hvalued u hu).2 key (hkeys.mem_visible howns)]
    -- nobody else owns the key
    refine (ledgerBefore_frame_le hji fun k hk _ hin ↦ ?_).symm
    exact absurd (hkeys.owner_unique howns hin) (Nat.ne_of_lt hk)
  · have hnone : ∀ j, x.Launched c.state j → ¬x.OwnsKey j key := fun j hj hin ↦ howner ⟨j, hj, hin⟩
    rw [h.unpublished key hnone]
    have hempty : x.ledgerBefore m i key = x.ledgerBefore m 0 key := by
      refine ledgerBefore_frame_le (Nat.zero_le i) fun k _ hk hin ↦ ?_
      obtain hki | ⟨t', u, ht', hu, hlt⟩ := hkey k hin
      · exact absurd hki (Nat.ne_of_lt hk)
      · obtain rfl : t = t' := Option.some.inj (ht.symm.trans ht')
        exact hnone k ⟨u, hu, hlt.trans_eq hbatch⟩ hin
    rw [hempty]
    rfl

/-- The calling thread launches a batch. -/
theorem Simulates.launch (h : x.Simulates m c) (hx : x.Orderly m) (hprogress : x.Progress c)
    (hdone : ∀ j, x.Launched c.state j → j < c.state.collected) :
    x.Simulates m ⟨c.thread, { c.state with batch := c.state.batch + 1 }⟩ := by
  have hmono :
      ∀ j, x.Launched c.state j → x.Launched { c.state with batch := c.state.batch + 1 } j :=
    fun j hj ↦ by
      obtain ⟨t, ht, hlt⟩ := hj
      exact ⟨t, ht, Nat.lt_succ_of_lt hlt⟩
  refine ⟨fun j hj ↦ h.waiting j fun hin ↦ hj (hmono j hin), h.asks,
    fun key hkey ↦ h.unpublished key fun j hj ↦ hkey j (hmono j hj), fun j hj ↦ ?_⟩
  by_cases hbefore : x.Launched c.state j
  · exact h.running j hbefore
  · -- the task is of the batch that is launched
    obtain ⟨t, ht, hlt⟩ := hj
    have hbatch : t.batch = c.state.batch := by
      have hge : ¬t.batch < c.state.batch := fun hin ↦ hbefore ⟨t, ht, hin⟩
      have hle : t.batch < c.state.batch + 1 := hlt
      omega
    show Ensures _ _ (c.thread j) c.state.context.results
    rw [h.waiting j hbefore]
    exact hx.task_valued (h.showsOn_of_launch hprogress hx.keys hdone ht hbatch)

/-- The calling thread collects the result of a task. -/
theorem Simulates.collect (h : x.Simulates m c) (hprogress : x.Progress c)
    {t : ParallelTask} {result : RuleResult} (ht : x.tasks[c.state.collected]? = some t)
    (hbatch : t.batch < c.state.batch) (hready : c.thread c.state.collected = .ret result) :
    x.Simulates m ⟨c.thread, c.state.collect t.rule result⟩ := by
  have howns : x.OwnsKey c.state.collected t.rule.resultKey :=
    ⟨t, ht, t.rule, t.rule.self_mem_nodes, rfl⟩
  have hvalued := h.running _ ⟨t, ht, hbatch⟩
  rw [hready] at hvalued
  refine ⟨h.waiting, h.asks, fun key hkey ↦ ?_, fun j hj ↦ ?_⟩
  · have hne : key ≠ t.rule.resultKey := by
      rintro rfl
      exact hkey c.state.collected ⟨t, ht, hbatch⟩ howns
    exact (Function.update_of_ne hne _ _).trans (h.unpublished key hkey)
  · show Ensures _ _ (c.thread j)
      (Function.update c.state.context.results t.rule.resultKey (some result))
    rcases eq_or_ne j c.state.collected with rfl | hne
    · -- the task has published a result with this outcome itself
      rw [hready]
      intro u hu
      obtain rfl : t = u := Option.some.inj (ht.symm.trans hu)
      obtain ⟨hout, hshows⟩ := hvalued t ht
      refine ⟨hout, fun key hkey ↦ ?_⟩
      rcases eq_or_ne key t.rule.resultKey with rfl | hother
      · rw [Function.update_self, ledgerBefore_self ht, ← hout]
        rfl
      · rw [Function.update_of_ne hother]
        exact hshows key hkey
    · refine ensures_valued_of_sameOn (h.running j hj) fun key hkey ↦ Function.update_of_ne ?_ _ _
      rintro rfl
      exact absurd (hprogress.owner_collected hj hkey howns hne.symm) (lt_irrefl _)

/-- **The simulation.** It holds wherever an orderly call can come to. -/
theorem Orderly.simulates (hx : x.Orderly m) (h : x.Reaches c) : x.Simulates m c := by
  have hboth : x.Progress c ∧ x.Simulates m c := by
    refine h.invariant (P := fun c ↦ x.Progress c ∧ x.Simulates m c)
      ⟨progress_start, simulates_start⟩ fun c c' hc hstep ↦ ⟨hc.1.step hstep, ?_⟩
    rcases hstep with ⟨hthread, hstep⟩ | hsup
    · exact hc.2.request hc.1 hthread hstep
    · rcases hsup with ⟨-, hdone⟩ | ⟨ht, hbatch, hready⟩
      · exact hc.2.launch hx hc.1 hdone
      · exact hc.2.collect hc.1 ht hbatch hready
  exact hboth.2

/-! ### The returned results -/

/-- **The results are the values of the rules**, in the order of the tasks. -/
theorem Orderly.outcomes (hx : x.Orderly m) (h : x.Returned c) :
    c.state.results.map RuleResult.outcome =
      (valuesOf m x.parameters x.rules fun _ ↦ none).result := by
  have hprogress := h.reaches.progress
  have hsim := hx.simulates h.reaches
  have hlength : c.state.results.length = x.tasks.length :=
    hprogress.length_results.trans h.collected
  refine List.ext_getElem? fun i ↦ ?_
  rcases lt_or_ge i x.tasks.length with hi | hi
  · obtain ⟨a, hret, hfound⟩ := hprogress.returned i (h.collected.symm ▸ hi)
    have ht : x.tasks[i]? = some x.tasks[i] := List.getElem?_eq_getElem hi
    have hvalued := hsim.running i ⟨_, ht, h.batches.symm ▸ batch_lt_length ht⟩
    rw [hret] at hvalued
    rw [List.getElem?_map, hfound, getElem?_valuesOf (getElem?_rules ht)]
    exact congrArg some (hvalued _ ht).1
  · have hrules : x.rules.length = x.tasks.length := List.length_map _
    rw [List.getElem?_eq_none (by rw [List.length_map]; omega),
      List.getElem?_eq_none (by rw [length_valuesOf]; omega)]

end ParallelCall

end FastRules
