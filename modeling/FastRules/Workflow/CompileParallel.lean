import FastRules.Workflow.CompileOutcome

/-!
# Parallel compilation refines sequential compilation

Whatever the schedule, `compileParallel` ends, and with the same outcome as `compile`
(`Workflow.compileParallel_correct`). What is compiled then is told by `CompileSetting.Compiled`.
The caller's engine may have records from before: the children of a rule with a current record are
not looked at, and nothing at all is done for a workflow that has been compiled, into whichever
engine (`CompiledBefore.not_all_current`).
-/

namespace FastRules

open Program Interleaving

namespace CompileSetting

/-! ### What is compiled -/

section Compiled

variable {ι : Type} (t : CompileSetting ι) {s : CompileState ι}

/-- The rules that are looked at when all rules are compiled into the caller's engine. -/
inductive Reached : Rule → Prop
  | listed {r : Rule} (h : r ∈ t.rules) : Reached r
  | child {r child : Rule} (h : Reached r)
      (hnot : ¬t.start.Current t.call.lib t.call.engine r.toRuleFields)
      (hchild : child ∈ r.childRules) : Reached child

/-- What a call leaves that has returned. -/
structure Compiled (s : CompileState ι) : Prop where
  compiled : s.compiled = true
  /-- The pool holds each stored engine once, and nothing else. -/
  pool : ∀ engine, s.enginePool.count engine = if engine ∈ s.enginePoolStorage then 1 else 0
  storage : s.enginePoolStorage.length = max t.call.hardwareConcurrency 2
  pool_current : ∀ engine ∈ s.enginePoolStorage, ∀ q ∈ nodesOf t.rules,
    s.Current t.call.lib engine q.toRuleFields
  caller_current : ∀ q, t.Reached q → s.Current t.call.lib t.call.engine q.toRuleFields

variable {t}

theorem Reached.mem {q : Rule} (h : t.Reached q) : q ∈ nodesOf t.rules := by
  induction h with
  | listed h => exact Rule.mem_nodesOf_of_mem h
  | child _ _ hchild ih =>
    exact Rule.mem_nodesOf_trans ih (Rule.mem_nodes_of_mem_below (Rule.mem_nodesOf_of_mem hchild))

/-- If no rule has a current record at first, all rules are looked at. -/
theorem reached_of_mem
    (h : ∀ q ∈ nodesOf t.rules, ¬t.start.Current t.call.lib t.call.engine q.toRuleFields)
    {q : Rule} (hq : q ∈ nodesOf t.rules) :
    t.Reached q := by
  have hbelow : ∀ r : Rule, t.Reached r → ∀ q ∈ r.nodes, t.Reached q := by
    intro r
    induction r using Rule.induction_children with
    | h r ih =>
      intro hr q hq
      rw [Rule.nodes_eq] at hq
      rcases List.mem_cons.1 hq with rfl | hq
      · exact hr
      · obtain ⟨child, hchild, hq⟩ := Rule.mem_nodesOf.1 hq
        exact ih child hchild (.child hr (h r hr.mem) hchild) q hq
  obtain ⟨r, hr, hq⟩ := Rule.mem_nodesOf.1 hq
  exact hbelow r (.listed hr) q hq

/-- Into an engine without records from before, what is listed is compiled with all that is
below. -/
theorem Inv.stored_of_fresh (ht : t.Proper) (h : t.Inv s) {engine : InstanceId}
    (hnew : t.start.nextInstance ≤ engine) (hmarked : ∀ r ∈ t.rules, r.ptr ∈ t.marked s engine)
    {q : Rule} (hq : q ∈ nodesOf t.rules) : t.Stored s engine q.toRuleFields := by
  have hbelow : ∀ r ∈ nodesOf t.rules, t.Stored s engine r.toRuleFields → ∀ q ∈ r.nodes,
      t.Stored s engine q.toRuleFields := by
    intro r
    induction r using Rule.induction_children with
    | h r ih =>
      intro hr hstored q hq
      rw [Rule.nodes_eq] at hq
      rcases List.mem_cons.1 hq with rfl | hq
      · exact hstored
      · obtain ⟨child, hchild, hq⟩ := Rule.mem_nodesOf.1 hq
        have hchildren := (h.below engine r hr hstored).resolve_left fun hold ↦ by
          obtain ⟨c, hrecord, -⟩ := hold
          rw [ht.unborn _ engine hnew] at hrecord
          cases hrecord
        have hmem : child ∈ nodesOf t.rules := Rule.mem_nodesOf_trans hr
          (Rule.mem_nodes_of_mem_below (Rule.mem_nodesOf_of_mem hchild))
        exact ih child hchild hmem (hchildren child hchild) q hq
  obtain ⟨r, hr, hq⟩ := Rule.mem_nodesOf.1 hq
  exact hbelow r (Rule.mem_nodesOf_of_mem hr) (stored_of_mem_marked ht.objects
    (Rule.mem_nodesOf_of_mem hr) (hmarked r hr)) q hq

theorem Inv.stored_of_reached (ht : t.Proper) (h : t.Inv s)
    (hmarked : ∀ r ∈ t.rules, r.ptr ∈ t.marked s t.call.engine) {q : Rule} (hq : t.Reached q) :
    t.Stored s t.call.engine q.toRuleFields := by
  induction hq with
  | @listed r hr =>
    exact stored_of_mem_marked ht.objects (Rule.mem_nodesOf_of_mem hr) (hmarked r hr)
  | @child r child hr hnot hchild ih =>
    refine (h.below _ r hr.mem ih).resolve_left (fun hold ↦ hnot ?_) child hchild
    exact (ht.start_inv.current_iff (.inl rfl)).2 hold

theorem Succeeded.compiled_all (ht : t.Proper) (hinv : t.Inv s) (h : t.Succeeded s) :
    t.Compiled s where
  compiled := h.compiled
  pool engine := by
    rw [h.pool, List.count_reverse]
    exact List.Nodup.count h.pooled.nodup
  storage := h.length
  pool_current engine hengine q hq := by
    obtain ⟨hnew, hlt⟩ := h.pooled.new engine hengine
    exact (hinv.current_iff (.inr ⟨hnew, hlt⟩)).2
      (hinv.stored_of_fresh ht hnew (h.pooled.marked engine hengine) hq)
  caller_current q hq := (hinv.current_iff (.inl rfl)).2 (hinv.stored_of_reached ht h.marked hq)

end Compiled

/-! ### Every schedule -/

section Runs

variable {n : ℕ} {t : CompileSetting (Thread n)} {run run' : CompileRun n}

/-- The size of the tree of a rule. -/
noncomputable def rank (t : CompileSetting (Thread n)) (p : RulePtr) : ℕ :=
  ((nodesOf t.rules).find? fun q ↦ q.ptr = p).elim 0 sizeOf

theorem rank_eq (hobjects : SameObjects (nodesOf t.rules)) {q : Rule} (hq : q ∈ nodesOf t.rules) :
    t.rank q.ptr = sizeOf q := by
  have hsome : ((nodesOf t.rules).find? fun p ↦ p.ptr = q.ptr).isSome :=
    List.find?_isSome.2 ⟨q, hq, decide_eq_true rfl⟩
  obtain ⟨p, hfind⟩ := Option.isSome_iff_exists.1 hsome
  have hptr : p.ptr = q.ptr := by simpa using List.find?_some hfind
  rw [rank, hfind, hobjects p (List.mem_of_find?_eq_some hfind) q hq hptr]
  rfl

/-- Where a run has ended. -/
theorem RunInv.outcome (h : t.RunInv run) {outcome : Except String Unit}
    (hend : run.EndsWith outcome) :
    t.Outcome outcome run.config.state := by
  obtain ⟨level, c⟩ := run
  obtain ⟨hlevel, hret⟩ := hend
  obtain rfl : level = none := hlevel
  have hens : Ensures (alone t.call.lib none) t.Outcome (c.thread none) c.state := h.1
  have hret' : c.thread none = .ret outcome := hret
  rw [hret'] at hens
  exact hens

/-- **Every schedule ends**, with what a compilation should come to. -/
theorem inevitably (ht : t.Proper) (hn : 0 < n) (hrun : t.RunInv run)
    (hlocks : run.LocksRespected t.rank) :
    Inevitably (CompileRun.Step t.call t.rules)
      (fun run ↦ ∃ outcome, run.EndsWith outcome ∧ t.Outcome outcome run.config.state) run := by
  refine Inevitably.of_invariant (fun run ↦ t.RunInv run ∧ run.LocksRespected t.rank)
    (Subrelation.wf And.right (CompileRun.wellFounded_step t.call t.rules))
      (fun run run' h hstep ↦ ?_)
    (fun run h hstuck ↦ ?_) ⟨hrun, hlocks⟩
  · exact ⟨h.1.step ht hn hstep, h.2.step (fun q hq ↦ rank_eq ht.objects hq) hstep⟩
  · by_contra hnot
    refine hstuck (CompileRun.exists_step h.2 fun ⟨outcome, hend⟩ ↦ hnot ⟨outcome, hend, ?_⟩)
    exact h.1.outcome hend

theorem RunInv.reaches (ht : t.Proper) (hn : 0 < n) (h : t.RunInv run)
    (hreach : CompileRun.Reaches t.call t.rules run run') : t.RunInv run' := by
  induction hreach with
  | refl => exact h
  | tail _ hlast ih => exact ih.step ht hn hlast

end Runs

end CompileSetting

open CompileSetting

section Workflow

variable (x : CompileCall)

theorem CompileCall.threads_pos (numThreads : ℕ) : 0 < x.threads numThreads := by
  rw [threads]
  split_ifs <;> omega

variable {x} {w : Workflow}

theorem Workflow.validate_of_validated (h : w.validated = true) (idOrder : HashOrder Id)
    (order : HashOrder Rule) : w.validate idOrder order = (.ok (), w) := by
  rw [validate, if_pos h]

/-- A call of `compile` on a workflow that is not compiled. -/
theorem Workflow.compile_eq {n : ℕ} {s : CompileState (Thread n)} (hvalidated : w.validated = true)
    (hcompiled : s.compiled = false) : w.compile x s = .caller (x.compileAll w.rules) s := by
  rw [compile, if_neg (by simp [hcompiled]), validate_of_validated hvalidated]

/-- A workflow that is compiled is not compiled again. -/
theorem Workflow.compileParallel_of_compiled {numThreads : ℕ}
    {s : CompileState (Thread (x.threads numThreads))} (h : s.compiled = true) :
    w.compileParallel x numThreads s = .caller (return .ok ()) s := by
  rw [compileParallel, if_pos h]

/-- A call of `compile` starts as it should. -/
theorem Workflow.compile_starts {n : ℕ} {s : CompileState (Thread n)}
    (hvalidated : w.validated = true)
    (hcompiled : s.compiled = false) (ht : (CompileSetting.mk x w.rules s).Proper) :
    RunInv ⟨x, w.rules, s⟩ (w.compile x s) ∧
      (w.compile x s).LocksRespected (rank ⟨x, w.rules, s⟩) := by
  rw [compile_eq hvalidated hcompiled]
  exact ⟨runInv_caller (compileAll_ensures ht ht.start_inv hcompiled),
    CompileRun.locksRespected_caller ht.unlocked
      (locksInOrder_compileAll x fun q hq ↦ rank_eq ht.objects hq)⟩

/-- So does one of `compileParallel`. -/
theorem Workflow.compileParallel_starts {numThreads : ℕ}
    {s : CompileState (Thread (x.threads numThreads))} (hvalidated : w.validated = true)
    (hcompiled : s.compiled = false) (ht : (CompileSetting.mk x w.rules s).Proper) :
    RunInv ⟨x, w.rules, s⟩ (w.compileParallel x numThreads s) ∧
      (w.compileParallel x numThreads s).LocksRespected (rank ⟨x, w.rules, s⟩) := by
  rw [compileParallel, if_neg (by simp [hcompiled]), validate_of_validated hvalidated]
  dsimp only
  split_ifs
  · exact compile_starts hvalidated hcompiled ht
  · refine ⟨runInv_enterLevel ht ⟨ht.start_inv.of_compilations rfl rfl rfl, hcompiled, ?_, rfl, ?_⟩,
      CompileRun.locksRespected_enterLevel (fun q hq ↦ rank_eq ht.objects hq) 0 ht.unlocked⟩
    · intro e he
      cases he
    · exact .inr fun k' hk' ↦ absurd hk' (Nat.not_lt_zero k')

/-- **Parallel compilation refines sequential compilation.** -/
theorem Workflow.compileParallel_correct (x : CompileCall) (numThreads : ℕ) (w : Workflow)
    (s : CompileState (Thread (x.threads numThreads))) (hvalidated : w.validated = true)
    (hcompiled : s.compiled = false) (ht : (CompileSetting.mk x w.rules s).Proper) :
    Inevitably (CompileRun.Step x w.rules)
        (fun run ↦ ∃ outcome, run.EndsWith outcome ∧
          (∀ run' outcome', CompileRun.Reaches x w.rules (w.compile x s) run' →
            run'.EndsWith outcome' →
            outcome.isOk = outcome'.isOk) ∧
          (outcome.isOk = true → Compiled ⟨x, w.rules, s⟩ run.config.state) ∧
          (outcome.isOk = false → run.config.state.compiled = false))
        (w.compileParallel x numThreads s) ∧
      Inevitably (CompileRun.Step x w.rules) (fun run ↦ ∃ outcome, run.EndsWith outcome)
        (w.compile x s) := by
  have hn := x.threads_pos numThreads
  obtain ⟨hrun, hlocks⟩ := compileParallel_starts hvalidated hcompiled ht
  obtain ⟨hrun', hlocks'⟩ := compile_starts hvalidated hcompiled ht
  refine ⟨(inevitably ht hn hrun hlocks).mono fun run h ↦ ?_,
    (inevitably ht hn hrun' hlocks').mono fun run h ↦ ?_⟩
  · obtain ⟨outcome, hend, houtcome⟩ := h
    refine ⟨outcome, hend, fun run' outcome' hreach hend' ↦ ?_,
      fun hok ↦ (houtcome.succeeded hok).compiled_all ht houtcome.inv,
      fun hfails ↦ (houtcome.failed hfails).2⟩
    have houtcome' := (hrun'.reaches ht hn hreach).outcome hend'
    rcases hok : outcome.isOk with - | - <;> rcases hok' : outcome'.isOk with - | -
    · rfl
    · exact absurd (houtcome'.succeeded hok').allCompile (houtcome.failed hok).1
    · exact absurd (houtcome.succeeded hok).allCompile (houtcome'.failed hok').1
    · rfl
  · obtain ⟨outcome, hend, -⟩ := h
    exact ⟨outcome, hend⟩

end Workflow

namespace TenRules

/-- Everything passes its check and loads. -/
def lib : LuaLibrary where
  validate _ := { valid := true }
  load _ := .ok ()
  hash source := if source = "" then 0 else 1

/-- A call with one of two engines. -/
def callWith (engine : InstanceId) : CompileCall where
  lib
  engine
  hardwareConcurrency := 2
  idOrder := .insertion Id
  order := .insertion Rule

/-- Two engines, and nothing compiled. -/
def start (n : ℕ) : CompileState (Thread n) where
  nextInstance := 2

def rule (i : ℕ) : Rule where
  ptr := i
  id := i + 1
  action := "x"

def workflow : Workflow where
  rules := (List.range 10).map rule
  validated := true

theorem proper (n : ℕ) : (CompileSetting.mk (callWith 0) workflow.rules (start n)).Proper where
  objects := by
    have hrule : ∀ q ∈ nodesOf workflow.rules, ∃ i, q = rule i := fun q hq ↦ by
      obtain ⟨r, hr, hq⟩ := Rule.mem_nodesOf.1 hq
      obtain ⟨i, -, rfl⟩ := List.mem_map.1 hr
      exact ⟨i, List.mem_singleton.1 hq⟩
    intro p hp q hq hptr
    obtain ⟨i, rfl⟩ := hrule p hp
    obtain ⟨j, rfl⟩ := hrule q hq
    exact congrArg rule hptr
  unlocked _ := rfl
  engine_lt := Nat.zero_lt_two
  unborn _ _ _ := rfl
  noResets := rfl

/-- Ten rules, two workers. -/
theorem every_schedule_compiles : Inevitably (CompileRun.Step (callWith 0) workflow.rules)
    (fun run ↦ ∃ outcome, run.EndsWith outcome ∧ (outcome.isOk = true →
      Compiled ⟨callWith 0, workflow.rules, start ((callWith 0).threads 2)⟩ run.config.state))
    (workflow.compileParallel (callWith 0) 2 (start ((callWith 0).threads 2))) :=
  (Workflow.compileParallel_correct (callWith 0) 2 workflow (start _) rfl rfl (proper _)).1.mono
    fun _ ⟨outcome, hend, _, hcompiled, _⟩ ↦ ⟨outcome, hend, hcompiled⟩

end TenRules

/-! ### A workflow that was compiled before -/

/-- The caller alone can go through a program whose locks are free. -/
theorem CompileRun.exists_run {n : ℕ} {x : CompileCall} {rules : List Rule}
    {p : CompileProgram (Except String Unit)} {s : CompileState (Thread n)} {memKB : ℕ}
    (h : Guarded (CompileState.handle x.lib memKB none) CompileState.Enabled p s) :
    ∃ run, CompileRun.Reaches x rules (.caller p s) run ∧
      run.EndsWith (p.run (CompileState.handle x.lib memKB none) s).1 ∧
      run.config.state = (p.run (CompileState.handle x.lib memKB none) s).2 := by
  have hsteps : Steps (CompileState.step x.lib none) (p, s)
      (.ret (p.run (CompileState.handle x.lib memKB none) s).1,
        (p.run (CompileState.handle x.lib memKB none) s).2) :=
    h.steps fun op s henabled ↦ ⟨henabled, memKB, rfl⟩
  have hreach : Interleaving.Reaches (CompileState.step x.lib) (fun _ _ _ ↦ False)
      (CompileRun.caller p s).config _ := Reaches.of_steps (i := none) hsteps
  refine ⟨⟨none, _⟩, hreach.lift (fun c ↦ (⟨none, c⟩ : CompileRun n)) fun c c' hstep ↦
    .request hstep,
    ⟨rfl, Function.update_self none _ (CompileRun.caller p s).config.thread⟩, rfl⟩

namespace CompiledBefore

open TenRules (lib callWith start)

/-- A rule with one child, with the given action. -/
def parent (action : String) : Rule where
  ptr := 0
  id := 1
  childRules := [{ ptr := 1, id := 2, action }]

def workflow (action : String) : Workflow where
  rules := [parent action]
  validated := true

/-- Compiled with one engine, the workflow has no records for the other one after a second call; and
the child that was edited since its parent was compiled has none that is current. -/
theorem not_all_current :
    (∃ run, CompileRun.Reaches (callWith 0) (workflow "").rules
        ((workflow "").compile (callWith 0) (start ((callWith 1).threads 1))) run ∧
      run.EndsWith (.ok ()) ∧ ∃ run',
        CompileRun.Reaches (callWith 1) (workflow "").rules
          ((workflow "").compileParallel (callWith 1) 1 run.config.state) run' ∧
        run'.EndsWith (.ok ()) ∧ ¬run'.config.state.Current lib 1 (parent "").toRuleFields) ∧
      ∃ s, Steps (CompileState.step lib none)
        ((parent "").compile lib 0, start ((callWith 0).threads 1))
          (.ret (.ok ()), s) ∧
        ∃ run, CompileRun.Reaches (callWith 0) (workflow "x").rules
            ((workflow "x").compileParallel (callWith 0) 1 s) run ∧
          run.EndsWith (.ok ()) ∧
          ∃ child ∈ (parent "x").childRules,
            ¬run.config.state.Current lib 0 child.toRuleFields := by
  constructor
  · have hguarded : Guarded (CompileState.handle (callWith 0).lib 0 none) CompileState.Enabled
        ((callWith 0).compileAll [parent ""]) (start ((callWith 1).threads 1)) := by decide
    obtain ⟨run, hreach, hend, hstate⟩ := CompileRun.exists_run (x := callWith 0) hguarded
    refine ⟨run, hreach, hend, .caller (.ret (.ok ())) run.config.state, ?_, ⟨rfl, rfl⟩, ?_⟩
    · have hcompiled : run.config.state.compiled = true := by
        rw [hstate]
        decide
      rw [Workflow.compileParallel_of_compiled hcompiled]
      exact .refl
    · show ¬run.config.state.Current lib 1 (parent "").toRuleFields
      rw [hstate]
      decide
  · have hguarded : Guarded (CompileState.handle lib 0 none) CompileState.Enabled
        ((parent "").compile lib 0) (start ((callWith 0).threads 1)) := by decide
    refine ⟨_, hguarded.steps fun op s henabled ↦ ⟨henabled, 0, rfl⟩, ?_⟩
    have hguarded' : Guarded (CompileState.handle (callWith 0).lib 0 none) CompileState.Enabled
        ((callWith 0).compileAll [parent "x"])
        (((parent "").compile lib 0).run (CompileState.handle lib 0 none)
          (start ((callWith 0).threads 1))).2 := by decide
    obtain ⟨run, hreach, hend, hstate⟩ := CompileRun.exists_run (x := callWith 0) hguarded'
    refine ⟨run, hreach, hend, _, List.mem_singleton_self _, ?_⟩
    rw [hstate]
    decide

end CompiledBefore

end FastRules
