import FastRules.Engine.Compiling
import FastRules.Workflow.Compile

/-!
# No schedule of a compilation gets stuck

The locks of the rules are ranked by the sizes of their trees, which every thread descends
(`compile_ranked`). So in each moment of a compilation some thread can go on until it has ended
(`CompileRun.exists_step`), and since levels are finitely many and threads come to their ends, it
does end (`CompileRun.wellFounded_step`).
-/

namespace FastRules

open Program

/-! ### Locks -/

section Locks

variable {ι : Type} [DecidableEq ι] (lib : LuaLibrary)

/-- The locks of the rules are locks. -/
theorem compileState_locks :
    Locking.Locks compileLocks (fun s : CompileState ι ↦ s.lockedBy) (CompileState.step lib) where
  acquire i op s a s' k h hk := by
    obtain ⟨hfree, memKB, hstep⟩ := h
    cases op with
    | lock p =>
      obtain rfl : p = k := Option.some.inj hk
      obtain ⟨-, rfl⟩ := Prod.mk.inj hstep
      exact ⟨hfree, rfl⟩
    | _ => exact absurd hk (Option.some_ne_none k).symm
  release i op s a s' k h hacq hk := by
    obtain ⟨-, memKB, hstep⟩ := h
    cases op with
    | unlock p =>
      obtain rfl : p = k := Option.some.inj hk
      obtain ⟨-, rfl⟩ := Prod.mk.inj hstep
      rfl
    | _ => exact absurd hk (Option.some_ne_none k).symm
  other i op s a s' h hacq hrel := by
    obtain ⟨-, memKB, hstep⟩ := h
    cases op with
    | lock p => exact absurd hacq (Option.some_ne_none p)
    | unlock p => exact absurd hrel (Option.some_ne_none p)
    | _ =>
      obtain ⟨-, rfl⟩ := Prod.mk.inj hstep
      rfl
  enabled i op s h := by
    refine ⟨_, _, ?_, 0, rfl⟩
    cases op with
    | lock p => exact h p rfl
    | _ => trivial

end Locks

/-! ### The programs -/

section Programs

variable {rank : RulePtr → ℕ} (x : CompileCall) (rules : List Rule)

/-- A program that starts without locks and ends without locks. -/
def LocksInOrder (rank : RulePtr → ℕ) (p : CompileProgram (Except String Unit)) : Prop :=
  Ensures (compileLocks.ranked rank) (fun _ held ↦ held = ∅) p ∅

theorem locksInOrder_ret (outcome : Except String Unit) : LocksInOrder rank (.ret outcome) :=
  rfl

theorem locksInOrder_perform {op : CompileOp} (h : op.Unlocked)
    {f : op.Ans → CompileProgram (Except String Unit)} (hf : ∀ a, LocksInOrder rank (f a)) :
    LocksInOrder rank (op.perform >>= f) :=
  h.bind hf

variable {rules}

theorem locksInOrder_compile {r : Rule} (hrank : ∀ q ∈ r.nodes, rank q.ptr = sizeOf q)
    (engine : InstanceId) {f : Except String Unit → CompileProgram (Except String Unit)}
    (hf : ∀ a, LocksInOrder rank (f a)) : LocksInOrder rank (r.compile x.lib engine >>= f) := by
  refine (ensures_bind _ f _).2 ((compile_ranked x.lib engine r hrank fun p hp ↦
    absurd hp (Set.notMem_empty p)).mono fun a held hheld ↦ ?_)
  rw [hheld]
  exact hf a

theorem locksInOrder_compileRules (hrank : ∀ q ∈ nodesOf rules, rank q.ptr = sizeOf q)
    (engine : InstanceId) {f : Except String Unit → CompileProgram (Except String Unit)}
    (hf : ∀ a, LocksInOrder rank (f a)) :
    LocksInOrder rank (compileRules x.lib engine rules >>= f) := by
  refine (ensures_bind _ f _).2 ((compileRules_ranked x.lib engine rules hrank fun r _ p hp ↦
    absurd hp (Set.notMem_empty p)).mono fun a held hheld ↦ ?_)
  rw [hheld]
  exact hf a

theorem locksInOrder_createPool (hrank : ∀ q ∈ nodesOf rules, rank q.ptr = sizeOf q)
    (poolSize : ℕ) :
    LocksInOrder rank (x.createPool rules poolSize) := by
  induction poolSize with
  | zero => exact locksInOrder_perform ⟨rfl, rfl⟩ fun _ ↦ locksInOrder_ret _
  | succ poolSize ih =>
    refine locksInOrder_perform ⟨rfl, rfl⟩ fun clone ↦
      locksInOrder_compileRules x hrank clone fun result ↦ ?_
    rcases result with e | ⟨⟩
    · exact locksInOrder_ret _
    · exact locksInOrder_perform ⟨rfl, rfl⟩ fun _ ↦ ih

theorem locksInOrder_compileAll (hrank : ∀ q ∈ nodesOf rules, rank q.ptr = sizeOf q) :
    LocksInOrder rank (x.compileAll rules) := by
  refine locksInOrder_compileRules x hrank x.engine fun result ↦ ?_
  rcases result with e | ⟨⟩
  · exact locksInOrder_ret _
  · exact locksInOrder_perform ⟨rfl, rfl⟩ fun _ ↦ locksInOrder_createPool x hrank _

theorem locksInOrder_worker {level : List Rule}
    (hrank : ∀ r ∈ level, ∀ q ∈ r.nodes, rank q.ptr = sizeOf q) :
    LocksInOrder rank (x.worker level) := by
  have hloop : ∀ localEngine passes, LocksInOrder rank (x.workerLoop level localEngine passes) := by
    intro localEngine passes
    induction passes with
    | zero => exact locksInOrder_ret _
    | succ passes ih =>
      refine locksInOrder_perform ⟨rfl, rfl⟩ fun hasError ↦ ?_
      rcases hasError with - | -
      · refine locksInOrder_perform ⟨rfl, rfl⟩ fun idx ↦ ?_
        rcases hrule : level[idx]? with - | rule
        · exact locksInOrder_ret _
        · refine locksInOrder_compile x (hrank rule (List.mem_of_getElem? hrule)) localEngine
            fun a ↦ ?_
          rcases a with e | ⟨⟩
          · exact locksInOrder_perform ⟨rfl, rfl⟩ fun _ ↦ locksInOrder_ret _
          · exact ih
      · exact locksInOrder_ret _
  exact locksInOrder_perform ⟨rfl, rfl⟩ fun localEngine ↦ hloop localEngine _

theorem locksInOrder_afterLevels (hrank : ∀ q ∈ nodesOf rules, rank q.ptr = sizeOf q) :
    LocksInOrder rank (x.afterLevels rules) := by
  have hverify : ∀ l : List Rule, Asks CompileOp.Unlocked (CompileCall.verifyCompiled l) := by
    intro l
    induction l with
    | nil => trivial
    | cons r l ih =>
      refine ⟨⟨rfl, rfl⟩, fun isCompiled ↦ ?_⟩
      rcases isCompiled with - | -
      · trivial
      · exact ih
  refine locksInOrder_perform ⟨rfl, rfl⟩ fun exception ↦ ?_
  rcases exception with - | e
  · refine ranked_bind_of_unlocked (hverify rules) fun verified ↦ ?_
    rcases verified with - | -
    · exact locksInOrder_ret _
    · exact locksInOrder_compileAll x hrank
  · exact locksInOrder_ret _

end Programs

/-! ### Runs -/

namespace CompileRun

open Interleaving

variable {n : ℕ} (x : CompileCall) (rules : List Rule) {run run' : CompileRun n}

/-- The number of levels to come. -/
def levelsLeft (run : CompileRun n) : ℕ :=
  match run.level with
  | some k => (buildCompilationLevels rules).length - k + 1
  | none => 0

theorem levelsLeft_enterLevel_lt (k : ℕ) (s : CompileState (Thread n)) :
    (enterLevel x rules (k + 1) s).levelsLeft rules <
      (buildCompilationLevels rules).length - k + 1 := by
  rw [enterLevel]
  rcases hlevel : (buildCompilationLevels rules)[k + 1]? with - | level
  · exact Nat.succ_pos _
  · have hlt : k + 1 < (buildCompilationLevels rules).length :=
      (List.getElem?_eq_some_iff.1 hlevel).1
    dsimp only
    split_ifs
    · exact Nat.succ_pos _
    · show (buildCompilationLevels rules).length - (k + 1) + 1 < _
      omega

/-- Every schedule comes to an end. -/
theorem wellFounded_step : WellFounded fun run' run : CompileRun n ↦ Step x rules run run' := by
  have hconfig : WellFounded fun c' c : Config (Thread n) CompileOp CompileOp.Ans
      (Except String Unit) (CompileState (Thread n)) ↦
        Interleaving.Step (CompileState.step x.lib) (fun _ _ _ ↦ False) c c' :=
    Interleaving.wellFounded_step
  refine Subrelation.wf (fun {run' run} hstep ↦ ?_)
    (InvImage.wf (fun run : CompileRun n ↦ (run.levelsLeft rules, run.config))
      (WellFounded.prod_lex Nat.lt_wfRel.wf hconfig))
  rcases hstep with ⟨h⟩ | ⟨-⟩
  · exact Prod.Lex.right _ h
  · exact Prod.Lex.left _ _ (levelsLeft_enterLevel_lt x rules _ _)

/-- Every thread keeps to the order from here on. -/
def LocksRespected (rank : RulePtr → ℕ) (run : CompileRun n) : Prop :=
  ∀ i, Ensures (compileLocks.ranked rank) (fun _ held ↦ held = ∅) (run.config.thread i)
    (Locking.held (fun s : CompileState (Thread n) ↦ s.lockedBy) i run.config.state)

variable {x rules} {rank : RulePtr → ℕ} {s : CompileState (Thread n)}

/-- Threads that start without locks. -/
theorem locksRespected_of_free (hfree : ∀ p, run.config.state.lockedBy p = none)
    (h : ∀ i, LocksInOrder rank (run.config.thread i)) : run.LocksRespected rank := by
  intro i
  have hnone : Locking.held (fun s : CompileState (Thread n) ↦ s.lockedBy) i run.config.state = ∅ :=
    Set.eq_empty_of_forall_notMem fun p hp ↦ by
      have hp' : run.config.state.lockedBy p = some i := hp
      rw [hfree] at hp'
      cases hp'
  rw [hnone]
  exact h i

theorem locksRespected_caller (hfree : ∀ p, s.lockedBy p = none)
    {p : CompileProgram (Except String Unit)}
    (hp : LocksInOrder rank p) : (caller p s : CompileRun n).LocksRespected rank := by
  refine locksRespected_of_free hfree fun i ↦ ?_
  rcases i with - | i
  · exact hp
  · exact locksInOrder_ret _

theorem locksRespected_enterLevel (hrank : ∀ q ∈ nodesOf rules, rank q.ptr = sizeOf q) (k : ℕ)
    (hfree : ∀ p, s.lockedBy p = none) : (enterLevel x rules k s).LocksRespected rank := by
  have hafter := locksRespected_caller (s := s) hfree (locksInOrder_afterLevels x hrank)
  rw [enterLevel]
  rcases hlevel : (buildCompilationLevels rules)[k]? with - | level
  · exact hafter
  · dsimp only
    split_ifs
    · exact hafter
    · refine locksRespected_of_free hfree fun i ↦ ?_
      rcases i with - | i
      · exact locksInOrder_ret _
      · show LocksInOrder rank (if i.val < min n (max level.length 1) then x.worker level
          else return .ok ())
        split_ifs
        · refine locksInOrder_worker x fun r hr q hq ↦ hrank q (Rule.mem_nodesOf.2 ⟨r, ?_, hq⟩)
          exact mem_of_mem_compilationLevels (List.mem_of_getElem? hlevel) hr
        · exact locksInOrder_ret _

/-- Going on keeps to the order. -/
theorem LocksRespected.step (hrank : ∀ q ∈ nodesOf rules, rank q.ptr = sizeOf q)
    (h : run.LocksRespected rank) (hstep : Step x rules run run') : run'.LocksRespected rank := by
  rcases hstep with ⟨hstep⟩ | ⟨hdone⟩
  · exact ((compileState_locks x.lib).compatible.relying.step_ensures ⟨trivial, h⟩ hstep).2
  · refine locksRespected_enterLevel hrank _ fun p ↦
      (compileState_locks x.lib).owner_eq_none h .refl (fun i ↦ ?_) p
    rename_i k c
    rcases hthread : c.thread i with a | ⟨op, next⟩
    · exact ⟨a, rfl⟩
    · have hreturned := hdone i
      rw [hthread] at hreturned
      cases hreturned

/-- **No deadlock.** As long as the call has not ended, somebody can go on. -/
theorem exists_step (h : run.LocksRespected rank) (hrunning : ¬∃ outcome, run.EndsWith outcome) :
    ∃ run', Step x rules run run' := by
  obtain ⟨level, c⟩ := run
  by_cases hdone : ∃ i, (c.thread i).hasReturned = false
  · obtain ⟨c', hstep⟩ := (compileState_locks x.lib).exists_step h .refl hdone
    exact ⟨_, .request hstep⟩
  · push Not at hdone
    have hreturned : ∀ i, (c.thread i).hasReturned = true := fun i ↦ by simpa using hdone i
    rcases level with - | k
    · refine absurd ?_ hrunning
      rcases hthread : c.thread none with outcome | ⟨op, next⟩
      · exact ⟨outcome, rfl, hthread⟩
      · have := hreturned none
        rw [hthread] at this
        cases this
    · exact ⟨_, .join hreturned⟩

end CompileRun

end FastRules
