import FastRules.Workflow.CompileInvariant
import FastRules.Workflow.CompileLocks

/-!
# What a compilation of a workflow comes to

Compiled in parallel or not, a workflow is compiled if all texts of its rules load, and otherwise an
exception is thrown (`CompileSetting.Outcome`). In parallel this rests on what a level leaves
behind: either some worker has failed, and then some text does not load, or all rules of the level
are dealt with (`LevelInv.level_dealt`).
-/

namespace FastRules

open Program Interleaving

namespace CompileSetting

/-! ### The caller alone -/

section Alone

variable {ι : Type} [DecidableEq ι] {t : CompileSetting ι} {s s' : CompileState ι}

/-- The requests of a thread that is alone. -/
def alone (lib : LuaLibrary) (j : ι) : Interface CompileOp CompileOp.Ans (CompileState ι) where
  pre _ _ := True
  step := CompileState.step lib j

/-- The stored engines are new, all different, and have records of all rules. -/
structure Pooled (t : CompileSetting ι) (s : CompileState ι) : Prop where
  nodup : s.enginePoolStorage.Nodup
  new : ∀ engine ∈ s.enginePoolStorage, t.start.nextInstance ≤ engine ∧ engine < s.nextInstance
  marked : ∀ engine ∈ s.enginePoolStorage, ∀ r ∈ t.rules, r.ptr ∈ t.marked s engine

/-- The call has returned: everything is compiled, into the caller's engine and into all of the
pool. -/
structure Succeeded (t : CompileSetting ι) (s : CompileState ι) : Prop where
  allCompile : t.AllCompile
  pooled : t.Pooled s
  length : s.enginePoolStorage.length = max t.call.hardwareConcurrency 2
  pool : s.enginePool = s.enginePoolStorage.reverse
  marked : ∀ r ∈ t.rules, r.ptr ∈ t.marked s t.call.engine
  compiled : s.compiled = true

/-- What a call comes to. -/
structure Outcome (t : CompileSetting ι) (outcome : Except String Unit) (s : CompileState ι) :
    Prop where
  inv : t.Inv s
  succeeded : outcome.isOk = true → t.Succeeded s
  failed : outcome.isOk = false → ¬t.AllCompile ∧ s.compiled = false

variable {j : ι}

/-- Whoever is alone keeps the invariant. -/
theorem ensures_alone (ht : t.Proper) {α : Type} {Q : α → CompileState ι → Prop}
    {p : CompileProgram α} (h : Ensures (t.interface [] j) Q p s) (hinv : t.Inv s) :
    Ensures (alone t.call.lib j) (fun a s' ↦ Q a s' ∧ t.Inv s') p s :=
  h.of_view_inv (fun s ↦ s) (R := t.Inv) (fun _ _ _ _ ↦ trivial)
    (fun _ _ _ _ hinv hpre hstep ↦ (step_facts ht hinv hpre hstep).symm) hinv

/-- Compiling all rules into one engine. -/
theorem compileRules_alone (ht : t.Proper) (hinv : t.Inv s) {engine : InstanceId}
    (hknown : t.Known s engine) :
    Ensures (alone t.call.lib j) (fun result s' ↦
        (t.into engine).SettlesAll t.rules (t.marked s engine) result (t.marked s' engine) ∧
          t.Later s s' ∧ t.Inv s')
      (compileRules t.call.lib engine t.rules) s := by
  have hcompile := Compilation.compileRules_ensures (x := t.into engine) ht.objects t.rules
    (fun q hq ↦ hq) (t.marked s engine)
  exact (ensures_alone ht (ensures_of_into hcompile hknown) hinv).mono
    fun result s' h ↦ ⟨h.1.1, h.1.2.1, h.2⟩

omit [DecidableEq ι] in
/-- Keeping one more engine. -/
theorem Pooled.keep (h : t.Pooled s) {engine : InstanceId} (hnew : t.start.nextInstance ≤ engine)
    (hnext : ∀ e ∈ s.enginePoolStorage, e ≠ engine) (hlater : t.Later s s')
    (hlt : engine < s'.nextInstance) (hmarked : ∀ r ∈ t.rules, r.ptr ∈ t.marked s' engine) :
    t.Pooled { s' with enginePoolStorage := s'.enginePoolStorage ++ [engine] } := by
  have hstorage : s'.enginePoolStorage ++ [engine] = s.enginePoolStorage ++ [engine] := by
    rw [hlater.storage]
  refine ⟨?_, ?_, ?_⟩
  · show (s'.enginePoolStorage ++ [engine]).Nodup
    rw [hstorage, List.nodup_append]
    exact ⟨h.nodup, List.nodup_singleton _, fun e he e' he' ↦ List.mem_singleton.1 he' ▸ hnext e he⟩
  · show ∀ e ∈ s'.enginePoolStorage ++ [engine], _
    rw [hstorage]
    refine List.forall_mem_append.2 ⟨fun e he ↦ ?_, fun e he ↦ ?_⟩
    · exact ⟨(h.new e he).1, (h.new e he).2.trans_le hlater.next⟩
    · obtain rfl := List.mem_singleton.1 he
      exact ⟨hnew, hlt⟩
  · show ∀ e ∈ s'.enginePoolStorage ++ [engine], ∀ r ∈ t.rules, r.ptr ∈ t.marked s' e
    rw [hstorage]
    refine List.forall_mem_append.2 ⟨fun e he r hr ↦ ?_, fun e he r hr ↦ ?_⟩
    · exact hlater.marked e (h.marked e he r hr)
    · obtain rfl := List.mem_singleton.1 he
      exact hmarked r hr

theorem createPool_ensures (ht : t.Proper) (poolSize : ℕ) (hinv : t.Inv s) (hpooled : t.Pooled s)
    (hcompiled : s.compiled = false) (hmarked : ∀ r ∈ t.rules, r.ptr ∈ t.marked s t.call.engine)
    (hlength : s.enginePoolStorage.length + poolSize = max t.call.hardwareConcurrency 2)
    (hall : poolSize = 0 → t.AllCompile) :
    Ensures (alone t.call.lib j) t.Outcome (t.call.createPool t.rules poolSize) s := by
  induction poolSize generalizing s with
  | zero =>
    refine ensures_perform_bind trivial fun _ s₁ h₁ ↦ ?_
    obtain ⟨-, memKB, h₁⟩ := h₁
    obtain ⟨-, rfl⟩ := Prod.mk.inj h₁
    refine ⟨hinv.of_compilations rfl rfl rfl, fun _ ↦ ?_, fun h ↦ by cases h⟩
    exact ⟨hall rfl, ⟨hpooled.nodup, hpooled.new, hpooled.marked⟩, hlength, rfl, hmarked, rfl⟩
  | succ poolSize ih =>
    refine ensures_perform_bind trivial fun clone s₁ h₁ ↦ ?_
    have hpre : (t.interface [] j).pre (.clone t.call.engine) s := rfl
    obtain ⟨hinv₁, hlater₁, -, hnew, hlt⟩ := step_facts ht hinv hpre h₁
    have hclone : clone = s.nextInstance := by
      obtain ⟨-, memKB, h₁⟩ := h₁
      exact (Prod.mk.inj h₁).1.symm
    refine (ensures_bind _ _ _).2
      ((compileRules_alone ht hinv₁ (.inr ⟨hnew, hlt⟩)).mono fun result s₂ h₂ ↦ ?_)
    -- the rules are compiled once more, into the clone
    obtain ⟨⟨-, hok, hbad⟩, hlater₂, hinv₂⟩ := h₂
    have hlater := hlater₁.trans hlater₂
    rcases result with e | ⟨⟩
    · refine ⟨hinv₂, fun h ↦ (by cases h), fun _ ↦ ⟨fun hall ↦ ?_, hlater.compiled.trans hcompiled⟩⟩
      obtain ⟨r, hr, hfails⟩ := hbad rfl
      exact hfails (hall r hr)
    · refine ensures_perform_bind trivial fun _ s₃ h₃ ↦ ?_
      obtain ⟨-, memKB, h₃⟩ := h₃
      obtain ⟨-, rfl⟩ := Prod.mk.inj h₃
      refine ih (hinv₂.of_compilations rfl rfl rfl)
        (hpooled.keep hnew (fun e he ↦ hclone ▸ (hpooled.new e he).2.ne) hlater
          (hlt.trans_le hlater₂.next) fun r hr ↦ (hok rfl r hr).1)
        (hlater.compiled.trans hcompiled) (fun r hr ↦ hlater.marked _ (hmarked r hr)) ?_
        fun _ r hr ↦ (hok rfl r hr).2 hnew
      show (s₂.enginePoolStorage ++ [clone]).length + poolSize = _
      rw [hlater.storage, List.length_append, List.length_singleton]
      omega

/-- Compiling everything comes to what it should. -/
theorem compileAll_ensures (ht : t.Proper) (hinv : t.Inv s) (hcompiled : s.compiled = false) :
    Ensures (alone t.call.lib j) t.Outcome (t.call.compileAll t.rules) s := by
  refine (ensures_bind _ _ _).2
    ((compileRules_alone ht hinv (.inl rfl)).mono fun result s₁ h₁ ↦ ?_)
  obtain ⟨⟨-, hok, hbad⟩, hlater₁, hinv₁⟩ := h₁
  rcases result with e | ⟨⟩
  · refine ⟨hinv₁, fun h ↦ (by cases h), fun _ ↦ ⟨fun hall ↦ ?_, hlater₁.compiled.trans hcompiled⟩⟩
    obtain ⟨r, hr, hfails⟩ := hbad rfl
    exact hfails (hall r hr)
  · refine ensures_perform_bind trivial fun _ s₂ h₂ ↦ ?_
    obtain ⟨-, memKB, h₂⟩ := h₂
    obtain ⟨-, rfl⟩ := Prod.mk.inj h₂
    refine createPool_ensures ht _ (hinv₁.of_compilations rfl rfl rfl)
      ⟨List.nodup_nil, fun _ h ↦ absurd h List.not_mem_nil, fun _ h ↦ absurd h List.not_mem_nil⟩
      (hlater₁.compiled.trans hcompiled) (fun r hr ↦ (hok rfl r hr).1) ?_ fun h ↦ ?_
    · exact Nat.zero_add _
    · omega

theorem verifyCompiled_ensures {lib : LuaLibrary} {l : List Rule}
    (h : ∀ r ∈ l, s.isCompiled r.ptr = true) :
    Ensures (alone lib j) (fun verified s' ↦ verified = true ∧ s' = s)
      (CompileCall.verifyCompiled l)
      s := by
  induction l with
  | nil => exact ⟨rfl, rfl⟩
  | cons r l ih =>
    refine ensures_perform_bind trivial fun isCompiled s₁ h₁ ↦ ?_
    obtain ⟨-, memKB, h₁⟩ := h₁
    obtain ⟨rfl, rfl⟩ := Prod.mk.inj h₁
    rw [if_pos (h r List.mem_cons_self)]
    exact ih fun q hq ↦ h q (List.mem_cons_of_mem r hq)

/-- What the levels leave to the caller: an exception for a text that does not load, or all rules
dealt with. -/
structure LevelsDone (t : CompileSetting ι) (s : CompileState ι) : Prop where
  inv : t.Inv s
  compiled : s.compiled = false
  raised : ∀ e, s.compileException = some e → ¬t.AllCompile
  dealt : s.compileException = none → ∀ r ∈ t.rules, t.Dealt s r.toRuleFields

theorem afterLevels_ensures (ht : t.Proper) (h : t.LevelsDone s) :
    Ensures (alone t.call.lib j) t.Outcome (t.call.afterLevels t.rules) s := by
  refine ensures_perform_bind trivial fun exception s₁ h₁ ↦ ?_
  obtain ⟨-, memKB, h₁⟩ := h₁
  obtain ⟨hexception, rfl⟩ := Prod.mk.inj h₁
  replace hexception : s.compileException = exception := hexception
  rcases exception with - | e
  · have hverified : ∀ r ∈ t.rules, s.isCompiled r.ptr = true := fun r hr ↦ by
      obtain ⟨engine, hnew, q, -, hptr, c, hrecord, -⟩ := h.dealt hexception r hr
      rw [← hptr]
      exact (h.inv.fresh _ engine hnew (by rw [hrecord]; exact Option.some_ne_none c)).2
    refine (ensures_bind (CompileCall.verifyCompiled t.rules) _ _).2
      ((verifyCompiled_ensures hverified).mono fun verified s₂ h₂ ↦ ?_)
    obtain ⟨rfl, rfl⟩ := h₂
    exact compileAll_ensures ht h.inv h.compiled
  · exact ⟨h.inv, fun hok ↦ (by cases hok), fun _ ↦ ⟨h.raised e hexception, h.compiled⟩⟩

end Alone

/-! ### A level -/

section Level

variable {n : ℕ} {t : CompileSetting (Thread n)} {s s' : CompileState (Thread n)} {k : ℕ}
  {level : List Rule}

/-- What holds when so many levels have been worked on. -/
structure LevelsInv (t : CompileSetting (Thread n)) (k : ℕ) (s : CompileState (Thread n)) :
    Prop where
  inv : t.Inv s
  compiled : s.compiled = false
  raised : ∀ e, s.compileException = some e → ¬t.AllCompile
  hasError : s.hasError = s.compileException.isSome
  before : s.hasError = true ∨ ∀ k' < k, ∀ level, (buildCompilationLevels t.rules)[k']? =
    some level →
    ∀ r ∈ level, t.Dealt s r.toRuleFields

/-- What holds while a level is worked on: an index that was handed out is one that some worker is
at, if its rule is not dealt with. -/
structure LevelInv (t : CompileSetting (Thread n)) (k : ℕ) (level : List Rule)
    (s : CompileState (Thread n)) : Prop extends LevelsInv t k s where
  idx_lt : ∀ i a, s.idx i = some a → a < s.nextRule
  dealt : ∀ a r, a < s.nextRule → level[a]? = some r →
    t.Dealt s r.toRuleFields ∨ s.hasError = true ∨ ∃ i, s.idx i = some a

theorem LevelsInv.later (h : t.LevelsInv k s) (hinv : t.Inv s') (hlater : t.Later s s')
    (hexception : s'.compileException = s.compileException) (herror : s'.hasError = s.hasError) :
    t.LevelsInv k s' where
  inv := hinv
  compiled := hlater.compiled.trans h.compiled
  raised := by
    rw [hexception]
    exact h.raised
  hasError := by
    rw [hexception, herror]
    exact h.hasError
  before := h.before.imp hlater.hasError fun hbefore k' hk level hlevel r hr ↦
    hlater.dealt (hbefore k' hk level hlevel r hr)

/-- A step that hands out no index, and is no failure. -/
theorem LevelInv.later (h : t.LevelInv k level s) (hinv : t.Inv s') (hlater : t.Later s s')
    (hexception : s'.compileException = s.compileException) (herror : s'.hasError = s.hasError)
    (hidx : s'.idx = s.idx) (hrule : s'.nextRule = s.nextRule) : t.LevelInv k level s' where
  toLevelsInv := h.toLevelsInv.later hinv hlater hexception herror
  idx_lt := by
    rw [hidx, hrule]
    exact h.idx_lt
  dealt a r ha hr := by
    rw [hrule] at ha
    rw [hidx, herror]
    exact (h.dealt a r ha hr).imp hlater.dealt id

theorem LevelInv.step (ht : t.Proper) {j : Thread n} {op : CompileOp} {a : op.Ans}
    (h : t.LevelInv k level s) (hpre : (t.interface level j).pre op s)
    (hstep : CompileState.step t.call.lib j op s a s') : t.LevelInv k level s' := by
  obtain ⟨hinv, hlater, -⟩ := step_facts ht h.inv hpre hstep
  obtain ⟨-, memKB, hstep⟩ := hstep
  cases op with
  | nextRule =>
    obtain ⟨rfl, rfl⟩ := Prod.mk.inj hstep
    refine ⟨h.toLevelsInv.later hinv hlater rfl rfl, fun i b hb ↦ ?_, fun b r hb hr ↦ ?_⟩
    · have hb' : Function.update s.idx j (some s.nextRule) i = some b := hb
      rcases eq_or_ne i j with rfl | hne
      · rw [Function.update_self] at hb'
        obtain rfl := Option.some.inj hb'
        exact Nat.lt_succ_self _
      · rw [Function.update_of_ne hne] at hb'
        exact (h.idx_lt i b hb').trans (Nat.lt_succ_self _)
    · -- The index of the new rule is the worker's from now on; the rule it was at before is dealt
      -- with, which is what it has to show when it asks for the next one.
      rcases Nat.lt_succ_iff_lt_or_eq.1 hb with hb | rfl
      · rcases h.dealt b r hb hr with hdealt | herror | ⟨i, hi⟩
        · exact .inl (hlater.dealt hdealt)
        · exact .inr (.inl herror)
        · rcases eq_or_ne i j with rfl | hne
          · exact .inl (hlater.dealt (hpre b r hi hr))
          · refine .inr (.inr ⟨i, ?_⟩)
            show Function.update s.idx j (some s.nextRule) i = some b
            rwa [Function.update_of_ne hne]
      · exact .inr (.inr ⟨j, Function.update_self j _ s.idx⟩)
  | fail message =>
    obtain ⟨-, rfl⟩ := Prod.mk.inj hstep
    exact ⟨⟨hinv, h.compiled, fun _ _ ↦ hpre, rfl, .inl rfl⟩, h.idx_lt, fun _ _ _ _ ↦
      .inr (.inl rfl)⟩
  | isCompiled p => exact absurd hpre id
  | compileException => exact absurd hpre id
  | clearEngines => exact absurd hpre id
  | keepEngine engine => exact absurd hpre id
  | openPool => exact absurd hpre id
  | _ =>
    obtain ⟨-, rfl⟩ := Prod.mk.inj hstep
    exact h.later hinv hlater rfl rfl rfl rfl

/-- The threads that are workers of the level. -/
def Started (level : List Rule) : Thread n → Prop
  | none => False
  | some i => i.val < min n (max level.length 1)

/-- What is known of a thread that has returned. -/
def Returned (level : List Rule) (j : Thread n) (s : CompileState (Thread n)) : Prop :=
  (Started level j → WorkerDone level j s) ∧ (¬Started level j → s.idx j = none)

/-- Each thread relies on the others to go on only. -/
theorem level_relying (ht : t.Proper) :
    Relying (CompileState.step t.call.lib) (fun _ _ _ ↦ False) (t.LevelInv k level)
      (fun _ s ↦ s) (fun j s s' ↦ t.Later s s' ∧ s'.idx j = s.idx j)
      (fun j ↦ t.interface level j) (fun j (_ : Except String Unit) s ↦ Returned level j s) where
  own j op s a s' h hpre hstep := ⟨h.step ht hpre hstep, (step_facts ht h.inv hpre hstep).2⟩
  foreign i j op s a s' hne h hpre hstep := by
    refine ⟨(step_facts ht h.inv hpre hstep).2.1, ?_⟩
    obtain ⟨-, memKB, hstep⟩ := hstep
    cases op with
    -- the counter is shared, but each worker has an index of its own
    | nextRule =>
      obtain ⟨rfl, rfl⟩ := Prod.mk.inj hstep
      exact Function.update_of_ne hne _ s.idx
    | _ =>
      obtain ⟨-, rfl⟩ := Prod.mk.inj hstep
      rfl
  other _ _ _ _ _ := False.elim
  stable_pre j op s s' hrely hpre := by
    -- what a worker has been promised stays true while the others go on
    obtain ⟨hlater, hidx⟩ := hrely
    cases op with
    | lookupCompilation r engine => exact ⟨hlater.known hpre.1, hpre.2⟩
    | getGeneration engine => exact hlater.known hpre
    | compileChunk engine chunk => exact hlater.known hpre
    | store p engine c =>
      obtain ⟨hknown, hgood, hgeneration, r, hr, hptr, hhash, hchildren⟩ := hpre
      exact ⟨hlater.known hknown, hgood, hgeneration, r, hr, hptr, hhash, fun child hchild ↦
        hlater.marked engine (hchildren child hchild)⟩
    | nextRule =>
      intro a r ha hr
      rw [hidx] at ha
      exact hlater.dealt (hpre a r ha hr)
    | _ => exact hpre
  stable_step j op s s₁ a s₂ hrely hstep := by
    obtain ⟨hlater, hidx⟩ := hrely
    obtain ⟨hlater', hanswer⟩ := hstep
    refine ⟨hlater.trans hlater', ?_⟩
    cases op with
    | lookupCompilation r engine =>
      obtain ⟨hsame, hsub, hfound⟩ := hanswer
      exact ⟨hsame.trans hidx, (hlater.marked engine).trans hsub, hfound⟩
    | getGeneration engine => exact ⟨hanswer.1.trans hidx, hanswer.2⟩
    | compileChunk engine chunk => exact ⟨hanswer.1.trans hidx, hanswer.2⟩
    | store p engine c => exact ⟨hanswer.1.trans hidx, hanswer.2⟩
    | clone engine => exact ⟨hanswer.1.trans hidx, hanswer.2⟩
    | hasError => exact ⟨hanswer.1.trans hidx, hanswer.2⟩
    | nextRule => exact ⟨hanswer.1, hlater.nextRule.trans hanswer.2.1, hanswer.2.2⟩
    | fail message => exact hanswer
    | _ => exact hanswer.trans hidx
  stable_post j _ s s' hrely h := by
    obtain ⟨hlater, hidx⟩ := hrely
    rw [Returned, WorkerDone, hidx]
    exact ⟨fun hstarted ↦ (h.1 hstarted).imp hlater.hasError id, h.2⟩

/-- **What a level leaves behind.** Some worker has failed, or all rules of the level are dealt
with. -/
theorem LevelInv.level_dealt (hn : 0 < n) (h : t.LevelInv k level s)
    (hreturned : ∀ j : Thread n, Returned level j s) :
    s.hasError = true ∨ ∀ r ∈ level, t.Dealt s r.toRuleFields := by
  by_contra hneither
  push Not at hneither
  obtain ⟨herror, r, hr, hnot⟩ := hneither
  have hpast : ∀ j : Thread n, Started level j → ∃ a, s.idx j = some a ∧ level.length ≤ a :=
    fun j hj ↦ ((hreturned j).1 hj).resolve_left herror
  -- the first worker has got past the end, so every index was handed out
  obtain ⟨b, hb, hlength⟩ := hpast (some ⟨0, hn⟩) (lt_min hn (lt_max_of_lt_right Nat.one_pos))
  obtain ⟨a, ha, hget⟩ := List.mem_iff_getElem.1 hr
  have hgiven : a < s.nextRule := (ha.trans_le hlength).trans (h.idx_lt _ b hb)
  rcases h.dealt a r hgiven (List.getElem?_eq_some_iff.2 ⟨ha, hget⟩) with hdealt | htrue | ⟨j, hj⟩
  · exact hnot hdealt
  · exact herror htrue
  · by_cases hstarted : Started level j
    · obtain ⟨c, hc, hle⟩ := hpast j hstarted
      rw [hj] at hc
      obtain rfl := Option.some.inj hc
      exact absurd ha hle.not_gt
    · rw [(hreturned j).2 hstarted] at hj
      cases hj

/-- When all levels are worked on, or some worker has failed. -/
theorem LevelsInv.done (ht : t.Proper) (h : t.LevelsInv k s)
    (hend : s.hasError = true ∨ (buildCompilationLevels t.rules)[k]? = none) : t.LevelsDone s := by
  refine ⟨h.inv, h.compiled, h.raised, fun hnone r hr ↦ ?_⟩
  have hquiet : s.hasError = false := by
    rw [h.hasError, hnone]
    rfl
  have hlast := hend.resolve_left (by rw [hquiet]; exact Bool.false_ne_true)
  have hbefore := h.before.resolve_left (by rw [hquiet]; exact Bool.false_ne_true)
  obtain ⟨level, hlevel, q, hq, hptr⟩ := exists_mem_compilationLevels hr
  obtain ⟨k', hk', hget⟩ := List.mem_iff_getElem.1 hlevel
  have hdealt := hbefore k' (hk'.trans_le (List.getElem?_eq_none_iff.1 hlast)) level
    (List.getElem?_eq_some_iff.2 ⟨hk', hget⟩) q hq
  obtain rfl := ht.objects q (Rule.mem_nodesOf_of_mem (mem_of_mem_compilationLevels hlevel hq)) r
    (Rule.mem_nodesOf_of_mem hr) hptr
  exact hdealt

/-! ### Runs -/

/-- The invariant of a run. -/
def RunInv (t : CompileSetting (Thread n)) (run : CompileRun n) : Prop :=
  match run.level with
  | some k => ∃ level, (buildCompilationLevels t.rules)[k]? = some level ∧
      t.LevelInv k level run.config.state ∧
      ∀ j, Ensures (t.interface level j) (fun _ ↦ Returned level j) (run.config.thread j)
        run.config.state
  | none => Ensures (alone t.call.lib none) t.Outcome (run.config.thread none) run.config.state ∧
      ∀ i, (run.config.thread (some i)).hasReturned = true

theorem runInv_caller {p : CompileProgram (Except String Unit)}
    (h : Ensures (alone t.call.lib none) t.Outcome p s) : t.RunInv (.caller p s) :=
  ⟨h, fun _ ↦ rfl⟩

theorem runInv_enterLevel (ht : t.Proper) (h : t.LevelsInv k s) :
    t.RunInv (.enterLevel t.call t.rules k s) := by
  rw [CompileRun.enterLevel]
  rcases hlevel : (buildCompilationLevels t.rules)[k]? with - | level
  · exact runInv_caller (afterLevels_ensures ht (h.done ht (.inr hlevel)))
  · dsimp only
    split_ifs with herror
    · exact runInv_caller (afterLevels_ensures ht (h.done ht (.inl herror)))
    · have hinv : t.Inv { s with nextRule := 0, idx := fun _ ↦ none } :=
        h.inv.of_compilations rfl rfl rfl
      refine ⟨level, hlevel, ⟨⟨hinv, h.compiled, h.raised, h.hasError, h.before⟩, fun i a ha ↦ ?_,
        fun a r ha ↦ absurd ha (Nat.not_lt_zero a)⟩, fun j ↦ ?_⟩
      · cases ha
      · rcases j with - | i
        · exact ⟨fun hstarted ↦ absurd hstarted id, fun _ ↦ rfl⟩
        · show Ensures _ _ (if i.val < min n (max level.length 1) then t.call.worker level
            else return .ok ()) _
          split_ifs with hstarted
          · refine (worker_ensures ht (fun r hr ↦ ?_) rfl).mono fun _ s' hdone ↦
              ⟨fun _ ↦ hdone, fun hnot ↦ absurd hstarted hnot⟩
            exact mem_of_mem_compilationLevels (List.mem_of_getElem? hlevel) hr
          · exact ⟨fun hyes ↦ absurd hyes hstarted, fun _ ↦ rfl⟩

theorem RunInv.step (ht : t.Proper) (hn : 0 < n) {run run' : CompileRun n} (h : t.RunInv run)
    (hstep : CompileRun.Step t.call t.rules run run') : t.RunInv run' := by
  rcases hstep with ⟨hstep⟩ | ⟨hdone⟩
  · rename_i level c c'
    rcases level with - | k
    · -- only the caller can make a request
      obtain ⟨hcaller, hothers⟩ := h
      have hens : Ensures (alone t.call.lib none) t.Outcome (c.thread none) c.state := hcaller
      obtain ⟨op, next, a, hthread, hown, hupdate⟩ := hstep.alone (i := none) fun j hj ↦ by
        obtain ⟨i, rfl⟩ := Option.ne_none_iff_exists'.1 hj
        exact hothers i
      rw [hthread] at hens
      refine ⟨?_, fun i ↦ ?_⟩
      · show Ensures _ _ (c'.thread none) c'.state
        rw [hupdate, Function.update_self]
        exact hens.2 a c'.state hown
      · show (c'.thread (some i)).hasReturned = true
        rw [hupdate, Function.update_of_ne (Option.some_ne_none i)]
        exact hothers i
    · obtain ⟨level, hlevel, hinv, hens⟩ := h
      obtain ⟨hinv', hens'⟩ := (level_relying ht).step_ensures ⟨hinv, hens⟩ hstep
      exact ⟨level, hlevel, hinv', hens'⟩
  · rename_i k c
    obtain ⟨level, hlevel, hinv, hens⟩ := h
    have hreturned : ∀ j : Thread n, Returned level j c.state := fun j ↦ by
      have hj := hens j
      have hdone' := hdone j
      rcases hthread : c.thread j with a | ⟨op, next⟩
      · rw [hthread] at hj
        exact hj
      · rw [hthread] at hdone'
        cases hdone'
    refine runInv_enterLevel ht ⟨hinv.inv, hinv.compiled, hinv.raised, hinv.hasError, ?_⟩
    rcases hinv.level_dealt hn hreturned with herror | hdealt
    · exact .inl herror
    · refine hinv.before.imp id fun hbefore k' hk' level' hlevel' ↦ ?_
      rcases Nat.lt_succ_iff_lt_or_eq.1 hk' with hlt | rfl
      · exact hbefore k' hlt level' hlevel'
      · rw [hlevel] at hlevel'
        obtain rfl := Option.some.inj hlevel'
        exact hdealt

end Level

end CompileSetting

end FastRules
