import FastRules.Engine.Compiling
import FastRules.Workflow.Compile

/-!
# What holds all through a compilation

A compilation of a workflow goes into the caller's engine and into clones of it that are made on the
way. `CompileSetting.Inv` is what is true at any time, of all of them at once: the engines have the
settings of the caller's engine, a clone has records of rules that compile only, and a rule with a
record has children with records, unless the record is from before. `step_facts` says what a request
that is permitted does then; `compileAll_ensures` and `afterLevels_ensures` are what comes of it
where the caller is alone.
-/

namespace FastRules

open Program

/-- A compilation of a workflow, with the state it is called in. -/
structure CompileSetting (ι : Type) where
  call : CompileCall
  rules : List Rule
  start : CompileState ι

namespace CompileSetting

variable {ι : Type} (t : CompileSetting ι)

/-- The compilation into one engine. Those to come have no records from before. -/
def into (engine : InstanceId) : Compilation where
  lib := t.call.lib
  maxExpressionLength := (t.start.engines t.call.engine).maxExpressionLength
  nodes := nodesOf t.rules
  engine
  generation := if t.start.nextInstance ≤ engine then 0 else (t.start.engines engine).generation
  fresh := t.start.nextInstance ≤ engine

/-- All texts load. -/
def AllCompile : Prop :=
  ∀ r ∈ t.rules, r.Compiles t.call.lib (t.start.engines t.call.engine).maxExpressionLength

/-- What is promised by the caller, and holds between any two calls: nobody else compiles the rules,
the engine exists, engines to come have no records. -/
structure Proper : Prop where
  objects : SameObjects (nodesOf t.rules)
  unlocked : ∀ p, t.start.lockedBy p = none
  engine_lt : t.call.engine < t.start.nextInstance
  unborn : ∀ p engine, t.start.nextInstance ≤ engine → t.start.records p engine = none
  noResets : (t.start.engines t.call.engine).autoResetThresholdKB = 0

/-- The engines that are compiled into. -/
def Known (s : CompileState ι) (engine : InstanceId) : Prop :=
  engine = t.call.engine ∨ t.start.nextInstance ≤ engine ∧ engine < s.nextInstance

/-- There is a record for the rule that says what it should. -/
def Stored (s : CompileState ι) (engine : InstanceId) (r : RuleFields) : Prop :=
  ∃ c, s.records r.ptr engine = some c ∧ c.generation = (t.into engine).generation ∧
    c.sourceHash = sourceFingerprint t.call.lib r

/-- The objects with such a record. -/
def marked (s : CompileState ι) (engine : InstanceId) : Set RulePtr :=
  {p | ∃ q ∈ nodesOf t.rules, q.ptr = p ∧ t.Stored s engine q.toRuleFields}

/-- The invariant. -/
structure Inv (s : CompileState ι) : Prop where
  next : t.start.nextInstance ≤ s.nextInstance
  engines : ∀ engine, t.Known s engine →
    (s.engines engine).maxExpressionLength = (t.start.engines t.call.engine).maxExpressionLength ∧
      (s.engines engine).autoResetThresholdKB = 0 ∧
      (s.engines engine).generation = (t.into engine).generation
  unborn : ∀ p engine, s.nextInstance ≤ engine → s.records p engine = none
  fresh : ∀ p engine, t.start.nextInstance ≤ engine → s.records p engine ≠ none →
    (t.into engine).Good p ∧ s.isCompiled p = true
  below : ∀ engine, ∀ q ∈ nodesOf t.rules, t.Stored s engine q.toRuleFields →
    t.Stored t.start engine q.toRuleFields ∨
      ∀ child ∈ q.childRules, t.Stored s engine child.toRuleFields

/-- What does not go back while somebody compiles. -/
structure Later (s s' : CompileState ι) : Prop where
  next : s.nextInstance ≤ s'.nextInstance
  marked : ∀ engine, t.marked s engine ⊆ t.marked s' engine
  hasError : s.hasError = true → s'.hasError = true
  nextRule : s.nextRule ≤ s'.nextRule
  storage : s'.enginePoolStorage = s.enginePoolStorage
  compiled : s'.compiled = s.compiled

/-- Some clone has a record of the rule. -/
def Dealt (s : CompileState ι) (r : RuleFields) : Prop :=
  ∃ engine, t.start.nextInstance ≤ engine ∧ r.ptr ∈ t.marked s engine

/-- What a thread knows of its requests at a level. -/
def interface (level : List Rule) (j : ι) :
    Interface CompileOp CompileOp.Ans (CompileState ι) where
  pre
    | .lock _, _ => True
    | .unlock _, _ => True
    | .lookupCompilation r engine, s => t.Known s engine ∧ ∃ q ∈ nodesOf t.rules, q.toRuleFields = r
    | .getGeneration engine, s => t.Known s engine
    | .compileChunk engine _, s => t.Known s engine
    | .store p engine c, s => t.Known s engine ∧ (t.into engine).Accurate (t.marked s engine) p c
    | .clone engine, _ => engine = t.call.engine
    | .hasError, _ => True
    | .nextRule, s => ∀ k rule, s.idx j = some k → level[k]? = some rule →
        t.Dealt s rule.toRuleFields
    | .fail _, _ => ¬t.AllCompile
    | _, _ => False
  step op s a s' := t.Later s s' ∧
    match op, a with
    | .lookupCompilation r engine, a => s'.idx j = s.idx j ∧
        (t.into engine).interface.step (.lookupCompilation r engine) (t.marked s engine) a
          (t.marked s' engine)
    | .getGeneration engine, a => s'.idx j = s.idx j ∧ a = (t.into engine).generation
    | .compileChunk engine chunk, a => s'.idx j = s.idx j ∧
        a.isOk = chunkLoads (t.into engine).lib (t.into engine).maxExpressionLength chunk
    | .store p engine _, _ => s'.idx j = s.idx j ∧ p ∈ t.marked s' engine
    | .clone _, a => s'.idx j = s.idx j ∧ t.start.nextInstance ≤ a ∧ a < s'.nextInstance
    | .hasError, a => s'.idx j = s.idx j ∧ (a = true → s'.hasError = true)
    | .nextRule, a => s'.idx j = some a ∧ s.nextRule ≤ a ∧ a < s'.nextRule
    | .fail _, _ => s'.hasError = true
    | _, _ => s'.idx j = s.idx j

variable {t} {s s' s₁ s₂ s₃ : CompileState ι} {engine : InstanceId}

/-! ### The invariant -/

theorem Later.refl (s : CompileState ι) : t.Later s s :=
  ⟨le_refl _, fun _ ↦ subset_refl _, id, le_refl _, rfl, rfl⟩

theorem Later.trans (h₁ : t.Later s₁ s₂) (h₂ : t.Later s₂ s₃) : t.Later s₁ s₃ :=
  ⟨h₁.next.trans h₂.next, fun engine ↦ (h₁.marked engine).trans (h₂.marked engine),
    fun h ↦ h₂.hasError (h₁.hasError h), h₁.nextRule.trans h₂.nextRule, h₂.storage.trans h₁.storage,
    h₂.compiled.trans h₁.compiled⟩

theorem Later.known (h : t.Later s s') (hknown : t.Known s engine) : t.Known s' engine :=
  hknown.imp id fun hnew ↦ ⟨hnew.1, hnew.2.trans_le h.next⟩

theorem Later.dealt (h : t.Later s s') {r : RuleFields} (hdealt : t.Dealt s r) : t.Dealt s' r := by
  obtain ⟨engine, hnew, hmarked⟩ := hdealt
  exact ⟨engine, hnew, h.marked engine hmarked⟩

/-- What has the address of a marked object is stored. -/
theorem stored_of_mem_marked (hobjects : SameObjects (nodesOf t.rules)) {q : Rule}
    (hq : q ∈ nodesOf t.rules) (h : q.ptr ∈ t.marked s engine) :
    t.Stored s engine q.toRuleFields := by
  obtain ⟨p, hp, hptr, hstored⟩ := h
  rwa [hobjects q hq p hp hptr.symm]

theorem stored_congr (h : s'.records = s.records) {r : RuleFields} :
    t.Stored s' engine r ↔ t.Stored s engine r := by
  rw [Stored, Stored, h]

theorem marked_congr (h : s'.records = s.records) (engine : InstanceId) :
    t.marked s' engine = t.marked s engine := by
  rw [marked, marked]
  simp only [stored_congr h]

/-- In an engine that is compiled into, what is stored is current. -/
theorem Inv.current_iff (h : t.Inv s) (hknown : t.Known s engine) {r : RuleFields} :
    s.Current t.call.lib engine r ↔ t.Stored s engine r := by
  rw [Compilations.current_iff, (h.engines engine hknown).2.2]
  rfl

theorem Proper.start_inv (ht : t.Proper) : t.Inv t.start where
  next := le_refl _
  engines engine hknown := by
    rcases hknown with rfl | ⟨hnew, hlt⟩
    · refine ⟨rfl, ht.noResets, ?_⟩
      exact (if_neg ht.engine_lt.not_ge).symm
    · exact absurd hlt hnew.not_gt
  unborn := ht.unborn
  fresh p engine hnew hne := absurd (ht.unborn p engine hnew) hne
  below engine q hq h := .inl h

/-- Where records stay as they are, only the engines matter. -/
theorem Inv.of_records (h : t.Inv s) (hrecords : s'.records = s.records)
    (hcompiled : s'.isCompiled = s.isCompiled) (hnext : s.nextInstance ≤ s'.nextInstance)
    (hengines : ∀ engine, t.Known s' engine →
      (s'.engines engine).maxExpressionLength =
          (t.start.engines t.call.engine).maxExpressionLength ∧
        (s'.engines engine).autoResetThresholdKB = 0 ∧
        (s'.engines engine).generation = (t.into engine).generation) : t.Inv s' where
  next := h.next.trans hnext
  engines := hengines
  unborn p engine hge := by
    rw [hrecords]
    exact h.unborn p engine (hnext.trans hge)
  fresh p engine hnew hne := by
    rw [hrecords] at hne
    rw [hcompiled]
    exact h.fresh p engine hnew hne
  below engine q hq hstored := by
    simp only [stored_congr hrecords] at hstored ⊢
    exact h.below engine q hq hstored

theorem Inv.of_compilations (h : t.Inv s) (heq : s'.toCompilations = s.toCompilations)
    (hcompiled : s'.isCompiled = s.isCompiled) (hnext : s'.nextInstance = s.nextInstance) :
    t.Inv s' := by
  refine h.of_records (by rw [heq]) hcompiled hnext.ge fun engine hknown ↦ ?_
  rw [heq]
  rw [Known, hnext] at hknown
  exact h.engines engine hknown

section Store

variable {p : RulePtr} {c : EngineCompilation}

/-- A record is stored. -/
theorem stored_store (ht : t.Proper) (hacc : (t.into engine).Accurate (t.marked s engine) p c)
    (hrecords : s'.records = (s.toCompilations.store p engine c).records) {engine' : InstanceId}
    {q : Rule} (hq : q ∈ nodesOf t.rules) :
    t.Stored s' engine' q.toRuleFields ↔
      t.Stored s engine' q.toRuleFields ∨ q.ptr = p ∧ engine' = engine := by
  rw [Stored, Stored, hrecords]
  by_cases hsame : q.ptr = p ∧ engine' = engine
  · refine iff_of_true ?_ (.inr hsame)
    obtain ⟨rfl, rfl⟩ := hsame
    obtain ⟨r, hr, hptr, hhash, -⟩ := hacc.rule
    obtain rfl := ht.objects r hr q hq hptr
    exact ⟨c, Compilations.store_records_self _ _ _ _, hacc.generation, hhash⟩
  · rw [Compilations.store_records_of_ne _ _ (by tauto), or_iff_left hsame]

theorem Inv.store (ht : t.Proper) (h : t.Inv s) (hknown : t.Known s engine)
    (hacc : (t.into engine).Accurate (t.marked s engine) p c)
    (hs' : s'.toCompilations = s.toCompilations.store p engine c)
    (hcompiled : s'.isCompiled = Function.update s.isCompiled p true)
    (hnext : s'.nextInstance = s.nextInstance) : t.Inv s' := by
  have hrecords : s'.records = (s.toCompilations.store p engine c).records := by rw [hs']
  -- only the record of `p` for `engine` can be new
  have hof_ne : ∀ q engine', s'.records q engine' ≠ none → q = p ∧ engine' = engine ∨
      s.records q engine' ≠ none := by
    intro q engine' hne
    by_cases hsame : q = p ∧ engine' = engine
    · exact .inl hsame
    · rw [hrecords, Compilations.store_records_of_ne _ _ (by tauto)] at hne
      exact .inr hne
  refine ⟨hnext ▸ h.next, fun engine' hknown' ↦ ?_, fun q engine' hge ↦ ?_,
    fun q engine' hnew hne ↦ ?_,
    fun engine' q hq hstored ↦ ?_⟩
  · rw [Known, hnext] at hknown'
    rw [hs']
    exact h.engines engine' hknown'
  · rw [hnext] at hge
    by_contra hne
    rcases hof_ne q engine' hne with ⟨-, rfl⟩ | hne
    · -- a record is stored for a known engine only, and none is as high as this one
      rcases hknown with rfl | ⟨-, hlt⟩
      · exact absurd (ht.engine_lt.trans_le h.next) hge.not_gt
      · exact absurd hlt hge.not_gt
    · exact hne (h.unborn q engine' hge)
  · rw [hcompiled]
    rcases hof_ne q engine' hne with ⟨rfl, rfl⟩ | hne
    · refine ⟨hacc.good hnew, ?_⟩
      rw [Function.update_self]
    · obtain ⟨hgood, hdone⟩ := h.fresh q engine' hnew hne
      refine ⟨hgood, ?_⟩
      rw [Function.update_apply]
      split_ifs
      · rfl
      · exact hdone
  · have hmono : ∀ child ∈ q.childRules, t.Stored s engine' child.toRuleFields →
        t.Stored s' engine' child.toRuleFields := fun child hchild hchild' ↦
      (stored_store ht hacc hrecords (Rule.mem_nodesOf_trans hq (Rule.mem_nodes_of_mem_below
        (Rule.mem_nodesOf_of_mem hchild)))).2 (.inl hchild')
    rcases (stored_store ht hacc hrecords hq).1 hstored with hstored | ⟨rfl, rfl⟩
    · exact (h.below engine' q hq hstored).imp id fun hchildren child hchild ↦
        hmono child hchild (hchildren child hchild)
    · -- the new record: the children were marked before it was stored
      obtain ⟨r, hr, hptr, -, hchildren⟩ := hacc.rule
      obtain rfl := ht.objects r hr q hq hptr
      refine .inr fun child hchild ↦ hmono child hchild
        (stored_of_mem_marked ht.objects ?_ (hchildren child hchild))
      exact Rule.mem_nodesOf_trans hq (Rule.mem_nodes_of_mem_below (Rule.mem_nodesOf_of_mem hchild))

end Store

/-! ### One request -/

/-- A request that leaves records and engines alone. -/
theorem Inv.bookkeeping (h : t.Inv s) (heq : s'.toCompilations = s.toCompilations)
    (hdone : s'.isCompiled = s.isCompiled) (hnext : s'.nextInstance = s.nextInstance)
    (herror : s.hasError = true → s'.hasError = true) (hrule : s.nextRule ≤ s'.nextRule)
    (hstorage : s'.enginePoolStorage = s.enginePoolStorage) (hcompiled : s'.compiled = s.compiled) :
    t.Inv s' ∧ t.Later s s' :=
  ⟨h.of_compilations heq hdone hnext, hnext.ge, fun _ ↦ (marked_congr (by rw [heq]) _).ge, herror,
    hrule, hstorage, hcompiled⟩

section Step

variable [DecidableEq ι] {level : List Rule} {j : ι} {op : CompileOp} {a : op.Ans}

/-- A request that is permitted keeps the invariant, and is answered as the thread expects. -/
theorem step_facts (ht : t.Proper) (hinv : t.Inv s) (hpre : (t.interface level j).pre op s)
    (hstep : CompileState.step t.call.lib j op s a s') :
    t.Inv s' ∧ (t.interface level j).step op s a s' := by
  -- one case for each request; those that are not made while threads compile come last
  obtain ⟨-, memKB, hstep⟩ := hstep
  cases op with
  | lock p =>
    obtain ⟨-, rfl⟩ := Prod.mk.inj hstep
    exact and_assoc.1 ⟨hinv.bookkeeping rfl rfl rfl id (le_refl _) rfl rfl, rfl⟩
  | unlock p =>
    obtain ⟨-, rfl⟩ := Prod.mk.inj hstep
    exact and_assoc.1 ⟨hinv.bookkeeping rfl rfl rfl id (le_refl _) rfl rfl, rfl⟩
  | lookupCompilation r engine =>
    obtain ⟨rfl, rfl⟩ := Prod.mk.inj hstep
    obtain ⟨hknown, q, hq, rfl⟩ := hpre
    refine ⟨hinv, .refl s, rfl, subset_refl _, fun hfound ↦ ⟨?_, fun hnew ↦ ?_⟩⟩
    · exact ⟨q, hq, rfl, (hinv.current_iff hknown).1 hfound⟩
    · obtain ⟨c, hrecord, -⟩ := Compilations.current_iff.1 hfound
      exact (hinv.fresh _ engine hnew (by rw [hrecord]; exact Option.some_ne_none c)).1
  | getGeneration engine =>
    obtain ⟨rfl, rfl⟩ := Prod.mk.inj hstep
    exact ⟨hinv, .refl s, rfl, (hinv.engines engine hpre).2.2⟩
  | compileChunk engine chunk =>
    obtain ⟨rfl, rfl⟩ := Prod.mk.inj hstep
    obtain ⟨hmax, hoff, hgeneration⟩ := hinv.engines engine hpre
    obtain ⟨hmax', hoff', hgeneration'⟩ := (s.engines engine).compile_frame t.call.lib memKB chunk
    refine ⟨hinv.of_records rfl rfl (le_refl _) fun engine' hknown ↦ ?_,
      ⟨le_refl _, fun _ ↦ (marked_congr rfl _).ge, id, le_refl _, rfl, rfl⟩, rfl, ?_⟩
    · show (Function.update s.engines engine _ engine').maxExpressionLength = _ ∧
        (Function.update s.engines engine _ engine').autoResetThresholdKB = 0 ∧
        (Function.update s.engines engine _ engine').generation = _
      -- automatic resets are off, so the generation of the engine stays
      rcases eq_or_ne engine' engine with rfl | hne
      · rw [Function.update_self]
        exact ⟨hmax'.trans hmax, hoff'.trans hoff, (hgeneration' hoff).trans hgeneration⟩
      · rw [Function.update_of_ne hne]
        exact hinv.engines engine' hknown
    · refine ((s.engines engine).compile_isOk t.call.lib memKB chunk).trans ?_
      rw [hmax]
      rfl
  | store p engine c =>
    obtain ⟨-, hs'⟩ := Prod.mk.inj hstep
    obtain ⟨hknown, hacc⟩ := hpre
    have hrecords : s'.records = (s.toCompilations.store p engine c).records := by rw [← hs']
    have hmono : ∀ engine', ∀ r ∈ nodesOf t.rules, t.Stored s engine' r.toRuleFields ∨
        r.ptr = p ∧ engine' = engine → t.Stored s' engine' r.toRuleFields :=
      fun engine' r hr ↦ (stored_store ht hacc hrecords hr).2
    subst hs'
    refine ⟨hinv.store ht hknown hacc rfl rfl rfl,
      ⟨le_refl _, fun engine' q hq ↦ ?_, id, le_refl _, rfl, rfl⟩, rfl, ?_⟩
    · obtain ⟨r, hr, hptr, hr'⟩ := hq
      exact ⟨r, hr, hptr, hmono engine' r hr (.inl hr')⟩
    · obtain ⟨r, hr, hptr, -⟩ := hacc.rule
      exact ⟨r, hr, hptr, hmono engine r hr (.inr ⟨hptr, rfl⟩)⟩
  | clone engine =>
    obtain ⟨rfl, rfl⟩ := Prod.mk.inj hstep
    obtain ⟨hmax, hoff, -⟩ := hinv.engines engine (.inl hpre)
    refine ⟨hinv.of_records rfl rfl (Nat.le_succ _) fun engine' hknown' ↦ ?_,
      ⟨Nat.le_succ _, fun _ ↦ (marked_congr rfl _).ge, id, le_refl _, rfl, rfl⟩, rfl, hinv.next,
      Nat.lt_succ_self _⟩
    show (Function.update s.engines s.nextInstance _ engine').maxExpressionLength = _ ∧
      (Function.update s.engines s.nextInstance _ engine').autoResetThresholdKB = 0 ∧
      (Function.update s.engines s.nextInstance _ engine').generation = _
    -- the clone has the settings of the engine and a fresh number
    rcases eq_or_ne engine' s.nextInstance with rfl | hne
    · rw [Function.update_self]
      exact ⟨hmax, hoff, (if_pos hinv.next).symm⟩
    · rw [Function.update_of_ne hne]
      refine hinv.engines engine' (hknown'.imp id fun hnew ↦ ⟨hnew.1, ?_⟩)
      exact lt_of_le_of_ne (Nat.lt_succ_iff.1 hnew.2) hne
  | hasError =>
    obtain ⟨rfl, rfl⟩ := Prod.mk.inj hstep
    exact ⟨hinv, .refl s, rfl, id⟩
  | nextRule =>
    obtain ⟨rfl, rfl⟩ := Prod.mk.inj hstep
    exact and_assoc.1 ⟨hinv.bookkeeping rfl rfl rfl id (Nat.le_succ _) rfl rfl,
      Function.update_self j _ s.idx, le_refl _, Nat.lt_succ_self _⟩
  | fail message =>
    obtain ⟨-, rfl⟩ := Prod.mk.inj hstep
    exact and_assoc.1 ⟨hinv.bookkeeping rfl rfl rfl (fun _ ↦ rfl) (le_refl _) rfl rfl, rfl⟩
  | _ => exact absurd hpre id

end Step

/-! ### The workers -/

section Workers

variable {level : List Rule} {j : ι}

/-- A compilation into one engine, seen by the thread that makes it. -/
theorem ensures_of_into {α : Type} {Q : α → Set RulePtr → Prop} {p : CompileProgram α}
    (h : Ensures (t.into engine).interface Q p (t.marked s engine)) (hknown : t.Known s engine) :
    Ensures (t.interface level j)
      (fun a s' ↦ Q a (t.marked s' engine) ∧ t.Later s s' ∧ s'.idx j = s.idx j) p s := by
  refine h.of_view_inv (fun s ↦ t.marked s engine) (R := fun s' ↦ t.Later s s' ∧ s'.idx j = s.idx j)
    (fun op s₁ hR hpre ↦ ?_) (fun op s₁ a s₂ hR hpre hstep ↦ ?_) ⟨.refl s, rfl⟩
  · -- what the compilation may ask for in its own interface it may ask for here
    have hknown₁ := hR.1.known hknown
    cases op with
    | lock p => trivial
    | unlock p => trivial
    | lookupCompilation r engine' =>
      obtain ⟨rfl, hr⟩ := hpre
      exact ⟨hknown₁, hr⟩
    | getGeneration engine' =>
      obtain rfl : engine' = engine := hpre
      exact hknown₁
    | compileChunk engine' chunk =>
      obtain rfl : engine' = engine := hpre
      exact hknown₁
    | store p engine' c =>
      obtain ⟨rfl, hacc⟩ := hpre
      exact ⟨hknown₁, hacc⟩
    | _ => exact absurd hpre id
  · -- and what it is told here it is told there
    obtain ⟨hlater, hidx⟩ := hR
    obtain ⟨hlater', hanswer⟩ := hstep
    have hsub := hlater'.marked engine
    have hR : s₂.idx j = s₁.idx j → t.Later s s₂ ∧ s₂.idx j = s.idx j := fun hsame ↦
      ⟨hlater.trans hlater', hsame.trans hidx⟩
    cases op with
    | lock p => exact ⟨⟨hsub, trivial⟩, hR hanswer⟩
    | unlock p => exact ⟨⟨hsub, trivial⟩, hR hanswer⟩
    | lookupCompilation r engine' =>
      obtain ⟨rfl, hr⟩ := hpre
      exact ⟨hanswer.2, hR hanswer.1⟩
    | getGeneration engine' =>
      obtain rfl : engine' = engine := hpre
      exact ⟨⟨hsub, hanswer.2⟩, hR hanswer.1⟩
    | compileChunk engine' chunk =>
      obtain rfl : engine' = engine := hpre
      exact ⟨⟨hsub, hanswer.2⟩, hR hanswer.1⟩
    | store p engine' c =>
      obtain ⟨rfl, hacc⟩ := hpre
      exact ⟨⟨hsub, hanswer.2⟩, hR hanswer.1⟩
    | _ => exact absurd hpre id

/-- A worker is done when it has seen an error, or got an index past the end of the level. -/
def WorkerDone (level : List Rule) (j : ι) (s : CompileState ι) : Prop :=
  s.hasError = true ∨ ∃ a, s.idx j = some a ∧ level.length ≤ a

/-- Where the loop of a worker is, with so many passes to come: at the beginning, or behind the pass
for some index, whose rule is dealt with. -/
def AtPass (t : CompileSetting ι) (level : List Rule) (j : ι) (passes : ℕ) (s : CompileState ι) :
    Prop :=
  s.idx j = none ∧ level.length < passes ∨
    ∃ a rule, s.idx j = some a ∧ level[a]? = some rule ∧ a < s.nextRule ∧ level.length ≤
      a + passes ∧
      t.Dealt s rule.toRuleFields

theorem workerLoop_ensures (ht : t.Proper) (hlevel : ∀ r ∈ level, r ∈ t.rules) (passes : ℕ)
    (hnew : t.start.nextInstance ≤ engine) (hlt : engine < s.nextInstance)
    (h : t.AtPass level j passes s) :
    Ensures (t.interface level j) (fun _ ↦ WorkerDone level j)
      (t.call.workerLoop level engine passes) s := by
  induction passes generalizing s with
  | zero =>
    rcases h with ⟨-, hlt⟩ | ⟨a, rule, -, hrule, -, hle, -⟩
    · exact absurd hlt (Nat.not_lt_zero _)
    · exact absurd (List.getElem?_eq_some_iff.1 hrule).1 hle.not_gt
  | succ passes ih =>
    refine ensures_perform_bind trivial fun hasError s₁ h₁ ↦ ?_
    obtain ⟨hlater₁, hidx₁, herror⟩ := h₁
    rcases hasError with - | -
    · -- take the next index
      refine ensures_perform_bind (fun k rule hk hrule ↦ ?_) fun idx s₂ h₂ ↦ ?_
      · rcases h with ⟨hnone, -⟩ | ⟨a, rule', ha, hrule', -, -, hdealt⟩
        · rw [hidx₁, hnone] at hk
          cases hk
        · rw [hidx₁, ha] at hk
          obtain rfl := Option.some.inj hk
          rw [hrule] at hrule'
          obtain rfl := Option.some.inj hrule'
          exact hlater₁.dealt hdealt
      · obtain ⟨hlater₂, hidx₂, hge, hidxlt⟩ := h₂
        rcases hrule : level[idx]? with - | rule
        · exact .inr ⟨idx, hidx₂, List.getElem?_eq_none_iff.1 hrule⟩
        · have hrules : rule ∈ t.rules := hlevel rule (List.mem_of_getElem? hrule)
          have hlater := hlater₁.trans hlater₂
          have hcompile := Compilation.compile_ensures (x := t.into engine) ht.objects rule
            (fun q hq ↦ Rule.mem_nodesOf.2 ⟨rule, hrules, hq⟩) (t.marked s₂ engine)
          refine (ensures_bind _ _ _).2 ((ensures_of_into hcompile
            (.inr ⟨hnew, hlt.trans_le hlater.next⟩)).mono fun result s₃ h₃ ↦ ?_)
          obtain ⟨⟨-, hok, hbad⟩, hlater₃, hidx₃⟩ := h₃
          rcases result with e | ⟨⟩
          · exact ensures_perform_bind (fun hall ↦ hbad rfl (hall rule hrules)) fun _ s₄ h₄ ↦
              .inl h₄.2
          · refine ih (hlt.trans_le (hlater.trans hlater₃).next)
              (.inr ⟨idx, rule, hidx₃.trans hidx₂,
              hrule, hidxlt.trans_le hlater₃.nextRule, ?_, engine, hnew, (hok rfl).1⟩)
            rcases h with ⟨-, hlen⟩ | ⟨a, -, -, -, ha, hle, -⟩
            · omega
            · have := hlater₁.nextRule
              omega
    · exact .inl (herror rfl)

/-- A worker that starts on a level goes on to its end, or to an error. -/
theorem worker_ensures (ht : t.Proper) (hlevel : ∀ r ∈ level, r ∈ t.rules) (hidx : s.idx j = none) :
    Ensures (t.interface level j) (fun _ ↦ WorkerDone level j) (t.call.worker level) s := by
  refine ensures_perform_bind rfl fun engine s₁ h₁ ↦ ?_
  obtain ⟨-, hidx₁, hnew, hlt⟩ := h₁
  exact workerLoop_ensures ht hlevel _ hnew hlt (.inl ⟨hidx₁.trans hidx, Nat.lt_succ_self _⟩)

end Workers

end CompileSetting

end FastRules
