import FastRules.Engine.Compile
import FastRules.Foundations.Locking

/-!
# What a compilation comes to

A rule compiles if its texts and those of all rules below it pass their checks and load
(`Rule.Compiles`), whatever engine compiles them; that a record is found instead does not change the
outcome if records are left only for what compiles (`compile_ensures`). Locks are taken from a rule
to its children, so a lock always belongs to a smaller tree than the locks that are held
(`compile_ranked`).
-/

namespace FastRules

open Program

/-! ### Engines -/

/-- The chunk is short enough, and it loads if there is something to load. -/
def chunkLoads (lib : LuaLibrary) (maxExpressionLength : ℕ) (chunk : Chunk) : Bool :=
  !(0 < maxExpressionLength && maxExpressionLength < chunk.source.length) &&
    (LuaEngine.nothingIn chunk || (lib.load chunk).isOk)

section Engine

variable (lib : LuaLibrary) (memKB : ℕ)

theorem LuaEngine.autoReset_frame (e : LuaEngine) :
    (e.autoReset memKB).maxExpressionLength = e.maxExpressionLength ∧
      (e.autoReset memKB).autoResetThresholdKB = e.autoResetThresholdKB := by
  rw [autoReset]
  split_ifs <;> exact ⟨rfl, rfl⟩

theorem LuaEngine.autoReset_off {e : LuaEngine} (h : e.autoResetThresholdKB = 0) :
    e.autoReset memKB = e := by
  rw [autoReset, if_neg (by simp [h])]

theorem LuaEngine.register_isOk (chunk : Chunk) (e : LuaEngine) :
    (e.register lib chunk).1.isOk = (lib.load chunk).isOk := by
  rw [register]
  rcases lib.load chunk with message | _ <;> rfl

theorem LuaEngine.register_frame (chunk : Chunk) (e : LuaEngine) :
    (e.register lib chunk).2.generation = e.generation ∧
      (e.register lib chunk).2.maxExpressionLength = e.maxExpressionLength ∧
      (e.register lib chunk).2.autoResetThresholdKB = e.autoResetThresholdKB := by
  rw [register]
  rcases lib.load chunk with message | _ <;> exact ⟨rfl, rfl, rfl⟩

/-- Whether an engine compiles a chunk depends on the chunk and the limit on its length. -/
theorem LuaEngine.compile_isOk (chunk : Chunk) (e : LuaEngine) :
    (e.compile lib memKB chunk).1.isOk = chunkLoads lib e.maxExpressionLength chunk := by
  obtain ⟨kind, source⟩ := chunk
  rw [compile, chunkLoads]
  rcases kind with - | -
  · show (e.compileExpression lib memKB source).1.isOk =
      (!e.exceeds source && (isBlank source || (lib.load ⟨.expression, source⟩).isOk))
    rw [compileExpression]
    rcases Bool.eq_false_or_eq_true (e.exceeds source) with hlong | hlong
    · rw [if_pos hlong, hlong]
      rfl
    · rw [if_neg (by simp [hlong]), hlong]
      rcases Bool.eq_false_or_eq_true (isBlank source) with hblank | hblank
      · rw [if_pos hblank, hblank]
        rfl
      · rw [if_neg (by simp [hblank]), hblank, register_isOk]
        simp
  · show (e.compileAction lib memKB source).1.isOk =
      (!e.exceeds source && (decide (source = "") || (lib.load ⟨.action, source⟩).isOk))
    rw [compileAction]
    rcases eq_or_ne source "" with rfl | hne
    · rw [if_pos rfl]
      simp [exceeds, Except.isOk, Except.toBool]
    · rw [if_neg hne, decide_eq_false hne]
      rcases Bool.eq_false_or_eq_true (e.exceeds source) with hlong | hlong
      · rw [if_pos hlong, hlong]
        rfl
      · rw [if_neg (by simp [hlong]), hlong, register_isOk]
        simp

/-- Compiling keeps the settings of an engine, and its generation if there are no automatic
resets. -/
theorem LuaEngine.compile_frame (chunk : Chunk) (e : LuaEngine) :
    (e.compile lib memKB chunk).2.maxExpressionLength = e.maxExpressionLength ∧
      (e.compile lib memKB chunk).2.autoResetThresholdKB = e.autoResetThresholdKB ∧
      (e.autoResetThresholdKB = 0 → (e.compile lib memKB chunk).2.generation = e.generation) := by
  have hload : ∀ c, ((e.autoReset memKB).register lib c).2.maxExpressionLength =
      e.maxExpressionLength ∧
      ((e.autoReset memKB).register lib c).2.autoResetThresholdKB = e.autoResetThresholdKB ∧
      (e.autoResetThresholdKB = 0 → ((e.autoReset memKB).register lib c).2.generation =
        e.generation) := by
    intro c
    obtain ⟨hgeneration, hmax, hthreshold⟩ := (e.autoReset memKB).register_frame lib c
    obtain ⟨hmax', hthreshold'⟩ := e.autoReset_frame memKB
    refine ⟨hmax.trans hmax', hthreshold.trans hthreshold', fun h ↦ ?_⟩
    rw [hgeneration, autoReset_off memKB h]
  obtain ⟨kind, source⟩ := chunk
  rw [compile]
  rcases kind with - | -
  · show (e.compileExpression lib memKB source).2.maxExpressionLength = _ ∧ _
    rw [compileExpression]
    split_ifs
    · exact ⟨rfl, rfl, fun _ ↦ rfl⟩
    · exact ⟨rfl, rfl, fun _ ↦ rfl⟩
    · exact hload _
  · show (e.compileAction lib memKB source).2.maxExpressionLength = _ ∧ _
    rw [compileAction]
    split_ifs
    · exact ⟨rfl, rfl, fun _ ↦ rfl⟩
    · exact ⟨rfl, rfl, fun _ ↦ rfl⟩
    · exact hload _

end Engine

/-! ### Rules -/

section Rules

variable (lib : LuaLibrary) (maxExpressionLength : ℕ)

/-- A text of the rule passes its check and loads. -/
def RuleFields.loads (kind : ChunkKind) (r : RuleFields) : Bool :=
  r.sourceOf kind = "" || ((lib.validate (r.sourceOf kind)).valid &&
    chunkLoads lib maxExpressionLength ⟨kind, r.sourceOf kind⟩)

/-- Both texts of the rule and of all rules below it load. -/
def Rule.Compiles (r : Rule) : Prop :=
  ∀ q ∈ r.nodes, q.loads lib maxExpressionLength .expression = true ∧
    q.loads lib maxExpressionLength .action = true

theorem Rule.compiles_iff (r : Rule) : r.Compiles lib maxExpressionLength ↔
    r.loads lib maxExpressionLength .expression = true ∧
      r.loads lib maxExpressionLength .action = true ∧
      ∀ child ∈ r.childRules, child.Compiles lib maxExpressionLength := by
  rw [Compiles, nodes_eq, List.forall_mem_cons, and_assoc]
  refine and_congr_right fun _ ↦ and_congr_right fun _ ↦
    ⟨fun h child hchild q hq ↦ ?_, fun h q hq ↦ ?_⟩
  · exact h q (mem_nodesOf.2 ⟨child, hchild, hq⟩)
  · obtain ⟨child, hchild, hq⟩ := mem_nodesOf.1 hq
    exact h child hchild q hq

/-- Nodes with one address are one object. -/
def SameObjects (nodes : List Rule) : Prop :=
  ∀ p ∈ nodes, ∀ q ∈ nodes, p.ptr = q.ptr → p = q

end Rules

/-! ### The outcome -/

/-- What is fixed during the compilation of some rules into one engine. -/
structure Compilation where
  lib : LuaLibrary
  maxExpressionLength : ℕ
  /-- All rules in sight. -/
  nodes : List Rule
  engine : InstanceId
  generation : BitVec 32
  /-- The engine has no records from before. -/
  fresh : Prop

namespace Compilation

variable (x : Compilation)

/-- The object compiles. -/
def Good (p : RulePtr) : Prop :=
  ∀ r ∈ x.nodes, r.ptr = p → r.Compiles x.lib x.maxExpressionLength

/-- The record says what it should, and the children of the rule have been dealt with. -/
structure Accurate (marked : Set RulePtr) (p : RulePtr) (c : EngineCompilation) : Prop where
  good : x.fresh → x.Good p
  generation : c.generation = x.generation
  rule : ∃ r ∈ x.nodes, r.ptr = p ∧ c.sourceHash = sourceFingerprint x.lib r.toRuleFields ∧
    ∀ child ∈ r.childRules, child.ptr ∈ marked

/-- The interface of a compilation. The state is a set of objects that have been dealt with, as far
as this is known. -/
def interface : Interface CompileOp CompileOp.Ans (Set RulePtr) where
  pre
    | .lock _, _ => True
    | .unlock _, _ => True
    | .lookupCompilation r engine, _ => engine = x.engine ∧ ∃ q ∈ x.nodes, q.toRuleFields = r
    | .getGeneration engine, _ => engine = x.engine
    | .compileChunk engine _, _ => engine = x.engine
    | .store p engine c, marked => engine = x.engine ∧ x.Accurate marked p c
    | _, _ => False
  step op marked a marked' := marked ⊆ marked' ∧
    match op, a with
    | .lookupCompilation r _, a => a.isSome = true → r.ptr ∈ marked' ∧ (x.fresh → x.Good r.ptr)
    | .getGeneration _, a => a = x.generation
    | .compileChunk _ chunk, a => a.isOk = chunkLoads x.lib x.maxExpressionLength chunk
    | .store p _ _, _ => p ∈ marked'
    | _, _ => True

variable {x}

theorem good_iff (hobjects : SameObjects x.nodes) {r : Rule} (hr : r ∈ x.nodes) :
    x.Good r.ptr ↔ r.Compiles x.lib x.maxExpressionLength :=
  ⟨fun h ↦ h r hr rfl, fun h q hq hptr ↦ hobjects q hq r hr hptr ▸ h⟩

/-- Checking and compiling a text succeeds exactly if the text loads. -/
theorem compileSource_ensures (kind : ChunkKind) (r : RuleFields) (marked : Set RulePtr) :
    Ensures x.interface (fun result marked' ↦ marked ⊆ marked' ∧
        result.isOk = r.loads x.lib x.maxExpressionLength kind)
      (compileSource x.lib x.engine kind r) marked := by
  rw [compileSource, RuleFields.loads]
  split_ifs with hsource hvalid
  · refine ⟨rfl, fun a marked' h ↦ ?_⟩
    have hok : a.isOk = chunkLoads x.lib x.maxExpressionLength ⟨kind, r.sourceOf kind⟩ := h.2
    rw [decide_eq_false hsource, hvalid, ← hok]
    rcases a with e | ref <;> exact ⟨h.1, rfl⟩
  · refine ⟨subset_refl _, ?_⟩
    rw [decide_eq_false hsource, Bool.eq_false_of_not_eq_true hvalid]
    rfl
  · refine ⟨subset_refl _, ?_⟩
    rw [decide_eq_true (not_not.1 hsource)]
    rfl

/-- What the compilation of a rule ensures. -/
def Settles (x : Compilation) (r : Rule) (marked : Set RulePtr) (result : Except String Unit)
    (marked' : Set RulePtr) : Prop :=
  marked ⊆ marked' ∧
    (result.isOk = true → r.ptr ∈ marked' ∧ (x.fresh → r.Compiles x.lib x.maxExpressionLength)) ∧
    (result.isOk = false → ¬r.Compiles x.lib x.maxExpressionLength)

/-- What the compilation of several rules ensures. -/
def SettlesAll (x : Compilation) (rules : List Rule) (marked : Set RulePtr)
    (result : Except String Unit) (marked' : Set RulePtr) : Prop :=
  marked ⊆ marked' ∧
    (result.isOk = true → ∀ r ∈ rules,
      r.ptr ∈ marked' ∧ (x.fresh → r.Compiles x.lib x.maxExpressionLength)) ∧
    (result.isOk = false → ∃ r ∈ rules, ¬r.Compiles x.lib x.maxExpressionLength)

theorem compileRules_ensures_of {rules : List Rule}
    (h : ∀ r ∈ rules, ∀ marked, Ensures x.interface (x.Settles r marked)
      (r.compile x.lib x.engine) marked) (marked : Set RulePtr) :
    Ensures x.interface (x.SettlesAll rules marked) (compileRules x.lib x.engine rules) marked := by
  induction rules generalizing marked with
  | nil => exact ⟨subset_refl _, fun _ _ hr ↦ absurd hr List.not_mem_nil, fun h ↦ by cases h⟩
  | cons r rules ih =>
    rw [compileRules]
    refine (ensures_bind _ _ _).2 ((h r List.mem_cons_self marked).mono fun result marked₁ h₁ ↦ ?_)
    obtain ⟨hsub, hok, herror⟩ := h₁
    rcases result with e | ⟨⟩
    · exact ⟨hsub, fun h ↦ (by cases h), fun _ ↦ ⟨r, List.mem_cons_self, herror rfl⟩⟩
    · refine (ih (fun q hq ↦ h q (List.mem_cons_of_mem r hq)) marked₁).mono
        fun result marked₂ h₂ ↦ ?_
      obtain ⟨hsub', hok', herror'⟩ := h₂
      refine ⟨hsub.trans hsub', fun h ↦ List.forall_mem_cons.2 ⟨?_, hok' h⟩, fun h ↦ ?_⟩
      · exact ⟨hsub' (hok rfl).1, (hok rfl).2⟩
      · obtain ⟨q, hq, hfails⟩ := herror' h
        exact ⟨q, List.mem_cons_of_mem r hq, hfails⟩

theorem compileRecord_ensures (hobjects : SameObjects x.nodes) {r : Rule} (hr : r ∈ x.nodes)
    (hchildren : ∀ marked, Ensures x.interface (x.SettlesAll r.childRules marked)
      (compileRules x.lib x.engine r.childRules) marked) (marked : Set RulePtr) :
    Ensures x.interface (x.Settles r marked)
      (compileRecord x.lib x.engine r.toRuleFields (compileRules x.lib x.engine r.childRules))
      marked := by
  have hcompiles := r.compiles_iff x.lib x.maxExpressionLength
  refine ⟨rfl, fun generation marked₁ h₁ ↦ ?_⟩
  have hgeneration : generation = x.generation := h₁.2
  refine (ensures_bind (compileSource x.lib x.engine .expression r.toRuleFields) _ _).2
    ((compileSource_ensures .expression r.toRuleFields marked₁).mono fun expression marked₂ h₂ ↦ ?_)
  have hsub₂ := h₁.1.trans h₂.1
  rcases expression with e | expressionRef
  · refine ⟨hsub₂, fun h ↦ (by cases h), fun _ h ↦ ?_⟩
    exact absurd (h₂.2.trans (hcompiles.1 h).1) Bool.false_ne_true
  refine (ensures_bind (compileSource x.lib x.engine .action r.toRuleFields) _ _).2
    ((compileSource_ensures .action r.toRuleFields marked₂).mono fun action marked₃ h₃ ↦ ?_)
  have hsub₃ := hsub₂.trans h₃.1
  rcases action with e | actionRef
  · refine ⟨hsub₃, fun h ↦ (by cases h), fun _ h ↦ ?_⟩
    exact absurd (h₃.2.trans (hcompiles.1 h).2.1) Bool.false_ne_true
  refine (ensures_bind (compileRules x.lib x.engine r.childRules) _ _).2
    ((hchildren marked₃).mono fun children marked₄ h₄ ↦ ?_)
  obtain ⟨hsub, hok, herror⟩ := h₄
  have hsub₄ := hsub₃.trans hsub
  rcases children with e | ⟨⟩
  · refine ⟨hsub₄, fun h ↦ (by cases h), fun _ h ↦ ?_⟩
    obtain ⟨child, hchild, hfails⟩ := herror rfl
    exact hfails ((hcompiles.1 h).2.2 child hchild)
  · -- all of it compiles: the record is stored
    have hgood : x.fresh → r.Compiles x.lib x.maxExpressionLength := fun hfresh ↦
      hcompiles.2 ⟨h₂.2.symm, h₃.2.symm, fun child hchild ↦ (hok rfl child hchild).2 hfresh⟩
    refine ⟨⟨rfl, fun hfresh ↦ (good_iff hobjects hr).2 (hgood hfresh), hgeneration, r, hr,
      rfl, rfl,
      fun child hchild ↦ (hok rfl child hchild).1⟩, fun _ marked₅ h₅ ↦ ?_⟩
    exact ⟨hsub₄.trans h₅.1, fun _ ↦ ⟨h₅.2, hgood⟩, fun h ↦ by cases h⟩

/-- A compilation ends without an exception only if it has dealt with the rule, and with one only if
the rule does not compile. -/
theorem compile_ensures (hobjects : SameObjects x.nodes) (r : Rule)
    (hr : ∀ q ∈ r.nodes, q ∈ x.nodes) (marked : Set RulePtr) :
    Ensures x.interface (x.Settles r marked) (r.compile x.lib x.engine) marked := by
  induction r using Rule.induction_children generalizing marked with
  | h r ih =>
    have hself : r ∈ x.nodes := hr r r.self_mem_nodes
    have hchildren := compileRules_ensures_of fun child hchild ↦ ih child hchild fun q hq ↦
      hr q (by
        rw [Rule.nodes_eq]
        exact List.mem_cons_of_mem r (Rule.mem_nodesOf.2 ⟨child, hchild, hq⟩))
    have hlocked : ∀ marked, Ensures x.interface (x.Settles r marked)
        (compileLocked x.lib x.engine r.toRuleFields (compileRules x.lib x.engine r.childRules))
        marked := by
      refine fun marked ↦ ⟨⟨rfl, r, hself, rfl⟩, fun found marked₁ h₁ ↦ ?_⟩
      rcases found with - | c
      · refine (compileRecord_ensures hobjects hself hchildren marked₁).mono
          fun result marked₂ h₂ ↦ ?_
        exact ⟨h₁.1.trans h₂.1, h₂.2⟩
      · -- a current record: nothing is compiled
        obtain ⟨hmarked, hgood⟩ := h₁.2 rfl
        exact ⟨h₁.1, fun _ ↦ ⟨hmarked, fun hfresh ↦ (good_iff hobjects hself).1 (hgood hfresh)⟩,
          fun h ↦ by cases h⟩
    rw [Rule.compile_eq]
    refine ⟨trivial, fun _ marked₁ h₁ ↦ ?_⟩
    refine (ensures_bind (compileLocked x.lib x.engine r.toRuleFields _) _ _).2
      ((hlocked marked₁).mono fun result marked₂ h₂ ↦ ⟨trivial, fun _ marked₃ h₃ ↦ ?_⟩)
    exact ⟨h₁.1.trans (h₂.1.trans h₃.1), fun h ↦ ⟨h₃.1 (h₂.2.1 h).1, (h₂.2.1 h).2⟩, h₂.2.2⟩

theorem compileRules_ensures (hobjects : SameObjects x.nodes) (rules : List Rule)
    (hrules : ∀ q ∈ nodesOf rules, q ∈ x.nodes) (marked : Set RulePtr) :
    Ensures x.interface (x.SettlesAll rules marked) (compileRules x.lib x.engine rules) marked :=
  compileRules_ensures_of (fun r hr ↦ compile_ensures hobjects r fun q hq ↦
    hrules q (Rule.mem_nodesOf.2 ⟨r, hr, hq⟩)) marked

end Compilation

/-! ### Locks -/

/-- The locks of rules. -/
def compileLocks : Locking.Discipline CompileOp RulePtr where
  acquires
    | .lock p => some p
    | _ => none
  releases
    | .unlock p => some p
    | _ => none

/-- A request that has nothing to do with locks. -/
def CompileOp.Unlocked (op : CompileOp) : Prop :=
  compileLocks.acquires op = none ∧ compileLocks.releases op = none

section Locks

variable {rank : RulePtr → ℕ} {held : Set RulePtr}

theorem CompileOp.Unlocked.pre {op : CompileOp} (h : op.Unlocked) :
    (compileLocks.ranked rank : Interface CompileOp CompileOp.Ans _).pre op held := by
  refine ⟨fun k hk ↦ ?_, fun k hk ↦ ?_⟩
  · exact absurd (h.1.symm.trans hk) (Option.some_ne_none k).symm
  · exact absurd (h.2.symm.trans hk) (Option.some_ne_none k).symm

theorem CompileOp.Unlocked.step {op : CompileOp} (h : op.Unlocked) {a : op.Ans}
    {held' : Set RulePtr}
    (hstep : (compileLocks.ranked rank).step op held a held') : held' = held := by
  rw [show held' = compileLocks.after op held from hstep, Locking.Discipline.after, h.1, h.2]

/-- Such a request keeps what is held. -/
theorem CompileOp.Unlocked.bind {α : Type} {Q : α → Set RulePtr → Prop} {op : CompileOp}
    (h : op.Unlocked)
    {f : op.Ans → CompileProgram α} (hf : ∀ a, Ensures (compileLocks.ranked rank) Q (f a) held) :
    Ensures (compileLocks.ranked rank) Q (op.perform >>= f) held := by
  refine ⟨h.pre, fun a held' hstep ↦ ?_⟩
  rw [h.step hstep]
  exact hf a

/-- So do programs of such requests. -/
theorem ranked_bind_of_unlocked {α β : Type} {Q : β → Set RulePtr → Prop} {p : CompileProgram α}
    (h : Asks CompileOp.Unlocked p) {f : α → CompileProgram β}
    (hf : ∀ a, Ensures (compileLocks.ranked rank) Q (f a) held) :
    Ensures (compileLocks.ranked rank) Q (p >>= f) held := by
  have hkeep : Ensures (compileLocks.ranked rank) (fun _ held' ↦ held' = held) p held :=
    h.ensures (fun _ _ hop ↦ hop.pre) (fun _ _ _ _ hop hstep ↦ hop.step hstep) held
  refine (ensures_bind p f _).2 (hkeep.mono fun a held' hheld ↦ ?_)
  rw [hheld]
  exact hf a

theorem compileSource_unlocked (lib : LuaLibrary) (engine : InstanceId) (kind : ChunkKind)
    (r : RuleFields) : Asks CompileOp.Unlocked (compileSource lib engine kind r) := by
  rw [compileSource]
  split_ifs
  · refine ⟨⟨rfl, rfl⟩, fun a ↦ ?_⟩
    rcases a with e | ref <;> trivial
  · trivial
  · trivial

variable (lib : LuaLibrary) (engine : InstanceId)

theorem compileRules_ranked_of {rules : List Rule}
    (h : ∀ r ∈ rules, Ensures (compileLocks.ranked rank) (fun _ held' ↦ held' = held)
      (r.compile lib engine) held) :
    Ensures (compileLocks.ranked rank) (fun _ held' ↦ held' = held)
      (compileRules lib engine rules) held := by
  induction rules with
  | nil => exact rfl
  | cons r rules ih =>
    rw [compileRules]
    refine (ensures_bind _ _ _).2 ((h r List.mem_cons_self).mono fun result held' hheld ↦ ?_)
    obtain rfl : held' = held := hheld
    rcases result with e | ⟨⟩
    · exact rfl
    · exact ih fun q hq ↦ h q (List.mem_cons_of_mem r hq)

/-- What is done under the lock of a rule keeps what is held, if compiling the children does. -/
theorem compileLocked_ranked (r : RuleFields)
    {compileChildren : CompileProgram (Except String Unit)}
    (hchildren : Ensures (compileLocks.ranked rank) (fun _ held' ↦ held' = held) compileChildren
      held) :
    Ensures (compileLocks.ranked rank) (fun _ held' ↦ held' = held)
      (compileLocked lib engine r compileChildren) held := by
  have hsource := compileSource_unlocked lib engine
  rw [compileLocked]
  refine CompileOp.Unlocked.bind ⟨rfl, rfl⟩ fun found ↦ ?_
  rcases found with - | c
  · rw [compileRecord]
    refine CompileOp.Unlocked.bind ⟨rfl, rfl⟩ fun generation ↦
      ranked_bind_of_unlocked (hsource .expression r) fun expression ↦ ?_
    rcases expression with e | expressionRef
    · exact rfl
    · refine ranked_bind_of_unlocked (hsource .action r) fun action ↦ ?_
      rcases action with e | actionRef
      · exact rfl
      · refine (ensures_bind compileChildren _ _).2 (hchildren.mono fun result held' hheld ↦ ?_)
        obtain rfl : held' = held := hheld
        rcases result with e | ⟨⟩
        · exact rfl
        · exact CompileOp.Unlocked.bind ⟨rfl, rfl⟩ fun _ ↦ rfl
  · exact rfl

/-- **Locks are taken downwards.** A compilation that starts below all locks that are held only
takes locks below them, and gives all of them back. -/
theorem compile_ranked (r : Rule) (hrank : ∀ q ∈ r.nodes, rank q.ptr = sizeOf q)
    (hheld : ∀ p ∈ held, sizeOf r < rank p) :
    Ensures (compileLocks.ranked rank) (fun _ held' ↦ held' = held) (r.compile lib engine)
      held := by
  induction r using Rule.induction_children generalizing held with
  | h r ih =>
    have hself : rank r.ptr = sizeOf r := hrank r r.self_mem_nodes
    have hfresh : r.ptr ∉ held :=
      fun hmem ↦ absurd (hheld _ hmem) (by rw [hself]; exact lt_irrefl _)
    have hbelow : ∀ child ∈ r.childRules, Ensures (compileLocks.ranked rank)
        (fun _ held' ↦ held' = insert r.ptr held) (child.compile lib engine)
        (insert r.ptr held) := by
      refine fun child hchild ↦ ih child hchild (fun q hq ↦ hrank q ?_) fun p hp ↦ ?_
      · rw [Rule.nodes_eq]
        exact List.mem_cons_of_mem r (Rule.mem_nodesOf.2 ⟨child, hchild, hq⟩)
      · rcases hp with rfl | hp
        · exact (Rule.sizeOf_child_lt hchild).trans_eq hself.symm
        · exact (Rule.sizeOf_child_lt hchild).trans (hheld p hp)
    rw [Rule.compile_eq]
    refine ⟨⟨fun k hk p hp ↦ ?_, fun k hk ↦ by cases hk⟩, fun _ held₁ h₁ ↦ ?_⟩
    · obtain rfl : r.ptr = k := Option.some.inj hk
      rw [hself]
      exact hheld p hp
    · obtain rfl : held₁ = insert r.ptr held := h₁
      refine (ensures_bind (compileLocked lib engine r.toRuleFields _) _ _).2
        ((compileLocked_ranked lib engine r.toRuleFields
          (compileRules_ranked_of lib engine hbelow)).mono fun result held₂ h₂ ↦ ?_)
      obtain rfl : held₂ = insert r.ptr held := h₂
      refine ⟨⟨fun k hk ↦ (by cases hk), fun k hk ↦ ?_⟩, fun _ held₃ h₃ ↦ ?_⟩
      · obtain rfl : r.ptr = k := Option.some.inj hk
        exact Set.mem_insert _ _
      · obtain rfl : held₃ = insert r.ptr held \ {r.ptr} := h₃
        exact Set.insert_sdiff_self_of_notMem hfresh

theorem compileRules_ranked (rules : List Rule) (hrank : ∀ q ∈ nodesOf rules, rank q.ptr = sizeOf q)
    (hheld : ∀ r ∈ rules, ∀ p ∈ held, sizeOf r < rank p) :
    Ensures (compileLocks.ranked rank) (fun _ held' ↦ held' = held)
      (compileRules lib engine rules) held :=
  compileRules_ranked_of lib engine fun r hr ↦ compile_ranked lib engine r
    (fun q hq ↦ hrank q (Rule.mem_nodesOf.2 ⟨r, hr, hq⟩)) (hheld r hr)

end Locks

end FastRules
