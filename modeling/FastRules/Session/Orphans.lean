import FastRules.Foundations.EventRun
import FastRules.Session.Evaluation

/-!
# References that nobody has

A reference stays in an engine until it is released, and `Rule::compile` releases none. What a rule
has got so far is lost when its compilation fails, and what an earlier record of it refers to is
lost when the record is replaced. Nothing is lost exactly where neither happens (`Rule.Tidy`), and
then every reference belongs to the record of the rule that it was made for (`keepsReferences`).

Whom a reference was made for is not part of the state: an observer (`Owners`) follows the locks.
-/

namespace FastRules

open Program

/-! ### Owners -/

/-- What an observer knows about the references of the engines. -/
structure Owners where
  /-- The rules that are being compiled, the innermost first. -/
  compiling : List RulePtr := []
  /-- The rule that each reference was made for. -/
  owner : InstanceId → ℕ → Option RulePtr := fun _ _ ↦ none

/-- A chunk is compiled for the rule whose lock was taken last. -/
def Owners.after : (op : CompileOp) → op.Ans → Owners → Owners
  | .lock p, _, o => { o with compiling := p :: o.compiling }
  | .unlock _, _, o => { o with compiling := o.compiling.tail }
  | .compileChunk engine _, .ok (some k), o =>
    { o with
      owner := Function.update o.owner engine
        (Function.update (o.owner engine) k o.compiling.head?) }
  | _, _, o => o

theorem Owners.owner_after_of_ne {engine engine' : InstanceId} (hne : engine ≠ engine')
    (chunk : Chunk) (answer : Except String (Option ℕ)) (o : Owners) :
    (o.after (.compileChunk engine' chunk) answer).owner engine = o.owner engine := by
  rcases answer with message | _ | k
  · rfl
  · rfl
  · exact Function.update_of_ne hne _ _

/-- A session with its observer. -/
abbrev OwnedSession := Session × Owners

def OwnedSession.handle (lib : LuaLibrary) (op : CompileOp) (s : OwnedSession) :
    op.Ans × OwnedSession :=
  observed (Session.handle lib) Owners.after op s

/-- The record refers to a chunk. -/
def EngineCompilation.Has (c : EngineCompilation) (k : ℕ) : Prop :=
  c.expressionRef = some k ∨ c.actionRef = some k

/-- Every reference in the engine belongs to the record of the rule that it was made for. -/
def OwnedSession.NoOrphans (engine : InstanceId) (s : OwnedSession) : Prop :=
  ∀ k, (s.1.engines engine).chunks k ≠ none →
    ∃ p c, s.2.owner engine k = some p ∧ s.1.records p engine = some c ∧ c.Has k

/-! ### Attempts -/

/-- What is called for a rule. -/
inductive AttemptCall
  /-- `Rule::compile`. -/
  | compile
  /-- `Rule::getExpressionRef` or `Rule::getActionRef`, from an execution of the rule. -/
  | getRef (kind : ChunkKind)
  deriving DecidableEq, Repr

/-- An attempt to compile a rule as it is by now, after all edits. -/
structure CompileAttempt where
  engine : InstanceId
  rule : Rule
  objects : SameObjects rule.nodes
  call : AttemptCall

def CompileAttempt.run (lib : LuaLibrary) (s : OwnedSession) (a : CompileAttempt) : OwnedSession :=
  match a.call with
  | .compile => ((a.rule.compile lib a.engine).run (OwnedSession.handle lib) s).2
  | .getRef kind => ((a.rule.getRef lib a.engine kind).run (OwnedSession.handle lib) s).2

/-! ### What an attempt leaves -/

section Tidy

variable (lib : LuaLibrary) (s : Compilations) (engine : InstanceId)

/-- The text of the rule is given a reference. -/
def RuleFields.obtains (maxExpressionLength : ℕ) (kind : ChunkKind) (r : RuleFields) : Bool :=
  r.loads lib maxExpressionLength kind && !LuaEngine.nothingIn ⟨kind, r.sourceOf kind⟩

/-- Both texts of the rule load in the engine. -/
def RuleFields.bothLoad (r : RuleFields) : Bool :=
  r.loads lib (s.engines engine).maxExpressionLength .expression &&
    r.loads lib (s.engines engine).maxExpressionLength .action

mutual

/-- The rule has a current record, or it can be compiled. -/
def Rule.compilable : Rule → Bool
  | ⟨r, children⟩ =>
    decide (s.Current lib engine r) || (r.bothLoad lib s engine && rulesCompilable children)

def rulesCompilable : List Rule → Bool
  | [] => true
  | r :: rules => r.compilable && rulesCompilable rules

end

/-- If the rule can be compiled, no earlier record of it has a reference, and otherwise it has got
none itself before it fails. -/
def RuleFields.LosesNothing (compilable : Bool) (r : RuleFields) : Prop :=
  if compilable then ∀ c, s.records r.ptr engine = some c → ∀ k, ¬c.Has k
  else
    r.obtains lib (s.engines engine).maxExpressionLength .expression = false ∧
      (r.loads lib (s.engines engine).maxExpressionLength .expression = true →
        r.obtains lib (s.engines engine).maxExpressionLength .action = false)

mutual

/-- No rule loses a reference of which the attempt comes to compile the texts. -/
def Rule.Tidy : Rule → Prop
  | ⟨r, children⟩ => s.Current lib engine r ∨
    (r.bothLoad lib s engine = true → RulesTidy children) ∧
      r.LosesNothing lib s engine (r.bothLoad lib s engine && rulesCompilable lib s engine children)

def RulesTidy : List Rule → Prop
  | [] => True
  | r :: rules => r.Tidy ∧ (r.compilable lib s engine = true → RulesTidy rules)

end

theorem Rule.compilable_eq (r : Rule) : r.compilable lib s engine =
    (decide (s.Current lib engine r.toRuleFields) ||
      (r.bothLoad lib s engine && rulesCompilable lib s engine r.childRules)) := by
  cases r
  rw [compilable]

theorem Rule.tidy_iff (r : Rule) : r.Tidy lib s engine ↔
    s.Current lib engine r.toRuleFields ∨
      (r.bothLoad lib s engine = true → RulesTidy lib s engine r.childRules) ∧
        r.LosesNothing lib s engine
          (r.bothLoad lib s engine && rulesCompilable lib s engine r.childRules) := by
  cases r
  rw [Tidy]

end Tidy

/-! ### References -/

theorem LuaEngine.not_resetsFor {memKB : ℕ} {chunk : Chunk} {e : LuaEngine}
    (hoff : e.autoResetThresholdKB = 0) : ¬e.ResetsFor memKB chunk :=
  fun h ↦ h.2.1.ne' hoff

/-- An engine that is not reset registers the chunk under a new number, or keeps what it has. -/
theorem LuaEngine.compile_chunks (lib : LuaLibrary) (memKB : ℕ) (chunk : Chunk) {e : LuaEngine}
    (hfresh : e.Fresh) (hoff : e.autoResetThresholdKB = 0) :
    (∃ k, (e.compile lib memKB chunk).1 = .ok (some k) ∧ e.chunks k = none ∧
        (e.compile lib memKB chunk).2.chunks = Function.update e.chunks k (some chunk)) ∨
      (∀ k, (e.compile lib memKB chunk).1 ≠ .ok (some k)) ∧
        (e.compile lib memKB chunk).2.chunks = e.chunks := by
  rcases e.compile_cases lib memKB chunk with ⟨message, hx, -⟩ | ⟨hx, -⟩ | hx
  · rw [hx]
    exact .inr ⟨fun k hk ↦ (by cases hk), rfl⟩
  · rw [hx]
    exact .inr ⟨fun k hk ↦ (by cases hk), rfl⟩
  · rw [hx, if_neg (not_resetsFor hoff), register]
    rcases lib.load chunk with message | _
    · exact .inr ⟨fun k hk ↦ (by cases hk), rfl⟩
    · exact .inl ⟨e.nextRefId, rfl, hfresh _ le_rfl, rfl⟩

theorem LuaEngine.compile_fresh (lib : LuaLibrary) (memKB : ℕ) (chunk : Chunk) {e : LuaEngine}
    (hfresh : e.Fresh) (hoff : e.autoResetThresholdKB = 0) :
    (e.compile lib memKB chunk).2.Fresh := by
  rcases e.compile_cases lib memKB chunk with ⟨message, hx, -⟩ | ⟨hx, -⟩ | hx
  · rwa [hx]
  · rwa [hx]
  · rw [hx, if_neg (not_resetsFor hoff)]
    exact (hfresh.register lib chunk).1

/-- There is no reference where there is nothing to compile. -/
theorem LuaEngine.nothingIn_of_compile {lib : LuaLibrary} {memKB : ℕ} {chunk : Chunk}
    {e : LuaEngine} {k : ℕ} (h : (e.compile lib memKB chunk).1 = .ok (some k)) :
    nothingIn chunk = false := by
  obtain ⟨kind, source⟩ := chunk
  cases kind with
  | expression =>
    refine Bool.eq_false_iff.2 fun hblank ↦ ?_
    have hblank' : isBlank source = true := hblank
    change (e.compileExpression lib memKB source).1 = _ at h
    rw [compileExpression, if_pos hblank'] at h
    split_ifs at h
    cases h
  | action =>
    refine Bool.eq_false_iff.2 fun hempty ↦ ?_
    have hempty' : source = "" := of_decide_eq_true hempty
    change (e.compileAction lib memKB source).1 = _ at h
    rw [compileAction, if_pos hempty'] at h
    cases h

namespace OwnedSession

variable {lib : LuaLibrary} {engine : InstanceId} {U : List Rule} {s₀ : Session}
  {s s' s'' : OwnedSession} {pending pending' : RulePtr → ℕ → Prop}

/-- References that are neither lost nor, as those `pending`, still to be put into a record. -/
structure Accounted (engine : InstanceId) (pending : RulePtr → ℕ → Prop) (s : OwnedSession) :
    Prop where
  fresh : (s.1.engines engine).Fresh
  owned : ∀ k, (s.1.engines engine).chunks k ≠ none → ∃ p, s.2.owner engine k = some p ∧
    (pending p k ∨ ∃ c, s.1.records p engine = some c ∧ c.Has k)

/-- The attempt that has begun in `s₀` has changed nothing but references, and records of rules that
can be compiled. -/
structure Advanced (lib : LuaLibrary) (engine : InstanceId) (U : List Rule) (s₀ s : Session) :
    Prop where
  generation : (s.engines engine).generation = (s₀.engines engine).generation
  limit : (s.engines engine).maxExpressionLength = (s₀.engines engine).maxExpressionLength
  off : (s.engines engine).autoResetThresholdKB = 0
  records : ∀ p, s.records p engine = s₀.records p engine ∨
    ∃ q ∈ U, q.ptr = p ∧ q.compilable lib s₀.toCompilations engine = true ∧
      s.Current lib engine q.toRuleFields

/-- What a part of an attempt has done that is about these rules. -/
structure Goes (lib : LuaLibrary) (engine : InstanceId) (U : List Rule) (s₀ : Session)
    (nodes : List Rule) (s s' : OwnedSession) : Prop where
  advanced : Advanced lib engine U s₀ s'.1
  compiling : s'.2.compiling = s.2.compiling
  records : ∀ p, (∀ q ∈ nodes, q.ptr ≠ p) → s'.1.records p engine = s.1.records p engine

theorem accounted_iff : Accounted engine (fun _ _ ↦ False) s ↔
    (s.1.engines engine).Fresh ∧ s.NoOrphans engine := by
  refine ⟨fun h ↦ ⟨h.fresh, fun k hk ↦ ?_⟩, fun h ↦ ⟨h.1, fun k hk ↦ ?_⟩⟩
  · obtain ⟨p, hp, hrecord⟩ := h.owned k hk
    obtain ⟨c, hc, hhas⟩ := hrecord.resolve_left id
    exact ⟨p, c, hp, hc, hhas⟩
  · obtain ⟨p, c, hp, hc, hhas⟩ := h.2 k hk
    exact ⟨p, hp, .inr ⟨c, hc, hhas⟩⟩

theorem Accounted.mono (h : Accounted engine pending s)
    (hle : ∀ p k, pending p k → pending' p k) : Accounted engine pending' s :=
  ⟨h.fresh, fun k hk ↦ (h.owned k hk).imp fun _ hp ↦ hp.imp_right (Or.imp_left (hle _ k))⟩

theorem Advanced.current_of_current (h : Advanced lib engine U s₀ s.1) (hU : SameObjects U)
    {r : Rule} (hr : r ∈ U) (hcurrent : s₀.Current lib engine r.toRuleFields) :
    s.1.Current lib engine r.toRuleFields := by
  rcases h.records r.ptr with hsame | ⟨q, hq, hptr, -, hq'⟩
  · rw [Compilations.current_iff] at hcurrent ⊢
    rwa [hsame, h.generation]
  · exact hU q hq r hr hptr ▸ hq'

/-- What is current now was so in the beginning, or has been compiled since. -/
theorem Advanced.compilable (h : Advanced lib engine U s₀ s.1) (hU : SameObjects U) {r : Rule}
    (hr : r ∈ U) (hcurrent : s.1.Current lib engine r.toRuleFields) :
    r.compilable lib s₀.toCompilations engine = true := by
  rcases h.records r.ptr with hsame | ⟨q, hq, hptr, hcompilable, -⟩
  · have hbefore : s₀.Current lib engine r.toRuleFields := by
      rw [Compilations.current_iff] at hcurrent ⊢
      rwa [← hsame, ← h.generation]
    rw [Rule.compilable_eq, decide_eq_true hbefore, Bool.true_or]
  · exact hU q hq r hr hptr ▸ hcompilable

/-- What is not current has the record that it had in the beginning. -/
theorem Advanced.records_eq (h : Advanced lib engine U s₀ s.1) (hU : SameObjects U) {r : Rule}
    (hr : r ∈ U) (hcurrent : ¬s.1.Current lib engine r.toRuleFields) :
    s.1.records r.ptr engine = s₀.records r.ptr engine := by
  rcases h.records r.ptr with hsame | ⟨q, hq, hptr, -, hq'⟩
  · exact hsame
  · exact absurd (hU q hq r hr hptr ▸ hq') hcurrent

theorem Advanced.goes (h : Advanced lib engine U s₀ s.1) (nodes : List Rule) :
    Goes lib engine U s₀ nodes s s :=
  ⟨h, rfl, fun _ _ ↦ rfl⟩

theorem Goes.trans {nodes nodes' : List Rule} (h : Goes lib engine U s₀ nodes s s')
    (h' : Goes lib engine U s₀ nodes' s' s'') (hsub : nodes' ⊆ nodes) :
    Goes lib engine U s₀ nodes s s'' :=
  ⟨h'.advanced, h'.compiling.trans h.compiling, fun p hp ↦
    (h'.records p fun q hq ↦ hp q (hsub hq)).trans (h.records p hp)⟩

theorem Goes.mono {nodes nodes' : List Rule} (h : Goes lib engine U s₀ nodes s s')
    (hsub : nodes ⊆ nodes') : Goes lib engine U s₀ nodes' s s' :=
  ⟨h.advanced, h.compiling, fun p hp ↦ h.records p fun q hq ↦ hp q (hsub hq)⟩

/-! ### Texts -/

/-- What the engine is after a chunk was compiled. -/
theorem engines_compileChunk (chunk : Chunk) :
    (s.handle lib (.compileChunk engine chunk)).2.1.engines engine =
      ((s.1.engines engine).compile lib (s.1.memory 0) chunk).2 :=
  Function.update_self _ _ _

theorem Advanced.compileChunk (h : Advanced lib engine U s₀ s.1) (chunk : Chunk) :
    Advanced lib engine U s₀ (s.handle lib (.compileChunk engine chunk)).2.1 := by
  obtain ⟨hlimit, hthreshold, hgeneration⟩ :=
    (s.1.engines engine).compile_frame lib (s.1.memory 0) chunk
  refine ⟨?_, ?_, ?_, fun q ↦ (h.records q).imp_right ?_⟩
  · rw [engines_compileChunk, hgeneration h.off, h.generation]
  · rw [engines_compileChunk, hlimit, h.limit]
  · rw [engines_compileChunk, hthreshold, h.off]
  · rintro ⟨r, hr, hptr, hcompilable, hcurrent⟩
    refine ⟨r, hr, hptr, hcompilable, ?_⟩
    rw [Compilations.current_iff] at hcurrent ⊢
    rwa [engines_compileChunk, hgeneration h.off]

/-- A reference that is new is pending, and the others have their owners. -/
theorem Accounted.compileChunk {p : RulePtr} (h : Accounted engine pending s)
    (hoff : (s.1.engines engine).autoResetThresholdKB = 0)
    (hp : s.2.compiling.head? = some p) (chunk : Chunk) :
    let x := s.handle lib (.compileChunk engine chunk)
    Accounted engine (fun q k ↦ pending q k ∨ q = p ∧ x.1 = .ok (some k)) x.2 := by
  intro x
  set e := s.1.engines engine with he
  have hanswer : x.1 = (e.compile lib (s.1.memory 0) chunk).1 := rfl
  have hself : x.2.1.engines engine = (e.compile lib (s.1.memory 0) chunk).2 :=
    engines_compileChunk chunk
  have hafter : x.2.2 = Owners.after (.compileChunk engine chunk) x.1 s.2 := rfl
  refine ⟨hself ▸ LuaEngine.compile_fresh lib _ chunk h.fresh hoff, fun k hk ↦ ?_⟩
  rw [hself] at hk
  rcases LuaEngine.compile_chunks lib (s.1.memory 0) chunk h.fresh hoff with
    ⟨k', hok, hnone, hchunks⟩ | ⟨hnot, hchunks⟩
  · rw [hafter, hanswer, hok]
    show ∃ q, Function.update s.2.owner engine _ engine k = some q ∧ _
    rw [Function.update_self]
    by_cases hkk : k = k'
    · subst hkk
      exact ⟨p, by rw [Function.update_self, hp], .inl (.inr ⟨rfl, rfl⟩)⟩
    · rw [hchunks, Function.update_of_ne hkk] at hk
      rw [Function.update_of_ne hkk]
      obtain ⟨q, hq, howned⟩ := h.owned k hk
      exact ⟨q, hq, howned.imp_left .inl⟩
  · rw [hchunks] at hk
    obtain ⟨q, hq, howned⟩ := h.owned k hk
    refine ⟨q, ?_, howned.imp_left .inl⟩
    rw [hafter, hanswer]
    rcases hresult : (e.compile lib (s.1.memory 0) chunk).1 with message | _ | k'
    · exact hq
    · exact hq
    · exact absurd hresult (hnot k')

/-- A chunk is compiled for the rule whose lock was taken last. -/
theorem compileChunk_goes {p : RulePtr} (hadvanced : Advanced lib engine U s₀ s.1)
    (haccounted : Accounted engine pending s) (hp : s.2.compiling.head? = some p) (chunk : Chunk) :
    let x := s.handle lib (.compileChunk engine chunk)
    Goes lib engine U s₀ [] s x.2 ∧
      x.1.isOk = chunkLoads lib (s₀.engines engine).maxExpressionLength chunk ∧
      (∀ k, x.1 = .ok (some k) → LuaEngine.nothingIn chunk = false) ∧
      Accounted engine (fun q k ↦ pending q k ∨ q = p ∧ x.1 = .ok (some k)) x.2 := by
  intro x
  have hanswer : x.1 = ((s.1.engines engine).compile lib (s.1.memory 0) chunk).1 := rfl
  have hafter : x.2.2 = Owners.after (.compileChunk engine chunk) x.1 s.2 := rfl
  refine ⟨⟨hadvanced.compileChunk chunk, ?_, fun _ _ ↦ rfl⟩, ?_, fun k hk ↦ ?_,
    haccounted.compileChunk hadvanced.off hp chunk⟩
  · rw [hafter]
    rcases x.1 with message | _ | k <;> rfl
  · rw [hanswer, LuaEngine.compile_isOk, hadvanced.limit]
  · exact LuaEngine.nothingIn_of_compile (hanswer ▸ hk)

/-- Check and compile a text of the rule whose lock was taken last. -/
theorem compileSource_goes {r : Rule} (hadvanced : Advanced lib engine U s₀ s.1)
    (haccounted : Accounted engine pending s) (hr : s.2.compiling.head? = some r.ptr)
    (kind : ChunkKind) :
    Ensures (.ofHandler (OwnedSession.handle lib))
      (fun out s' ↦ Goes lib engine U s₀ [] s s' ∧
        out.isOk = r.loads lib (s₀.engines engine).maxExpressionLength kind ∧
        (∀ k, out = .ok (some k) →
          r.obtains lib (s₀.engines engine).maxExpressionLength kind = true) ∧
        Accounted engine (fun q k ↦ pending q k ∨ q = r.ptr ∧ out = .ok (some k)) s')
      (compileSource lib engine kind r.toRuleFields) s := by
  have hkept {out : Except String (Option ℕ)} (hout : ∀ k, out ≠ .ok (some k)) :
      (∀ k, out = .ok (some k) →
        r.obtains lib (s₀.engines engine).maxExpressionLength kind = true) ∧
      Accounted engine (fun q k ↦ pending q k ∨ q = r.ptr ∧ out = .ok (some k)) s :=
    ⟨fun k hk ↦ absurd hk (hout k), haccounted.mono fun q k hq ↦ .inl hq⟩
  rw [compileSource]
  split_ifs with hsource hvalid
  · refine ⟨trivial, fun a s₁ h₁ ↦ ?_⟩
    obtain ⟨rfl, rfl⟩ := Prod.ext_iff.1 h₁
    obtain ⟨hgoes, hok, hsome, haccounted'⟩ :=
      compileChunk_goes hadvanced haccounted hr ⟨kind, r.sourceOf kind⟩
    have hloads : r.loads lib (s₀.engines engine).maxExpressionLength kind =
        chunkLoads lib (s₀.engines engine).maxExpressionLength ⟨kind, r.sourceOf kind⟩ := by
      rw [RuleFields.loads, decide_eq_false hsource, hvalid, Bool.false_or, Bool.true_and]
    rcases hx : (s.handle lib (.compileChunk engine ⟨kind, r.sourceOf kind⟩)).1 with e | ref
    · rw [hx] at hok haccounted'
      refine ⟨hgoes, hok.trans hloads.symm, fun k hk ↦ (by cases hk), haccounted'.mono ?_⟩
      exact fun q k hq ↦ hq.imp_right fun h ↦ by cases h.2
    · rw [hx] at hok hsome haccounted'
      refine ⟨hgoes, hok.trans hloads.symm, fun k hk ↦ ?_, haccounted'⟩
      rw [RuleFields.obtains, hloads, ← hok, hsome k hk]
      rfl
  · refine ⟨hadvanced.goes [], ?_, hkept fun k hk ↦ by cases hk⟩
    rw [RuleFields.loads, decide_eq_false hsource, Bool.eq_false_iff.2 hvalid]
    rfl
  · refine ⟨hadvanced.goes [], ?_, hkept fun k hk ↦ by cases hk⟩
    rw [RuleFields.loads, decide_eq_true (not_not.1 hsource)]
    rfl

/-! ### Rules -/

/-- What an attempt to compile some rules comes to. -/
structure Ends (lib : LuaLibrary) (engine : InstanceId) (U : List Rule) (s₀ : Session)
    (nodes : List Rule) (compilable : Bool) (pending : RulePtr → ℕ → Prop) (s : OwnedSession)
    (out : Except String Unit) (s' : OwnedSession) : Prop where
  goes : Goes lib engine U s₀ nodes s s'
  isOk : out.isOk = compilable
  accounted : Accounted engine pending s'

/-- Requests that change neither engines nor records. -/
theorem Advanced.of_eq (h : Advanced lib engine U s₀ s.1)
    (hs : s'.1.toCompilations = s.1.toCompilations) : Advanced lib engine U s₀ s'.1 := by
  obtain ⟨hgeneration, hlimit, hoff, hrecords⟩ := h
  rw [← hs] at hgeneration hlimit hoff hrecords
  exact ⟨hgeneration, hlimit, hoff, hrecords⟩

/-- Requests that change nothing about the engine. -/
theorem Accounted.of_eq (h : Accounted engine pending s)
    (hengine : s'.1.engines engine = s.1.engines engine)
    (hrecords : ∀ p, s'.1.records p engine = s.1.records p engine)
    (howner : s'.2.owner engine = s.2.owner engine) : Accounted engine pending s' := by
  refine ⟨hengine ▸ h.fresh, fun k hk ↦ ?_⟩
  rw [hengine] at hk
  obtain ⟨p, hp, howned⟩ := h.owned k hk
  exact ⟨p, howner ▸ hp, by rwa [hrecords]⟩

/-- The record of a rule is stored, and no earlier one had a reference. -/
theorem store_ends {r : Rule} (hr : r ∈ U) {c : EngineCompilation}
    (hadvanced : Advanced lib engine U s₀ s.1)
    (haccounted : Accounted engine (fun p k ↦ pending p k ∨ p = r.ptr ∧ c.Has k) s)
    (hcompilable : r.compilable lib s₀.toCompilations engine = true)
    (hc : c.generation = (s₀.engines engine).generation ∧
      c.sourceHash = sourceFingerprint lib r.toRuleFields)
    (hold : ∀ d, s.1.records r.ptr engine = some d → ∀ k, ¬d.Has k) :
    Ends lib engine U s₀ [r] true pending s (.ok ()) (s.handle lib (.store r.ptr engine c)).2 := by
  set s' := (s.handle lib (.store r.ptr engine c)).2 with hs'
  have hself : s'.1.records r.ptr engine = some c := Compilations.store_records_self _ _ _ _
  have hother {p : RulePtr} (hp : p ≠ r.ptr) : s'.1.records p engine = s.1.records p engine :=
    Compilations.store_records_of_ne _ _ (.inl hp)
  have hengines : s'.1.engines = s.1.engines := rfl
  refine ⟨⟨⟨hadvanced.generation, hadvanced.limit, hadvanced.off, fun p ↦ ?_⟩, rfl, fun p hp ↦
    hother (hp r (List.mem_singleton_self r)).symm⟩, rfl, haccounted.fresh, fun k hk ↦ ?_⟩
  · by_cases hp : p = r.ptr
    · subst hp
      refine .inr ⟨r, hr, rfl, hcompilable, Compilations.current_iff.2 ⟨c, hself, ?_, hc.2⟩⟩
      rw [hengines, hadvanced.generation, hc.1]
    · rw [hother hp]
      refine (hadvanced.records p).imp_right ?_
      rintro ⟨q, hq, rfl, hqcompilable, hqcurrent⟩
      refine ⟨q, hq, rfl, hqcompilable, ?_⟩
      rw [Compilations.current_iff] at hqcurrent ⊢
      rwa [hother hp, hengines]
  · obtain ⟨p, hp, howned⟩ := haccounted.owned k hk
    refine ⟨p, hp, ?_⟩
    rcases howned with (hpending | ⟨rfl, hhas⟩) | ⟨d, hd, hhas⟩
    · exact .inl hpending
    · exact .inr ⟨c, hself, hhas⟩
    · refine .inr ⟨d, ?_, hhas⟩
      rw [hother, hd]
      rintro rfl
      exact hold d hd k hhas

/-- The children leave the record of the rule alone. -/
theorem Goes.records_self (hU : SameObjects U) {r : Rule} (hr : ∀ q ∈ r.nodes, q ∈ U)
    (h : Goes lib engine U s₀ (nodesOf r.childRules) s s') :
    s'.1.records r.ptr engine = s.1.records r.ptr engine := by
  refine h.records r.ptr fun q hq hptr ↦ ?_
  obtain rfl := hU q (hr q (Rule.mem_nodes_of_mem_below hq)) r (hr r r.self_mem_nodes) hptr
  exact q.not_mem_nodesOf_childRules hq

/-- Both texts of a rule and its children have been compiled, and the record is stored. -/
theorem storeCompiled_ends (hU : SameObjects U) {r : Rule} (hr : ∀ q ∈ r.nodes, q ∈ U)
    {s₁ : OwnedSession} {expressionRef actionRef : Option ℕ}
    (hrecords : s.1.records r.ptr engine = s₀.records r.ptr engine)
    (hgoes : Goes lib engine U s₀ (nodesOf r.childRules) s s₁)
    (haccounted : Accounted engine (fun q k ↦ (pending q k ∨ q = r.ptr ∧ expressionRef = some k) ∨
      q = r.ptr ∧ actionRef = some k) s₁)
    (hcompilable : (r.bothLoad lib s₀.toCompilations engine &&
      rulesCompilable lib s₀.toCompilations engine r.childRules) = true)
    (hloses : r.LosesNothing lib s₀.toCompilations engine true) :
    Ends lib engine U s₀ r.nodes true pending s (.ok ())
      (s₁.handle lib (.store r.ptr engine ⟨expressionRef, actionRef,
        (s₀.engines engine).generation, sourceFingerprint lib r.toRuleFields⟩)).2 := by
  have hrefs : Accounted engine (fun p k ↦ pending p k ∨
      p = r.ptr ∧ (EngineCompilation.mk expressionRef actionRef (s₀.engines engine).generation
        (sourceFingerprint lib r.toRuleFields)).Has k) s₁ := by
    refine haccounted.mono fun q k hq ↦ ?_
    rcases hq with (hq | ⟨rfl, hk⟩) | ⟨rfl, hk⟩
    · exact .inl hq
    · exact .inr ⟨rfl, .inl hk⟩
    · exact .inr ⟨rfl, .inr hk⟩
  have hold : ∀ d, s₁.1.records r.ptr engine = some d → ∀ k, ¬d.Has k := by
    rw [hgoes.records_self hU hr, hrecords]
    rwa [RuleFields.LosesNothing, if_pos rfl] at hloses
  have hstored := store_ends (hr r r.self_mem_nodes) hgoes.advanced hrefs
    (by rw [Rule.compilable_eq, hcompilable, Bool.or_true]) ⟨rfl, rfl⟩ hold
  refine ⟨(hgoes.mono fun q hq ↦ Rule.mem_nodes_of_mem_below hq).trans hstored.goes fun q hq ↦ ?_,
    rfl, hstored.accounted⟩
  exact List.mem_singleton.1 hq ▸ r.self_mem_nodes

/-- A rule whose texts are to be compiled. -/
theorem compileRecord_ends (hU : SameObjects U) {r : Rule} (hr : ∀ q ∈ r.nodes, q ∈ U)
    (hadvanced : Advanced lib engine U s₀ s.1) (haccounted : Accounted engine pending s)
    (hlock : s.2.compiling.head? = some r.ptr)
    (hcurrent : ¬s.1.Current lib engine r.toRuleFields)
    (hloses : r.LosesNothing lib s₀.toCompilations engine
      (r.bothLoad lib s₀.toCompilations engine &&
        rulesCompilable lib s₀.toCompilations engine r.childRules))
    (hchildren : ∀ (s : OwnedSession) (pending : RulePtr → ℕ → Prop),
      r.bothLoad lib s₀.toCompilations engine = true → Advanced lib engine U s₀ s.1 →
      Accounted engine pending s →
      Ensures (.ofHandler (OwnedSession.handle lib))
        (Ends lib engine U s₀ (nodesOf r.childRules)
          (rulesCompilable lib s₀.toCompilations engine r.childRules) pending s)
        (compileRules lib engine r.childRules) s) :
    Ensures (.ofHandler (OwnedSession.handle lib))
      (Ends lib engine U s₀ r.nodes (r.bothLoad lib s₀.toCompilations engine &&
        rulesCompilable lib s₀.toCompilations engine r.childRules) pending s)
      (compileRecord lib engine r.toRuleFields (compileRules lib engine r.childRules)) s := by
  have hbelow : nodesOf r.childRules ⊆ r.nodes := fun q hq ↦ Rule.mem_nodes_of_mem_below hq
  set maxLength := (s₀.engines engine).maxExpressionLength with hmaxLength
  -- what is true of a rule that loses nothing when its compilation fails
  have hnothing (hfails : (r.bothLoad lib s₀.toCompilations engine &&
      rulesCompilable lib s₀.toCompilations engine r.childRules) = false) :
      r.obtains lib maxLength .expression = false ∧
        (r.loads lib maxLength .expression = true → r.obtains lib maxLength .action = false) := by
    rwa [RuleFields.LosesNothing, hfails, if_neg Bool.false_ne_true] at hloses
  refine ⟨trivial, fun generation s₁ h₁ ↦ ?_⟩
  obtain ⟨hgeneration, rfl⟩ := Prod.ext_iff.1 h₁
  have hadvanced₁ : Advanced lib engine U s₀ (s.handle lib (.getGeneration engine)).2.1 :=
    hadvanced.of_eq rfl
  have haccounted₁ : Accounted engine pending (s.handle lib (.getGeneration engine)).2 :=
    haccounted.of_eq rfl (fun _ ↦ rfl) rfl
  have hgoes₁ : Goes lib engine U s₀ (nodesOf r.childRules) s
      (s.handle lib (.getGeneration engine)).2 :=
    ⟨hadvanced₁, rfl, fun _ _ ↦ rfl⟩
  generalize (s.handle lib (.getGeneration engine)).2 = s₁ at hadvanced₁ haccounted₁ hgoes₁ ⊢
  refine (ensures_bind (compileSource lib engine .expression r.toRuleFields) _ _).2
    ((compileSource_goes hadvanced₁ haccounted₁ (hgoes₁.compiling ▸ hlock) .expression).mono
      fun expression s₂ ⟨hgoes₂, hloads₂, hobtains₂, haccounted₂⟩ ↦ ?_)
  replace hgoes₂ := hgoes₁.trans hgoes₂ (List.nil_subset _)
  rcases expression with e | expressionRef
  · have hfails : r.bothLoad lib s₀.toCompilations engine = false := by
      rw [RuleFields.bothLoad, ← hmaxLength, ← hloads₂]
      rfl
    refine ⟨hgoes₂.mono hbelow, by rw [hfails]; rfl, haccounted₂.mono fun q k hq ↦ ?_⟩
    exact hq.resolve_right fun h ↦ by cases h.2
  refine (ensures_bind (compileSource lib engine .action r.toRuleFields) _ _).2
    ((compileSource_goes hgoes₂.advanced haccounted₂ (hgoes₂.compiling ▸ hlock) .action).mono
      fun action s₃ ⟨hgoes₃, hloads₃, hobtains₃, haccounted₃⟩ ↦ ?_)
  replace hgoes₃ := hgoes₂.trans hgoes₃ (List.nil_subset _)
  rcases action with e | actionRef
  · have hfails : r.bothLoad lib s₀.toCompilations engine = false := by
      rw [RuleFields.bothLoad, ← hmaxLength, ← hloads₃]
      exact Bool.and_false _
    refine ⟨hgoes₃.mono hbelow, by rw [hfails]; rfl, haccounted₃.mono fun q k hq ↦ ?_⟩
    obtain ⟨hexpression, -⟩ := hnothing (by rw [hfails]; rfl)
    exact (hq.resolve_right fun h ↦ by cases h.2).resolve_right fun h ↦
      Bool.false_ne_true (hexpression.symm.trans (hobtains₂ k h.2))
  have hboth : r.bothLoad lib s₀.toCompilations engine = true := by
    rw [RuleFields.bothLoad, ← hloads₂, ← hloads₃]
    rfl
  refine (ensures_bind (compileRules lib engine r.childRules) _ _).2
    ((hchildren s₃ _ hboth hgoes₃.advanced haccounted₃).mono
      fun children s₄ ⟨hgoes₄, hloads₄, haccounted₄⟩ ↦ ?_)
  replace hgoes₄ := hgoes₃.trans hgoes₄ (List.Subset.refl _)
  rcases children with e | ⟨⟩
  · have hfails : (r.bothLoad lib s₀.toCompilations engine &&
        rulesCompilable lib s₀.toCompilations engine r.childRules) = false := by
      rw [← hloads₄]
      exact Bool.and_false _
    refine ⟨hgoes₄.mono hbelow, hfails.symm, haccounted₄.mono fun q k hq ↦ ?_⟩
    obtain ⟨hexpression, haction⟩ := hnothing hfails
    exact (hq.resolve_right fun h ↦
      Bool.false_ne_true ((haction hloads₂.symm).symm.trans (hobtains₃ k h.2))).resolve_right
        fun h ↦ Bool.false_ne_true (hexpression.symm.trans (hobtains₂ k h.2))
  have hcompilable : (r.bothLoad lib s₀.toCompilations engine &&
      rulesCompilable lib s₀.toCompilations engine r.childRules) = true := by
    rw [hboth, ← hloads₄]
    rfl
  rw [hcompilable] at hloses ⊢
  refine ⟨trivial, fun _ s₅ h₅ ↦ ?_⟩
  obtain ⟨-, rfl⟩ := Prod.ext_iff.1 h₅
  have hgeneration₀ : generation = (s₀.engines engine).generation :=
    hgeneration.symm.trans hadvanced.generation
  rw [hgeneration₀]
  refine storeCompiled_ends hU hr (hadvanced.records_eq hU (hr r r.self_mem_nodes) hcurrent) hgoes₄
    (haccounted₄.mono fun q k hq ↦ ?_) hcompilable hloses
  exact hq.imp (Or.imp_right fun h ↦ ⟨h.1, Except.ok.inj h.2⟩) fun h ↦ ⟨h.1, Except.ok.inj h.2⟩

/-- Rules are compiled one after the other. -/
theorem compileRules_ends {rules : List Rule}
    (hrules : ∀ r ∈ rules, ∀ (s : OwnedSession) (pending : RulePtr → ℕ → Prop),
      r.Tidy lib s₀.toCompilations engine → Advanced lib engine U s₀ s.1 →
      Accounted engine pending s →
      Ensures (.ofHandler (OwnedSession.handle lib))
        (Ends lib engine U s₀ r.nodes (r.compilable lib s₀.toCompilations engine) pending s)
        (r.compile lib engine) s)
    (htidy : RulesTidy lib s₀.toCompilations engine rules)
    (hadvanced : Advanced lib engine U s₀ s.1) (haccounted : Accounted engine pending s) :
    Ensures (.ofHandler (OwnedSession.handle lib))
      (Ends lib engine U s₀ (nodesOf rules) (rulesCompilable lib s₀.toCompilations engine rules)
        pending s)
      (compileRules lib engine rules) s := by
  induction rules generalizing s with
  | nil =>
    rw [rulesCompilable]
    exact ⟨hadvanced.goes _, rfl, haccounted⟩
  | cons r rules ih =>
    obtain ⟨hr, hrest⟩ := htidy
    rw [compileRules, rulesCompilable, nodesOf]
    refine (ensures_bind (r.compile lib engine) _ _).2
      ((hrules r List.mem_cons_self s pending hr hadvanced haccounted).mono
        fun out s₁ hends ↦ ?_)
    obtain ⟨hgoes, hok, haccounted₁⟩ := hends
    replace hgoes := hgoes.mono (List.subset_append_left r.nodes (nodesOf rules))
    rw [← hok]
    rcases out with e | ⟨⟩
    · exact ⟨hgoes, rfl, haccounted₁⟩
    · refine (ih (fun q hq ↦ hrules q (List.mem_cons_of_mem r hq)) (hrest hok.symm)
        hgoes.advanced haccounted₁).mono fun out s₂ hends ↦ ?_
      obtain ⟨hgoes₂, hok₂, haccounted₂⟩ := hends
      exact ⟨hgoes.trans hgoes₂ (List.subset_append_right _ _), hok₂, haccounted₂⟩

/-- What is done under the lock of a rule. -/
theorem compileLocked_ends (hU : SameObjects U) {r : Rule} (hr : ∀ q ∈ r.nodes, q ∈ U)
    (htidy : r.Tidy lib s₀.toCompilations engine) (hadvanced : Advanced lib engine U s₀ s.1)
    (haccounted : Accounted engine pending s) (hlock : s.2.compiling.head? = some r.ptr)
    (hchildren : ∀ (s : OwnedSession) (pending : RulePtr → ℕ → Prop),
      RulesTidy lib s₀.toCompilations engine r.childRules → Advanced lib engine U s₀ s.1 →
      Accounted engine pending s →
      Ensures (.ofHandler (OwnedSession.handle lib))
        (Ends lib engine U s₀ (nodesOf r.childRules)
          (rulesCompilable lib s₀.toCompilations engine r.childRules) pending s)
        (compileRules lib engine r.childRules) s) :
    Ensures (.ofHandler (OwnedSession.handle lib))
      (Ends lib engine U s₀ r.nodes (r.compilable lib s₀.toCompilations engine) pending s)
      (compileLocked lib engine r.toRuleFields (compileRules lib engine r.childRules)) s := by
  have hself : r ∈ U := hr r r.self_mem_nodes
  refine ⟨trivial, fun found s₁ h₁ ↦ ?_⟩
  obtain ⟨hfound, rfl⟩ := Prod.ext_iff.1 h₁
  have hadvanced₁ : Advanced lib engine U s₀
      (s.handle lib (.lookupCompilation r.toRuleFields engine)).2.1 :=
    hadvanced.of_eq rfl
  have haccounted₁ : Accounted engine pending
      (s.handle lib (.lookupCompilation r.toRuleFields engine)).2 :=
    haccounted.of_eq rfl (fun _ ↦ rfl) rfl
  have hgoes : Goes lib engine U s₀ [] s
      (s.handle lib (.lookupCompilation r.toRuleFields engine)).2 :=
    ⟨hadvanced₁, rfl, fun _ _ ↦ rfl⟩
  have hanswer : s.1.lookupCompilation lib r.toRuleFields engine = found := hfound
  rcases found with - | c
  · have hcurrent : ¬s.1.Current lib engine r.toRuleFields := by
      rw [Compilations.Current, hanswer]
      exact Bool.false_ne_true
    have hcurrent₀ : ¬s₀.Current lib engine r.toRuleFields :=
      mt (hadvanced.current_of_current hU hself) hcurrent
    obtain ⟨hbelow, hloses⟩ := ((r.tidy_iff lib _ engine).1 htidy).resolve_left hcurrent₀
    rw [Rule.compilable_eq, decide_eq_false hcurrent₀, Bool.false_or]
    refine (compileRecord_ends hU hr hadvanced₁ haccounted₁ hlock hcurrent hloses
      fun s pending hboth ↦ hchildren s pending (hbelow hboth)).mono
        fun out s₂ hends ↦ ?_
    obtain ⟨hgoes₂, hok₂, haccounted₂⟩ := hends
    exact ⟨(hgoes.mono (List.nil_subset _)).trans hgoes₂ (List.Subset.refl _), hok₂, haccounted₂⟩
  · have hcurrent : s.1.Current lib engine r.toRuleFields := by
      rw [Compilations.Current, hanswer]
      rfl
    rw [hadvanced.compilable hU hself hcurrent]
    exact ⟨hgoes.mono (List.nil_subset _), rfl, haccounted₁⟩

/-- **A tidy attempt** loses no reference, and ends as expected. -/
theorem compile_ends (hU : SameObjects U) (r : Rule) (hr : ∀ q ∈ r.nodes, q ∈ U)
    (htidy : r.Tidy lib s₀.toCompilations engine) (hadvanced : Advanced lib engine U s₀ s.1)
    (haccounted : Accounted engine pending s) :
    Ensures (.ofHandler (OwnedSession.handle lib))
      (Ends lib engine U s₀ r.nodes (r.compilable lib s₀.toCompilations engine) pending s)
      (r.compile lib engine) s := by
  induction r using Rule.induction_children generalizing s pending with
  | h r ih =>
    have hchildren : ∀ (s : OwnedSession) (pending : RulePtr → ℕ → Prop),
        RulesTidy lib s₀.toCompilations engine r.childRules → Advanced lib engine U s₀ s.1 →
        Accounted engine pending s →
        Ensures (.ofHandler (OwnedSession.handle lib))
          (Ends lib engine U s₀ (nodesOf r.childRules)
            (rulesCompilable lib s₀.toCompilations engine r.childRules) pending s)
          (compileRules lib engine r.childRules) s := fun s pending htidy ↦
      compileRules_ends (fun child hchild s pending ↦ ih child hchild fun q hq ↦ hr q (by
        rw [Rule.nodes_eq]
        exact List.mem_cons_of_mem r (Rule.mem_nodesOf.2 ⟨child, hchild, hq⟩))) htidy
    rw [Rule.compile_eq, compileWith]
    refine ⟨trivial, fun _ s₁ h₁ ↦ ?_⟩
    obtain ⟨-, rfl⟩ := Prod.ext_iff.1 h₁
    have hadvanced₁ : Advanced lib engine U s₀ (s.handle lib (.lock r.ptr)).2.1 :=
      hadvanced.of_eq rfl
    have haccounted₁ : Accounted engine pending (s.handle lib (.lock r.ptr)).2 :=
      haccounted.of_eq rfl (fun _ ↦ rfl) rfl
    refine (ensures_bind (compileLocked lib engine r.toRuleFields
      (compileRules lib engine r.childRules)) _ _).2
      ((compileLocked_ends hU hr htidy hadvanced₁ haccounted₁ rfl hchildren).mono
        fun out s₂ hends ↦ ⟨trivial, fun _ s₃ h₃ ↦ ?_⟩)
    obtain ⟨hgoes, hok, haccounted₂⟩ := hends
    obtain ⟨-, rfl⟩ := Prod.ext_iff.1 h₃
    refine ⟨⟨hgoes.advanced.of_eq rfl, ?_, hgoes.records⟩, hok,
      haccounted₂.of_eq rfl (fun _ ↦ rfl) rfl⟩
    -- the observer is back where it was
    show s₂.2.compiling.tail = s.2.compiling
    rw [hgoes.compiling]
    rfl

/-! ### Runs of attempts -/

/-- What holds of an engine without automatic resets between two attempts. -/
structure Kept (engine : InstanceId) (s : OwnedSession) : Prop where
  off : (s.1.engines engine).autoResetThresholdKB = 0
  accounted : Accounted engine (fun _ _ ↦ False) s

theorem Kept.advanced (h : Kept engine s) : Advanced lib engine U s.1 s.1 :=
  ⟨rfl, rfl, h.off, fun _ ↦ .inl rfl⟩

theorem Ends.kept {nodes : List Rule} {compilable : Bool} {out : Except String Unit}
    (h : Ends lib engine U s₀ nodes compilable (fun _ _ ↦ False) s out s') : Kept engine s' :=
  ⟨h.goes.advanced.off, h.accounted⟩

/-- Requests that change nothing about the engine. -/
theorem Kept.of_eq (h : Kept engine s) (hengine : s'.1.engines engine = s.1.engines engine)
    (hrecords : ∀ p, s'.1.records p engine = s.1.records p engine)
    (howner : s'.2.owner engine = s.2.owner engine) : Kept engine s' :=
  ⟨by rw [hengine]; exact h.off, h.accounted.of_eq hengine hrecords howner⟩

/-- A request that is about another engine. -/
theorem Kept.handle_of_ne {engine' : InstanceId} (hne : engine ≠ engine') (op : CompileOp)
    (hop : op.IsAbout engine') (h : Kept engine s) : Kept engine (s.handle lib op).2 := by
  cases op with
  | compileChunk engine'' chunk =>
    obtain rfl : engine'' = engine' := hop
    exact h.of_eq (Function.update_of_ne hne _ _) (fun _ ↦ rfl)
      (Owners.owner_after_of_ne hne chunk _ s.2)
  | store p engine'' c =>
    obtain rfl : engine'' = engine' := hop
    exact h.of_eq rfl (fun q ↦ Compilations.store_records_of_ne _ _ (.inr hne)) rfl
  | lock | unlock | lookupCompilation | getGeneration => exact h.of_eq rfl (fun _ ↦ rfl) rfl
  | _ => exact absurd hop id

theorem getRef_isAbout (lib : LuaLibrary) (engine : InstanceId) (kind : ChunkKind) (r : Rule) :
    Asks (CompileOp.IsAbout engine) (r.getRef lib engine kind) := by
  rw [Rule.getRef]
  refine (ensureCompiledFor_isAbout lib engine r).bind fun out ↦ ?_
  rcases out with e | ⟨⟩
  · trivial
  · refine ⟨rfl, fun found ↦ ?_⟩
    rcases found with - | c <;> trivial

theorem getRef_kept (h : Kept engine s) {r : Rule} (hU : SameObjects r.nodes)
    (htidy : r.Tidy lib s.1.toCompilations engine) (kind : ChunkKind) :
    Ensures (.ofHandler (OwnedSession.handle lib)) (fun _ s' ↦ Kept engine s')
      (r.getRef lib engine kind) s := by
  have hensure : Ensures (.ofHandler (OwnedSession.handle lib)) (fun _ s' ↦ Kept engine s')
      (r.ensureCompiledFor lib engine) s := by
    refine ⟨trivial, fun found s₁ h₁ ↦ ?_⟩
    obtain ⟨-, rfl⟩ := Prod.ext_iff.1 h₁
    have hkept : Kept engine (s.handle lib (.lookupCompilation r.toRuleFields engine)).2 :=
      h.of_eq rfl (fun _ ↦ rfl) rfl
    rcases found with - | c
    · have hadvanced : Advanced lib engine r.nodes s.1
          (s.handle lib (.lookupCompilation r.toRuleFields engine)).2.1 :=
        h.advanced.of_eq rfl
      exact (compile_ends hU r (fun _ hq ↦ hq) htidy hadvanced hkept.accounted).mono
        fun _ _ hends ↦ hends.kept
    · exact hkept
  rw [Rule.getRef]
  refine (ensures_bind (r.ensureCompiledFor lib engine) _ _).2 (hensure.mono fun out s₁ hkept ↦ ?_)
  rcases out with e | ⟨⟩
  · exact hkept
  · refine ⟨trivial, fun found s₂ h₂ ↦ ?_⟩
    obtain ⟨-, rfl⟩ := Prod.ext_iff.1 h₂
    have hkept₂ : Kept engine (s₁.handle lib (.lookupCompilation r.toRuleFields engine)).2 :=
      hkept.of_eq rfl (fun _ ↦ rfl) rfl
    rcases found with - | c
    · exact hkept₂
    · exact hkept₂

/-- An attempt on the engine is to be tidy. -/
def Permits (lib : LuaLibrary) (engine : InstanceId) (s : OwnedSession) (a : CompileAttempt) :
    Prop :=
  a.engine = engine → a.rule.Tidy lib s.1.toCompilations engine

theorem Kept.attempt (h : Kept engine s) {a : CompileAttempt} (ha : s.Permits lib engine a) :
    Kept engine (a.run lib s) := by
  obtain ⟨engine', r, hobjects, call⟩ := a
  by_cases hengine : engine' = engine
  · subst hengine
    have htidy := ha rfl
    cases call with
    | compile =>
      exact (compile_ends hobjects r (fun _ hq ↦ hq) htidy h.advanced h.accounted).run.kept
    | getRef kind => exact (getRef_kept h hobjects htidy kind).run
  · have hframe (op : CompileOp) (s : OwnedSession) (hop : op.IsAbout engine')
        (h : Kept engine s) : Kept engine (s.handle lib op).2 :=
      h.handle_of_ne (Ne.symm hengine) op hop
    cases call with
    | compile => exact (compile_isAbout lib engine' r).run_invariant hframe h
    | getRef kind => exact (getRef_isAbout lib engine' kind r).run_invariant hframe h

end OwnedSession

open OwnedSession in
/-- **References.** Whatever is edited between the attempts: as long as no attempt on an engine
without automatic resets loses a reference, every reference in it belongs to the record of the rule
that it was made for. -/
theorem keepsReferences (lib : LuaLibrary) (engine : InstanceId) (s : Session)
    (hnew : (s.engines engine).chunks = fun _ ↦ none)
    (hoff : (s.engines engine).autoResetThresholdKB = 0) (attempts : List CompileAttempt)
    (htidy : EventRun.Along (CompileAttempt.run lib) (Permits lib engine) (s, {}) attempts) :
    EventRun.Along (CompileAttempt.run lib) (fun s a ↦ (a.run lib s).NoOrphans engine) (s, {})
      attempts := by
  have hstart : Kept engine (s, {}) :=
    ⟨hoff, ⟨fun k _ ↦ congrFun hnew k, fun k hk ↦ absurd (congrFun hnew k) hk⟩⟩
  exact htidy.of_invariant hstart (fun _ _ h ha ↦ h.attempt ha)
    fun _ _ h ha ↦ (accounted_iff.1 (h.attempt ha).accounted).2

/-! ### Examples -/

/-- The first rule with another expression. -/
def editedRule : Rule := { ptr := 1, id := 1, expression := "x and y" }

theorem sameObjects_single (r : Rule) (h : r.childRules = []) : SameObjects r.nodes := by
  rw [Rule.nodes_eq, h]
  intro p hp q hq _
  rw [List.mem_singleton.1 hp, List.mem_singleton.1 hq]

/-- Compile the first rule, and execute it. -/
def firstAttempts : List CompileAttempt :=
  [⟨0, firstRule, sameObjects_single _ rfl, .compile⟩,
    ⟨0, firstRule, sameObjects_single _ rfl, .getRef .expression⟩]

/-- Compile the first rule, edit its expression, and compile it again. -/
def editedAttempts : List CompileAttempt :=
  [⟨0, firstRule, sameObjects_single _ rfl, .compile⟩,
    ⟨0, editedRule, sameObjects_single _ rfl, .compile⟩]

theorem firstAttempts_keepReferences :
    EventRun.Along (CompileAttempt.run plainLibrary) (fun s a ↦ (a.run plainLibrary s).NoOrphans 0)
      (oneEngine, {}) firstAttempts := by
  refine keepsReferences plainLibrary 0 oneEngine rfl rfl firstAttempts
    ⟨fun _ ↦ .inr ⟨fun _ ↦ trivial, ?_⟩, fun _ ↦ .inl (by decide), trivial⟩
  exact fun c hc ↦ by cases hc

/-- What the second compilation leaves. -/
abbrev editedState : OwnedSession :=
  editedAttempts.foldl (CompileAttempt.run plainLibrary) (oneEngine, {})

/-- The first reference is lost. -/
theorem editedAttempts_loseReference :
    ¬EventRun.Along (CompileAttempt.run plainLibrary) (fun s a ↦ (a.run plainLibrary s).NoOrphans 0)
      (oneEngine, {}) editedAttempts := by
  intro h
  have hkept : editedState.NoOrphans 0 := h.2.1
  have hfirst : editedState.2.owner 0 1 = some 1 := by decide
  have hrefs : (editedState.1.records 1 0).map (fun c ↦ (c.expressionRef, c.actionRef)) =
      some (some 2, none) := by
    decide
  obtain ⟨p, c, howner, hrecord, hhas⟩ := hkept 1 (by decide)
  obtain rfl := Option.some.inj (hfirst.symm.trans howner)
  rw [hrecord] at hrefs
  obtain ⟨hexpression, haction⟩ := Prod.mk.inj (Option.some.inj hrefs)
  rcases hhas with hhas | hhas
  · exact absurd (hexpression.symm.trans hhas) (by decide)
  · exact absurd (haction.symm.trans hhas) (by decide)

end FastRules
