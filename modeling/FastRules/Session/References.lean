import FastRules.Engine.Compiling
import FastRules.Workflow.Compile

/-!
# References to compiled chunks

`Rule::getExpressionRef` and `Rule::getActionRef`. A record is trusted if it was made in the present
generation of the engine and from the present texts of the rule. The generation is noted before the
texts are compiled, and compiling a text may reset the engine, so a record may be out of date when
it is stored; then nothing is found, and there is no reference.

A `Session` is what calls on rules and engines act on, one after the other. It tells beforehand how
much memory will be in use, and an observer counts the resets of each engine. The invariant
(`Session.Inv`) is about this count: generations are numbers of 32 bits, so two of them may have the
same number, but not while the count is below `2 ^ 32`.
-/

namespace FastRules

open Program

/-! ### References -/

/-- The reference to the chunk of the kind. -/
def EngineCompilation.ref (c : EngineCompilation) : ChunkKind → Option ℕ
  | .expression => c.expressionRef
  | .action => c.actionRef

section References

variable (lib : LuaLibrary) (engine : InstanceId)

/-- `Rule::ensureCompiledFor`. -/
def Rule.ensureCompiledFor (r : Rule) : CompileProgram (Except String Unit) := do
  match ← CompileOp.perform (.lookupCompilation r.toRuleFields engine) with
  | some _ => return .ok ()
  | none => r.compile lib engine

/-- Compile if needed and look up the reference. No reference stands for `-1`. -/
def Rule.getRef (kind : ChunkKind) (r : Rule) : CompileProgram (Except String (Option ℕ)) := do
  match ← r.ensureCompiledFor lib engine with
  | .error e => return .error e
  | .ok _ =>
    match ← CompileOp.perform (.lookupCompilation r.toRuleFields engine) with
    | some c => return .ok (c.ref kind)
    -- the record may be of an older generation by now
    | none => return .ok none

/-- `Rule::getExpressionRef`. -/
def Rule.getExpressionRef (r : Rule) : CompileProgram (Except String (Option ℕ)) :=
  r.getRef lib engine .expression

/-- `Rule::getActionRef`. -/
def Rule.getActionRef (r : Rule) : CompileProgram (Except String (Option ℕ)) :=
  r.getRef lib engine .action

end References

/-- A request of the compilation of a rule into the engine. -/
def CompileOp.IsAbout (engine : InstanceId) : CompileOp → Prop
  | .lock _ | .unlock _ => True
  | .lookupCompilation _ engine' | .getGeneration engine' => engine' = engine
  | .compileChunk engine' _ | .store _ engine' _ => engine' = engine
  | _ => False

/-- The request compiles nothing into another engine. -/
def CompileOp.CompilesInto (engine : InstanceId) : CompileOp → Prop
  | .compileChunk engine' _ => engine' = engine
  | _ => True

theorem CompileOp.IsAbout.compilesInto {engine : InstanceId} {op : CompileOp}
    (h : op.IsAbout engine) : op.CompilesInto engine := by
  cases op with
  | compileChunk engine' chunk => exact h
  | _ => trivial

section Asks
variable (lib : LuaLibrary) (engine : InstanceId)

theorem compileSource_isAbout (kind : ChunkKind) (r : RuleFields) :
    Asks (CompileOp.IsAbout engine) (compileSource lib engine kind r) := by
  rw [compileSource]
  split_ifs
  · refine ⟨rfl, fun a ↦ ?_⟩
    rcases a with e | ref <;> trivial
  · trivial
  · trivial

theorem compileRules_isAbout {rules : List Rule}
    (h : ∀ r ∈ rules, Asks (CompileOp.IsAbout engine) (r.compile lib engine)) :
    Asks (CompileOp.IsAbout engine) (compileRules lib engine rules) := by
  induction rules with
  | nil => trivial
  | cons r rules ih =>
    rw [compileRules]
    refine (h r List.mem_cons_self).bind fun out ↦ ?_
    rcases out with e | ⟨⟩
    · trivial
    · exact ih fun q hq ↦ h q (List.mem_cons_of_mem r hq)

theorem compileLocked_isAbout {r : RuleFields}
    {compileChildren : CompileProgram (Except String Unit)}
    (hchildren : Asks (CompileOp.IsAbout engine) compileChildren) :
    Asks (CompileOp.IsAbout engine) (compileLocked lib engine r compileChildren) := by
  refine ⟨rfl, fun found ↦ ?_⟩
  rcases found with - | c
  · refine ⟨rfl, fun generation ↦ ?_⟩
    refine (compileSource_isAbout lib engine .expression r).bind fun expression ↦ ?_
    rcases expression with e | expressionRef
    · trivial
    refine (compileSource_isAbout lib engine .action r).bind fun action ↦ ?_
    rcases action with e | actionRef
    · trivial
    refine hchildren.bind fun children ↦ ?_
    rcases children with e | ⟨⟩
    · trivial
    · exact ⟨rfl, fun _ ↦ trivial⟩
  · trivial

theorem compile_isAbout (r : Rule) :
    Asks (CompileOp.IsAbout engine) (r.compile lib engine) := by
  induction r using Rule.induction_children with
  | h r ih =>
    have hlocked := compileLocked_isAbout lib engine (r := r.toRuleFields)
      (compileRules_isAbout lib engine ih)
    rw [Rule.compile_eq, compileWith]
    exact ⟨trivial, fun _ ↦ hlocked.bind fun out ↦ ⟨trivial, fun _ ↦ trivial⟩⟩

theorem ensureCompiledFor_isAbout (r : Rule) :
    Asks (CompileOp.IsAbout engine) (r.ensureCompiledFor lib engine) := by
  refine ⟨rfl, fun found ↦ ?_⟩
  rcases found with - | c
  · exact compile_isAbout lib engine r
  · trivial

theorem ensureCompiledFor_compilesInto (r : Rule) :
    Asks (CompileOp.CompilesInto engine) (r.ensureCompiledFor lib engine) :=
  (ensureCompiledFor_isAbout lib engine r).mono fun _ h ↦ h.compilesInto

end Asks

/-! ### Sessions -/

/-- Compiling the chunk begins with a reset: there is something to compile, and too much memory is
in use. -/
def LuaEngine.ResetsFor (memKB : ℕ) (chunk : Chunk) (e : LuaEngine) : Prop :=
  (e.exceeds chunk.source = false ∧ nothingIn chunk = false) ∧
    0 < e.autoResetThresholdKB ∧ e.autoResetThresholdKB < memKB

instance (memKB : ℕ) (chunk : Chunk) (e : LuaEngine) : Decidable (e.ResetsFor memKB chunk) :=
  inferInstanceAs (Decidable (_ ∧ _))

/-- An engine refuses a chunk, finds nothing in it, or registers it, after a reset if memory is
short. -/
theorem LuaEngine.compile_cases (lib : LuaLibrary) (memKB : ℕ) (chunk : Chunk) (e : LuaEngine) :
    (∃ message, e.compile lib memKB chunk = (.error message, e) ∧ ¬e.ResetsFor memKB chunk) ∨
      (e.compile lib memKB chunk = (.ok none, e) ∧ nothingIn chunk = true ∧
        ¬e.ResetsFor memKB chunk) ∨
      e.compile lib memKB chunk =
        (if e.ResetsFor memKB chunk then e.resetState else e).register lib chunk := by
  have hreset (hroom : e.exceeds chunk.source = false) (hsome : nothingIn chunk = false) :
      e.autoReset memKB = if e.ResetsFor memKB chunk then e.resetState else e := by
    simp only [autoReset, ResetsFor, hroom, hsome, true_and]
  obtain ⟨kind, source⟩ := chunk
  rcases hlong : e.exceeds source with - | -
  · rcases hnothing : nothingIn ⟨kind, source⟩ with - | -
    · rw [← hreset hlong hnothing]
      refine .inr (.inr ?_)
      cases kind with
      | expression =>
        have hblank : isBlank source = false := hnothing
        simp [compile, compileExpression, hlong, hblank]
      | action =>
        have hempty : source ≠ "" := of_decide_eq_false hnothing
        simp [compile, compileAction, hlong, hempty]
    · refine .inr (.inl ⟨?_, rfl, fun h ↦ ?_⟩)
      · cases kind with
        | expression =>
          have hblank : isBlank source = true := hnothing
          simp [compile, compileExpression, hlong, hblank]
        | action =>
          have hempty : source = "" := of_decide_eq_true hnothing
          simp [compile, compileAction, hempty]
      · exact Bool.false_ne_true (h.1.2.symm.trans hnothing)
  · have hstays : ¬e.ResetsFor memKB ⟨kind, source⟩ := fun h ↦
      Bool.false_ne_true (h.1.1.symm.trans hlong)
    cases kind with
    | expression =>
      refine .inl ⟨e.lengthMessage "Expression" source, ?_, hstays⟩
      simp [compile, compileExpression, hlong]
    | action =>
      rcases eq_or_ne source "" with rfl | hempty
      · exact .inr (.inl ⟨by simp [compile, compileAction], rfl, hstays⟩)
      · refine .inl ⟨e.lengthMessage "Action" source, ?_, hstays⟩
        simp [compile, compileAction, hlong, hempty]

/-- The counter is past all references. -/
def LuaEngine.Fresh (e : LuaEngine) : Prop :=
  ∀ k, e.nextRefId ≤ k → e.chunks k = none

/-- Registering a chunk keeps the others. -/
theorem LuaEngine.Fresh.register {e : LuaEngine} (h : e.Fresh) (lib : LuaLibrary) (chunk : Chunk) :
    (e.register lib chunk).2.Fresh ∧
      (∀ k c, e.chunks k = some c → (e.register lib chunk).2.chunks k = some c) ∧
      ∀ ref, (e.register lib chunk).1 = .ok ref →
        ∃ k, ref = some k ∧ (e.register lib chunk).2.chunks k = some chunk := by
  rw [LuaEngine.register]
  rcases lib.load chunk with message | _
  · exact ⟨fun k hk ↦ h k (Nat.le_of_succ_le hk), fun k c hc ↦ hc, fun ref href ↦ by cases href⟩
  · refine ⟨fun k hk ↦ ?_, fun k c hc ↦ ?_, fun ref href ↦ ⟨e.nextRefId, ?_, ?_⟩⟩
    · show Function.update e.chunks e.nextRefId (some chunk) k = none
      have hlt : e.nextRefId < k := hk
      rw [Function.update_of_ne (by omega)]
      exact h k (by omega)
    · show Function.update e.chunks e.nextRefId (some chunk) k = some c
      rw [Function.update_of_ne ?_]
      · exact hc
      · rintro rfl
        rw [h _ le_rfl] at hc
        cases hc
    · exact (Except.ok.inj href).symm
    · exact Function.update_self _ _ _

/-- The records of the rules and the engines, while one call is made after the other. -/
structure Session extends CompileState Unit where
  /-- How much memory will be in use at the next request, at the one after it, and so on. -/
  memory : ℕ → ℕ := fun _ ↦ 0
  /-- How often each engine has been reset. Nobody but an observer keeps this count. -/
  resets : InstanceId → ℕ := fun _ ↦ 0

/-- No two texts in `S` have one fingerprint. -/
def CollisionFree (lib : LuaLibrary) (S : Set RuleFields) : Prop :=
  ∀ r ∈ S, ∀ q ∈ S, sourceFingerprint lib r = sourceFingerprint lib q →
    r.expression = q.expression ∧ r.action = q.action

namespace Session

/-- The counts after a request. -/
def resetsAfter (s : Session) : CompileOp → InstanceId → ℕ
  | .compileChunk engine chunk =>
    if (s.engines engine).ResetsFor (s.memory 0) chunk then
      Function.update s.resets engine (s.resets engine + 1)
    else s.resets
  | _ => s.resets

/-- What a request does. -/
def handle (lib : LuaLibrary) (op : CompileOp) (s : Session) : op.Ans × Session :=
  ((CompileState.handle lib (s.memory 0) () op s.toCompileState).1,
    { toCompileState := (CompileState.handle lib (s.memory 0) () op s.toCompileState).2
      memory := fun n ↦ s.memory (n + 1)
      resets := s.resetsAfter op })

/-- Change one engine. -/
def withEngine (s : Session) (engine : InstanceId) (e : LuaEngine) : Session :=
  { s with toCompilations := s.setEngine engine e }

/-- A new engine with the given settings. -/
def create (maxExpressionLength autoResetThresholdKB : ℕ) (s : Session) : Session :=
  { s.withEngine s.nextInstance { maxExpressionLength, autoResetThresholdKB } with
    nextInstance := s.nextInstance + 1 }

/-- Change the settings of an engine. -/
def configure (engine : InstanceId) (maxExpressionLength autoResetThresholdKB : ℕ) (s : Session) :
    Session :=
  s.withEngine engine { s.engines engine with maxExpressionLength, autoResetThresholdKB }

/-- `LuaEngine::resetState`. -/
def resetState (engine : InstanceId) (s : Session) : Session :=
  { s.withEngine engine (s.engines engine).resetState with
    resets := Function.update s.resets engine (s.resets engine + 1) }

/-! ### Later sessions -/

/-- The engine has not lost a chunk since, unless it was reset. -/
structure Later (s s' : Session) (engine : InstanceId) : Prop where
  resets_le : s.resets engine ≤ s'.resets engine
  kept : s'.resets engine = s.resets engine → ∀ k chunk,
    (s.engines engine).chunks k = some chunk → (s'.engines engine).chunks k = some chunk

variable {lib : LuaLibrary} {S : Set RuleFields} {s s' s'' : Session} {engine engine' : InstanceId}
  {chunk : Chunk} {ref : Option ℕ} {n : ℕ} {kind : ChunkKind}

theorem Later.of_eq (hengine : s'.engines engine = s.engines engine)
    (hresets : s'.resets engine = s.resets engine) : s.Later s' engine :=
  ⟨hresets.ge, fun _ _ _ h ↦ hengine ▸ h⟩

theorem later_refl (s : Session) (engine : InstanceId) : s.Later s engine :=
  .of_eq rfl rfl

theorem Later.trans (h : s.Later s' engine) (h' : s'.Later s'' engine) : s.Later s'' engine := by
  refine ⟨h.resets_le.trans h'.resets_le, fun hsame k chunk hchunk ↦ ?_⟩
  have hle := h.resets_le
  have hle' := h'.resets_le
  exact h'.kept (by omega) k chunk (h.kept (by omega) k chunk hchunk)

/-- What was handed out for the chunk after so many resets of the engine: a reference, if there is
something to compile, that denotes the chunk until the next reset. -/
structure Refers (s : Session) (engine : InstanceId) (n : ℕ) (chunk : Chunk) (ref : Option ℕ) :
    Prop where
  ne_none : LuaEngine.nothingIn chunk = false → ref ≠ none
  denotes : s.resets engine = n → ∀ k, ref = some k → (s.engines engine).chunks k = some chunk

theorem Refers.later (h : s.Refers engine n chunk ref) (hn : n ≤ s.resets engine)
    (hlater : s.Later s' engine) : s'.Refers engine n chunk ref := by
  refine ⟨h.ne_none, fun hsame k hk ↦ ?_⟩
  have hle := hlater.resets_le
  exact hlater.kept (by omega) k chunk (h.denotes (by omega) k hk)

/-! ### The invariant -/

/-- The engine shows its resets in its generation, and its counter is past all references. -/
structure EngineSound (s : Session) (engine : InstanceId) : Prop where
  generation : (s.engines engine).generation = BitVec.ofNat 32 (s.resets engine)
  fresh : (s.engines engine).Fresh

/-- The record was made for one of the texts in `S`, in the generation it names. -/
def RecordSound (lib : LuaLibrary) (S : Set RuleFields) (s : Session) (engine : InstanceId)
    (c : EngineCompilation) : Prop :=
  ∃ r ∈ S, c.sourceHash = sourceFingerprint lib r ∧
    ∃ n ≤ s.resets engine, c.generation = BitVec.ofNat 32 n ∧
      ∀ kind, s.Refers engine n ⟨kind, r.sourceOf kind⟩ (c.ref kind)

/-- What holds between any two requests. -/
structure Inv (lib : LuaLibrary) (S : Set RuleFields) (s : Session) : Prop where
  engine : ∀ engine, s.EngineSound engine
  record : ∀ p engine c, s.records p engine = some c → RecordSound lib S s engine c
  /-- An engine that has not been made has no records, and has not been reset. -/
  unborn : ∀ engine, s.nextInstance ≤ engine →
    s.resets engine = 0 ∧ ∀ p, s.records p engine = none

theorem RecordSound.later {c : EngineCompilation} (h : RecordSound lib S s engine c)
    (hlater : s.Later s' engine) : RecordSound lib S s' engine c := by
  obtain ⟨r, hr, hhash, n, hn, hgeneration, hrefers⟩ := h
  exact ⟨r, hr, hhash, n, hn.trans hlater.resets_le, hgeneration,
    fun kind ↦ (hrefers kind).later hn hlater⟩

/-- Requests and calls that leave no record. -/
theorem Inv.of_records (h : s.Inv lib S) (hengine : ∀ engine, s'.EngineSound engine)
    (hrecords : s'.records = s.records) (hnext : s.nextInstance ≤ s'.nextInstance)
    (hresets : ∀ engine, s'.nextInstance ≤ engine → s'.resets engine = s.resets engine)
    (hlater : ∀ engine, engine < s.nextInstance → s.Later s' engine) : s'.Inv lib S := by
  refine ⟨hengine, fun p engine c hc ↦ ?_, fun engine hge ↦ ?_⟩
  · rw [hrecords] at hc
    refine (h.record p engine c hc).later (hlater engine ?_)
    by_contra hge
    rw [(h.unborn engine (not_lt.1 hge)).2 p] at hc
    cases hc
  · obtain ⟨hzero, hnone⟩ := h.unborn engine (hnext.trans hge)
    exact ⟨(hresets engine hge).trans hzero, fun p ↦ hrecords ▸ hnone p⟩

/-- Requests that touch neither the engines nor the records. -/
theorem Inv.bookkeeping (h : s.Inv lib S) (hcompilations : s'.toCompilations = s.toCompilations)
    (hnext : s'.nextInstance = s.nextInstance) (hresets : s'.resets = s.resets) :
    s'.Inv lib S ∧ ∀ engine, s.Later s' engine := by
  have hengines : s'.engines = s.engines := congrArg Compilations.engines hcompilations
  have hlater (engine : InstanceId) : s.Later s' engine :=
    .of_eq (congrFun hengines engine) (congrFun hresets engine)
  refine ⟨h.of_records (fun engine ↦ ?_) (congrArg Compilations.records hcompilations) hnext.ge
    (fun engine _ ↦ congrFun hresets engine) fun engine _ ↦ hlater engine, hlater⟩
  obtain ⟨hgeneration, hfresh⟩ := h.engine engine
  exact ⟨by rw [hengines, hresets, hgeneration], by rw [hengines]; exact hfresh⟩

/-! ### Chunks and records -/

theorem EngineSound.resetState (h : s.EngineSound engine) :
    (s.engines engine).resetState.generation = BitVec.ofNat 32 (s.resets engine + 1) := by
  show (s.engines engine).generation + 1 = _
  rw [h.generation, BitVec.ofNat_add]
  rfl

/-- What an engine is like after it has compiled a chunk, and what it has handed out. -/
theorem EngineSound.compile (h : s.EngineSound engine) (lib : LuaLibrary) (memKB : ℕ)
    (chunk : Chunk) :
    let x := (s.engines engine).compile lib memKB chunk
    (x.2.generation = BitVec.ofNat 32 (s.resets engine +
        if (s.engines engine).ResetsFor memKB chunk then 1 else 0) ∧ x.2.Fresh) ∧
      (¬(s.engines engine).ResetsFor memKB chunk →
        ∀ k c, (s.engines engine).chunks k = some c → x.2.chunks k = some c) ∧
      ∀ ref, x.1 = .ok ref → (LuaEngine.nothingIn chunk = false → ref ≠ none) ∧
        ∀ k, ref = some k → x.2.chunks k = some chunk := by
  intro x
  rcases (s.engines engine).compile_cases lib memKB chunk with ⟨message, hx, hstays⟩ |
    ⟨hx, hnothing, hstays⟩ | hx
  · have hx' : x = (.error message, s.engines engine) := hx
    rw [hx', if_neg hstays]
    exact ⟨⟨h.generation, h.fresh⟩, fun _ _ _ hc ↦ hc, fun ref href ↦ by cases href⟩
  · have hx' : x = (.ok none, s.engines engine) := hx
    rw [hx', if_neg hstays]
    refine ⟨⟨h.generation, h.fresh⟩, fun _ _ _ hc ↦ hc, fun ref href ↦ ?_⟩
    obtain rfl := Except.ok.inj href
    exact ⟨fun hsome ↦ absurd (hsome.symm.trans hnothing) Bool.false_ne_true,
      fun k hk ↦ by cases hk⟩
  · have hx' : x = _ := hx
    -- the engine that registers the chunk
    set e := if (s.engines engine).ResetsFor memKB chunk then (s.engines engine).resetState
      else s.engines engine with he
    have hengine : e.generation = BitVec.ofNat 32 (s.resets engine +
        if (s.engines engine).ResetsFor memKB chunk then 1 else 0) ∧ e.Fresh := by
      rw [he]
      split_ifs
      · exact ⟨h.resetState, fun _ _ ↦ rfl⟩
      · exact ⟨h.generation, h.fresh⟩
    obtain ⟨hfresh, hkept, href⟩ := hengine.2.register lib chunk
    rw [hx']
    refine ⟨⟨(e.register_frame lib chunk).1.trans hengine.1, hfresh⟩, fun hstays k c hc ↦ ?_,
      fun ref hok ↦ ?_⟩
    · refine hkept k c ?_
      rwa [he, if_neg hstays]
    · obtain ⟨k, rfl, hk⟩ := href ref hok
      refine ⟨fun _ ↦ Option.some_ne_none k, fun k' hk' ↦ ?_⟩
      rwa [← Option.some.inj hk']

/-- A chunk is compiled. -/
theorem Inv.compileChunk (h : s.Inv lib S) (chunk : Chunk) (hborn : engine < s.nextInstance) :
    let x := s.handle lib (.compileChunk engine chunk)
    x.2.Inv lib S ∧ (∀ e, s.Later x.2 e) ∧
      ∀ ref, x.1 = .ok ref → ∀ n, x.2.Refers engine n chunk ref := by
  intro x
  obtain ⟨⟨hgeneration, hfresh⟩, hkept, href⟩ :=
    (h.engine engine).compile lib (s.memory 0) chunk
  have hself : x.2.engines engine =
      ((s.engines engine).compile lib (s.memory 0) chunk).2 := Function.update_self _ _ _
  have hother : ∀ e, e ≠ engine → x.2.engines e = s.engines e := fun e he ↦
    Function.update_of_ne he _ _
  have hresets : x.2.resets engine = s.resets engine +
      if (s.engines engine).ResetsFor (s.memory 0) chunk then 1 else 0 := by
    show s.resetsAfter (.compileChunk engine chunk) engine = _
    rw [resetsAfter]
    split_ifs
    · exact Function.update_self _ _ _
    · rfl
  have hresetsOther : ∀ e, e ≠ engine → x.2.resets e = s.resets e := fun e he ↦ by
    show s.resetsAfter (.compileChunk engine chunk) e = _
    rw [resetsAfter]
    split_ifs
    · exact Function.update_of_ne he _ _
    · rfl
  have hlater : ∀ e, s.Later x.2 e := by
    intro e
    rcases eq_or_ne e engine with rfl | he
    · refine ⟨by omega, fun hsame k c hc ↦ ?_⟩
      rw [hself]
      refine hkept (fun hreset ↦ ?_) k c hc
      rw [if_pos hreset] at hresets
      omega
    · exact .of_eq (hother e he) (hresetsOther e he)
  refine ⟨h.of_records (fun e ↦ ?_) rfl le_rfl (fun e hge ↦ hresetsOther e ?_)
    fun e _ ↦ hlater e, hlater, fun ref hok n ↦ ?_⟩
  · rcases eq_or_ne e engine with rfl | he
    · exact ⟨by rw [hself, hresets]; exact hgeneration, by rw [hself]; exact hfresh⟩
    · obtain ⟨hg, hf⟩ := h.engine e
      exact ⟨by rw [hother e he, hresetsOther e he, hg], by rw [hother e he]; exact hf⟩
  · exact (hborn.trans_le hge).ne'
  · obtain ⟨hsome, hdenotes⟩ := href ref hok
    exact ⟨hsome, fun _ k hk ↦ by rw [hself]; exact hdenotes k hk⟩

/-- A record is stored. -/
theorem Inv.store (h : s.Inv lib S) (hborn : engine < s.nextInstance) {p : RulePtr}
    {c : EngineCompilation} (hc : RecordSound lib S s engine c) :
    let x := s.handle lib (.store p engine c)
    x.2.Inv lib S ∧ ∀ e, s.Later x.2 e := by
  intro x
  have hlater : ∀ e, s.Later x.2 e := fun e ↦ .of_eq rfl rfl
  have hof_ne : ∀ q e, ¬(q = p ∧ e = engine) → x.2.records q e = s.records q e := fun q e hne ↦
    Compilations.store_records_of_ne _ _ (by tauto)
  refine ⟨⟨fun e ↦ ⟨(h.engine e).generation, (h.engine e).fresh⟩, fun q e d hd ↦ ?_,
    fun e hge ↦ ⟨(h.unborn e hge).1, fun q ↦ ?_⟩⟩, hlater⟩
  · by_cases hsame : q = p ∧ e = engine
    · obtain ⟨rfl, rfl⟩ := hsame
      obtain rfl := Option.some.inj ((Compilations.store_records_self _ q e c).symm.trans hd)
      exact hc.later (hlater e)
    · rw [hof_ne q e hsame] at hd
      exact (h.record q e d hd).later (hlater e)
  · have hlt : engine < e := hborn.trans_le hge
    rw [hof_ne q e fun hsame ↦ hlt.ne' hsame.2]
    exact (h.unborn e hge).2 q

/-! ### Compilations -/

/-- What a call leaves behind in any case. -/
structure Continues (lib : LuaLibrary) (S : Set RuleFields) (s s' : Session) : Prop where
  inv : s'.Inv lib S
  later : ∀ engine, s.Later s' engine
  next : s'.nextInstance = s.nextInstance

theorem Inv.continues (h : s.Inv lib S) : Continues lib S s s :=
  ⟨h, s.later_refl, rfl⟩

theorem Continues.trans (h : Continues lib S s s') (h' : Continues lib S s' s'') :
    Continues lib S s s'' :=
  ⟨h'.inv, fun e ↦ (h.later e).trans (h'.later e), h'.next.trans h.next⟩

/-- The requests of a compilation that touch neither the engines nor the records. -/
theorem Inv.continues_bookkeeping (h : s.Inv lib S)
    (hcompilations : s'.toCompilations = s.toCompilations)
    (hnext : s'.nextInstance = s.nextInstance) (hresets : s'.resets = s.resets) :
    Continues lib S s s' :=
  ⟨(h.bookkeeping hcompilations hnext hresets).1, (h.bookkeeping hcompilations hnext hresets).2,
    hnext⟩

/-- Check and compile a text: what is handed out denotes it. -/
theorem compileSource_continues (h : s.Inv lib S) (hborn : engine < s.nextInstance)
    (kind : ChunkKind) (r : RuleFields) :
    Ensures (.ofHandler (Session.handle lib))
      (fun out s' ↦ Continues lib S s s' ∧
        ∀ ref, out = .ok ref → ∀ n, s'.Refers engine n ⟨kind, r.sourceOf kind⟩ ref)
      (compileSource lib engine kind r) s := by
  rw [compileSource]
  split_ifs with hsource hvalid
  · refine ⟨trivial, fun a s₁ h₁ ↦ ?_⟩
    obtain ⟨rfl, rfl⟩ := Prod.ext_iff.1 h₁
    obtain ⟨hinv, hlater, hrefers⟩ :=
      h.compileChunk ⟨kind, r.sourceOf kind⟩ hborn
    refine ?_
    rcases hx : (s.handle lib (.compileChunk engine ⟨kind, r.sourceOf kind⟩)).1 with e | ref
    · exact ⟨⟨hinv, hlater, rfl⟩, fun ref hok ↦ by cases hok⟩
    · refine ⟨⟨hinv, hlater, rfl⟩, fun ref' hok n ↦ ?_⟩
      obtain rfl := Except.ok.inj hok
      exact hrefers ref hx n
  · exact ⟨h.continues, fun ref hok ↦ by cases hok⟩
  · refine ⟨h.continues, fun ref hok n ↦ ?_⟩
    obtain rfl := Except.ok.inj hok
    refine ⟨fun hsome ↦ absurd hsome ?_, fun _ k hk ↦ by cases hk⟩
    rw [not_not.1 hsource]
    cases kind <;> decide

/-- What the compilation of a rule leaves behind: if it comes to an end without an exception, a
record that names the generation in which it has begun. -/
def Settled (lib : LuaLibrary) (S : Set RuleFields) (engine : InstanceId) (r : RuleFields)
    (s : Session) (out : Except String Unit) (s' : Session) : Prop :=
  Continues lib S s s' ∧ (out = .ok () → ∃ c, s'.records r.ptr engine = some c ∧
    c.sourceHash = sourceFingerprint lib r ∧
    c.generation = BitVec.ofNat 32 (s.resets engine))

theorem compileRules_continues {rules : List Rule}
    (hrules : ∀ r ∈ rules, ∀ s : Session, s.Inv lib S → engine < s.nextInstance →
      Ensures (.ofHandler (Session.handle lib)) (Settled lib S engine r.toRuleFields s)
        (r.compile lib engine) s) (h : s.Inv lib S) (hborn : engine < s.nextInstance) :
    Ensures (.ofHandler (Session.handle lib)) (fun _ s' ↦ Continues lib S s s')
      (compileRules lib engine rules) s := by
  induction rules generalizing s with
  | nil => exact h.continues
  | cons r rules ih =>
    rw [compileRules]
    refine (ensures_bind _ _ _).2 ((hrules r List.mem_cons_self s h hborn).mono fun out s₁ h₁ ↦ ?_)
    rcases out with e | ⟨⟩
    · exact h₁.1
    · exact (ih (fun q hq ↦ hrules q (List.mem_cons_of_mem r hq)) h₁.1.inv
        (h₁.1.next ▸ hborn)).mono fun _ s₂ h₂ ↦ h₁.1.trans h₂

theorem compileRecord_settled {r : Rule} (hr : r.toRuleFields ∈ S)
    (hchildren : ∀ s : Session, s.Inv lib S → engine < s.nextInstance →
      Ensures (.ofHandler (Session.handle lib)) (fun _ s' ↦ Continues lib S s s')
        (compileRules lib engine r.childRules) s) (h : s.Inv lib S)
    (hborn : engine < s.nextInstance) :
    Ensures (.ofHandler (Session.handle lib)) (Settled lib S engine r.toRuleFields s)
      (compileRecord lib engine r.toRuleFields (compileRules lib engine r.childRules)) s := by
  refine ⟨trivial, fun generation s₁ h₁ ↦ ?_⟩
  obtain ⟨rfl, rfl⟩ := Prod.ext_iff.1 h₁
  have hc₁ : Continues lib S s (s.handle lib (.getGeneration engine)).2 :=
    h.continues_bookkeeping rfl rfl rfl
  generalize (s.handle lib (.getGeneration engine)).2 = s₁ at hc₁ ⊢
  refine (ensures_bind (compileSource lib engine .expression r.toRuleFields) _ _).2
    ((compileSource_continues hc₁.inv (hc₁.next ▸ hborn) .expression r.toRuleFields).mono
      fun expression s₂ ⟨hc₂, hexpression⟩ ↦ ?_)
  replace hc₂ := hc₁.trans hc₂
  rcases expression with e | expressionRef
  · exact ⟨hc₂, fun hok ↦ by cases hok⟩
  refine (ensures_bind (compileSource lib engine .action r.toRuleFields) _ _).2
    ((compileSource_continues hc₂.inv (hc₂.next ▸ hborn) .action r.toRuleFields).mono
      fun action s₃ ⟨hc₃, haction⟩ ↦ ?_)
  have hc₃' := hc₂.trans hc₃
  rcases action with e | actionRef
  · exact ⟨hc₃', fun hok ↦ by cases hok⟩
  refine (ensures_bind (compileRules lib engine r.childRules) _ _).2
    ((hchildren s₃ hc₃'.inv (hc₃'.next ▸ hborn)).mono fun children s₄ hc₄ ↦ ?_)
  have hc₄' := hc₃'.trans hc₄
  rcases children with e | ⟨⟩
  · exact ⟨hc₄', fun hok ↦ by cases hok⟩
  refine ⟨trivial, fun _ s₅ h₅ ↦ ?_⟩
  obtain ⟨-, rfl⟩ := Prod.ext_iff.1 h₅
  -- the references were handed out in the generation that was noted, or in a later one
  let c : EngineCompilation :=
    { expressionRef, actionRef, generation := (s.handle lib (.getGeneration engine)).1,
      sourceHash := sourceFingerprint lib r.toRuleFields }
  have hsound : RecordSound lib S s₄ engine c := by
    refine ⟨r.toRuleFields, hr, rfl, s.resets engine, (hc₄'.later engine).resets_le,
      (h.engine engine).generation, fun kind ↦ ?_⟩
    cases kind with
    | expression =>
      exact ((hexpression expressionRef rfl _).later (hc₂.later engine).resets_le
        (hc₃.later engine)).later (hc₃'.later engine).resets_le (hc₄.later engine)
    | action =>
      exact (haction actionRef rfl _).later (hc₃'.later engine).resets_le (hc₄.later engine)
  obtain ⟨hinv, hlater⟩ := hc₄'.inv.store (hc₄'.next ▸ hborn) (p := r.ptr) hsound
  refine ⟨hc₄'.trans ⟨hinv, hlater, rfl⟩, fun _ ↦ ⟨c, ?_, rfl, (h.engine engine).generation⟩⟩
  exact Compilations.store_records_self _ _ _ _

theorem compileLocked_settled {r : Rule} (hr : r.toRuleFields ∈ S)
    (hchildren : ∀ s : Session, s.Inv lib S → engine < s.nextInstance →
      Ensures (.ofHandler (Session.handle lib)) (fun _ s' ↦ Continues lib S s s')
        (compileRules lib engine r.childRules) s) (h : s.Inv lib S)
    (hborn : engine < s.nextInstance) :
    Ensures (.ofHandler (Session.handle lib)) (Settled lib S engine r.toRuleFields s)
      (compileLocked lib engine r.toRuleFields (compileRules lib engine r.childRules)) s := by
  refine ⟨trivial, fun found s₁ h₁ ↦ ?_⟩
  obtain ⟨rfl, rfl⟩ := Prod.ext_iff.1 h₁
  have hc₁ : Continues lib S s (s.handle lib (.lookupCompilation r.toRuleFields engine)).2 :=
    h.continues_bookkeeping rfl rfl rfl
  rcases hfound : (s.handle lib (.lookupCompilation r.toRuleFields engine)).1 with - | c
  · refine (compileRecord_settled hr hchildren hc₁.inv (hc₁.next ▸ hborn)).mono
      fun out s₂ h₂ ↦ ⟨hc₁.trans h₂.1, h₂.2⟩
  · -- the record that is there is of the present generation
    obtain ⟨hc, hgeneration, hhash⟩ := Compilations.lookupCompilation_eq_some.1 hfound
    exact ⟨hc₁, fun _ ↦ ⟨c, hc, hhash, hgeneration.trans (h.engine engine).generation⟩⟩

/-- What the compilation of a rule tree leaves behind, wherever the engine is reset meanwhile. -/
theorem compile_settled (r : Rule) (hr : ∀ q ∈ r.nodes, q.toRuleFields ∈ S) (h : s.Inv lib S)
    (hborn : engine < s.nextInstance) :
    Ensures (.ofHandler (Session.handle lib)) (Settled lib S engine r.toRuleFields s)
      (r.compile lib engine) s := by
  induction r using Rule.induction_children generalizing s with
  | h r ih =>
    have hchildren : ∀ s : Session, s.Inv lib S → engine < s.nextInstance →
        Ensures (.ofHandler (Session.handle lib)) (fun _ s' ↦ Continues lib S s s')
          (compileRules lib engine r.childRules) s := fun s h hborn ↦
      compileRules_continues (fun child hchild s h hborn ↦ ih child hchild (fun q hq ↦ hr q (by
        rw [Rule.nodes_eq]
        exact List.mem_cons_of_mem r (Rule.mem_nodesOf.2 ⟨child, hchild, hq⟩))) h hborn) h hborn
    rw [Rule.compile_eq, compileWith]
    refine ⟨trivial, fun _ s₁ h₁ ↦ ?_⟩
    obtain ⟨-, rfl⟩ := Prod.ext_iff.1 h₁
    have hc₁ : Continues lib S s (s.handle lib (.lock r.ptr)).2 :=
      h.continues_bookkeeping rfl rfl rfl
    refine (ensures_bind (compileLocked lib engine r.toRuleFields
      (compileRules lib engine r.childRules)) _ _).2
      ((compileLocked_settled (hr r r.self_mem_nodes) hchildren hc₁.inv (hc₁.next ▸ hborn)).mono
        fun out s₂ h₂ ↦ ⟨trivial, fun _ s₃ h₃ ↦ ?_⟩)
    obtain ⟨-, rfl⟩ := Prod.ext_iff.1 h₃
    exact ⟨hc₁.trans (h₂.1.trans (h₂.1.inv.continues_bookkeeping rfl rfl rfl)), h₂.2⟩

theorem ensureCompiledFor_settled (r : Rule) (hr : ∀ q ∈ r.nodes, q.toRuleFields ∈ S)
    (h : s.Inv lib S) (hborn : engine < s.nextInstance) :
    Ensures (.ofHandler (Session.handle lib)) (Settled lib S engine r.toRuleFields s)
      (r.ensureCompiledFor lib engine) s := by
  refine ⟨trivial, fun found s₁ h₁ ↦ ?_⟩
  obtain ⟨rfl, rfl⟩ := Prod.ext_iff.1 h₁
  have hc₁ : Continues lib S s (s.handle lib (.lookupCompilation r.toRuleFields engine)).2 :=
    h.continues_bookkeeping rfl rfl rfl
  rcases hfound : (s.handle lib (.lookupCompilation r.toRuleFields engine)).1 with - | c
  · exact (compile_settled r hr hc₁.inv (hc₁.next ▸ hborn)).mono
      fun out s₂ h₂ ↦ ⟨hc₁.trans h₂.1, h₂.2⟩
  · obtain ⟨hc, hgeneration, hhash⟩ := Compilations.lookupCompilation_eq_some.1 hfound
    exact ⟨hc₁, fun _ ↦ ⟨c, hc, hhash, hgeneration.trans (h.engine engine).generation⟩⟩

/-! ### Resets during a compilation -/

/-- The request does not begin with a reset. -/
def NoReset : CompileOp → Session → Prop
  | .compileChunk engine chunk, s => ¬(s.engines engine).ResetsFor (s.memory 0) chunk
  | _, _ => True

instance : (op : CompileOp) → (s : Session) → Decidable (NoReset op s)
  | .compileChunk engine chunk, s =>
    inferInstanceAs (Decidable (¬(s.engines engine).ResetsFor (s.memory 0) chunk))
  | .lock _, _ | .unlock _, _ | .lookupCompilation _ _, _ | .getGeneration _, _ | .store _ _ _, _
  | .clone _, _ | .hasError, _ | .nextRule, _ | .fail _, _ | .compileException, _
  | .isCompiled _, _ | .clearEngines, _ | .keepEngine _, _ | .openPool, _ => isTrue trivial

theorem handle_resets (op : CompileOp) (hop : op.CompilesInto engine) (s : Session) :
    (s.handle lib op).2.resets engine = s.resets engine + if NoReset op s then 0 else 1 := by
  cases op with
  | compileChunk engine' chunk =>
    obtain rfl : engine' = engine := hop
    show s.resetsAfter (.compileChunk engine' chunk) engine' = s.resets engine' +
      if ¬(s.engines engine').ResetsFor (s.memory 0) chunk then 0 else 1
    rw [resetsAfter, ite_not]
    split_ifs
    · exact Function.update_self _ _ _
    · rfl
  | _ => rfl

/-- The count of the observer tells whether there was a reset. -/
theorem run_resets {α : Type} {p : CompileProgram α} (hp : Asks (CompileOp.CompilesInto engine) p)
    (s : Session) :
    s.resets engine ≤ (p.run (Session.handle lib) s).2.resets engine ∧
      ((p.run (Session.handle lib) s).2.resets engine = s.resets engine ↔
        Guarded (Session.handle lib) NoReset p s) := by
  induction p generalizing s with
  | ret a => exact ⟨le_rfl, iff_of_true rfl trivial⟩
  | ask op next ih =>
    obtain ⟨hle, hiff⟩ := ih _ (hp.2 _) (s.handle lib op).2
    have hstep := @handle_resets lib _ op hp.1 s
    rw [Guarded, ← hiff, run_ask]
    split_ifs at hstep with hno
    · rw [hstep] at hle ⊢
      exact ⟨by omega, by simp [hno]⟩
    · refine ⟨by omega, iff_of_false (by omega) fun h ↦ hno h.1⟩

/-! ### What is found -/

theorem ofNat_eq_iff {m n : ℕ} (hm : m < 2 ^ 32) (hn : n < 2 ^ 32) :
    BitVec.ofNat 32 m = BitVec.ofNat 32 n ↔ m = n := by
  rw [← BitVec.toNat_inj, BitVec.toNat_ofNat, BitVec.toNat_ofNat, Nat.mod_eq_of_lt hm,
    Nat.mod_eq_of_lt hn]

/-- What is found denotes the present text. -/
theorem Inv.lookupCompilation (h : s.Inv lib S) (hS : CollisionFree lib S) {r : RuleFields}
    (hr : r ∈ S) (hcount : s.resets engine < 2 ^ 32) {c : EngineCompilation}
    (hc : s.lookupCompilation lib r engine = some c) (kind : ChunkKind) :
    (LuaEngine.nothingIn ⟨kind, r.sourceOf kind⟩ = false → c.ref kind ≠ none) ∧
      ∀ k, c.ref kind = some k →
        (s.engines engine).chunks k = some ⟨kind, r.sourceOf kind⟩ := by
  obtain ⟨hrecord, hgeneration, hhash⟩ := Compilations.lookupCompilation_eq_some.1 hc
  obtain ⟨q, hq, hhash', n, hn, hgeneration', hrefers⟩ := h.record _ _ _ hrecord
  obtain ⟨hexpression, haction⟩ := hS q hq r hr (hhash'.symm.trans hhash)
  have hsource : q.sourceOf kind = r.sourceOf kind := by
    cases kind with
    | expression => exact hexpression
    | action => exact haction
  have hsame : n = s.resets engine := by
    rw [hgeneration', (h.engine engine).generation] at hgeneration
    exact (ofNat_eq_iff (by omega) hcount).1 hgeneration
  rw [← hsource]
  exact ⟨(hrefers kind).ne_none, (hrefers kind).denotes hsame.symm⟩

/-- The exception of a compilation. -/
theorem run_getRef_error {r : Rule} {e : String}
    (h : (r.ensureCompiledFor lib engine).run (Session.handle lib) s = (.error e, s')) :
    (r.getRef lib engine kind).run (Session.handle lib) s = (.error e, s') := by
  rw [Rule.getRef, run_bind, h]
  rfl

/-- After a compilation the reference is what is found then. -/
theorem run_getRef_ok {r : Rule}
    (h : (r.ensureCompiledFor lib engine).run (Session.handle lib) s = (.ok (), s')) :
    (r.getRef lib engine kind).run (Session.handle lib) s =
      (.ok ((s'.lookupCompilation lib r.toRuleFields engine).bind fun c ↦ c.ref kind),
        (s'.handle lib (.lookupCompilation r.toRuleFields engine)).2) := by
  rw [Rule.getRef, run_bind, h]
  dsimp only
  rw [run_bind]
  have hfound : ((CompileOp.lookupCompilation r.toRuleFields engine).perform.run
      (Session.handle lib) s').1 = s'.lookupCompilation lib r.toRuleFields engine := rfl
  rw [hfound]
  rcases s'.lookupCompilation lib r.toRuleFields engine with - | c <;> rfl

/-- What `getRef` leaves behind in any case. -/
theorem Inv.getRef (h : s.Inv lib S) (hborn : engine < s.nextInstance) {r : Rule}
    (hr : ∀ q ∈ r.nodes, q.toRuleFields ∈ S) (kind : ChunkKind) :
    Continues lib S s ((r.getRef lib engine kind).run (Session.handle lib) s).2 := by
  have hsettled := (ensureCompiledFor_settled r hr h hborn).run
  rcases hy : (r.ensureCompiledFor lib engine).run (Session.handle lib) s with ⟨e | ⟨⟩, s₁⟩
  · rw [run_getRef_error hy]
    rw [hy] at hsettled
    exact hsettled.1
  · rw [run_getRef_ok hy]
    rw [hy] at hsettled
    exact hsettled.1.trans (hsettled.1.inv.continues_bookkeeping rfl rfl rfl)

/-- **A reference denotes the chunk of the present text**, as long as the engine has been reset less
than `2 ^ 32` times. -/
theorem Inv.getRef_denotes (h : s.Inv lib S) (hS : CollisionFree lib S)
    (hborn : engine < s.nextInstance) {r : Rule} (hr : ∀ q ∈ r.nodes, q.toRuleFields ∈ S)
    {kind : ChunkKind} {k : ℕ}
    (hk : ((r.getRef lib engine kind).run (Session.handle lib) s).1 = .ok (some k))
    (hcount : ((r.getRef lib engine kind).run (Session.handle lib) s).2.resets engine < 2 ^ 32) :
    (((r.getRef lib engine kind).run (Session.handle lib) s).2.engines engine).chunks k =
      some ⟨kind, r.sourceOf kind⟩ := by
  have hsettled := (ensureCompiledFor_settled r hr h hborn).run
  rcases hy : (r.ensureCompiledFor lib engine).run (Session.handle lib) s with ⟨e | ⟨⟩, s₁⟩
  · rw [run_getRef_error hy] at hk
    cases hk
  · rw [hy] at hsettled
    rw [run_getRef_ok hy] at hk hcount ⊢
    obtain ⟨c, hc, hck⟩ := Option.bind_eq_some_iff.1 (Except.ok.inj hk)
    exact (hsettled.1.inv.lookupCompilation hS (hr r r.self_mem_nodes) hcount hc kind).2 k hck

/-- **There is no reference** to a text exactly if an automatic reset has put the record out of date
while it was made. -/
theorem Inv.getRef_eq_none_iff (h : s.Inv lib S) (hS : CollisionFree lib S)
    (hborn : engine < s.nextInstance) {r : Rule} (hr : ∀ q ∈ r.nodes, q.toRuleFields ∈ S)
    {kind : ChunkKind} (hsome : LuaEngine.nothingIn ⟨kind, r.sourceOf kind⟩ = false)
    (hcount : ((r.getRef lib engine kind).run (Session.handle lib) s).2.resets engine < 2 ^ 32) :
    ((r.getRef lib engine kind).run (Session.handle lib) s).1 = .ok none ↔
      ((r.ensureCompiledFor lib engine).run (Session.handle lib) s).1 = .ok () ∧
        ¬Guarded (Session.handle lib) NoReset (r.ensureCompiledFor lib engine) s := by
  have hsettled := (ensureCompiledFor_settled r hr h hborn).run
  obtain ⟨hle, hresets⟩ :=
    @run_resets lib _ _ _ (ensureCompiledFor_compilesInto lib engine r) s
  rcases hy : (r.ensureCompiledFor lib engine).run (Session.handle lib) s with ⟨e | ⟨⟩, s₁⟩
  · rw [run_getRef_error hy]
    exact iff_of_false (by simp) fun hok ↦ by cases hok.1
  · rw [hy] at hsettled hle hresets
    rw [run_getRef_ok hy] at hcount ⊢
    obtain ⟨hcontinues, hrecord⟩ := hsettled
    obtain ⟨c, hc, hhash, hgeneration⟩ := hrecord rfl
    have hcount₁ : s₁.resets engine < 2 ^ 32 := hcount
    -- the record bears the number of the generation in which the compilation has begun
    have hcurrent : c.generation = (s₁.engines engine).generation ↔
        s₁.resets engine = s.resets engine := by
      rw [hgeneration, (hcontinues.inv.engine engine).generation,
        ofNat_eq_iff (lt_of_le_of_lt hle hcount₁) hcount₁, eq_comm]
    rw [← hresets, ← hcurrent, and_iff_right rfl]
    rcases hfound : s₁.lookupCompilation lib r.toRuleFields engine with - | d
    · refine iff_of_true rfl fun hgen ↦ ?_
      have hfound' := Compilations.lookupCompilation_eq_some.2 ⟨hc, hgen, hhash⟩
      rw [hfound] at hfound'
      cases hfound'
    · obtain ⟨hd, hgen, -⟩ := Compilations.lookupCompilation_eq_some.1 hfound
      obtain rfl := Option.some.inj (hc.symm.trans hd)
      refine iff_of_false (fun hnone ↦ ?_) (not_not.2 hgen)
      exact (hcontinues.inv.lookupCompilation hS (hr r r.self_mem_nodes) hcount₁ hfound kind).1
        hsome (Except.ok.inj hnone)

/-! ### Runs -/

/-- One call: on an engine that has been made, for rules with texts in `S`. The texts a rule has in
one call are not those of the call before if they were edited in between. -/
inductive Step (lib : LuaLibrary) (S : Set RuleFields) (s : Session) : Session → Prop
  | compile (engine : InstanceId) (r : Rule) (hborn : engine < s.nextInstance)
      (hr : ∀ q ∈ r.nodes, q.toRuleFields ∈ S) :
      Step lib S s ((r.compile lib engine).run (Session.handle lib) s).2
  | getRef (engine : InstanceId) (kind : ChunkKind) (r : Rule) (hborn : engine < s.nextInstance)
      (hr : ∀ q ∈ r.nodes, q.toRuleFields ∈ S) :
      Step lib S s ((r.getRef lib engine kind).run (Session.handle lib) s).2
  /-- `LuaEngine::compileExpression` or `LuaEngine::compileAction`, without a rule. -/
  | compileChunk (engine : InstanceId) (chunk : Chunk) (hborn : engine < s.nextInstance) :
      Step lib S s (s.handle lib (.compileChunk engine chunk)).2
  | clone (engine : InstanceId) : Step lib S s (s.handle lib (.clone engine)).2
  | create (maxExpressionLength autoResetThresholdKB : ℕ) :
      Step lib S s (s.create maxExpressionLength autoResetThresholdKB)
  | configure (engine : InstanceId) (maxExpressionLength autoResetThresholdKB : ℕ) :
      Step lib S s (s.configure engine maxExpressionLength autoResetThresholdKB)
  | resetState (engine : InstanceId) (hborn : engine < s.nextInstance) :
      Step lib S s (s.resetState engine)

/-- No engine has been made. -/
def start (memory : ℕ → ℕ) : Session where
  memory := memory

theorem inv_start (memory : ℕ → ℕ) : (start memory).Inv lib S where
  engine _ := ⟨rfl, fun _ _ ↦ rfl⟩
  record _ _ _ h := by cases h
  unborn _ _ := ⟨rfl, fun _ ↦ rfl⟩

/-- A new engine begins with generation 0. -/
theorem Inv.born (h : s.Inv lib S) {e : LuaEngine} (hgeneration : e.generation = 0)
    (hfresh : e.Fresh) (hengines : s'.engines = Function.update s.engines s.nextInstance e)
    (hrecords : s'.records = s.records) (hnext : s'.nextInstance = s.nextInstance + 1)
    (hresets : s'.resets = s.resets) : s'.Inv lib S := by
  have hother : ∀ e', e' ≠ s.nextInstance → s'.engines e' = s.engines e' := fun e' he ↦ by
    rw [hengines, Function.update_of_ne he]
  refine h.of_records (fun e' ↦ ?_) hrecords (hnext ▸ Nat.le_succ _)
    (fun e' _ ↦ congrFun hresets e')
    fun e' hlt ↦ .of_eq (hother e' hlt.ne) (congrFun hresets e')
  rcases eq_or_ne e' s.nextInstance with rfl | he
  · have hzero : s'.resets s.nextInstance = 0 :=
      (congrFun hresets _).trans (h.unborn _ le_rfl).1
    have hself : s'.engines s.nextInstance = e := by rw [hengines, Function.update_self]
    exact ⟨by rw [hself, hgeneration, hzero]; rfl, hself ▸ hfresh⟩
  · obtain ⟨hg, hf⟩ := h.engine e'
    exact ⟨by rw [hother e' he, hg, hresets], by rw [hother e' he]; exact hf⟩

/-- One engine is changed. -/
theorem Inv.changed (h : s.Inv lib S) {e : LuaEngine}
    (hengines : s'.engines = Function.update s.engines engine e)
    (hrecords : s'.records = s.records) (hnext : s'.nextInstance = s.nextInstance)
    (hresets : ∀ e', e' ≠ engine → s'.resets e' = s.resets e')
    (hborn : engine < s.nextInstance ∨ s'.resets engine = s.resets engine)
    (hgeneration : e.generation = BitVec.ofNat 32 (s'.resets engine)) (hfresh : e.Fresh)
    (hlater : s.Later s' engine) : s'.Inv lib S := by
  have hother : ∀ e', e' ≠ engine → s'.engines e' = s.engines e' := fun e' he ↦ by
    rw [hengines, Function.update_of_ne he]
  have hself : s'.engines engine = e := by rw [hengines, Function.update_self]
  refine h.of_records (fun e' ↦ ?_) hrecords hnext.ge (fun e' hge ↦ ?_) fun e' hlt ↦ ?_
  · rcases eq_or_ne e' engine with rfl | he
    · exact ⟨by rw [hself, hgeneration], hself ▸ hfresh⟩
    · obtain ⟨hg, hf⟩ := h.engine e'
      exact ⟨by rw [hother e' he, hg, hresets e' he], by rw [hother e' he]; exact hf⟩
  · rcases eq_or_ne e' engine with rfl | he
    · exact hborn.resolve_left (not_lt.2 (hnext ▸ hge))
    · exact hresets e' he
  · rcases eq_or_ne e' engine with rfl | he
    · exact hlater
    · exact .of_eq (hother e' he) (hresets e' he)

/-- **The step.** -/
theorem Inv.step (h : s.Inv lib S) (hstep : s.Step lib S s') : s'.Inv lib S := by
  cases hstep with
  | compile engine r hborn hr => exact (compile_settled r hr h hborn).run.1.inv
  | getRef engine kind r hborn hr => exact (h.getRef hborn hr kind).inv
  | compileChunk engine chunk hborn => exact (h.compileChunk chunk hborn).1
  | clone engine =>
    exact h.born (e := (s.engines engine).clone) rfl (fun _ _ ↦ rfl) rfl rfl rfl rfl
  | create a b =>
    exact h.born (e := { maxExpressionLength := a, autoResetThresholdKB := b }) rfl
      (fun _ _ ↦ rfl) rfl rfl rfl rfl
  | configure engine a b =>
    refine h.changed rfl rfl rfl (fun _ _ ↦ rfl) (.inr rfl) (h.engine engine).generation
      (h.engine engine).fresh ⟨le_rfl, fun _ k c hc ↦ ?_⟩
    show (Function.update s.engines engine _ engine).chunks k = some c
    rw [Function.update_self]
    exact hc
  | resetState engine hborn =>
    have hresets : (s.resetState engine).resets engine = s.resets engine + 1 :=
      Function.update_self _ _ _
    refine h.changed rfl rfl rfl (fun e' he ↦ Function.update_of_ne he _ _) (.inl hborn) ?_
      (fun _ _ ↦ rfl) ⟨by omega, fun hsame ↦ by omega⟩
    rw [hresets]
    exact (h.engine engine).resetState

end Session

end FastRules
