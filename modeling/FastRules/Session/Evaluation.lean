import FastRules.Rule.World
import FastRules.Session.References
import Mathlib.Logic.Function.Iterate

/-!
# What an execution evaluates

The environment in which engines find chunks by the references of rules: `Rule::evaluateExpression`
and `Rule::executeAction` ask for the reference, take `-1` for a text that is empty, and otherwise
run the chunk that the engine has under the reference.
-/

namespace FastRules

open Program Relation

/-! ### The environment -/

/-- What there is to executions besides the tables of the engines. -/
structure Surroundings (E : Type) where
  lib : LuaLibrary
  now : E → Time × E
  isAllowed : Option LimiterPtr → String → E → Bool × E
  /-- Bind the parameters and call the chunk. -/
  launch : EnginePtr → Chunk → List RuleParameter → E → Except Exn LuaScript × E
  endScript : EnginePtr → List LuaView → E → E
  deadlinePassed : EnginePtr → Int → E → Bool × E
  cacheOrder : HashOrder (String × CacheEntry)

/-- What `refToBackendId_` does not have. -/
def ChunkKind.invalidReference : ChunkKind → Exn
  | expression => .standard "Invalid expression reference"
  | action => .standard "Invalid action reference"

namespace Surroundings

variable {E : Type} (x : Surroundings E)

/-- `LuaEngine::evaluateExpression` and `LuaEngine::executeAction`, up to the call of the chunk. -/
def call (kind : ChunkKind) (engine : EnginePtr) (parameters : List RuleParameter) (k : ℕ) (e : E)
    (s : Session) : Except Exn (Option LuaScript) × E :=
  match (s.engines engine).chunks k with
  | none => (.error kind.invalidReference, e)
  | some chunk =>
    ((x.launch engine chunk parameters e).1.map some, (x.launch engine chunk parameters e).2)

/-- Find the chunk of the rule and call it. -/
def beginChunk (kind : ChunkKind) (engine : EnginePtr) (r : Rule)
    (parameters : List RuleParameter) (e : E × Session) :
    Except Exn (Option LuaScript) × (E × Session) :=
  match (r.getRef x.lib engine kind).run (Session.handle x.lib) e.2 with
  | (.error message, s) => (.error (.standard message), (e.1, s))
  | (.ok none, s) => (.ok none, (e.1, s))
  | (.ok (some k), s) =>
    ((x.call kind engine parameters k e.1 s).1, ((x.call kind engine parameters k e.1 s).2, s))

/-- The environment of the executions. -/
def environment : Environment (E × Session) where
  now e := ((x.now e.1).1, ((x.now e.1).2, e.2))
  isAllowed limiter key e :=
    ((x.isAllowed limiter key e.1).1, ((x.isAllowed limiter key e.1).2, e.2))
  beginExpression := x.beginChunk .expression
  beginAction := x.beginChunk .action
  endScript engine answers e := (x.endScript engine answers e.1, e.2)
  deadlinePassed engine timeout e :=
    ((x.deadlinePassed engine timeout e.1).1, ((x.deadlinePassed engine timeout e.1).2, e.2))
  cacheOrder := x.cacheOrder

/-! ### Runs -/

variable {S : Set RuleFields} {w w' : World (E × Session)} {engine : EnginePtr}

/-- The request is made on an engine that has been made, for rules with texts in `S`. -/
def Calls (S : Set RuleFields) (s : Session) : Op → Prop
  | .beginExpression engine r _ => engine < s.nextInstance ∧ ∀ q ∈ r.nodes, q.toRuleFields ∈ S
  | .beginAction engine r _ => engine < s.nextInstance ∧ ∀ q ∈ r.nodes, q.toRuleFields ∈ S
  | _ => True

/-- One step of a program that uses rules and engines: a call, a request of an execution, or
something that has nothing to do with them. -/
inductive Step (S : Set RuleFields) (w : World (E × Session)) : World (E × Session) → Prop
  | call (s : Session) (h : w.env.2.Step x.lib S s) : Step S w { w with env := (w.env.1, s) }
  | request (op : Op) (h : Calls S w.env.2 op) : Step S w (x.environment.handle op w).2
  | elsewhere (w' : World (E × Session)) (h : w'.env.2 = w.env.2) : Step S w w'

/-- The states of all runs that start without engines. -/
def Reachable (S : Set RuleFields) (w : World (E × Session)) : Prop :=
  ∃ w₀ memory, w₀.env.2 = Session.start memory ∧ ReflTransGen (x.Step S) w₀ w

variable {x}

theorem beginChunk_session (kind : ChunkKind) (engine : EnginePtr) (r : Rule)
    (parameters : List RuleParameter) (e : E × Session) :
    (x.beginChunk kind engine r parameters e).2.2 =
      ((r.getRef x.lib engine kind).run (Session.handle x.lib) e.2).2 := by
  rw [beginChunk]
  rcases (r.getRef x.lib engine kind).run (Session.handle x.lib) e.2 with
    ⟨message | - | k, s⟩ <;> rfl

/-- A lookup in a cache is none of the engines' business. -/
theorem lookupCache_session (rule : RuleFields) (parameters : List RuleParameter)
    (w : World (E × Session)) :
    (x.environment.lookupCache rule parameters w).2.env.2 = w.env.2 := by
  rcases x.environment.lookupCache_cases rule parameters w with h | ⟨entry, h, hlive | hlive⟩
  · rw [x.environment.lookupCache_missing h]
  · rw [x.environment.lookupCache_live h hlive]
    rfl
  · rw [x.environment.lookupCache_stale h hlive]
    rfl

/-- A request leaves a session as a call does, or as it is. -/
theorem handle_continues {op : Op} (h : w.env.2.Inv x.lib S) (hop : Calls S w.env.2 op) :
    Session.Continues x.lib S w.env.2 (x.environment.handle op w).2.env.2 := by
  have hgetRef (kind : ChunkKind) {engine : EnginePtr} {r : Rule} (parameters : List RuleParameter)
      (hborn : engine < w.env.2.nextInstance) (hr : ∀ q ∈ r.nodes, q.toRuleFields ∈ S) :
      Session.Continues x.lib S w.env.2 (x.beginChunk kind engine r parameters w.env).2.2 := by
    rw [beginChunk_session]
    exact h.getRef hborn hr kind
  cases op with
  | beginExpression engine r parameters => exact hgetRef .expression parameters hop.1 hop.2
  | beginAction engine r parameters => exact hgetRef .action parameters hop.1 hop.2
  | lookupCache rule parameters =>
    have hsame : (x.environment.handle (.lookupCache rule parameters) w).2.env.2 = w.env.2 :=
      lookupCache_session rule parameters w
    rw [hsame]
    exact h.continues
  | _ => exact h.continues

/-- The invariant of the sessions holds in every run. -/
theorem Reachable.inv (h : x.Reachable S w) : w.env.2.Inv x.lib S := by
  obtain ⟨w₀, memory, hstart, hsteps⟩ := h
  induction hsteps with
  | refl =>
    rw [hstart]
    exact Session.inv_start memory
  | tail _ hstep ih =>
    cases hstep with
    | call s hs => exact ih.step hs
    | request op hop => exact (handle_continues ih hop).inv
    | elsewhere w' hsame =>
      rw [hsame]
      exact ih

theorem Reachable.tail (h : x.Reachable S w) (hstep : x.Step S w w') : x.Reachable S w' := by
  obtain ⟨w₀, memory, hstart, hsteps⟩ := h
  exact ⟨w₀, memory, hstart, hsteps.tail hstep⟩

/-! ### References -/

theorem Reachable.call (h : x.Reachable S w) {s : Session} (hs : w.env.2.Step x.lib S s) :
    x.Reachable S { w with env := (w.env.1, s) } :=
  h.tail (.call s hs)

end Surroundings

/-! ### One number for two generations -/

namespace Session

/-- Many resets after each other. -/
theorem iterate_resetState (engine : InstanceId) (s : Session) (n : ℕ) :
    (resetState engine)^[n + 1] s =
      { s.withEngine engine { s.engines engine with
          generation := (s.engines engine).generation + BitVec.ofNat 32 (n + 1)
          nextRefId := 1
          chunks := fun _ ↦ none } with
        resets := Function.update s.resets engine (s.resets engine + (n + 1)) } := by
  induction n with
  | zero => rfl
  | succ n ih =>
    rw [Function.iterate_succ_apply', ih, resetState]
    have hgeneration (g : BitVec 32) :
        g + BitVec.ofNat 32 (n + 1) + 1 = g + BitVec.ofNat 32 (n + 1 + 1) := by
      rw [BitVec.add_assoc, BitVec.ofNat_add (n + 1) 1]
      rfl
    simp only [withEngine, Compilations.setEngine, LuaEngine.resetState, Function.update_self,
      Function.update_idem, hgeneration]
    rfl

end Session

/-- All texts are valid and compile, and have their length as hash. -/
def plainLibrary : LuaLibrary where
  validate _ := { valid := true }
  load _ := .ok ()
  hash text := BitVec.ofNat 64 text.length

/-- All chunks come to `false`. -/
def plainSurroundings : Surroundings Unit where
  lib := plainLibrary
  now e := (0, e)
  isAllowed _ _ e := (true, e)
  launch _ _ _ e := (.ok (.ret (.ok false)), e)
  endScript _ _ e := e
  deadlinePassed _ _ e := (false, e)
  cacheOrder := HashOrder.insertion _

def firstRule : Rule := { ptr := 1, id := 1, expression := "x" }

def secondRule : Rule := { ptr := 2, id := 2, expression := "yy" }

/-- The texts of the two. -/
def twoTexts : Set RuleFields := {firstRule.toRuleFields, secondRule.toRuleFields}

theorem twoTexts_collisionFree : CollisionFree plainLibrary twoTexts := by
  have hne : sourceFingerprint plainLibrary firstRule.toRuleFields ≠
      sourceFingerprint plainLibrary secondRule.toRuleFields := by
    decide
  rintro r (rfl | rfl) q (rfl | rfl) h
  · exact ⟨rfl, rfl⟩
  · exact absurd h hne
  · exact absurd h.symm hne
  · exact ⟨rfl, rfl⟩

theorem mem_twoTexts : (∀ q ∈ firstRule.nodes, q.toRuleFields ∈ twoTexts) ∧
    ∀ q ∈ secondRule.nodes, q.toRuleFields ∈ twoTexts :=
  ⟨fun _ hq ↦ .inl (congrArg Rule.toRuleFields (List.mem_singleton.1 hq)),
    fun _ hq ↦ .inr (congrArg Rule.toRuleFields (List.mem_singleton.1 hq))⟩

/-- An engine has been made. -/
def oneEngine : Session := (Session.start fun _ ↦ 0).create 0 0

/-- The first rule has been compiled. -/
def firstCompiled : Session :=
  ((firstRule.getRef plainLibrary 0 .expression).run (Session.handle plainLibrary) oneEngine).2

/-- The engine has been reset so often since, and the second rule has been compiled. -/
def secondCompiled (n : ℕ) : Session :=
  ((secondRule.getRef plainLibrary 0 .expression).run (Session.handle plainLibrary)
    ((Session.resetState 0)^[n] firstCompiled)).2

open Surroundings

theorem oneEngine_reachable :
    plainSurroundings.Reachable twoTexts { env := ((), oneEngine) } := by
  have hstart : plainSurroundings.Reachable twoTexts { env := ((), Session.start fun _ ↦ 0) } :=
    ⟨_, _, rfl, .refl⟩
  exact hstart.call (.create 0 0)

theorem Reachable.resets {E : Type} {x : Surroundings E} {S : Set RuleFields}
    {w : World (E × Session)} {engine : InstanceId} (h : x.Reachable S w)
    (hborn : engine < w.env.2.nextInstance) (n : ℕ) :
    x.Reachable S { w with env := (w.env.1, (Session.resetState engine)^[n] w.env.2) } ∧
      engine < ((Session.resetState engine)^[n] w.env.2).nextInstance := by
  induction n with
  | zero => exact ⟨h, hborn⟩
  | succ n ih =>
    rw [Function.iterate_succ_apply']
    exact ⟨ih.1.call (.resetState engine ih.2), ih.2⟩

theorem secondCompiled_reachable (n : ℕ) :
    plainSurroundings.Reachable twoTexts { env := ((), secondCompiled n) } := by
  have hfirst : plainSurroundings.Reachable twoTexts { env := ((), firstCompiled) } :=
    oneEngine_reachable.call (.getRef 0 .expression firstRule Nat.zero_lt_one mem_twoTexts.1)
  have hmade : 0 < firstCompiled.nextInstance := by decide
  obtain ⟨hwrapped, hborn⟩ := Reachable.resets hfirst hmade n
  exact hwrapped.call (.getRef 0 .expression secondRule hborn mem_twoTexts.2)

/-- After so many resets the engine is as if it was reset without counting that. -/
theorem secondCompiled_run {n : ℕ} (hn : 0 < n) (hzero : BitVec.ofNat 32 n = 0) :
    ∃ s, (firstRule.getRef plainLibrary 0 .expression).run (Session.handle plainLibrary)
        (secondCompiled n) = (.ok (some 1), s) ∧
      (s.engines 0).chunks 1 = some ⟨.expression, "yy"⟩ := by
  obtain ⟨n, rfl⟩ := Nat.exists_eq_succ_of_ne_zero hn.ne'
  rw [secondCompiled, Session.iterate_resetState, hzero]
  exact ⟨_, rfl, rfl⟩

end FastRules
