import FastRules.Rule.Valuation
import FastRules.Rule.World
import FastRules.Workflow.Sequential
import Mathlib.Data.Set.Basic

/-!
# Executions come to the value of the rule

An interface presents ledgers (`Presents`) if its states show them: a publication enters an outcome,
a lookup of a visible key is answered by what is entered, chunks are those of the meaning, and
nothing is limited or late. Under such an interface an execution whose chunks look up visible keys
returns the outcome that is the value of the rule, and leaves a state that shows the ledger of the
value (`execute_presents`); so does the loop of `Workflow::execute` (`executeLoop_presents`).

What the states are is left open: the world of one thread of execution, or what one task may know of
a context that it shares with others.
-/

namespace FastRules

open Program

/-- The expressions and actions of the nodes look up such keys only, whatever they find. -/
def Meaning.LooksUp (m : Meaning) (nodes : List Rule) (keys : Set String) : Prop :=
  ∀ q ∈ nodes, ∀ script, m.expression q.toRuleFields.uncached = .ok (some script) ∨
    m.action q.toRuleFields.uncached = .ok (some script) → Asks (fun key ↦ key ∈ keys) script

theorem Meaning.looksUp_univ (m : Meaning) (nodes : List Rule) : m.LooksUp nodes Set.univ := by
  intro q hq script hscript
  clear hscript
  induction script with
  | ret outcome => trivial
  | ask key next ih => exact ⟨Set.mem_univ key, ih⟩

/-! ### What a value depends on -/

section Congr

variable {m : Meaning} {parameters : List RuleParameter} {nodes : List Rule} {keys : Set String}
  {ledger ledger' : Ledger}

theorem scriptValue_congr {script : LuaScript} (hscript : Asks (fun key ↦ key ∈ keys) script)
    (h : Set.EqOn ledger ledger' keys) :
    scriptValue ledger script = scriptValue ledger' script := by
  induction script with
  | ret outcome => rfl
  | ask key next ih =>
    rw [scriptValue, scriptValue, h hscript.1]
    exact ih _ (hscript.2 _)

theorem chunkValue_congr {begun : Except Exn (Option LuaScript)}
    (hbegun : ∀ script, begun = .ok (some script) → Asks (fun key ↦ key ∈ keys) script)
    (h : Set.EqOn ledger ledger' keys) : chunkValue ledger begun = chunkValue ledger' begun := by
  rcases begun with e | - | script
  · rfl
  · rfl
  · exact congrArg Except.toOption (scriptValue_congr (hbegun script rfl) h)

theorem eqOn_update (h : Set.EqOn ledger ledger' keys) (key : String) (o : Option Outcome) :
    Set.EqOn (Function.update ledger key o) (Function.update ledger' key o) keys := by
  intro k hk
  rcases eq_or_ne k key with rfl | hne
  · rw [Function.update_self, Function.update_self]
  · rw [Function.update_of_ne hne, Function.update_of_ne hne, h hk]

theorem publishOutcomes_eqOn : ∀ (children : List Rule) (os : List Outcome)
    {ledger ledger' : Ledger}, Set.EqOn ledger ledger' keys →
    Set.EqOn (publishOutcomes children os ledger) (publishOutcomes children os ledger') keys
  | [], _, _, _, h => h
  | _ :: _, [], _, _, h => h
  | child :: children, o :: os, _, _, h =>
    publishOutcomes_eqOn children os (eqOn_update h child.resultKey (some o))

namespace Meaning.LooksUp

variable (hlooks : m.LooksUp nodes keys)
include hlooks

theorem passes_congr {r : Rule} (hr : r ∈ nodes) (h : Set.EqOn ledger ledger' keys) :
    r.passes m ledger = r.passes m ledger' := by
  have hexpression : r.expressionValue m ledger = r.expressionValue m ledger' := by
    rw [Rule.expressionValue, Rule.expressionValue,
      chunkValue_congr (fun script hscript ↦ hlooks r hr script (.inl hscript)) h]
  have haction : r.actionValue m ledger = r.actionValue m ledger' := by
    rw [Rule.actionValue, Rule.actionValue,
      chunkValue_congr (fun script hscript ↦ hlooks r hr script (.inr hscript)) h]
  rw [Rule.passes, Rule.passes, hexpression, haction]

omit hlooks in
theorem valuesOf_congr {children : List Rule} (hnodes : ∀ q ∈ nodesOf children, q ∈ nodes)
    (hvalue : ∀ r ∈ children, ∀ ledger ledger' : Ledger, (∀ q ∈ r.nodes, q ∈ nodes) →
      Set.EqOn ledger ledger' keys →
      (r.value m parameters ledger).result = (r.value m parameters ledger').result ∧
        Set.EqOn (r.value m parameters ledger).ledger (r.value m parameters ledger').ledger keys)
    (h : Set.EqOn ledger ledger' keys) :
    (valuesOf m parameters children ledger).result =
        (valuesOf m parameters children ledger').result ∧
      Set.EqOn (valuesOf m parameters children ledger).ledger
        (valuesOf m parameters children ledger').ledger keys := by
  induction children generalizing ledger ledger' with
  | nil => exact ⟨rfl, h⟩
  | cons child children ih =>
    rw [nodesOf] at hnodes
    obtain ⟨hhead, h₁⟩ := hvalue child List.mem_cons_self ledger ledger'
      (fun q hq ↦ hnodes q (List.mem_append_left _ hq)) h
    obtain ⟨htail, h₂⟩ := ih (fun q hq ↦ hnodes q (List.mem_append_right _ hq))
      (fun r hr ↦ hvalue r (List.mem_cons_of_mem child hr)) h₁
    exact ⟨congrArg₂ List.cons hhead htail, h₂⟩

/-- The value of a rule depends on what is entered under the keys its chunks look up. -/
theorem value_congr (r : Rule) : ∀ ledger ledger' : Ledger, (∀ q ∈ r.nodes, q ∈ nodes) →
    Set.EqOn ledger ledger' keys →
    (r.value m parameters ledger).result = (r.value m parameters ledger').result ∧
      Set.EqOn (r.value m parameters ledger).ledger (r.value m parameters ledger').ledger keys := by
  induction r using Rule.induction_children with
  | h r ih =>
    intro ledger ledger' hnodes h
    rcases Bool.eq_false_or_eq_true r.isActive with hactive | hactive
    · rw [Rule.value_active hactive, Rule.value_active hactive]
      dsimp only
      -- the children come to the same outcomes, and publish them
      have hbelow :
          (r.childrenValue parameters (valuesOf m parameters r.childRules) ledger).result =
            (r.childrenValue parameters (valuesOf m parameters r.childRules) ledger').result ∧
          Set.EqOn (r.childrenValue parameters (valuesOf m parameters r.childRules) ledger).ledger
            (r.childrenValue parameters (valuesOf m parameters r.childRules) ledger').ledger
              keys := by
        rw [Rule.childrenValue, Rule.childrenValue]
        dsimp only
        split_ifs
        · obtain ⟨hresult, hledger⟩ :=
            valuesOf_congr (fun q hq ↦ hnodes q (Rule.mem_nodes_of_mem_below hq)) ih h
          rw [hresult]
          exact ⟨rfl, publishOutcomes_eqOn _ _ hledger⟩
        · exact ⟨rfl, publishOutcomes_eqOn _ _ h⟩
      obtain ⟨hresult, hledger⟩ := hbelow
      rw [hresult, hlooks.passes_congr (hnodes r r.self_mem_nodes) hledger]
      exact ⟨rfl, eqOn_update hledger _ _⟩
    · rw [Rule.value_inactive hactive, Rule.value_inactive hactive]
      exact ⟨rfl, h⟩

end Meaning.LooksUp

end Congr

/-! ### Presenting ledgers -/

/-- The states of the interface show ledgers of outcomes published in the context, and the caches of
the nodes hold outcomes of the log. -/
structure Presents {σ : Type} (I : Program.Interface Op Op.Ans σ) (c : ContextPtr) (m : Meaning)
    (parameters : List RuleParameter) (nodes : List Rule) (visible : Set String)
    (log : Set (RulePtr × Outcome)) (shows : Ledger → σ → Prop) : Prop where
  pre : ∀ op s, I.pre op s
  quiet : ∀ {op s a s' ledger}, shows ledger s → I.step op s a s' → op.IsQuiet → shows ledger s'
  getResult : ∀ {key s found s' ledger}, key ∈ visible → shows ledger s →
    I.step (.getResult c key) s found s' → found.map RuleResult.outcome = ledger key
  setResult : ∀ {key a s u s' ledger}, shows ledger s → I.step (.setResult c key a) s u s' →
    shows (Function.update ledger key (some a.outcome)) s'
  isAllowed : ∀ {limiter key s a s'}, I.step (.isAllowed limiter key) s a s' → a = true
  beginExpression : ∀ {engine} {r : Rule} {s a s'},
    I.step (.beginExpression engine r parameters) s a s' → a = m.expression r.toRuleFields.uncached
  beginAction : ∀ {engine} {r : Rule} {s a s'},
    I.step (.beginAction engine r parameters) s a s' → a = m.action r.toRuleFields.uncached
  deadlinePassed : ∀ {engine t s a s'}, I.step (.deadlinePassed engine t) s a s' → a = false
  /-- A cache answers with the value of the rule, or not at all. -/
  lookupCache : ∀ {r : Rule} {s a s' ledger}, r ∈ nodes → r.isCaching = true →
    (∀ e ∈ (r.value m parameters ledger).log, e ∈ log) → shows ledger s →
    I.step (.lookupCache r.toRuleFields parameters) s a s' → (a = none ∧ shows ledger s') ∨
      ∃ b, a = some b ∧ b.outcome = (r.value m parameters ledger).result ∧
        shows (r.value m parameters ledger).ledger s'
  storeInCache : ∀ {r : Rule} {b s u s' ledger}, r ∈ nodes → r.isCaching = true → shows ledger s →
    (r.ptr, b.outcome) ∈ log → I.step (.storeInCache r.toRuleFields parameters b) s u s' →
      shows ledger s'

/-- The `try` block came to its end. -/
def Rule.Ending.isCompleted : Rule.Ending → Bool
  | failed _ => false
  | thrown _ => false
  | completed => true

theorem all_isSuccess_iff {results : List RuleResult} :
    (results.map RuleResult.outcome).all Outcome.isSuccess = true ↔
      results.find? (fun a ↦ !a.isSuccess) = none := by
  simp [List.find?_eq_none, RuleResult.isSuccess_outcome]

section Presents

variable {σ : Type} {I : Program.Interface Op Op.Ans σ} {c : ContextPtr} {m : Meaning}
  {parameters : List RuleParameter} {nodes : List Rule} {visible : Set String}
  {log : Set (RulePtr × Outcome)} {shows : Ledger → σ → Prop} {engine : EnginePtr}
  {ledger : Ledger} {s : σ}

variable (hI : Presents I c m parameters nodes visible log shows)
include hI

/-! ### Single requests -/

/-- Sequencing after a program of requests that change nothing that is shown. -/
theorem Presents.quiet_bind {α β : Type} {p : RuleProgram α} (hp : Asks Op.IsQuiet p)
    {f : α → RuleProgram β} {Q : β → σ → Prop} (hs : shows ledger s)
    (h : ∀ a s', shows ledger s' → Ensures I Q (f a) s') : Ensures I Q (p >>= f) s := by
  have hquiet : Ensures I (fun _ s' ↦ shows ledger s') p s :=
    hp.ensures_invariant (fun op s _ _ ↦ hI.pre op s)
      (fun op s a s' hop hs hstep ↦ hI.quiet hs hstep hop) hs
  exact (ensures_bind p f s).2 (hquiet.mono h)

/-- Sequencing after one such request. -/
theorem Presents.quiet_request {β : Type} {op : Op} (hop : op.IsQuiet)
    {f : op.Ans → RuleProgram β} {Q : β → σ → Prop} (hs : shows ledger s)
    (h : ∀ a s', shows ledger s' → Ensures I Q (f a) s') : Ensures I Q (request op >>= f) s :=
  ⟨hI.pre op s, fun a s' hstep ↦ h a s' (hI.quiet hs hstep hop)⟩

/-- Publishing a result enters its outcome. -/
theorem Presents.setResult_bind {β : Type} (key : String) (a : RuleResult)
    {f : Unit → RuleProgram β} {Q : β → σ → Prop} (hs : shows ledger s)
    (h : ∀ s', shows (Function.update ledger key (some a.outcome)) s' → Ensures I Q (f ()) s') :
    Ensures I Q (request (.setResult c key a) >>= f) s :=
  ⟨hI.pre _ s, fun _ s' hstep ↦ h s' (hI.setResult hs hstep)⟩

/-- Storing an outcome of the log changes nothing that is shown. -/
theorem Presents.storeInCache_bind {β : Type} {r : Rule} (hr : r ∈ nodes) {b : RuleResult}
    (hb : (r.ptr, b.outcome) ∈ log) {f : Unit → RuleProgram β} {Q : β → σ → Prop}
    (hs : shows ledger s) (h : ∀ s', shows ledger s' → Ensures I Q (f ()) s') :
    Ensures I Q (r.storeInCache parameters b >>= f) s := by
  rw [Rule.storeInCache]
  split_ifs with hcaching
  · exact ⟨hI.pre _ s, fun _ s' hstep ↦ h s' (hI.storeInCache hr hcaching hs hb hstep)⟩
  · exact h s hs

/-! ### Evaluation -/

/-- A chunk comes to its value. -/
theorem runScript_presents {script : LuaScript} (hscript : Asks (fun key ↦ key ∈ visible) script)
    (hs : shows ledger s) :
    Ensures I (fun ran s' ↦ ran.1 = scriptValue ledger script ∧ shows ledger s')
      (runScript c script) s := by
  induction script generalizing s with
  | ret outcome => exact ⟨rfl, hs⟩
  | ask key next ih =>
    refine ⟨hI.pre _ s, fun found s' hstep ↦ ?_⟩
    have hview : luaView key found = Outcome.luaView key (ledger key) := by
      rw [← hI.getResult hscript.1 hs hstep, luaView_outcome]
    rw [scriptValue, ← hview]
    show Ensures I _ (runScript c (next (luaView key found)) >>= _) s'
    exact (ensures_bind _ _ _).2
      ((ih _ (hscript.2 _) (hI.quiet hs hstep trivial)).mono fun ran s'' h ↦ h)

theorem evaluateScript_presents (timeout : Option Int) (label : String) {script : LuaScript}
    (hscript : Asks (fun key ↦ key ∈ visible) script) (hs : shows ledger s) :
    Ensures I (fun a s' ↦ a.toOption = (scriptValue ledger script).toOption ∧ shows ledger s')
      (evaluateScript engine c timeout label script) s := by
  refine (ensures_bind _ _ _).2 ((runScript_presents hI hscript hs).mono ?_)
  rintro ⟨outcome, answers⟩ s' ⟨houtcome, hs'⟩
  obtain rfl : outcome = scriptValue ledger script := houtcome
  have hend : (Op.endScript engine answers).IsQuiet := trivial
  refine hI.quiet_request hend hs' fun _ s'' hs'' ↦ ?_
  rcases scriptValue ledger script with message | truthy
  · exact ⟨rfl, hs''⟩
  · dsimp only
    cases timeout.filter fun t ↦ 0 < t with
    | none => exact ⟨rfl, hs''⟩
    | some t =>
      -- the chunk has ended in time
      refine ⟨hI.pre _ s'', fun late s₃ hstep ↦ ?_⟩
      obtain rfl : late = false := hI.deadlinePassed hstep
      exact ⟨rfl, hI.quiet hs'' hstep trivial⟩

theorem runChunk_presents (timeout : Option Int) (label : String)
    {begun : Except Exn (Option LuaScript)}
    (hbegun : ∀ script, begun = .ok (some script) → Asks (fun key ↦ key ∈ visible) script)
    (hs : shows ledger s) :
    Ensures I (fun a s' ↦ a.toOption = chunkValue ledger begun ∧ shows ledger s')
      (runChunk engine c timeout label begun) s := by
  rcases begun with e | - | script
  · exact ⟨rfl, hs⟩
  · exact ⟨rfl, hs⟩
  · exact evaluateScript_presents hI timeout label (hbegun script rfl) hs

variable (hlooks : m.LooksUp nodes visible)
include hlooks

theorem checkExpression_presents {r : Rule} (hr : r ∈ nodes) (hs : shows ledger s) :
    Ensures I (fun a s' ↦ a.toOption = r.expressionValue m ledger ∧ shows ledger s')
      (r.checkExpression engine c parameters) s := by
  rw [Rule.checkExpression, Rule.expressionValue]
  by_cases hempty : r.expression = ""
  · rw [if_neg (not_not.2 hempty), if_pos hempty]
    exact ⟨rfl, hs⟩
  · rw [if_pos hempty, if_neg hempty, evaluateExpression_eq]
    refine ⟨hI.pre _ s, fun begun s' hstep ↦ ?_⟩
    obtain rfl := hI.beginExpression hstep
    exact runChunk_presents hI _ _ (fun script h ↦ hlooks r hr script (.inl h))
      (hI.quiet hs hstep trivial)

theorem performAction_presents {r : Rule} (hr : r ∈ nodes) (hs : shows ledger s) :
    Ensures I (fun a s' ↦ a.toOption = r.actionValue m ledger ∧ shows ledger s')
      (r.performAction engine c parameters) s := by
  rw [Rule.performAction, Rule.actionValue]
  by_cases hempty : r.action = ""
  · rw [if_neg (not_not.2 hempty), if_pos hempty]
    exact ⟨rfl, hs⟩
  · rw [if_pos hempty, if_neg hempty, executeAction_eq]
    refine ⟨hI.pre _ s, fun begun s' hstep ↦ ?_⟩
    obtain rfl := hI.beginAction hstep
    exact runChunk_presents hI _ _ (fun script h ↦ hlooks r hr script (.inr h))
      (hI.quiet hs hstep trivial)

/-- The Lua steps come to their end exactly if the rule passes. -/
theorem evaluate_presents {r : Rule} (hr : r ∈ nodes) (hs : shows ledger s) :
    Ensures I (fun ending s' ↦ ending.isCompleted = r.passes m ledger ∧ shows ledger s')
      (r.evaluate engine c parameters) s := by
  rw [Rule.evaluate, Rule.passes]
  refine (ensures_bind _ _ _).2 ((checkExpression_presents hI hlooks hr hs).mono ?_)
  rintro checked s' ⟨hchecked, hs'⟩
  rw [← hchecked]
  rcases checked with e | - | -
  · exact ⟨rfl, hs'⟩
  · exact ⟨rfl, hs'⟩
  · refine (ensures_bind _ _ _).2 ((performAction_presents hI hlooks hr hs').mono ?_)
    rintro performed s'' ⟨hperformed, hs''⟩
    rw [← hperformed]
    rcases performed with e | -
    · exact ⟨rfl, hs''⟩
    · exact ⟨rfl, hs''⟩

/-! ### The `try` block -/

omit hlooks in
theorem checkRateLimit_presents (r : Rule) (hs : shows ledger s) :
    Ensures I (fun allowed s' ↦ allowed = .ok () ∧ shows ledger s') r.checkRateLimit s := by
  refine ⟨hI.pre _ s, fun byId s' hstep ↦ ?_⟩
  obtain rfl : byId = true := hI.isAllowed hstep
  have hs' := hI.quiet hs hstep trivial
  show Ensures I _ (r.allowedByName true >>= _) s'
  rw [Rule.allowedByName]
  split_ifs
  · refine ⟨hI.pre _ s', fun byName s'' hstep' ↦ ?_⟩
    obtain rfl : byName = true := hI.isAllowed hstep'
    exact ⟨rfl, hI.quiet hs' hstep' trivial⟩
  · exact ⟨rfl, hs'⟩

omit hlooks in
theorem publishChildren_presents : ∀ (children : List Rule) (results : List RuleResult)
    {ledger : Ledger} {s : σ}, shows ledger s →
    Ensures I (fun _ s' ↦
        shows (publishOutcomes children (results.map RuleResult.outcome) ledger) s')
      (Rule.publishChildren c children results) s
  | [], _, _, _, hs => hs
  | _ :: _, [], _, _, hs => hs
  | child :: children, a :: results, _, _, hs =>
    hI.setResult_bind child.resultKey a hs fun _ hs' ↦ publishChildren_presents children results hs'

theorem attempt_presents {r : Rule} (hr : r ∈ nodes)
    {executeChildren : RuleProgram (List RuleResult)}
    {valueOfChildren : Ledger → Value (List Outcome)}
    (hchildren : typesMatch parameters = true → ∀ s, shows ledger s →
      Ensures I (fun results s' ↦ results.map RuleResult.outcome = (valueOfChildren ledger).result ∧
        shows (valueOfChildren ledger).ledger s') executeChildren s) (hs : shows ledger s) :
    let below := r.childrenValue parameters valueOfChildren ledger
    Ensures I (fun ran s' ↦ ran.2.isCompleted =
        (typesMatch parameters && below.result.all Outcome.isSuccess && r.passes m below.ledger) ∧
      shows below.ledger s') (r.attempt engine c parameters executeChildren) s := by
  dsimp only
  rw [Rule.attempt, Rule.childrenValue]
  refine (ensures_bind _ _ _).2 ((checkRateLimit_presents hI r hs).mono ?_)
  rintro allowed s₁ ⟨rfl, hs₁⟩
  dsimp only
  rcases hvalid : ParameterValidator.validateTypes parameters with message | ⟨⟩
  · have htypes : typesMatch parameters = false := by rw [typesMatch, hvalid]; rfl
    rw [htypes, if_neg Bool.false_ne_true, publishOutcomes_nil]
    exact ⟨rfl, hs₁⟩
  · have htypes : typesMatch parameters = true := by rw [typesMatch, hvalid]; rfl
    rw [htypes, if_pos rfl, Bool.true_and]
    refine (ensures_bind _ _ _).2 ((hchildren htypes s₁ hs₁).mono ?_)
    rintro results s₂ ⟨houtcomes, hs₂⟩
    rw [← houtcomes]
    refine (ensures_bind _ _ _).2
      ((publishChildren_presents hI r.childRules results hs₂).mono fun _ s₃ hs₃ ↦ ?_)
    rcases hfind : results.find? fun a ↦ !a.isSuccess with - | failed
    · rw [hfind, all_isSuccess_iff.2 hfind, Bool.true_and]
      refine (ensures_bind _ _ _).2 ((evaluate_presents hI hlooks hr hs₃).mono fun ending s₄ h ↦ ?_)
      exact h
    · have hfails : (results.map RuleResult.outcome).all Outcome.isSuccess = false := by
        rw [← Bool.not_eq_true, all_isSuccess_iff, hfind]
        exact Option.some_ne_none failed
      rw [hfind, hfails, Bool.false_and]
      exact ⟨rfl, hs₃⟩

/-! ### Whole executions -/

omit hlooks in
theorem conclude_presents {r : Rule} (hr : r ∈ nodes) (startTime : Time) {a : RuleResult}
    (ha : (r.ptr, a.outcome) ∈ log) (hs : shows ledger s) :
    Ensures I (fun b s' ↦ b.outcome = a.outcome ∧
        shows (Function.update ledger r.resultKey (some a.outcome)) s')
      (r.conclude c parameters startTime a) s := by
  rw [Rule.conclude]
  refine hI.quiet_request (by trivial) hs fun endTime s₁ hs₁ ↦ ?_
  refine hI.quiet_request (by trivial) hs₁ fun _ s₂ hs₂ ↦ ?_
  -- the metrics that are added are not part of the outcome
  refine hI.setResult_bind _ _ hs₂ fun s₃ hs₃ ↦ ?_
  refine hI.storeInCache_bind hr ?_ hs₃ fun s₄ hs₄ ↦ ⟨rfl, hs₄⟩
  exact ha

omit hlooks in
/-- However the execution of an active rule ends, its result has the outcome of its value. -/
theorem settle_presents {r : Rule} (hr : r ∈ nodes) (startTime : Time) {a : RuleResult}
    (hname : a.ruleName = r.name) (hid : a.ruleId = r.id) (hskip : a.skipped = false)
    (hexc : a.exception = none) (ending : Rule.Ending)
    (hlog : (r.ptr, r.executedOutcome ending.isCompleted) ∈ log) (hs : shows ledger s) :
    Ensures I (fun b s' ↦ b.outcome = r.executedOutcome ending.isCompleted ∧
        shows (Function.update ledger r.resultKey (some (r.executedOutcome ending.isCompleted))) s')
      (r.settle c parameters startTime a ending) s := by
  have hfailed (message : String) :
      RuleResult.outcome { a with success := false, exception := some message } =
        r.executedOutcome false := by
    rw [RuleResult.outcome, Rule.executedOutcome, hname, hid, hskip]
    rfl
  -- each ending makes bookkeeping requests and one publication, of the value of the rule
  cases ending with
  | failed message =>
    rw [Rule.settle]
    rw [Rule.Ending.isCompleted, ← hfailed message] at hlog ⊢
    refine hI.quiet_request (by trivial) hs fun _ s₁ hs₁ ↦ ?_
    refine hI.storeInCache_bind hr hlog hs₁ fun s₂ hs₂ ↦ ?_
    exact hI.setResult_bind _ _ hs₂ fun s₃ hs₃ ↦ ⟨rfl, hs₃⟩
  | thrown e =>
    rw [Rule.settle]
    refine hI.quiet_bind (handleException_quiet c r e) hs fun message s₁ hs₁ ↦ ?_
    rw [Rule.Ending.isCompleted, ← hfailed message] at hlog ⊢
    exact conclude_presents hI hr startTime hlog hs₁
  | completed =>
    have hout : RuleResult.outcome { a with success := true } = r.executedOutcome true := by
      rw [RuleResult.outcome, Rule.executedOutcome, hname, hid, hskip, hexc]
      rfl
    rw [Rule.settle]
    rw [Rule.Ending.isCompleted, ← hout] at hlog ⊢
    refine hI.quiet_request (by trivial) hs fun _ s₁ hs₁ ↦ ?_
    exact conclude_presents hI hr startTime hlog hs₁

theorem executeUncached_presents {r : Rule} (hr : r ∈ nodes)
    {executeChildren : RuleProgram (List RuleResult)}
    (hlog : ∀ e ∈ (r.value m parameters ledger).log, e ∈ log)
    (hchildren : r.isActive = true → typesMatch parameters = true → ∀ s, shows ledger s →
      Ensures I (fun results s' ↦
        results.map RuleResult.outcome = (valuesOf m parameters r.childRules ledger).result ∧
          shows (valuesOf m parameters r.childRules ledger).ledger s') executeChildren s)
    (hs : shows ledger s) :
    Ensures I (fun a s' ↦ a.outcome = (r.value m parameters ledger).result ∧
        shows (r.value m parameters ledger).ledger s')
      (r.executeUncached engine c parameters executeChildren) s := by
  rw [Rule.executeUncached]
  refine hI.quiet_request (by trivial) hs fun executedAt s₁ hs₁ ↦ ?_
  dsimp only
  rcases Bool.eq_false_or_eq_true r.isActive with hactive | hactive
  · rw [if_pos hactive]
    have hmem := hlog _ (r.mem_log ledger)
    rw [Rule.value_active hactive] at hmem ⊢
    refine hI.quiet_request (by trivial) hs₁ fun startTime s₂ hs₂ ↦ ?_
    refine (ensures_bind _ _ _).2 ((attempt_presents hI hlooks hr (hchildren hactive) hs₂).mono ?_)
    rintro ⟨results, ending⟩ s₃ ⟨hended, hs₃⟩
    dsimp only at hended hmem ⊢
    rw [← hended] at hmem ⊢
    exact settle_presents hI hr startTime rfl rfl rfl rfl ending hmem hs₃
  · rw [if_neg (by simp [hactive]), Rule.value_inactive hactive]
    exact ⟨rfl, hs₁⟩

theorem executeWith_presents {r : Rule} (hr : r ∈ nodes)
    {executeChildren : RuleProgram (List RuleResult)}
    (hlog : ∀ e ∈ (r.value m parameters ledger).log, e ∈ log)
    (hchildren : r.isActive = true → typesMatch parameters = true → ∀ s, shows ledger s →
      Ensures I (fun results s' ↦
        results.map RuleResult.outcome = (valuesOf m parameters r.childRules ledger).result ∧
          shows (valuesOf m parameters r.childRules ledger).ledger s') executeChildren s)
    (hs : shows ledger s) :
    Ensures I (fun a s' ↦ a.outcome = (r.value m parameters ledger).result ∧
        shows (r.value m parameters ledger).ledger s')
      (r.executeWith engine c parameters executeChildren) s := by
  rw [Rule.executeWith, Rule.lookupCache]
  split_ifs with hcaching
  · refine ⟨hI.pre _ s, fun found s₁ hstep ↦ ?_⟩
    rcases hI.lookupCache hr hcaching hlog hs hstep with ⟨rfl, hs₁⟩ | ⟨b, rfl, hb, hs₁⟩
    · exact executeUncached_presents hI hlooks hr hlog hchildren hs₁
    · exact hI.quiet_request (by trivial) hs₁ fun _ s₂ hs₂ ↦ ⟨hb, hs₂⟩
  · exact executeUncached_presents hI hlooks hr hlog hchildren hs

omit hI hlooks in
theorem executeRules_presents {children : List Rule} (hnodes : ∀ q ∈ nodesOf children, q ∈ nodes)
    (hexecute : ∀ r ∈ children, ∀ (ledger : Ledger) (s : σ), (∀ q ∈ r.nodes, q ∈ nodes) →
      (∀ e ∈ (r.value m parameters ledger).log, e ∈ log) → shows ledger s →
      Ensures I (fun a s' ↦ a.outcome = (r.value m parameters ledger).result ∧
        shows (r.value m parameters ledger).ledger s') (r.execute engine c parameters) s)
    (hlog : ∀ e ∈ (valuesOf m parameters children ledger).log, e ∈ log) (hs : shows ledger s) :
    Ensures I (fun results s' ↦
        results.map RuleResult.outcome = (valuesOf m parameters children ledger).result ∧
          shows (valuesOf m parameters children ledger).ledger s')
      (executeRules engine c parameters children) s := by
  induction children generalizing ledger s with
  | nil => exact ⟨rfl, hs⟩
  | cons child children ih =>
    rw [nodesOf] at hnodes
    rw [valuesOf] at hlog ⊢
    rw [executeRules]
    refine (ensures_bind _ _ _).2 ((hexecute child List.mem_cons_self ledger s
      (fun q hq ↦ hnodes q (List.mem_append_left _ hq))
      (fun e he ↦ hlog e (List.mem_append_left _ he)) hs).mono ?_)
    rintro a s₁ ⟨hhead, hs₁⟩
    refine (ensures_bind _ _ _).2 ((ih (fun q hq ↦ hnodes q (List.mem_append_right _ hq))
      (fun r hr ↦ hexecute r (List.mem_cons_of_mem child hr))
      (fun e he ↦ hlog e (List.mem_append_right _ he)) hs₁).mono ?_)
    rintro results s₂ ⟨htail, hs₂⟩
    exact ⟨congrArg₂ List.cons hhead htail, hs₂⟩

/-- **An execution comes to the value of the rule**, whatever the caches of the nodes hold of the
log. -/
theorem execute_presents (r : Rule) : ∀ (ledger : Ledger) (s : σ), (∀ q ∈ r.nodes, q ∈ nodes) →
    (∀ e ∈ (r.value m parameters ledger).log, e ∈ log) → shows ledger s →
    Ensures I (fun a s' ↦ a.outcome = (r.value m parameters ledger).result ∧
      shows (r.value m parameters ledger).ledger s') (r.execute engine c parameters) s := by
  induction r using Rule.induction_children with
  | h r ih =>
    intro ledger s hnodes hlog hs
    rw [Rule.execute_eq]
    refine executeWith_presents hI hlooks (hnodes r r.self_mem_nodes) hlog
      (fun hactive htypes s hs ↦ ?_) hs
    refine executeRules_presents (fun q hq ↦ hnodes q ?_) ih (fun e he ↦ hlog e ?_) hs
    · rw [Rule.nodes_eq]
      exact List.mem_cons_of_mem r hq
    · rw [Rule.value_active hactive]
      refine List.mem_cons_of_mem _ ?_
      rw [Rule.childrenValue, if_pos htypes]
      exact he

/-! ### The loop of `Workflow::execute` -/

omit hlooks in
/-- A check of a visible dependency finds what the ledger says. -/
theorem dependencySatisfied_presents {r : Rule}
    (hdep : ∀ n, r.dependsOnRuleName = some n → n ∈ visible) (hs : shows ledger s) :
    Ensures I (fun satisfied s' ↦ satisfied = r.dependencyHolds ledger ∧ shows ledger s')
      (dependencySatisfied c r) s := by
  rw [dependencySatisfied, Rule.dependencyHolds]
  rcases hn : r.dependsOnRuleName with - | n
  · exact ⟨rfl, hs⟩
  · refine ⟨hI.pre _ s, fun found s' hstep ↦ ⟨?_, hI.quiet hs hstep trivial⟩⟩
    rw [Option.all_some, ← hI.getResult (hdep n hn) hs hstep]
    rcases found with - | a
    · rfl
    · exact (a.isSuccess_outcome).symm

theorem executeStep_presents {r : Rule} (hnodes : ∀ q ∈ r.nodes, q ∈ nodes)
    (hdep : ∀ n, r.dependsOnRuleName = some n → n ∈ visible)
    (hlog : ∀ e ∈ (stepValue m parameters r ledger).log, e ∈ log) (hs : shows ledger s) :
    Ensures I (fun o s' ↦ o.map RuleResult.outcome = (stepValue m parameters r ledger).result ∧
        shows (stepValue m parameters r ledger).ledger s')
      (executeStep engine c parameters r) s := by
  rw [executeStep, stepValue] at *
  rcases Bool.eq_false_or_eq_true r.isActive with hactive | hactive
  · rw [if_pos hactive]
    rw [hactive, Bool.true_and] at hlog ⊢
    refine (ensures_bind _ _ _).2 ((dependencySatisfied_presents hI hdep hs).mono ?_)
    rintro satisfied s' ⟨rfl, hs'⟩
    rw [executeIf]
    split_ifs at hlog ⊢ with hholds
    · rw [map_eq_pure_bind]
      refine (ensures_bind _ _ _).2
        ((execute_presents hI hlooks r ledger s' hnodes hlog hs').mono ?_)
      rintro a s'' ⟨hout, hs''⟩
      exact ⟨congrArg some hout, hs''⟩
    · exact ⟨rfl, hs'⟩
  · rw [if_neg (by simp [hactive]), hactive]
    exact ⟨rfl, hs⟩

/-- The loop of `Workflow::execute` comes to its value. -/
theorem executeLoop_presents {rules : List Rule} (hnodes : ∀ q ∈ nodesOf rules, q ∈ nodes)
    (hdeps : ∀ r ∈ rules, ∀ n, r.dependsOnRuleName = some n → n ∈ visible)
    (hlog : ∀ e ∈ (loopValue m parameters rules ledger).log, e ∈ log) (hs : shows ledger s) :
    Ensures I (fun history s' ↦ (history.map fun e ↦ e.2.map RuleResult.outcome) =
          (loopValue m parameters rules ledger).result ∧
        shows (loopValue m parameters rules ledger).ledger s')
      (executeLoop engine c parameters rules) s := by
  induction rules generalizing ledger s with
  | nil => exact ⟨rfl, hs⟩
  | cons r rules ih =>
    rw [nodesOf] at hnodes
    rw [loopValue] at hlog ⊢
    rw [executeLoop]
    refine (ensures_bind _ _ _).2 ((executeStep_presents hI hlooks
      (fun q hq ↦ hnodes q (List.mem_append_left _ hq)) (hdeps r List.mem_cons_self)
      (fun e he ↦ hlog e (List.mem_append_left _ he)) hs).mono ?_)
    rintro o s₁ ⟨hhead, hs₁⟩
    refine (ensures_bind _ _ _).2 ((ih (fun q hq ↦ hnodes q (List.mem_append_right _ hq))
      (fun q hq ↦ hdeps q (List.mem_cons_of_mem r hq))
      (fun e he ↦ hlog e (List.mem_append_right _ he)) hs₁).mono ?_)
    rintro history s₂ ⟨htail, hs₂⟩
    exact ⟨congrArg₂ List.cons hhead htail, hs₂⟩

end Presents

/-! ### One context among many -/

/-- Requests are answered as `m` says, and nothing is limited or late. -/
structure AnswersRealize (answers : (op : Op) → op.Ans → Prop) (m : Meaning)
    (parameters : List RuleParameter) : Prop where
  isAllowed : ∀ {limiter key a}, answers (.isAllowed limiter key) a → a = true
  beginExpression : ∀ {engine} {r : Rule} {a}, answers (.beginExpression engine r parameters) a →
    a = m.expression r.toRuleFields.uncached
  beginAction : ∀ {engine} {r : Rule} {a}, answers (.beginAction engine r parameters) a →
    a = m.action r.toRuleFields.uncached
  deadlinePassed : ∀ {engine t a}, answers (.deadlinePassed engine t) a → a = false

/-- The results are the same under these keys. -/
def SameOn (keys : Set String) (s t : Results) : Prop :=
  ∀ key ∈ keys, t key = s key

/-- The results show the ledger under these keys. -/
def ShowsOn (keys : Set String) (ledger : Ledger) (s : Results) : Prop :=
  ∀ key ∈ keys, (s key).map RuleResult.outcome = ledger key

theorem ShowsOn.of_sameOn {keys : Set String} {ledger : Ledger} {s t : Results}
    (h : ShowsOn keys ledger s) (hst : SameOn keys s t) : ShowsOn keys ledger t := by
  intro key hkey
  rw [hst key hkey]
  exact h key hkey

theorem SameOn.update {keys : Set String} {s t : Results} (h : SameOn keys s t) (key : String)
    (a : Option RuleResult) : SameOn keys (Function.update s key a) (Function.update t key a) := by
  intro k hk
  rcases eq_or_ne k key with rfl | hne
  · rw [Function.update_self, Function.update_self]
  · rw [Function.update_of_ne hne, Function.update_of_ne hne, h k hk]

/-- Publishing a result shows its outcome. -/
theorem ShowsOn.update {keys : Set String} {ledger : Ledger} {s : Results}
    (h : ShowsOn keys ledger s) (key : String) (a : RuleResult) :
    ShowsOn keys (Function.update ledger key (some a.outcome))
      (Function.update s key (some a)) := by
  intro k hk
  rcases eq_or_ne k key with rfl | hne
  · rw [Function.update_self, Function.update_self]
    rfl
  · rw [Function.update_of_ne hne, Function.update_of_ne hne]
    exact h k hk

/-- What one task knows of the context it works on: only its own requests change what is published
under the visible keys. -/
def contextInterface (answers : (op : Op) → op.Ans → Prop) (visible : Set String) :
    Program.Interface Op Op.Ans Results where
  pre _ _ := True
  step
    | .getResult _ key, s, found, s' => (key ∈ visible → found = s key) ∧ SameOn visible s s'
    | .setResult _ key a, s, _, s' => SameOn visible (Function.update s key (some a)) s'
    | .acquireEngine, s, engine, s' => engine.isSome = true ∧ SameOn visible s s'
    | .releaseEngine _, s, _, s' => SameOn visible s s'
    | .setLastError _ _ _, s, _, s' => SameOn visible s s'
    | op, s, a, s' => answers op a ∧ SameOn visible s s'

/-- Rules without caches find the values of the rules in such a context. -/
theorem presents_context {answers : (op : Op) → op.Ans → Prop} {m : Meaning}
    {parameters : List RuleParameter} (hx : AnswersRealize answers m parameters) (c : ContextPtr)
    {nodes : List Rule} (hcache : ∀ q ∈ nodes, q.isCaching = false) (visible : Set String) :
    Presents (contextInterface answers visible) c m parameters nodes visible Set.univ
      (ShowsOn visible) where
  pre _ _ := trivial
  quiet := by
    intro op s a s' ledger hs hstep hop
    cases op
    case lookupCache | storeInCache | setResult | acquireEngine | releaseEngine =>
      exact absurd hop id
    case setLastError => exact hs.of_sameOn hstep
    all_goals exact hs.of_sameOn hstep.2
  getResult := by
    intro key s found s' ledger hkey hs hstep
    rw [hstep.1 hkey]
    exact hs key hkey
  setResult := fun {key a} _ _ _ _ hs hstep ↦ (hs.update key a).of_sameOn hstep
  isAllowed hstep := hx.isAllowed hstep.1
  beginExpression hstep := hx.beginExpression hstep.1
  beginAction hstep := hx.beginAction hstep.1
  deadlinePassed hstep := hx.deadlinePassed hstep.1
  lookupCache := by
    intro r s a s' ledger hr hcaching
    exact absurd hcaching (by simp [hcache r hr])
  storeInCache := by
    intro r b s u s' ledger hr hcaching
    exact absurd hcaching (by simp [hcache r hr])

/-- What a task ensures is still ensured when others have changed what is not visible to it. -/
theorem ensures_of_sameOn {answers : (op : Op) → op.Ans → Prop} {visible : Set String} {α : Type}
    {Q : α → Results → Prop} (hQ : ∀ a s t, SameOn visible s t → Q a s → Q a t) {p : RuleProgram α}
    {s t : Results} (h : Ensures (contextInterface answers visible) Q p s)
    (hst : SameOn visible s t) : Ensures (contextInterface answers visible) Q p t := by
  have htrans {s t s' : Results} (hst : SameOn visible s t) (hts : SameOn visible t s') :
      SameOn visible s s' := fun key hkey ↦ (hts key hkey).trans (hst key hkey)
  have hstep : ∀ op s t a s', SameOn visible s t →
      (contextInterface answers visible).step op t a s' →
        (contextInterface answers visible).step op s a s' := by
    intro op s t a s' hst hstep
    cases op
    case getResult c key =>
      exact ⟨fun hkey ↦ (hstep.1 hkey).trans (hst key hkey), htrans hst hstep.2⟩
    case setResult c key b => exact htrans (hst.update key (some b)) hstep
    case releaseEngine => exact htrans hst hstep
    case setLastError => exact htrans hst hstep
    all_goals exact ⟨hstep.1, htrans hst hstep.2⟩
  exact h.of_rely (fun _ _ _ _ _ ↦ trivial) hstep hQ hst

/-! ### Calls of `Workflow::execute` -/

/-- The chunks of rules are given by `m`: which chunk runs depends on the rule and not on what has
happened before. No limit and no deadline interferes. -/
structure Environment.Realizes {E : Type} (env : Environment E) (m : Meaning)
    (parameters : List RuleParameter) : Prop where
  isAllowed : ∀ limiter key e, (env.isAllowed limiter key e).1 = true
  beginExpression : ∀ engine r e,
    (env.beginExpression engine r parameters e).1 = m.expression r.toRuleFields.uncached
  beginAction : ∀ engine r e,
    (env.beginAction engine r parameters e).1 = m.action r.toRuleFields.uncached
  deadlinePassed : ∀ engine t e, (env.deadlinePassed engine t e).1 = false

/-- The chunks of an environment made of scripts. -/
def Meaning.ofScripts (script : String → Option LuaScript) : Meaning where
  expression r := .ok (script r.expression)
  action r := .ok (script r.action)

theorem Environment.ofScripts_realizes (script : String → Option LuaScript)
    (parameters : List RuleParameter) :
    (Environment.ofScripts script).Realizes (Meaning.ofScripts script) parameters where
  isAllowed _ _ _ := rfl
  beginExpression _ _ _ := rfl
  beginAction _ _ _ := rfl
  deadlinePassed _ _ _ := rfl

/-- `RuleContext context;` -/
def World.newContext {E : Type} (w : World E) (c : ContextPtr) : World E :=
  w.updateContext c fun _ ↦ {}

/-- Without caches the world shows the ledger in its context. -/
theorem presents_handle {E : Type} {env : Environment E} {m : Meaning}
    {parameters : List RuleParameter} (hE : env.Realizes m parameters) (c : ContextPtr)
    {nodes : List Rule} (hcache : ∀ q ∈ nodes, q.isCaching = false) :
    Presents (Interface.assuming env.handle fun _ _ ↦ True) c m parameters nodes Set.univ Set.univ
      fun ledger w ↦ ShowsOn Set.univ ledger (w.contexts c).results where
  pre _ _ := trivial
  quiet := by
    rintro op w a _ ledger hs ⟨-, rfl, rfl⟩ hop
    rw [env.handle_results_of_isQuiet c hop w]
    exact hs
  getResult := by
    rintro key w found _ ledger hkey hs ⟨-, rfl, rfl⟩
    exact hs key hkey
  setResult := by
    rintro key a w u _ ledger hs ⟨-, rfl, rfl⟩
    show ShowsOn _ _ ((w.setResult c key a).contexts c).results
    rw [World.setResult_results]
    exact hs.update key a
  isAllowed := by
    rintro limiter key w a _ ⟨-, rfl, rfl⟩
    exact hE.isAllowed limiter key w.env
  beginExpression := by
    rintro engine r w a _ ⟨-, rfl, rfl⟩
    exact hE.beginExpression engine r w.env
  beginAction := by
    rintro engine r w a _ ⟨-, rfl, rfl⟩
    exact hE.beginAction engine r w.env
  deadlinePassed := by
    rintro engine t w a _ ⟨-, rfl, rfl⟩
    exact hE.deadlinePassed engine t w.env
  lookupCache := by
    intro r s a s' ledger hr hcaching
    exact absurd hcaching (by simp [hcache r hr])
  storeInCache := by
    intro r b s u s' ledger hr hcaching
    exact absurd hcaching (by simp [hcache r hr])

/-- The `(ruleId, isSuccess)` pairs of results. -/
def verdicts (results : List RuleResult) : List (Id × Bool) :=
  results.map fun a ↦ (a.ruleId, a.isSuccess)

/-- The pairs of the outcomes that are not skipped. -/
def outcomeVerdicts (outcomes : List (Option Outcome)) : List (Id × Bool) :=
  ((outcomes.filterMap id).filter fun o ↦ !o.skipped).map fun o ↦ (o.ruleId, o.isSuccess)

theorem verdicts_results (history : History) :
    verdicts history.results =
      outcomeVerdicts (history.map fun e ↦ e.2.map RuleResult.outcome) := by
  have houtcomes : (history.map fun e ↦ e.2.map RuleResult.outcome).filterMap id =
      (history.filterMap fun e ↦ e.2).map RuleResult.outcome := by
    rw [List.filterMap_map, List.map_filterMap]
    rfl
  rw [outcomeVerdicts, houtcomes, List.filter_map, List.map_map, verdicts, History.results]
  refine List.map_congr_left fun a _ ↦ ?_
  rw [Function.comp_apply, RuleResult.isSuccess_outcome]
  rfl

/-- **A call returns the verdicts of the value of its loop**, if no rule has a cache. -/
theorem execute_verdicts {E : Type} {env : Environment E} {m : Meaning}
    {parameters : List RuleParameter} (hE : env.Realizes m parameters) (engine : EnginePtr)
    (c : ContextPtr) {order : HashOrder Rule} {rules executionOrder : List Rule}
    (horder : resolveExecutionOrder order rules = .ok executionOrder)
    (hcache : ∀ q ∈ nodesOf executionOrder, q.isCaching = false) (world : World E)
    {program : RuleProgram (List RuleResult)}
    (hprogram : Workflow.execute engine c parameters order rules = .ok program) :
    verdicts (program.run env.handle (world.newContext c)).1 =
      outcomeVerdicts (loopValue m parameters executionOrder fun _ ↦ none).result := by
  have hnew : ShowsOn Set.univ (fun _ ↦ none) ((world.newContext c).contexts c).results := by
    intro key _
    rw [World.newContext, World.updateContext]
    dsimp only
    rw [Function.update_self]
    rfl
  have hloop : Ensures (Interface.assuming env.handle fun _ _ ↦ True)
      (fun history _ ↦ (history.map fun e ↦ e.2.map RuleResult.outcome) =
        (loopValue m parameters executionOrder fun _ ↦ none).result)
      (executeLoop engine c parameters executionOrder) (world.newContext c) :=
    (executeLoop_presents (presents_handle hE c hcache) (m.looksUp_univ _) (fun _ ↦ id)
      (fun _ _ n _ ↦ Set.mem_univ n) (fun e _ ↦ Set.mem_univ e) hnew).mono fun _ _ h ↦ h.1
  have hvalue := hloop.run_guarded (guarded_of_invariant (fun _ _ h ↦ h) (fun _ _ h ↦ h) _ trivial)
  rw [Workflow.execute, horder] at hprogram
  obtain rfl := Except.ok.inj hprogram
  rw [run_bind, ← hvalue]
  exact verdicts_results _

end FastRules
