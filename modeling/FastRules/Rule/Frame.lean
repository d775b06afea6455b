import FastRules.Rule.Execute

/-!
# What an execution does to the context

Executing a rule publishes results under its own key and under the keys of the nodes below it, and
touches no other key. Everything else it requests leaves the published results alone. These facts
hold whatever the clock, the limiters, the caches and the Lua chunks answer.
-/

namespace FastRules

open Program

/-- The published results of a context. -/
abbrev Results := String → Option RuleResult

/-! ### Keys -/

mutual

/-- The keys under which the nodes below a rule are published when the rule is executed. A child
that is not active is published by its parent, but nothing below it is executed. -/
def Rule.keysBelow : Rule → List String
  | ⟨_, children⟩ => keysOfChildren children

/-- The keys under which children are published. -/
def keysOfChildren : List Rule → List String
  | [] => []
  | child :: children =>
    child.resultKey :: ((if child.isActive then child.keysBelow else []) ++ keysOfChildren children)

end

/-- The keys an execution of the rule may publish under. -/
def Rule.keys (r : Rule) : List String :=
  if r.isActive then r.resultKey :: r.keysBelow else []

theorem Rule.keysBelow_eq (r : Rule) : r.keysBelow = keysOfChildren r.childRules := by
  cases r
  rfl

/-! ### Requests on one context -/

/-- The request reads at most, and reads only from the given context. -/
def Op.ReadsOnly (c : ContextPtr) : Op → Prop
  | getResult c' _ => c' = c
  | setResult _ _ _ => False
  | acquireEngine => False
  | releaseEngine _ => False
  | _ => True

/-- The request concerns caches, limits, the clock, counters or the last error. -/
def Op.IsBookkeeping (c : ContextPtr) : Op → Prop
  | lookupCache _ _ => True
  | storeInCache _ _ _ => True
  | now => True
  | isAllowed _ _ => True
  | recordExecution _ => True
  | recordExecutionTime _ => True
  | setLastError c' _ _ => c' = c
  | _ => False

/-- The request is made while a chunk runs against the given context. -/
def Op.RunsScript (c : ContextPtr) : Op → Prop
  | getResult c' _ => c' = c
  | endScript _ _ => True
  | deadlinePassed _ _ => True
  | _ => False

/-- The request is made to evaluate the given rule on the given engine and context. -/
def Op.Evaluates (engine : EnginePtr) (c : ContextPtr) (r : Rule) : Op → Prop
  | getResult c' _ => c' = c
  | beginExpression engine' r' _ => engine' = engine ∧ r' = r
  | beginAction engine' r' _ => engine' = engine ∧ r' = r
  | endScript _ _ => True
  | deadlinePassed _ _ => True
  | _ => False

/-- The request changes neither published results nor caches. -/
def Op.IsQuiet : Op → Prop
  | lookupCache _ _ => False
  | storeInCache _ _ _ => False
  | setResult _ _ _ => False
  | acquireEngine => False
  | releaseEngine _ => False
  | _ => True

/-- The request uses nothing outside the library but the clock. -/
def Op.UsesClockOnly : Op → Prop
  | isAllowed _ _ => False
  | beginExpression _ _ _ => False
  | beginAction _ _ _ => False
  | endScript _ _ => False
  | deadlinePassed _ _ => False
  | _ => True

theorem Op.IsBookkeeping.readsOnly {c : ContextPtr} {op : Op} (h : op.IsBookkeeping c) :
    op.ReadsOnly c := by
  cases op <;> trivial

theorem Op.RunsScript.evaluates {engine : EnginePtr} {c : ContextPtr} {r : Rule} {op : Op}
    (h : op.RunsScript c) : op.Evaluates engine c r := by
  cases op <;> trivial

theorem Op.Evaluates.readsOnly {engine : EnginePtr} {c : ContextPtr} {r : Rule} {op : Op}
    (h : op.Evaluates engine c r) : op.ReadsOnly c := by
  cases op <;> trivial

theorem Op.Evaluates.isQuiet {engine : EnginePtr} {c : ContextPtr} {r : Rule} {op : Op}
    (h : op.Evaluates engine c r) : op.IsQuiet := by
  cases op <;> trivial

/-- The request is made by an execution on the given engine and context, and evaluates at most the
given rules. -/
def Op.OnBehalf (engine : EnginePtr) (c : ContextPtr) (rules : List Rule) : Op → Prop
  | getResult c' _ => c' = c
  | setResult c' _ _ => c' = c
  | setLastError c' _ _ => c' = c
  | beginExpression engine' r _ => engine' = engine ∧ r ∈ rules
  | beginAction engine' r _ => engine' = engine ∧ r ∈ rules
  | acquireEngine => False
  | releaseEngine _ => False
  | _ => True

section OnBehalf

variable {engine : EnginePtr} {c : ContextPtr} {rules rules' : List Rule} {op : Op}

theorem Op.IsBookkeeping.onBehalf (h : op.IsBookkeeping c) : op.OnBehalf engine c rules := by
  cases op <;> trivial

theorem Op.Evaluates.onBehalf {r : Rule} (h : op.Evaluates engine c r) (hr : r ∈ rules) :
    op.OnBehalf engine c rules := by
  cases op <;> first | trivial | exact ⟨h.1, h.2 ▸ hr⟩

theorem Op.OnBehalf.mono (h : op.OnBehalf engine c rules) (hsub : ∀ r ∈ rules, r ∈ rules') :
    op.OnBehalf engine c rules' := by
  cases op <;> first | trivial | exact ⟨h.1, hsub _ h.2⟩

end OnBehalf

/-- What is known of the published results of one context, whatever the rest of the world does. -/
def resultsInterface (c : ContextPtr) : Interface Op Op.Ans Results where
  pre
    | .getResult c' _, _ => c' = c
    | .setResult c' _ _, _ => c' = c
    | .acquireEngine, _ => False
    | .releaseEngine _, _ => False
    | _, _ => True
  step
    | .getResult _ key, s, a, s' => a = s key ∧ s' = s
    | .setResult _ key result, s, _, s' => s' = Function.update s key (some result)
    | _, s, _, s' => s' = s

theorem Op.ReadsOnly.pre {c : ContextPtr} {op : Op} (h : op.ReadsOnly c) (s : Results) :
    (resultsInterface c).pre op s := by
  cases op <;> first | exact h | trivial

theorem Op.ReadsOnly.step {c : ContextPtr} {op : Op} (h : op.ReadsOnly c) {s s' : Results}
    {a : op.Ans} (hs : (resultsInterface c).step op s a s') : s' = s := by
  cases op <;> first | exact hs | exact hs.2 | exact absurd h id

/-- A program that only reads leaves the published results alone. -/
theorem ensures_of_readsOnly {α : Type} {c : ContextPtr} {p : RuleProgram α}
    (hp : Asks (Op.ReadsOnly c) p) (s : Results) :
    Ensures (resultsInterface c) (fun _ s' ↦ s' = s) p s :=
  hp.ensures (fun _ s h ↦ h.pre s) (fun _ _ _ _ h hs ↦ h.step hs) s

/-- Sequencing after a program that only reads. -/
theorem ensures_readsOnly_bind {α β : Type} {c : ContextPtr} {p : RuleProgram α}
    (hp : Asks (Op.ReadsOnly c) p) {f : α → RuleProgram β} {Q : β → Results → Prop} {s : Results}
    (h : ∀ a, Ensures (resultsInterface c) Q (f a) s) :
    Ensures (resultsInterface c) Q (p >>= f) s :=
  (ensures_bind p f s).2 ((ensures_of_readsOnly hp s).mono fun a s' hs ↦ by
    rw [hs]
    exact h a)

/-- Sequencing after a request that reads at most. -/
theorem ensures_request_bind {β : Type} {c : ContextPtr} {op : Op} {f : op.Ans → RuleProgram β}
    {Q : β → Results → Prop} {s : Results} (h : ∀ a, Ensures (resultsInterface c) Q (f a) s)
    (hop : op.ReadsOnly c) : Ensures (resultsInterface c) Q (request op >>= f) s :=
  ensures_readsOnly_bind (asks_perform.2 hop) h

/-- Sequencing after a publication. -/
theorem ensures_setResult_bind {β : Type} {c : ContextPtr} {key : String} {result : RuleResult}
    {f : Unit → RuleProgram β} {Q : β → Results → Prop} {s : Results}
    (h : Ensures (resultsInterface c) Q (f ()) (Function.update s key (some result))) :
    Ensures (resultsInterface c) Q (request (.setResult c key result) >>= f) s :=
  ⟨rfl, fun _ s' hs ↦ by
    obtain rfl : s' = _ := hs
    exact h⟩

theorem asks_request {P : Op → Prop} {op : Op} : Asks P (request op) ↔ P op :=
  asks_perform

/-- What expressions and actions do with the answer to the request that finds their chunk. -/
def runChunk (engine : EnginePtr) (c : ContextPtr) (timeout : Option Int) (label : String) :
    Except Exn (Option LuaScript) → RuleProgram (Except Exn Bool)
  | .error e => return .error e
  | .ok none => return .ok true
  | .ok (some script) => evaluateScript engine c timeout label script

theorem evaluateExpression_eq (engine : EnginePtr) (c : ContextPtr)
    (parameters : List RuleParameter) (r : Rule) :
    r.evaluateExpression engine c parameters =
      request (.beginExpression engine r parameters) >>=
        runChunk engine c r.timeout "Expression evaluation failed: " := by
  rw [Rule.evaluateExpression]
  exact congrArg _ (funext fun begun ↦ by rcases begun with e | - | script <;> rfl)

theorem executeAction_eq (engine : EnginePtr) (c : ContextPtr) (parameters : List RuleParameter)
    (r : Rule) :
    r.executeAction engine c parameters =
      request (.beginAction engine r parameters) >>=
        runChunk engine c r.timeout "Action execution failed: " := by
  rw [Rule.executeAction]
  exact congrArg _ (funext fun begun ↦ by rcases begun with e | - | script <;> rfl)

section Pieces

variable (engine : EnginePtr) (c : ContextPtr) (parameters : List RuleParameter) (r : Rule)

theorem runScript_asks (script : LuaScript) : Asks (Op.RunsScript c) (runScript c script) := by
  induction script with
  | ret outcome => trivial
  | ask key next ih =>
    exact ⟨rfl, fun found ↦ (ih (luaView key found)).bind fun _ ↦ trivial⟩

theorem evaluateScript_asks (timeout : Option Int) (label : String) (script : LuaScript) :
    Asks (Op.RunsScript c) (evaluateScript engine c timeout label script) := by
  refine (runScript_asks c script).bind fun ⟨outcome, answers⟩ ↦ ⟨trivial, fun _ ↦ ?_⟩
  rcases outcome with message | truthy
  · trivial
  · cases timeout.filter fun t ↦ 0 < t with
    | none => trivial
    | some t => exact ⟨trivial, fun _ ↦ trivial⟩

theorem evaluateExpression_asks :
    Asks (Op.Evaluates engine c r) (r.evaluateExpression engine c parameters) := by
  refine ⟨⟨rfl, rfl⟩, fun a ↦ ?_⟩
  rcases a with e | - | script
  · trivial
  · trivial
  · exact (evaluateScript_asks engine c _ _ script).mono fun _ ↦ Op.RunsScript.evaluates

theorem executeAction_asks :
    Asks (Op.Evaluates engine c r) (r.executeAction engine c parameters) := by
  refine ⟨⟨rfl, rfl⟩, fun a ↦ ?_⟩
  rcases a with e | - | script
  · trivial
  · trivial
  · exact (evaluateScript_asks engine c _ _ script).mono fun _ ↦ Op.RunsScript.evaluates

theorem checkExpression_asks :
    Asks (Op.Evaluates engine c r) (r.checkExpression engine c parameters) := by
  rw [Rule.checkExpression]
  split_ifs
  · exact evaluateExpression_asks engine c parameters r
  · trivial

theorem performAction_asks :
    Asks (Op.Evaluates engine c r) (r.performAction engine c parameters) := by
  rw [Rule.performAction]
  split_ifs
  · exact executeAction_asks engine c parameters r
  · trivial

theorem evaluate_asks : Asks (Op.Evaluates engine c r) (r.evaluate engine c parameters) := by
  refine (checkExpression_asks engine c parameters r).bind fun passed ↦ ?_
  rcases passed with e | passed
  · trivial
  · cases passed
    · trivial
    · refine (performAction_asks engine c parameters r).bind fun acted ↦ ?_
      cases acted <;> trivial

theorem evaluate_readsOnly : Asks (Op.ReadsOnly c) (r.evaluate engine c parameters) :=
  (evaluate_asks engine c parameters r).mono fun _ ↦ Op.Evaluates.readsOnly

theorem checkRateLimit_asks : Asks (Op.IsBookkeeping c) r.checkRateLimit := by
  refine (asks_request.2 trivial).bind fun byId ↦ Asks.bind ?_ fun _ ↦ asks_pure _ _
  rw [Rule.allowedByName]
  split_ifs
  · exact asks_request.2 trivial
  · exact asks_pure _ _

theorem storeInCache_asks (result : RuleResult) :
    Asks (Op.IsBookkeeping c) (r.storeInCache parameters result) := by
  rw [Rule.storeInCache]
  split_ifs
  · exact ⟨trivial, fun _ ↦ trivial⟩
  · trivial

theorem lookupCache_asks : Asks (Op.IsBookkeeping c) (r.lookupCache parameters) := by
  rw [Rule.lookupCache]
  split_ifs
  · exact ⟨trivial, fun _ ↦ trivial⟩
  · trivial

theorem handleException_asks (e : Exn) : Asks (Op.IsBookkeeping c) (r.handleException c e) := by
  cases e
  case rateLimit => exact ⟨rfl, fun _ ↦ ⟨trivial, fun _ ↦ trivial⟩⟩
  case timeout => exact ⟨rfl, fun _ ↦ ⟨trivial, fun _ ↦ trivial⟩⟩
  all_goals exact ⟨trivial, fun _ ↦ ⟨rfl, fun _ ↦ trivial⟩⟩

theorem storeInCache_usesClockOnly (result : RuleResult) :
    Asks Op.UsesClockOnly (r.storeInCache parameters result) := by
  rw [Rule.storeInCache]
  split_ifs
  · exact ⟨trivial, fun _ ↦ trivial⟩
  · trivial

theorem lookupCache_usesClockOnly : Asks Op.UsesClockOnly (r.lookupCache parameters) := by
  rw [Rule.lookupCache]
  split_ifs
  · exact ⟨trivial, fun _ ↦ trivial⟩
  · trivial

theorem handleException_usesClockOnly (e : Exn) :
    Asks Op.UsesClockOnly (r.handleException c e) := by
  cases e <;> exact ⟨trivial, fun _ ↦ ⟨trivial, fun _ ↦ trivial⟩⟩

theorem checkRateLimit_quiet : Asks Op.IsQuiet r.checkRateLimit := by
  refine (asks_request.2 trivial).bind fun byId ↦ Asks.bind ?_ fun _ ↦ asks_pure _ _
  rw [Rule.allowedByName]
  split_ifs
  · exact asks_request.2 trivial
  · exact asks_pure _ _

theorem handleException_quiet (e : Exn) : Asks Op.IsQuiet (r.handleException c e) := by
  cases e <;> exact ⟨trivial, fun _ ↦ ⟨trivial, fun _ ↦ trivial⟩⟩

/-- Sequencing after bookkeeping. -/
theorem ensures_bookkeeping_bind {α β : Type} {c : ContextPtr} {p : RuleProgram α}
    (hp : Asks (Op.IsBookkeeping c) p) {f : α → RuleProgram β} {Q : β → Results → Prop}
    {s : Results} (h : ∀ a, Ensures (resultsInterface c) Q (f a) s) :
    Ensures (resultsInterface c) Q (p >>= f) s :=
  ensures_readsOnly_bind (hp.mono fun _ ↦ Op.IsBookkeeping.readsOnly) h

end Pieces

/-! ### All requests of an execution -/

section Asks

variable (engine : EnginePtr) (c : ContextPtr) (parameters : List RuleParameter)

theorem publishChildren_asks (rules : List Rule) :
    ∀ (children : List Rule) (results : List RuleResult),
    Asks (Op.OnBehalf engine c rules) (Rule.publishChildren c children results)
  | [], _ => trivial
  | _ :: _, [] => trivial
  | _ :: children, _ :: results => ⟨rfl, fun _ ↦ publishChildren_asks rules children results⟩

theorem conclude_asks (rules : List Rule) (r : Rule) (startTime : Time) (result : RuleResult) :
    Asks (Op.OnBehalf engine c rules) (r.conclude c parameters startTime result) :=
  ⟨trivial, fun _ ↦ ⟨trivial, fun _ ↦ ⟨rfl, fun _ ↦
    ((storeInCache_asks c parameters r _).mono fun _ ↦ Op.IsBookkeeping.onBehalf).bind
      fun _ ↦ trivial⟩⟩⟩

theorem settle_asks (rules : List Rule) (r : Rule) (startTime : Time) (result : RuleResult)
    (ending : Rule.Ending) :
    Asks (Op.OnBehalf engine c rules) (r.settle c parameters startTime result ending) := by
  cases ending with
  | failed message =>
    exact ⟨trivial, fun _ ↦
      ((storeInCache_asks c parameters r _).mono fun _ ↦ Op.IsBookkeeping.onBehalf).bind
        fun _ ↦ ⟨rfl, fun _ ↦ trivial⟩⟩
  | thrown e =>
    exact ((handleException_asks c r e).mono fun _ ↦ Op.IsBookkeeping.onBehalf).bind
      fun message ↦ conclude_asks engine c parameters rules r startTime _
  | completed => exact ⟨trivial, fun _ ↦ conclude_asks engine c parameters rules r startTime _⟩

theorem conclude_usesClockOnly (r : Rule) (startTime : Time) (result : RuleResult) :
    Asks Op.UsesClockOnly (r.conclude c parameters startTime result) :=
  ⟨trivial, fun _ ↦ ⟨trivial, fun _ ↦ ⟨trivial, fun _ ↦
    (storeInCache_usesClockOnly parameters r _).bind fun _ ↦ trivial⟩⟩⟩

theorem settle_usesClockOnly (r : Rule) (startTime : Time) (result : RuleResult)
    (ending : Rule.Ending) :
    Asks Op.UsesClockOnly (r.settle c parameters startTime result ending) := by
  cases ending with
  | failed message =>
    exact ⟨trivial, fun _ ↦
      (storeInCache_usesClockOnly parameters r _).bind fun _ ↦ ⟨trivial, fun _ ↦ trivial⟩⟩
  | thrown e =>
    exact (handleException_usesClockOnly c r e).bind
      fun message ↦ conclude_usesClockOnly c parameters r startTime _
  | completed => exact ⟨trivial, fun _ ↦ conclude_usesClockOnly c parameters r startTime _⟩

theorem executeWith_asks (r : Rule) {executeChildren : RuleProgram (List RuleResult)}
    (hchildren : Asks (Op.OnBehalf engine c (nodesOf r.childRules)) executeChildren) :
    Asks (Op.OnBehalf engine c r.nodes) (r.executeWith engine c parameters executeChildren) := by
  have hbelow : ∀ q ∈ nodesOf r.childRules, q ∈ r.nodes := fun q hq ↦ by
    rw [Rule.nodes_eq]
    exact List.mem_cons_of_mem r hq
  refine ((lookupCache_asks c parameters r).mono fun _ ↦ Op.IsBookkeeping.onBehalf).bind
    fun cached ↦ ?_
  rcases cached with - | result
  · refine ⟨trivial, fun executedAt ↦ ?_⟩
    dsimp only
    split_ifs
    · refine (asks_request.2 trivial).bind fun startTime ↦ Asks.bind ?_ fun x ↦
        settle_asks engine c parameters _ r _ _ _
      refine ((checkRateLimit_asks c r).mono fun _ ↦ Op.IsBookkeeping.onBehalf).bind
        fun allowed ↦ ?_
      rcases allowed with e | -
      · trivial
      · dsimp only
        split
        · trivial
        · refine (hchildren.mono fun _ h ↦ h.mono hbelow).bind fun results ↦
            (publishChildren_asks engine c _ r.childRules results).bind fun _ ↦ ?_
          split
          · trivial
          · exact ((evaluate_asks engine c parameters r).mono
              fun _ h ↦ h.onBehalf r.self_mem_nodes).bind fun _ ↦ trivial
    · trivial
  · exact ⟨trivial, fun _ ↦ trivial⟩

theorem executeRules_asks_of {children : List Rule}
    (h : ∀ r ∈ children, Asks (Op.OnBehalf engine c r.nodes) (r.execute engine c parameters)) :
    Asks (Op.OnBehalf engine c (nodesOf children)) (executeRules engine c parameters children) := by
  induction children with
  | nil => trivial
  | cons child children ih =>
    rw [executeRules, nodesOf]
    have hhead := (h child List.mem_cons_self).mono fun op h ↦
      h.mono fun q hq ↦ List.mem_append_left (nodesOf children) hq
    have htail := (ih fun q hq ↦ h q (List.mem_cons_of_mem child hq)).mono fun op h ↦
      h.mono fun q hq ↦ List.mem_append_right child.nodes hq
    exact hhead.bind fun _ ↦ htail.bind fun _ ↦ asks_pure _ _

/-- An execution makes requests on its engine and context, and evaluates nodes of the rule. -/
theorem execute_asks (r : Rule) :
    Asks (Op.OnBehalf engine c r.nodes) (r.execute engine c parameters) := by
  induction r using Rule.induction_children with
  | h r ih =>
    rw [Rule.execute_eq]
    exact executeWith_asks engine c parameters r (executeRules_asks_of engine c parameters ih)

theorem executeRules_asks (children : List Rule) :
    Asks (Op.OnBehalf engine c (nodesOf children)) (executeRules engine c parameters children) :=
  executeRules_asks_of engine c parameters fun r _ ↦ execute_asks engine c parameters r

end Asks

/-! ### One rule -/

section Execute

variable (engine : EnginePtr) (c : ContextPtr) (parameters : List RuleParameter)

/-- Outside the given keys nothing has changed. -/
def SameOutside (keys : List String) (s s' : Results) : Prop :=
  ∀ key, key ∉ keys → s' key = s key

theorem SameOutside.refl (keys : List String) (s : Results) : SameOutside keys s s :=
  fun _ _ ↦ rfl

theorem SameOutside.trans {keys : List String} {s₁ s₂ s₃ : Results} (h₁₂ : SameOutside keys s₁ s₂)
    (h₂₃ : SameOutside keys s₂ s₃) : SameOutside keys s₁ s₃ :=
  fun key hkey ↦ (h₂₃ key hkey).trans (h₁₂ key hkey)

theorem SameOutside.mono {keys keys' : List String} (hsub : ∀ key ∈ keys, key ∈ keys')
    {s s' : Results} (h : SameOutside keys s s') : SameOutside keys' s s' :=
  fun key hkey ↦ h key fun hin ↦ hkey (hsub key hin)

theorem SameOutside.update {keys : List String} {key : String} (hkey : key ∈ keys) (s : Results)
    (result : Option RuleResult) : SameOutside keys s (Function.update s key result) :=
  fun k hk ↦ Function.update_of_ne (fun he : k = key ↦ hk (he ▸ hkey)) _ _

theorem publishChildren_frame : ∀ (children : List Rule) (results : List RuleResult) (s : Results),
    Ensures (resultsInterface c)
      (fun _ s' ↦ SameOutside (children.map Rule.resultKey) s s')
      (Rule.publishChildren c children results) s
  | [], _, s => SameOutside.refl _ s
  | _ :: _, [], s => SameOutside.refl _ s
  | child :: children, result :: results, s => by
    refine ensures_setResult_bind ((publishChildren_frame children results _).mono fun _ s' h ↦ ?_)
    exact (SameOutside.update (by simp) s _).trans (h.mono (by simp +contextual))

theorem conclude_publishes (r : Rule) (startTime : Time) (result : RuleResult) (s : Results) :
    Ensures (resultsInterface c) (fun a s' ↦ s' = Function.update s r.resultKey (some a))
      (r.conclude c parameters startTime result) s := by
  refine ensures_request_bind (fun endTime ↦ ?_) trivial
  refine ensures_request_bind (fun _ ↦ ?_) trivial
  refine ensures_setResult_bind ?_
  exact ensures_bookkeeping_bind (storeInCache_asks c parameters r _) fun _ ↦ rfl

/-- However an execution ends, its result is what is published under the rule's key. -/
theorem settle_publishes (r : Rule) (startTime : Time) (result : RuleResult) (ending : Rule.Ending)
    (s : Results) :
    Ensures (resultsInterface c) (fun a s' ↦ s' = Function.update s r.resultKey (some a))
      (r.settle c parameters startTime result ending) s := by
  cases ending with
  | failed message =>
    refine ensures_request_bind (fun _ ↦ ?_) trivial
    refine ensures_bookkeeping_bind (storeInCache_asks c parameters r _) fun _ ↦ ?_
    exact ensures_setResult_bind rfl
  | thrown e =>
    refine ensures_bookkeeping_bind (handleException_asks c r e) fun message ↦ ?_
    exact conclude_publishes c parameters r startTime _ s
  | completed =>
    refine ensures_request_bind (fun _ ↦ ?_) trivial
    exact conclude_publishes c parameters r startTime _ s

theorem map_resultKey_subset (children : List Rule) :
    ∀ key ∈ children.map Rule.resultKey, key ∈ keysOfChildren children := by
  induction children with
  | nil => simp
  | cons child children ih =>
    intro key hkey
    rw [keysOfChildren]
    rcases List.mem_cons.1 hkey with rfl | hkey
    · exact List.mem_cons_self
    · exact List.mem_cons_of_mem _ (List.mem_append_right _ (ih key hkey))

/-- The `try` block publishes at most what lies below the rule. -/
theorem attempt_frame (r : Rule) {executeChildren : RuleProgram (List RuleResult)}
    (hchildren : ∀ s, Ensures (resultsInterface c)
      (fun _ s' ↦ SameOutside (keysOfChildren r.childRules) s s') executeChildren s) (s : Results) :
    Ensures (resultsInterface c) (fun _ s' ↦ SameOutside (keysOfChildren r.childRules) s s')
      (r.attempt engine c parameters executeChildren) s := by
  refine ensures_bookkeeping_bind (checkRateLimit_asks c r) fun allowed ↦ ?_
  rcases allowed with e | -
  · exact SameOutside.refl _ s
  · dsimp only
    split
    · exact SameOutside.refl _ s
    · refine (ensures_bind _ _ _).2 ((hchildren s).mono fun results s₁ h₁ ↦ ?_)
      refine (ensures_bind _ _ _).2
        ((publishChildren_frame c r.childRules results s₁).mono fun _ s₂ h₂ ↦ ?_)
      have h := h₁.trans (h₂.mono (map_resultKey_subset r.childRules))
      split
      · exact h
      · exact ensures_readsOnly_bind (evaluate_readsOnly engine c parameters r) fun _ ↦ h

/-- An active rule that is not answered from its cache publishes its result, and nothing outside its
keys. -/
theorem executeUncached_publishes {r : Rule} (hactive : r.isActive = true)
    {executeChildren : RuleProgram (List RuleResult)}
    (hchildren : ∀ s, Ensures (resultsInterface c)
      (fun _ s' ↦ SameOutside (keysOfChildren r.childRules) s s') executeChildren s) (s : Results) :
    Ensures (resultsInterface c)
      (fun a s' ↦ s' r.resultKey = some a ∧ SameOutside r.keys s s')
      (r.executeUncached engine c parameters executeChildren) s := by
  refine ensures_request_bind (fun executedAt ↦ ?_) trivial
  rw [if_pos hactive]
  refine ensures_request_bind (fun startTime ↦ ?_) trivial
  refine (ensures_bind _ _ _).2 ((attempt_frame engine c parameters r hchildren s).mono
    fun x s₁ h₁ ↦ ?_)
  refine (settle_publishes c parameters r startTime _ x.2 s₁).mono fun a s₂ h₂ ↦ ?_
  have hkeys : r.keys = r.resultKey :: keysOfChildren r.childRules := by
    rw [Rule.keys, if_pos hactive, r.keysBelow_eq]
  rw [h₂, hkeys]
  refine ⟨Function.update_self _ _ _, (h₁.mono fun key hkey ↦ ?_).trans ?_⟩
  · exact List.mem_cons_of_mem _ hkey
  · exact SameOutside.update List.mem_cons_self s₁ _

theorem executeUncached_inactive {r : Rule} (hactive : r.isActive = false)
    (executeChildren : RuleProgram (List RuleResult)) (s : Results) :
    Ensures (resultsInterface c) (fun a s' ↦ a.skipped = true ∧ s' = s)
      (r.executeUncached engine c parameters executeChildren) s := by
  refine ensures_request_bind (fun executedAt ↦ ?_) trivial
  rw [if_neg (by simp [hactive])]
  exact ⟨rfl, rfl⟩

theorem executeWith_frame {r : Rule} {executeChildren : RuleProgram (List RuleResult)}
    (hchildren : ∀ s, Ensures (resultsInterface c)
      (fun _ s' ↦ SameOutside (keysOfChildren r.childRules) s s') executeChildren s) (s : Results) :
    Ensures (resultsInterface c) (fun _ s' ↦ SameOutside r.keys s s')
      (r.executeWith engine c parameters executeChildren) s := by
  refine ensures_bookkeeping_bind (lookupCache_asks c parameters r) fun cached ↦ ?_
  cases cached with
  | some result => exact ensures_request_bind (fun _ ↦ SameOutside.refl _ s) trivial
  | none =>
    rcases hactive : r.isActive with - | -
    · refine (executeUncached_inactive engine c parameters hactive _ s).mono fun _ s' h ↦ ?_
      rw [h.2]
      exact SameOutside.refl _ s
    · exact (executeUncached_publishes engine c parameters hactive hchildren s).mono fun _ _ h ↦ h.2

/-- Executing children publishes at most under the keys below their parent. -/
theorem executeRules_frame_of {children : List Rule}
    (h : ∀ r ∈ children, ∀ s, Ensures (resultsInterface c) (fun _ s' ↦ SameOutside r.keys s s')
      (r.execute engine c parameters) s) (s : Results) :
    Ensures (resultsInterface c) (fun _ s' ↦ SameOutside (keysOfChildren children) s s')
      (executeRules engine c parameters children) s := by
  induction children generalizing s with
  | nil => exact SameOutside.refl _ s
  | cons child children ih =>
    rw [executeRules]
    refine (ensures_bind _ _ _).2 ((h child List.mem_cons_self s).mono fun result s₁ h₁ ↦ ?_)
    refine (ensures_bind _ _ _).2
      ((ih (fun r hr ↦ h r (List.mem_cons_of_mem child hr)) s₁).mono fun results s₂ h₂ ↦ ?_)
    refine (h₁.mono fun key hkey ↦ ?_).trans (h₂.mono fun key hkey ↦ ?_)
    · rw [Rule.keys] at hkey
      rw [keysOfChildren]
      split_ifs at hkey ⊢ with hactive
      · rcases List.mem_cons.1 hkey with rfl | hkey
        · exact List.mem_cons_self
        · exact List.mem_cons_of_mem _ (List.mem_append_left _ hkey)
      · exact absurd hkey List.not_mem_nil
    · rw [keysOfChildren]
      exact List.mem_cons_of_mem _ (List.mem_append_right _ hkey)

/-- Executing a rule publishes under its keys only. -/
theorem execute_frame (r : Rule) : ∀ s, Ensures (resultsInterface c)
    (fun _ s' ↦ SameOutside r.keys s s') (r.execute engine c parameters) s := by
  induction r using Rule.induction_children with
  | h r ih =>
    intro s
    rw [Rule.execute_eq]
    exact executeWith_frame engine c parameters
      (executeRules_frame_of engine c parameters ih) s

theorem executeRules_frame (children : List Rule) (s : Results) :
    Ensures (resultsInterface c) (fun _ s' ↦ SameOutside (keysOfChildren children) s s')
      (executeRules engine c parameters children) s :=
  executeRules_frame_of engine c parameters (fun r _ ↦ execute_frame engine c parameters r) s

/-- An active rule without a cache publishes its result. -/
theorem execute_publishes {r : Rule} (hactive : r.isActive = true) (hcache : r.isCaching = false)
    (s : Results) :
    Ensures (resultsInterface c)
      (fun a s' ↦ s' r.resultKey = some a ∧ SameOutside r.keys s s')
      (r.execute engine c parameters) s := by
  have hnone : r.lookupCache parameters = pure none := by
    rw [Rule.lookupCache, if_neg (by simp [hcache])]
  rw [Rule.execute_eq, Rule.executeWith, hnone]
  exact executeUncached_publishes engine c parameters hactive
    (executeRules_frame engine c parameters r.childRules) s

end Execute

end FastRules
