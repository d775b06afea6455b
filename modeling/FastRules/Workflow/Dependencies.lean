import FastRules.Rule.World
import FastRules.Workflow.Sequential
import FastRules.Workflow.Validate

/-!
# Who satisfies a dependency

The dependency check of `Workflow::execute` looks a name up in the context, where all rules of all
trees publish: a nested child publishes under its own name, an unnamed rule under `#<id>`. The
outcome found under `n` is that of the rule named `n` unless somebody else has published there since
(`History.shadowed`).

The loop is followed with the invariant `Tracks`: under every key that is not shadowed the context
holds the latest outcome of the rules of that name.
-/

namespace FastRules

open Program

/-! ### Outcomes and publications in a history -/

/-- The latest result of an executed rule named `n`. -/
def History.outcomeOf (n : String) (history : History) : Option RuleResult :=
  history.foldl (fun found e ↦ if e.1.name = n then e.2.or found else found) none

/-- Executing the rule may publish under `n` although that is not its name: through a nested child,
or as `#<id>`. -/
def Rule.publishesElsewhere (n : String) (r : Rule) : Bool :=
  n ∈ r.keysBelow || (r.name = "" && r.resultKey = n)

/-- Somebody else may have published under `n` since a rule named `n` was last executed. -/
def History.shadowed (n : String) (history : History) : Bool :=
  history.foldl (fun shadowed e ↦
    if e.2.isNone then shadowed
    else if e.1.name = n then false
    else shadowed || e.1.publishesElsewhere n) false

theorem History.outcomeOf_concat (n : String) (history : History) (r : Rule)
    (o : Option RuleResult) :
    History.outcomeOf n (history ++ [(r, o)]) =
      if r.name = n then o.or (history.outcomeOf n) else history.outcomeOf n := by
  rw [outcomeOf, List.foldl_append]
  rfl

theorem History.shadowed_concat (n : String) (history : History) (r : Rule)
    (o : Option RuleResult) :
    History.shadowed n (history ++ [(r, o)]) =
      if o.isNone then history.shadowed n
      else if r.name = n then false
      else history.shadowed n || r.publishesElsewhere n := by
  rw [shadowed, List.foldl_append]
  rfl

/-- An outcome is the result of an executed rule of the name. -/
theorem History.mem_of_outcomeOf {n : String} {history : History} {a : RuleResult}
    (h : history.outcomeOf n = some a) : ∃ d, (d, some a) ∈ history ∧ d.name = n := by
  induction history using List.reverseRecOn with
  | nil => cases h
  | append_singleton history e ih =>
    obtain ⟨r, o⟩ := e
    rw [outcomeOf_concat] at h
    have hearlier : History.outcomeOf n history = some a →
        ∃ d, (d, some a) ∈ history ++ [(r, o)] ∧ d.name = n := fun hpast ↦ by
      obtain ⟨d, hd, hdn⟩ := ih hpast
      exact ⟨d, List.mem_append_left _ hd, hdn⟩
    split_ifs at h with hname
    · rcases o with - | b
      · exact hearlier h
      · obtain rfl : b = a := Option.some.inj h
        exact ⟨r, by simp, hname⟩
    · exact hearlier h

/-! ### One pass of the loop -/

section Loop

variable (engine : EnginePtr) (c : ContextPtr) (parameters : List RuleParameter)

/-- What one pass of the loop of `Workflow::execute` does. -/
structure Stepped (r : Rule) (s : Results) (o : Option RuleResult) (s' : Results) : Prop where
  executed_iff : o.isSome = true ↔ r.isActive = true ∧
    ∀ n, r.dependsOnRuleName = some n → (s n).any RuleResult.isSuccess = true
  published : ∀ a, o = some a → s' r.resultKey = some a
  frame : SameOutside r.keys s s'
  idle : o = none → s' = s

/-- The check of a dependency reads the context. -/
theorem dependencySatisfied_reads (r : Rule) (s : Results) :
    Ensures (resultsInterface c)
      (fun satisfied s' ↦ (satisfied = true ↔
        ∀ n, r.dependsOnRuleName = some n → (s n).any RuleResult.isSuccess = true) ∧ s' = s)
      (dependencySatisfied c r) s := by
  rw [dependencySatisfied]
  rcases r.dependsOnRuleName with - | n
  · exact ⟨⟨fun _ n hn ↦ (Option.some_ne_none n hn.symm).elim, fun _ ↦ rfl⟩, rfl⟩
  · refine ⟨rfl, fun found s' hs ↦ ?_⟩
    obtain ⟨rfl, rfl⟩ := hs
    refine ⟨⟨fun h m hm ↦ ?_, fun h ↦ h n rfl⟩, rfl⟩
    obtain rfl : n = m := Option.some.inj hm
    exact h

theorem executeStep_stepped {r : Rule} (hcache : r.isCaching = false) (s : Results) :
    Ensures (resultsInterface c) (fun o s' ↦ Stepped r s o s')
      (executeStep engine c parameters r) s := by
  rw [executeStep]
  split_ifs with hactive
  · refine (ensures_bind _ _ _).2 ((dependencySatisfied_reads c r s).mono ?_)
    rintro satisfied s₁ ⟨hsat, rfl⟩
    rw [executeIf]
    split_ifs with h
    · rw [map_eq_pure_bind]
      refine (ensures_bind _ _ _).2
        ((execute_publishes engine c parameters hactive hcache s₁).mono ?_)
      rintro a s₂ ⟨hpub, hframe⟩
      refine ⟨iff_of_true rfl ⟨hactive, hsat.1 h⟩, fun b hb ↦ ?_, hframe, fun hnone ↦ ?_⟩
      · rwa [← hb]
      · cases hnone
    · refine ⟨iff_of_false Bool.false_ne_true fun hex ↦ h (hsat.2 hex.2), fun a ha ↦ ?_,
        SameOutside.refl _ _, fun _ ↦ rfl⟩
      cases ha
  · refine ⟨iff_of_false Bool.false_ne_true fun hex ↦ hactive hex.1, fun a ha ↦ ?_,
      SameOutside.refl _ _, fun _ ↦ rfl⟩
    cases ha

/-! ### The run -/

/-- Under a key that is not shadowed the context holds the latest outcome of that name. Nothing is
ever published under the empty key. -/
def Tracks (history : History) (s : Results) : Prop :=
  s "" = none ∧ ∀ n, n ≠ "" → history.shadowed n = false → s n = history.outcomeOf n

theorem not_mem_keys_of_not_publishesElsewhere {r : Rule} {n : String} (hname : r.name ≠ n)
    (h : r.publishesElsewhere n = false) : n ∉ r.keys := by
  obtain ⟨hbelow, hunnamed⟩ : n ∉ r.keysBelow ∧ (r.name = "" → r.resultKey ≠ n) := by
    simpa [Rule.publishesElsewhere] using h
  have hkey : n ≠ r.resultKey := fun he ↦ by
    by_cases hempty : r.name = ""
    · exact hunnamed hempty he.symm
    · exact hname (he.trans (Rule.resultKey_of_named hempty)).symm
  rw [Rule.keys]
  split_ifs
  · exact List.not_mem_cons_of_ne_of_not_mem hkey hbelow
  · exact List.not_mem_nil

mutual

theorem Rule.empty_not_mem_keysBelow : ∀ r : Rule, "" ∉ r.keysBelow
  | ⟨_, children⟩ => empty_not_mem_keysOfChildren children

theorem empty_not_mem_keysOfChildren : ∀ children : List Rule, "" ∉ keysOfChildren children
  | [] => List.not_mem_nil
  | child :: children => by
    rw [keysOfChildren, List.mem_cons, List.mem_append]
    rintro (he | he | he)
    · exact child.resultKey_ne_empty he.symm
    · split_ifs at he
      · exact Rule.empty_not_mem_keysBelow child he
      · exact List.not_mem_nil he
    · exact empty_not_mem_keysOfChildren children he

end

theorem Rule.empty_not_mem_keys (r : Rule) : "" ∉ r.keys := by
  rw [Rule.keys]
  split_ifs
  · exact List.not_mem_cons_of_ne_of_not_mem r.resultKey_ne_empty.symm r.empty_not_mem_keysBelow
  · exact List.not_mem_nil

/-- One pass keeps the invariant. -/
theorem Tracks.step {history : History} {r : Rule} {s s' : Results} {o : Option RuleResult}
    (h : Tracks history s) (hstep : Stepped r s o s') : Tracks (history ++ [(r, o)]) s' := by
  refine ⟨(hstep.frame "" r.empty_not_mem_keys).trans h.1, fun n hn hclear ↦ ?_⟩
  rw [History.shadowed_concat] at hclear
  rw [History.outcomeOf_concat]
  rcases o with - | a
  · rw [hstep.idle rfl]
    split_ifs <;> exact h.2 n hn hclear
  · rw [if_neg (by simp)] at hclear
    split_ifs at hclear ⊢ with hname
    · rw [← hname, ← Rule.resultKey_of_named (hname ▸ hn)]
      exact hstep.published a rfl
    · obtain ⟨hpast, helse⟩ := Bool.or_eq_false_iff.1 hclear
      rw [hstep.frame n (not_mem_keys_of_not_publishesElsewhere hname helse)]
      exact h.2 n hn hpast

/-- Every active rule of the history whose dependency is not shadowed was executed exactly if the
latest outcome of that name was a success. -/
def Respects (past history : History) : Prop :=
  ∀ before r o after, history = before ++ (r, o) :: after →
    ∀ n, r.dependsOnRuleName = some n →
      (n = "" → o = none) ∧
      (n ≠ "" → History.shadowed n (past ++ before) = false →
        (o.isSome = true ↔ r.isActive = true ∧
          (History.outcomeOf n (past ++ before)).any RuleResult.isSuccess = true))

theorem Respects.cons {past history : History} {r : Rule} {o : Option RuleResult} {s s' : Results}
    (htracks : Tracks past s) (hstep : Stepped r s o s')
    (h : Respects (past ++ [(r, o)]) history) : Respects past ((r, o) :: history) := by
  intro before q oq after heq n hn
  rcases before with - | ⟨e, before⟩
  · obtain ⟨he, -⟩ := List.cons.inj heq
    obtain ⟨rfl, rfl⟩ := Prod.mk.inj he
    rw [List.append_nil]
    refine ⟨fun hempty ↦ ?_, fun hne hclear ↦ ?_⟩
    · by_contra hsome
      have hex := hstep.executed_iff.1 (Option.isSome_iff_ne_none.2 hsome)
      have hfound := hex.2 n hn
      rw [hempty, htracks.1] at hfound
      cases hfound
    · rw [hstep.executed_iff, ← htracks.2 n hne hclear]
      refine and_congr_right fun _ ↦ ⟨fun hex ↦ hex n hn, fun hany m hm ↦ ?_⟩
      obtain rfl : n = m := Option.some.inj (hn.symm.trans hm)
      exact hany
  · obtain ⟨rfl, htail⟩ := List.cons.inj heq
    have := h before q oq after htail n hn
    rwa [List.append_assoc] at this

/-- The whole loop. -/
theorem executeLoop_respects {rules : List Rule} (hcache : ∀ r ∈ rules, r.isCaching = false)
    {past : History} {s : Results} (h : Tracks past s) :
    Ensures (resultsInterface c)
      (fun history _ ↦ history.map Prod.fst = rules ∧ Respects past history)
      (executeLoop engine c parameters rules) s := by
  induction rules generalizing past s with
  | nil =>
    refine ⟨rfl, fun before r o after heq ↦ ?_⟩
    exact absurd heq.symm (List.append_ne_nil_of_right_ne_nil _ (List.cons_ne_nil _ _))
  | cons r rules ih =>
    rw [executeLoop]
    refine (ensures_bind _ _ _).2
      ((executeStep_stepped engine c parameters (hcache r List.mem_cons_self) s).mono ?_)
    intro o s₁ hstep
    refine (ensures_bind _ _ _).2 ((ih (fun q hq ↦ hcache q (List.mem_cons_of_mem r hq))
      (h.step hstep)).mono ?_)
    rintro history s₂ ⟨hmap, hrest⟩
    exact ⟨congrArg (List.cons r) hmap, hrest.cons h hstep⟩

end Loop

/-! ### Runs of `Workflow::execute` -/

theorem mem_of_resolveExecutionOrder {order : HashOrder Rule} {rules executionOrder : List Rule}
    (hrules : DistinctIds rules) (h : resolveExecutionOrder order rules = .ok executionOrder)
    {r : Rule} (hr : r ∈ executionOrder) : r ∈ rules := by
  rw [resolveExecutionOrder] at h
  rcases hl : buildDependencyLevels order rules with message | levels
  · rw [hl] at h
    cases h
  · rw [hl] at h
    obtain rfl : levels.flatten = executionOrder := Except.ok.inj h
    exact (buildDependencyLevels_ok hrules hl).1.mem_nodes_of_mem_flatten hr

/-- **A dependency is satisfied by the rule it names.** In every run over a validated workflow whose
rules have no caches, whenever the loop comes to a rule that depends on `n` and nobody else has
published under `n` since a rule named `n` was last executed: the rule is executed only if a rule
named `n` was executed before with success, and exactly if its latest outcome was one. -/
theorem execute_respects_dependencies {E : Type} (env : Environment E) (idOrder : HashOrder Id)
    (order : HashOrder Rule) (w w' : Workflow) (hw : w.Fresh)
    (hvalid : w.validate idOrder order = (.ok (), w')) (executionOrder : List Rule)
    (horder : resolveExecutionOrder order w'.rules = .ok executionOrder)
    (hcache : ∀ r ∈ w'.rules, r.isCaching = false) (engine : EnginePtr) (c : ContextPtr)
    (parameters : List RuleParameter) (world : World E) (hnew : world.contexts c = {})
    (past rest : History) (r : Rule) (o : Option RuleResult)
    (hrun : ((executeLoop engine c parameters executionOrder).run env.handle world).1 =
      past ++ (r, o) :: rest)
    (n : String) (hn : r.dependsOnRuleName = some n) (hclear : past.shadowed n = false) :
    (o.isSome = true →
      ∃ d ∈ w'.rules, ∃ b, (d, some b) ∈ past ∧ d.name = n ∧ b.isSuccess = true) ∧
    (n ≠ "" → (o.isSome = true ↔
      r.isActive = true ∧ (past.outcomeOf n).any RuleResult.isSuccess = true)) := by
  have hdistinct := (Workflow.validate_accepted hw hvalid).distinct
  have hmem : ∀ q ∈ executionOrder, q ∈ w'.rules := fun q ↦
    mem_of_resolveExecutionOrder hdistinct horder
  have hstart : Tracks [] (world.contexts c).results := by
    rw [hnew]
    exact ⟨rfl, fun _ _ _ ↦ rfl⟩
  obtain ⟨hmap, hresp⟩ := env.run_of_results
    (executeLoop_respects engine c parameters (fun q hq ↦ hcache q (hmem q hq)) hstart)
  obtain ⟨hempty, hnamed⟩ := hresp past r o rest hrun n hn
  rw [hrun] at hmap
  refine ⟨fun hex ↦ ?_, fun hne ↦ hnamed hne hclear⟩
  have hne : n ≠ "" := fun he ↦ by
    rw [hempty he] at hex
    cases hex
  obtain ⟨-, hsuccess⟩ := (hnamed hne hclear).1 hex
  obtain ⟨b, hb, hbs⟩ := (Option.any_eq_true _ _).1 hsuccess
  obtain ⟨d, hd, hdn⟩ := History.mem_of_outcomeOf hb
  have horder : d ∈ executionOrder := by
    rw [← hmap]
    exact List.mem_map.2 ⟨(d, some b), List.mem_append_left _ hd, rfl⟩
  exact ⟨d, hmem d horder, b, hd, hdn, hbs⟩

/-- What the loop does with the validated rules of a workflow there. -/
def Workflow.scriptlessRun (w : Workflow) : Except String History :=
  (resolveExecutionOrder (HashOrder.insertion Rule)
    (w.validate (HashOrder.insertion Id) (HashOrder.insertion Rule)).2.rules).map
    fun executionOrder ↦
      ((executeLoop 0 0 [] executionOrder).run Environment.noScripts.handle { env := () }).1

/-- What a rule without scripts returns there. -/
def passed (r : Rule) (childResults : List RuleResult) : RuleResult :=
  { ruleName := r.name, ruleId := r.id, success := true, metrics := { evaluationCount := 1 },
    childResults }

namespace Unshadowed

def A : Rule := { id := 1, name := "A" }

def C : Rule := { id := 3, name := "C" }

def P : Rule := { id := 2, name := "P", childRules := [C] }

def B : Rule := { id := 4, name := "B", dependsOnRuleName := some "A" }

/-- The validated rules. The child of `P` does not get in the way of the dependency of `B`. -/
def rules : List Rule := [A.markValidated, P.markValidated, B.markValidated]

/-- What becomes of `A` and `P`. -/
def past : History :=
    [(A.markValidated, some (passed A [])), (P.markValidated, some (passed P [passed C []]))]

theorem dependency_satisfied : ∃ d a, (d, some a) ∈ past ∧ d.name = "A" ∧ a.isSuccess = true := by
  have horder : resolveExecutionOrder (HashOrder.insertion Rule) rules = .ok rules := rfl
  have hrun : ((executeLoop 0 0 [] rules).run Environment.noScripts.handle { env := () }).1 =
      past ++ (B.markValidated, some (passed B [])) :: [] := rfl
  have hclear : past.shadowed "A" = false := rfl
  obtain ⟨d, -, a, hd⟩ :=
    (execute_respects_dependencies Environment.noScripts (HashOrder.insertion Id)
    (HashOrder.insertion Rule) { rules := [A, P, B] } { rules, validated := true } ⟨rfl, by decide⟩
    rfl rules horder
    (by decide) 0 0 [] { env := () } rfl past [] B.markValidated (some (passed B [])) hrun "A" rfl
    hclear).1 rfl
  exact ⟨d, a, hd⟩

end Unshadowed

/-- `A` is not active, but a child of `P` has the same name. -/
def shadowing : Workflow where
  rules :=
    [{ id := 1, name := "A", isActive := false },
     { id := 2, name := "P", childRules := [{ id := 3, name := "A" }] },
     { id := 4, name := "B", dependsOnRuleName := some "A" }]

/-- `B` is executed although no rule of the workflow named `A` was. -/
theorem shadowing_executes_B :
    (shadowing.validate (HashOrder.insertion Id) (HashOrder.insertion Rule)).1 = .ok () ∧
      (∀ r ∈ shadowing.rules, r.isCaching = false) ∧
      ∃ past B a rest, shadowing.scriptlessRun = .ok (past ++ (B, some a) :: rest) ∧
        B.dependsOnRuleName = some "A" ∧
        ¬∃ d b, (d, some b) ∈ past ∧ d.name = "A" ∧ RuleResult.isSuccess b = true := by
  refine ⟨rfl, by decide, [(_, none), (_, some _)], _, _, [], rfl, rfl, ?_⟩
  rintro ⟨d, b, hmem, hname, -⟩
  rcases List.mem_cons.1 hmem with he | hmem
  · cases (Prod.mk.inj he).2
  · obtain rfl := (Prod.mk.inj (List.mem_singleton.1 hmem)).1
    exact absurd hname (by decide)

end FastRules
