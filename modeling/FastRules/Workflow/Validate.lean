import FastRules.Foundations.DepthFirst
import FastRules.Workflow.Levels

/-!
# Validation

`Rule::validate`, `Workflow::checkCircularDependencies` and `Workflow::validate`. The two graph
searches are instances of the three-colour search, over graphs that are read off the rules
differently:

* `Rule::validate` resolves a dependency while it is still filling its name table, so a name means
  the last rule *so far* that carries it, and adds an edge from each parent to its direct children;
* `checkCircularDependencies` resolves a dependency to the first rule of that name in the order of
  its hash map and takes the id `-1` to mean that there is none.

What an accepted workflow is guaranteed is collected in `Accepted`.
-/

namespace FastRules

/-! ### The graph of a single rule's validation -/

/-- The maps of `Rule::validate`: `ruleById` (its keys), `ruleByName` and `adjacency`. -/
structure RuleGraph where
  ids : List Id := []
  ruleByName : String → Option Id := fun _ ↦ none
  adjacency : Id → List Id := fun _ ↦ []

namespace RuleGraph

/-- `ruleById[id] = …`. -/
def addId (g : RuleGraph) (id : Id) : RuleGraph :=
  { g with ids := if id ∈ g.ids then g.ids else g.ids ++ [id] }

/-- `adjacency[source].push_back(target)`. -/
def addEdge (g : RuleGraph) (source target : Id) : RuleGraph :=
  { g with adjacency := Function.update g.adjacency source (g.adjacency source ++ [target]) }

/-- The edge from a parent to a direct child. Children without an id are left out. -/
def addChild (parent : Id) (g : RuleGraph) (child : Rule) : RuleGraph :=
  if child.id ≠ 0 then (g.addEdge parent child.id).addId child.id else g

/-- The edge to the rule that the name denotes so far. -/
def addDependency (g : RuleGraph) (rule : Rule) : RuleGraph :=
  match rule.dependsOnRuleName.bind g.ruleByName with
  | some target => g.addEdge rule.id target
  | none => g

/-- One rule of `allRules`: its id, its name, its dependency, its children. -/
def addRule (g : RuleGraph) (rule : Rule) : RuleGraph :=
  let g := g.addId rule.id
  let g := if rule.name ≠ "" then
    { g with ruleByName := Function.update g.ruleByName rule.name (some rule.id) } else g
  rule.childRules.foldl (addChild rule.id) (g.addDependency rule)

end RuleGraph

/-- The graph of all rules. -/
def ruleGraph (allRules : List Rule) : RuleGraph :=
  allRules.foldl RuleGraph.addRule {}

/-- The edges that the search follows. -/
def RuleGraph.Edge (g : RuleGraph) : Id → Id → Prop :=
  DepthFirst.Edge g.adjacency g.ids

/-- The iteration order of `ruleById` does not matter. -/
theorem RuleGraph.findCycle_eq_none_iff (g : RuleGraph) (order : HashOrder Id) :
    DepthFirst.findCycle g.adjacency (order.visit g.ids) = none ↔
      ∀ i, ¬Descent.OnCycle g.Edge i :=
  DepthFirst.findCycle_eq_none_iff_of_perm (order.perm g.ids)

/-- `Circular dependency detected: a -> b -> a`, from the first occurrence of `a` on the path. -/
def cycleMessage (path : List Id) (back : Id) : String :=
  "Circular dependency detected: " ++
    String.intercalate " -> " ((path.dropWhile fun i ↦ i ≠ back).map toString) ++ " -> " ++
      toString back

/-- The first element that was seen before. -/
def firstRepeat (seen : List Id) : List Id → Option Id
  | [] => none
  | i :: is => if i ∈ seen then some i else firstRepeat (i :: seen) is

theorem firstRepeat_eq_none {seen ids : List Id} (hseen : seen.Nodup) :
    firstRepeat seen ids = none ↔ (ids.reverse ++ seen).Nodup := by
  induction ids generalizing seen with
  | nil => simpa [firstRepeat] using hseen
  | cons i ids ih =>
    rw [firstRepeat, List.reverse_cons, List.append_assoc, List.singleton_append]
    split_ifs with hi
    · refine iff_of_false (by simp) fun hnodup ↦ ?_
      exact (List.nodup_cons.1 hnodup.of_append_right).1 hi
    · exact ih (List.nodup_cons.2 ⟨hi, hseen⟩)

theorem firstRepeat_nil_eq_none {ids : List Id} : firstRepeat [] ids = none ↔ ids.Nodup := by
  rw [firstRepeat_eq_none List.nodup_nil, List.append_nil, List.nodup_reverse]

/-! ### `Rule::validate` -/

/-- The checks of `Rule::validate`; the text is that of the `RuleValidationException`. -/
def Rule.checkAgainst (order : HashOrder Id) (allRules : List Rule) (self : Rule) :
    Except String Unit :=
  let g := ruleGraph allRules
  match DepthFirst.findCycle g.adjacency (order.visit g.ids) with
  | some (path, back) => .error (cycleMessage path back)
  | none =>
    if allRules.any fun r ↦ r.id = 0 then
      .error "Rule has zero ID"
    else
      match firstRepeat [] (allRules.map fun r ↦ r.id) with
      | some id => .error ("Duplicate rule ID: " ++ toString id)
      | none =>
        match self.dependsOnRuleName with
        | some n =>
          if allRules.any fun r ↦ r.name = n then
            .ok ()
          else
            .error ("Rule depends on non-existent rule: " ++ n)
        | none => .ok ()

/-- `Rule::validate`: a rule that was validated before is not looked at again. -/
def Rule.validate (order : HashOrder Id) (allRules : List Rule) (self : Rule) :
    Except String Rule :=
  if self.isValidated then
    .ok self
  else
    (self.checkAgainst order allRules).map fun _ ↦ { self with isValidated := true }

/-! ### `Workflow::validate` -/

/-- A workflow, with the flag that its rules passed validation. -/
structure Workflow where
  rules : List Rule
  validated : Bool := false
  id : Int := 0
  name : String := ""
  description : String := ""
  isActive : Bool := true

/-- The edge of `checkCircularDependencies`: to the first rule of the name in the map, unless the id
of that rule is the one that stands for "not found". -/
def dependencyEdge (ruleMap : List Rule) (id : Id) : List Id :=
  match (ruleMap.find? fun r ↦ r.id = id).bind fun r ↦ r.dependsOnRuleName with
  | some n =>
    match ruleMap.find? fun r ↦ r.name = n with
    | some d => if d.id ≠ -1 then [d.id] else []
    | none => []
  | none => []

/-- `Workflow::checkCircularDependencies`. -/
def checkCircularDependencies (order : HashOrder Rule) (rules : List Rule) : Except String Unit :=
  let ruleMap := ruleMapOf order rules
  if (DepthFirst.findCycle (dependencyEdge ruleMap) (ruleMap.map fun r ↦ r.id)).isSome then
    .error "Circular dependency detected"
  else
    .ok ()

/-- Validate the rules one after the other; those before a failure stay validated. -/
def validateRules (order : HashOrder Id) (allRules : List Rule) :
    List Rule → Except String Unit × List Rule
  | [] => (.ok (), [])
  | r :: rs =>
    match r.validate order allRules with
    | .error e => (.error e, r :: rs)
    | .ok r' =>
      let (outcome, rs') := validateRules order allRules rs
      (outcome, r' :: rs')

/-- `Workflow::validate`, with the workflow it leaves behind. -/
def Workflow.validate (idOrder : HashOrder Id) (order : HashOrder Rule) (w : Workflow) :
    Except String Unit × Workflow :=
  if w.validated then
    (.ok (), w)
  else
    match firstRepeat [] ((w.rules.map fun r ↦ r.id).filter fun i ↦ i ≠ 0) with
    | some id => (.error ("Duplicate rule ID detected: " ++ toString id), w)
    | none =>
      match validateRules idOrder w.rules w.rules with
      | (.error e, rules) => (.error e, { w with rules })
      | (.ok _, rules) =>
        match checkCircularDependencies order rules with
        | .error e => (.error e, { w with rules })
        | .ok _ => (.ok (), { w with rules, validated := true })

/-! ### What acceptance guarantees -/

/-- What `Workflow::validate` has checked, as far as single rules and pairs of rules go. -/
structure Accepted (rules : List Rule) : Prop where
  distinct : DistinctIds rules
  ids_ne_zero : ∀ r ∈ rules, r.id ≠ 0
  dependency_exists : ∀ r ∈ rules, ∀ n, r.dependsOnRuleName = some n → ∃ d ∈ rules, d.name = n

/-- What the checks of `Rule::validate` check. -/
theorem Rule.checkAgainst_ok_iff {order : HashOrder Id} {allRules : List Rule} {self : Rule} :
    self.checkAgainst order allRules = .ok () ↔
      (∀ i, ¬Descent.OnCycle (ruleGraph allRules).Edge i) ∧
        (DistinctIds allRules ∧ ∀ r ∈ allRules, r.id ≠ 0) ∧
          ∀ n, self.dependsOnRuleName = some n → ∃ d ∈ allRules, d.name = n := by
  have hcycle := (ruleGraph allRules).findCycle_eq_none_iff order
  -- the checks in the order of the source: cycles, ids, the dependency
  rw [Rule.checkAgainst]
  split
  · rename_i hfound
    refine iff_of_false (by simp) fun h ↦ ?_
    rw [hcycle.2 h.1] at hfound
    cases hfound
  · rename_i hnone
    rw [and_iff_right (hcycle.1 hnone)]
    split_ifs with hzero
    · refine iff_of_false (by simp) fun h ↦ ?_
      obtain ⟨r, hr, hid⟩ := List.any_eq_true.1 hzero
      exact h.1.2 r hr (of_decide_eq_true hid)
    · have hnonzero : ∀ r ∈ allRules, r.id ≠ 0 := by simpa using hzero
      split
      · rename_i hrepeat
        refine iff_of_false (by simp) fun h ↦ ?_
        rw [firstRepeat_nil_eq_none.2 h.1.1] at hrepeat
        cases hrepeat
      · rename_i hrepeat
        rw [and_iff_right ⟨firstRepeat_nil_eq_none.1 hrepeat, hnonzero⟩]
        cases self.dependsOnRuleName with
        | none => simp
        | some n => simp

theorem Rule.checkAgainst_ok {order : HashOrder Id} {allRules : List Rule} {self : Rule}
    (h : self.checkAgainst order allRules = .ok ()) :
    DistinctIds allRules ∧ (∀ r ∈ allRules, r.id ≠ 0) ∧
      ∀ n, self.dependsOnRuleName = some n → ∃ d ∈ allRules, d.name = n := by
  obtain ⟨-, ⟨hdistinct, hnonzero⟩, hdependency⟩ := Rule.checkAgainst_ok_iff.1 h
  exact ⟨hdistinct, hnonzero, hdependency⟩

/-- The rule as `Rule::validate` leaves it. -/
def Rule.markValidated (r : Rule) : Rule :=
  { r with isValidated := true }

theorem Rule.validate_ok {order : HashOrder Id} {allRules : List Rule} {self self' : Rule}
    (hfresh : self.isValidated = false) (h : self.validate order allRules = .ok self') :
    self.checkAgainst order allRules = .ok () ∧ self' = self.markValidated := by
  rw [Rule.validate, if_neg (by simp [hfresh])] at h
  rcases hc : self.checkAgainst order allRules with e | u
  · rw [hc] at h
    cases h
  · rw [hc] at h
    exact ⟨rfl, (Except.ok.inj h).symm⟩

theorem validateRules_ok {order : HashOrder Id} {allRules rules rules' : List Rule}
    (hfresh : ∀ r ∈ rules, r.isValidated = false)
    (h : validateRules order allRules rules = (.ok (), rules')) :
    (∀ r ∈ rules, r.checkAgainst order allRules = .ok ()) ∧
      rules' = rules.map Rule.markValidated := by
  induction rules generalizing rules' with
  | nil =>
    obtain rfl : [] = rules' := (Prod.mk.inj h).2
    exact ⟨fun r hr ↦ absurd hr List.not_mem_nil, rfl⟩
  | cons r rules ih =>
    rw [validateRules] at h
    rcases hv : r.validate order allRules with e | r'
    · rw [hv] at h
      cases (Prod.mk.inj h).1
    · obtain ⟨hr, rfl⟩ := Rule.validate_ok (hfresh r List.mem_cons_self) hv
      rw [hv] at h
      obtain ⟨hout, rfl⟩ := Prod.mk.inj h
      obtain ⟨hrest, heq⟩ := ih (fun q hq ↦ hfresh q (List.mem_cons_of_mem r hq))
        (Prod.ext hout rfl)
      exact ⟨List.forall_mem_cons.2 ⟨hr, hrest⟩, congrArg (List.cons _) heq⟩

/-- A workflow of rules none of which was validated before. -/
structure Workflow.Fresh (w : Workflow) : Prop where
  not_validated : w.validated = false
  rules_not_validated : ∀ r ∈ w.rules, r.isValidated = false

section Accept

variable {idOrder : HashOrder Id} {order : HashOrder Rule} {w w' : Workflow} (hw : w.Fresh)
  (h : w.validate idOrder order = (.ok (), w'))
include hw h

theorem Workflow.validate_ok :
    (∀ r ∈ w.rules, r.checkAgainst idOrder w.rules = .ok ()) ∧
      w'.rules = w.rules.map Rule.markValidated ∧
      checkCircularDependencies order w'.rules = .ok () := by
  rw [Workflow.validate, if_neg (by simp [hw.not_validated])] at h
  split at h
  · cases (Prod.mk.inj h).1
  · split at h
    · cases (Prod.mk.inj h).1
    · rename_i rules hrules
      split at h
      · cases (Prod.mk.inj h).1
      · rename_i hcirc
        obtain ⟨-, rfl⟩ := Prod.mk.inj h
        obtain ⟨hall, heq⟩ := validateRules_ok hw.rules_not_validated hrules
        exact ⟨hall, heq, hcirc⟩

/-- What an accepted workflow looks like. -/
theorem Workflow.validate_accepted : Accepted w'.rules := by
  obtain ⟨hall, heq, -⟩ := Workflow.validate_ok hw h
  have hids : w'.rules.map (fun r ↦ r.id) = w.rules.map fun r ↦ r.id := by
    rw [heq, List.map_map]
    rfl
  have hmem : ∀ {r'}, r' ∈ w'.rules ↔ ∃ r ∈ w.rules, r.markValidated = r' := by
    intro r'
    rw [heq, List.mem_map]
  refine ⟨?_, fun r' hr' ↦ ?_, fun r' hr' n hn ↦ ?_⟩
  · rw [DistinctIds, hids]
    rcases hrules : w.rules with - | ⟨r, rs⟩
    · exact List.nodup_nil
    · have hr : r ∈ w.rules := by simp [hrules]
      exact hrules ▸ (Rule.checkAgainst_ok (hall r hr)).1
  · obtain ⟨r, hr, rfl⟩ := hmem.1 hr'
    exact (Rule.checkAgainst_ok (hall r hr)).2.1 r hr
  · obtain ⟨r, hr, rfl⟩ := hmem.1 hr'
    obtain ⟨d, hd, hdn⟩ := (Rule.checkAgainst_ok (hall r hr)).2.2 n hn
    exact ⟨d.markValidated, hmem.2 ⟨d, hd, rfl⟩, hdn⟩

end Accept

end FastRules
