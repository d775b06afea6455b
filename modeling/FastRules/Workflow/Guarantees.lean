import FastRules.Workflow.LevelOrder
import FastRules.Workflow.Validate

/-!
# What validation guarantees

A workflow passes `Workflow::validate` exactly if nothing is wrong that the function comes to look
at. It looks at nothing once the workflow is flagged as validated, and at a rule's id, dependency
and surroundings only through a rule that is not flagged itself. The flags of rules outlive the
workflow they were validated in, are copied with the rule and stay when its fields change, so the
statements are about all assignments of flags: every history of validations, copies and edits ends
in one.
-/

namespace FastRules

open Descent

/-- What a validated workflow is meant to satisfy. -/
structure Guaranteed (rules : List Rule) : Prop extends Accepted rules where
  acyclic : ∀ r, ¬OnCycle (DependsOn rules) r

/-- Two rules share an id that is not zero. -/
def RepeatsId (rules : List Rule) : Prop :=
  ¬((rules.map fun r ↦ r.id).filter fun i ↦ i ≠ 0).Nodup

/-- What is wrong in the eyes of a rule that is not flagged as validated. -/
inductive FaultySeenBy (rules : List Rule) (self : Rule) : Prop
  | cycle {i : Id} (h : OnCycle (ruleGraph rules).Edge i)
  | zeroId {r : Rule} (hr : r ∈ rules) (h : r.id = 0)
  | missingDependency {n : String} (hn : self.dependsOnRuleName = some n)
      (h : ∀ d ∈ rules, d.name ≠ n)

/-- The edges of `checkCircularDependencies`, which is run on the rules as their validation leaves
them. -/
def NamedEdge (order : HashOrder Rule) (rules : List Rule) : Id → Id → Prop :=
  let ruleMap := ruleMapOf order (rules.map Rule.markValidated)
  DepthFirst.Edge (dependencyEdge ruleMap) (ruleMap.map fun r ↦ r.id)

/-- Something is wrong with the workflow that validation comes to look at. -/
inductive Workflow.Exposed (order : HashOrder Rule) (w : Workflow) : Prop
  | repeatedId (h : RepeatsId w.rules)
  | rule {r : Rule} (hr : r ∈ w.rules) (hfresh : r.isValidated = false)
      (h : FaultySeenBy w.rules r)
  | cycle {i : Id} (h : OnCycle (NamedEdge order w.rules) i)

variable {idOrder : HashOrder Id} {order : HashOrder Rule} {rules : List Rule} {w : Workflow}

/-! ### Acceptance -/

/-- Repeated ids are zero or caught before the rules are looked at. -/
theorem distinctIds_of_not_repeatsId (h : ¬RepeatsId rules) (hzero : ∀ r ∈ rules, r.id ≠ 0) :
    DistinctIds rules := by
  have hall : (rules.map fun r ↦ r.id).filter (fun i ↦ i ≠ 0) = rules.map fun r ↦ r.id :=
    List.filter_eq_self.2 fun i hi ↦ by
      obtain ⟨r, hr, rfl⟩ := List.mem_map.1 hi
      simpa using hzero r hr
  have hnodup := not_not.1 h
  rwa [hall] at hnodup

/-- A rule that looks finds what is wrong. -/
theorem checkAgainst_ok_iff_not_faulty (hrepeat : ¬RepeatsId rules) {self : Rule} :
    self.checkAgainst idOrder rules = .ok () ↔ ¬FaultySeenBy rules self := by
  rw [Rule.checkAgainst_ok_iff]
  constructor
  · rintro ⟨hacyclic, ⟨-, hzero⟩, hdependency⟩ (⟨h⟩ | ⟨hr, h⟩ | ⟨hn, h⟩)
    · exact hacyclic _ h
    · exact hzero _ hr h
    · obtain ⟨d, hd, hdn⟩ := hdependency _ hn
      exact h d hd hdn
  · intro h
    have hzero : ∀ r ∈ rules, r.id ≠ 0 := fun r hr hid ↦ h (.zeroId hr hid)
    refine ⟨fun i hi ↦ h (.cycle hi), ⟨distinctIds_of_not_repeatsId hrepeat hzero, hzero⟩,
      fun n hn ↦ ?_⟩
    by_contra hno
    exact h (.missingDependency hn fun d hd hdn ↦ hno ⟨d, hd, hdn⟩)

/-- Validation goes through the rules and passes over the flagged ones. -/
theorem validateRules_ok_iff {allRules : List Rule} :
    (validateRules idOrder allRules rules).1 = .ok () ↔
      ∀ r ∈ rules, r.isValidated = false → r.checkAgainst idOrder allRules = .ok () := by
  induction rules with
  | nil => simp [validateRules]
  | cons r rules ih =>
    rw [validateRules, List.forall_mem_cons, Rule.validate]
    rcases hflag : r.isValidated with - | -
    · rcases hc : r.checkAgainst idOrder allRules with e | u
      · simp [Except.map]
      · simpa [Except.map] using ih
    · simpa using ih

theorem Rule.markValidated_of_isValidated (r : Rule) (h : r.isValidated = true) :
    r.markValidated = r := by
  obtain ⟨fields, childRules⟩ := r
  have hfields : { fields with isValidated := true } = fields := by
    rw [← show fields.isValidated = true from h]
  exact congrArg (fun f ↦ Rule.mk f childRules) hfields

/-- Afterwards every rule is flagged. -/
theorem validateRules_rules {allRules : List Rule}
    (h : (validateRules idOrder allRules rules).1 = .ok ()) :
    (validateRules idOrder allRules rules).2 = rules.map Rule.markValidated := by
  induction rules with
  | nil => rfl
  | cons r rules ih =>
    rw [validateRules, Rule.validate] at h ⊢
    rcases hflag : r.isValidated with - | -
    · rcases hc : r.checkAgainst idOrder allRules with e | u
      · simp [hflag, hc, Except.map] at h
      · have hrest : (validateRules idOrder allRules rules).1 = .ok () := by
          simpa [hflag, hc, Except.map] using h
        simp [Except.map, ih hrest, Rule.markValidated]
    · have hrest : (validateRules idOrder allRules rules).1 = .ok () := by
        simpa [hflag] using h
      simp [ih hrest, r.markValidated_of_isValidated hflag]

theorem checkCircularDependencies_ok_iff :
    checkCircularDependencies order (rules.map Rule.markValidated) = .ok () ↔
      ∀ i, ¬OnCycle (NamedEdge order rules) i := by
  have hcycle : DepthFirst.findCycle
      (dependencyEdge (ruleMapOf order (rules.map Rule.markValidated)))
      ((ruleMapOf order (rules.map Rule.markValidated)).map fun r ↦ r.id) = none ↔
        ∀ i, ¬OnCycle (NamedEdge order rules) i := DepthFirst.findCycle_eq_none_iff
  rw [checkCircularDependencies, ← hcycle, ← Option.not_isSome_iff_eq_none]
  split_ifs with h <;> simp [h]

/-- Validation accepts what it does not look at, and otherwise what has no fault in sight. -/
theorem Workflow.validate_ok_iff :
    (w.validate idOrder order).1 = .ok () ↔ w.validated = true ∨ ¬w.Exposed order := by
  rw [Workflow.validate]
  rcases w.validated with - | -
  · rw [if_neg Bool.false_ne_true, or_iff_right Bool.false_ne_true]
    split
    · rename_i id hrepeat
      refine iff_of_false (by simp) (not_not.2 (.repeatedId fun hnodup ↦ ?_))
      rw [firstRepeat_nil_eq_none.2 hnodup] at hrepeat
      cases hrepeat
    · rename_i hrepeat
      have hdistinct : ¬RepeatsId w.rules := not_not.2 (firstRepeat_nil_eq_none.1 hrepeat)
      split
      · -- some rule that was looked at has found a fault
        rename_i e rules' hv
        have hfail : ¬(validateRules idOrder w.rules w.rules).1 = .ok () := by simp [hv]
        rw [validateRules_ok_iff] at hfail
        push Not at hfail
        obtain ⟨r, hr, hfresh, hcheck⟩ := hfail
        have hfaulty : FaultySeenBy w.rules r :=
          not_not.1 ((checkAgainst_ok_iff_not_faulty hdistinct).not.1 hcheck)
        exact iff_of_false (by simp) (not_not.2 (.rule hr hfresh hfaulty))
      · rename_i rules' hv
        have hok : (validateRules idOrder w.rules w.rules).1 = .ok () := by rw [hv]
        have hrules : rules' = w.rules.map Rule.markValidated := by
          rw [← validateRules_rules hok, hv]
        have hclear := validateRules_ok_iff.1 hok
        subst hrules
        split
        · rename_i e hcirc
          have hfail : ¬checkCircularDependencies order (w.rules.map Rule.markValidated) =
            .ok () := by
            simp [hcirc]
          rw [checkCircularDependencies_ok_iff] at hfail
          push Not at hfail
          obtain ⟨i, hi⟩ := hfail
          exact iff_of_false (by simp) (not_not.2 (.cycle hi))
        · rename_i hcirc
          refine iff_of_true rfl ?_
          rintro (⟨h⟩ | ⟨hr, hfresh, h⟩ | ⟨h⟩)
          · exact hdistinct h
          · exact (checkAgainst_ok_iff_not_faulty hdistinct).1 (hclear _ hr hfresh) h
          · exact checkCircularDependencies_ok_iff.1 hcirc _ h
  · simp

/-! ### The guarantees -/

/-- A rule `B` that depends on a rule `A`. -/
def pairOfRules : Workflow where
  rules := [{ id := 1, name := "A" }, { id := 2, name := "B", dependsOnRuleName := some "A" }]

/-- Another workflow that shares `B` after the first one was validated. -/
def sharedRule : Workflow where
  rules :=
    ((pairOfRules.validate (HashOrder.insertion Id) (HashOrder.insertion Rule)).2.rules).drop 1

theorem sharedRule_not_guaranteed : ¬Guaranteed sharedRule.rules := by
  intro h
  obtain ⟨d, hd, hname⟩ := h.dependency_exists _ (show sharedRule.rules.head (by decide) ∈ _ from
    List.head_mem _) "A" rfl
  obtain rfl : d = sharedRule.rules.head (by decide) := List.mem_singleton.1 hd
  exact absurd hname (by decide)

end FastRules
