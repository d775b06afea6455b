import FastRules.Rule.Heap
import FastRules.Workflow.Guarantees
import FastRules.Workflow.ListedGraph

/-!
# Validation and cycles of children

`Rule::validate` adds an edge from each *listed* rule to its direct children and does not go further
down. So a cycle in the graph of children is in its sight exactly if every rule on it is listed; any
other cycle passes, and the functions that recurse over the children do not come back.
-/

namespace FastRules

open Relation Descent

/-- A workflow whose rules are objects in memory. -/
structure StoredWorkflow where
  heap : Heap
  rules : List RulePtr
  rules_live : ∀ r ∈ rules, r ∈ heap.live
  validated : Bool := false

namespace StoredWorkflow

/-- The workflow in the eyes of `Workflow::validate`. -/
def view (w : StoredWorkflow) : Workflow where
  rules := w.rules.map w.heap.view
  validated := w.validated

/-- Somebody looks at the edges from this rule to its children: it is listed, the workflow was not
validated before, and neither was some rule of it. -/
def InSight (w : StoredWorkflow) (p : RulePtr) : Prop :=
  p ∈ w.rules ∧ w.validated = false ∧ ∃ q ∈ w.rules, (w.heap.object q).fields.isValidated = false

variable {idOrder : HashOrder Id} {order : HashOrder Rule} {w : StoredWorkflow}

theorem mem_view_rules {r : Rule} : r ∈ w.view.rules ↔ ∃ p ∈ w.rules, w.heap.view p = r :=
  List.mem_map

/-- If a rule looks and finds nothing wrong, no cycle consists of listed rules. -/
theorem not_onCycle_of_not_faulty {self : Rule} (h : ¬FaultySeenBy w.view.rules self)
    (p : RulePtr) :
    ¬OnCycle (fun p c ↦ w.heap.IsChild p c ∧ p ∈ w.rules ∧ c ∈ w.rules) p := by
  intro hcycle
  -- the ids along the cycle form a cycle of the graph that `Rule::validate` searches
  suffices hedge : ∀ a c, w.heap.IsChild a c ∧ a ∈ w.rules ∧ c ∈ w.rules →
      (ruleGraph w.view.rules).Edge (w.heap.view a).id (w.heap.view c).id from
    h (.cycle (OnCycle.lift (fun q ↦ (w.heap.view q).id) hedge hcycle))
  rintro a c ⟨hchild, ha, hc⟩
  have hzero : (w.heap.object c).fields.id ≠ 0 := fun hzero ↦
    h (.zeroId (mem_view_rules.2 ⟨c, hc, rfl⟩) hzero)
  have hview : (⟨(w.heap.object c).fields, []⟩ : Rule) ∈ (w.heap.view a).childRules :=
    List.mem_map.2 ⟨c, hchild, rfl⟩
  show (ruleGraph w.view.rules).Edge (w.heap.view a).id (⟨(w.heap.object c).fields, []⟩ : Rule).id
  exact ruleGraph_edge_child (mem_view_rules.2 ⟨a, ha, rfl⟩) hview hzero

/-- The trees of an accepted workflow are well-founded exactly if the workflow is rejected anyway or
every rule on a cycle of children is in sight. -/
theorem validate_wellFounded_iff (idOrder : HashOrder Id) (order : HashOrder Rule)
    (w : StoredWorkflow) :
    ((w.view.validate idOrder order).1 = .ok () → w.heap.WellFoundedBelow w.rules) ↔
      (w.validated = false ∧ w.view.Exposed order) ∨
        ∀ p, w.heap.Reachable w.rules p → OnCycle w.heap.IsChild p → w.InSight p := by
  rw [Workflow.validate_ok_iff]
  constructor
  · intro h
    rcases em (w.view.validated = true ∨ ¬w.view.Exposed order) with hok | hno
    · exact .inr fun p hp hcycle ↦ absurd hcycle ((h hok).acyclic p hp)
    · rw [not_or, not_not, Bool.not_eq_true] at hno
      exact .inl hno
  · intro h hok
    rcases h with ⟨hfresh, hexposed⟩ | hsight
    · rcases hok with hvalidated | hno
      · exact absurd hvalidated (by simp [view, hfresh])
      · exact absurd hexposed hno
    · refine Heap.wellFoundedBelow_of_acyclic w.rules_live fun p hp hcycle ↦ ?_
      obtain ⟨-, hfresh, q, hq, hqfresh⟩ := hsight p hp hcycle
      have hno : ¬w.view.Exposed order := hok.resolve_left (by simp [view, hfresh])
      have hclear : ¬FaultySeenBy w.view.rules (w.heap.view q) := fun hfaulty ↦
        hno (.rule (mem_view_rules.2 ⟨q, hq, rfl⟩) hqfresh hfaulty)
      -- everything on the cycle is reachable, so it is listed
      refine not_onCycle_of_not_faulty hclear p ?_
      obtain ⟨r, hr, hrp⟩ := hp
      exact hcycle.within fun y hpy hyp ↦
        (hsight y ⟨r, hr, hrp.trans hpy⟩ (hyp.trans_left hpy)).1

/-! ### A nested cycle -/

/-- A rule with a child that is its own child. -/
def nestedLoop : StoredWorkflow where
  heap := {
    object := fun p ↦
      if p = 0 then ⟨{ ptr := 0, id := 1, name := "A" }, [1]⟩
      else ⟨{ ptr := 1, id := 2, name := "B" }, [1]⟩
    live := [0, 1]
    closed := by decide }
  rules := [0]
  rules_live := by decide

theorem nestedLoop_onCycle : nestedLoop.heap.Reachable nestedLoop.rules 1 ∧
    OnCycle nestedLoop.heap.IsChild 1 := by
  have h01 : nestedLoop.heap.IsChild 0 1 := List.mem_singleton_self 1
  have h11 : nestedLoop.heap.IsChild 1 1 := List.mem_singleton_self 1
  exact ⟨⟨0, by decide, .single h01⟩, .single h11⟩

/-- Validation accepts the workflow, and compiling its rule waits for a lock it holds. -/
theorem nestedLoop_validated :
    (nestedLoop.view.validate (HashOrder.insertion Id) (HashOrder.insertion Rule)).1 = .ok () ∧
      ¬nestedLoop.heap.WellFoundedBelow nestedLoop.rules ∧
      ∀ depth, nestedLoop.heap.compileRecursion depth 0 = none := by
  refine ⟨rfl, fun h ↦ h.acyclic 1 nestedLoop_onCycle.1 nestedLoop_onCycle.2, fun depth ↦ ?_⟩
  by_contra hsome
  have hstuck :=
    (Recursion.exists_run_iff.1 ⟨depth, Option.isSome_iff_ne_none.2 hsome⟩).2 ([1, 0], 1)
    (.head (b := ([0], 1)) ⟨_, rfl, by decide⟩ (.single ⟨_, rfl, by decide⟩))
  exact absurd hstuck (by decide)

end StoredWorkflow

end FastRules
