import FastRules.Foundations.Descent
import FastRules.Foundations.Recursion
import FastRules.Rule.Basic
import Mathlib.Algebra.BigOperators.Group.List.Basic
import Mathlib.Algebra.Order.Ring.Nat

/-!
# Rule objects

Children are `shared_ptr`s, so the rules in memory form a graph: an object may have several parents,
and nothing in the data type keeps it from being below itself. A `Heap` is such a memory. The
functions that call themselves on the children of a rule come back exactly if the graph below the
rule has no cycle, and then the rule is a finite `Rule` (`Heap.unfold`): the tree that the functions
of the rest of this development are defined on.
-/

namespace FastRules

open Relation Descent

/-- A rule object: its own data and the addresses of its children. -/
structure RuleObject where
  fields : RuleFields
  childRules : List RulePtr := []

/-- The rule objects in memory: finitely many, with all their children. -/
structure Heap where
  object : RulePtr → RuleObject
  live : List RulePtr
  closed : ∀ p ∈ live, ∀ c ∈ (object p).childRules, c ∈ live

namespace Heap

variable (h : Heap)

/-- `c` is one of the `childRules` of `p`. -/
def IsChild (p c : RulePtr) : Prop :=
  c ∈ (h.object p).childRules

/-- The objects at any depth below the given rules. -/
def Reachable (rules : List RulePtr) (p : RulePtr) : Prop :=
  ∃ r ∈ rules, ReflTransGen h.IsChild r p

/-- What validation reads of a rule object: its own data and that of its direct children. -/
def view (p : RulePtr) : Rule :=
  ⟨(h.object p).fields, (h.object p).childRules.map fun c ↦ ⟨(h.object c).fields, []⟩⟩

/-! ### Recursive functions -/

/-- A function of a rule that calls itself on the children, with at most `depth` nested calls. -/
def fold {β : Type} (combine : RuleFields → List β → β) : ℕ → RulePtr → Option β :=
  Recursion.run (fun p ↦ some (h.object p).childRules) fun p ↦ combine (h.object p).fields

/-- The tree of a rule, which `Rule::executeChildRules` goes through. -/
def unfold : ℕ → RulePtr → Option Rule :=
  h.fold fun fields children ↦ ⟨fields, children⟩

/-- Emit something for each rule, then go through its children: the traversal of
`Workflow::collectActions` and of the `collectRules` of `Workflow::toGraph`. -/
def emitRules {β : Type} (emit : RuleFields → List β) (depth : ℕ) (rules : List RulePtr) :
    Option (List β) :=
  (rules.mapM (h.fold (fun fields below ↦ emit fields ++ below.flatten) depth)).map List.flatten

/-- `Workflow::collectActions`. -/
def collectActions : ℕ → List RulePtr → Option (List String) :=
  h.emitRules fun rule ↦ if rule.action ≠ "" then [rule.action] else []

/-- The calls `Rule::compile` makes when nothing is compiled yet: it locks the rule and keeps the
lock while it compiles the children. With the locks in `held` a call on one of their rules never
returns. -/
def compileCalls : List RulePtr × RulePtr → Option (List (List RulePtr × RulePtr))
  | (held, p) =>
    if p ∈ held then none else some ((h.object p).childRules.map fun c ↦ (p :: held, c))

/-- The recursion of `Rule::compile`; how many rules it went through. -/
def compileRecursion (depth : ℕ) (p : RulePtr) : Option ℕ :=
  Recursion.run h.compileCalls (fun _ counts ↦ counts.sum + 1) depth ([], p)

/-! ### Termination -/

/-- The graph below the rules has no cycle, and the recursive functions come back. -/
structure WellFoundedBelow (rules : List RulePtr) : Prop where
  acyclic : ∀ p, h.Reachable rules p → ¬OnCycle h.IsChild p
  /-- `Rule::executeChildRules` -/
  unfolds : ∀ p ∈ rules, ∃ depth, (h.unfold depth p).isSome
  /-- `Workflow::collectActions`, `Workflow::toGraph` -/
  emits : ∀ {β : Type} (emit : RuleFields → List β), ∃ depth, (h.emitRules emit depth rules).isSome
  /-- `Rule::compile` -/
  compiles : ∀ p ∈ rules, ∃ depth, (h.compileRecursion depth p).isSome

variable {h} {rules : List RulePtr} {p : RulePtr}

theorem Reachable.child {c : RulePtr} (hp : h.Reachable rules p) (hc : h.IsChild p c) :
    h.Reachable rules c := by
  obtain ⟨r, hr, hrp⟩ := hp
  exact ⟨r, hr, hrp.tail hc⟩

theorem Reachable.live (hlive : ∀ r ∈ rules, r ∈ h.live) (hp : h.Reachable rules p) :
    p ∈ h.live := by
  obtain ⟨r, hr, hrp⟩ := hp
  induction hrp with
  | refl => exact hlive r hr
  | tail _ hc ih => exact h.closed _ ih _ hc

/-- A function that calls itself on the children comes back if all paths below the rule are
finite. -/
theorem exists_fold {β : Type} {combine : RuleFields → List β → β}
    (hacc : Acc (flip h.IsChild) p) : ∃ depth, (h.fold combine depth p).isSome := by
  refine Recursion.exists_run_iff.2 ⟨?_, fun _ _ ↦ rfl⟩
  refine Subrelation.accessible (fun {b a} hab ↦ ?_) hacc
  obtain ⟨cs, hcs, hmem⟩ := hab
  obtain rfl := Option.some.inj hcs
  exact hmem

/-- The locks that are held belong to rules that lead to the one being compiled. -/
theorem compileCalls_held {q : List RulePtr × RulePtr}
    (hq : ReflTransGen (Recursion.Calls h.compileCalls) ([], p) q) :
    ReflTransGen h.IsChild p q.2 ∧ ∀ x ∈ q.1, TransGen h.IsChild x q.2 := by
  induction hq with
  | refl => exact ⟨.refl, fun x hx ↦ absurd hx List.not_mem_nil⟩
  | @tail a b _ hcall ih =>
    obtain ⟨hpath, hheld⟩ := ih
    obtain ⟨bs, hbs, hmem⟩ := hcall
    rw [compileCalls] at hbs
    split_ifs at hbs
    obtain rfl := Option.some.inj hbs
    obtain ⟨c, hc, rfl⟩ := List.mem_map.1 hmem
    refine ⟨hpath.tail hc, fun x hx ↦ ?_⟩
    rcases List.mem_cons.1 hx with rfl | hx
    · exact .single hc
    · exact (hheld x hx).tail hc

/-- Compiling does not ask for a lock twice if no rule is below itself. -/
theorem exists_compileRecursion (hacc : Acc (flip h.IsChild) p)
    (hacyclic : ∀ q, ReflTransGen h.IsChild p q → ¬OnCycle h.IsChild q) :
    ∃ depth, (h.compileRecursion depth p).isSome := by
  refine Recursion.exists_run_iff.2 ⟨?_, fun q hq ↦ ?_⟩
  · refine Subrelation.accessible (fun {b a} hab ↦ ?_)
      (show Acc (InvImage (flip h.IsChild) fun q : List RulePtr × RulePtr ↦ q.2) ([], p) from
        InvImage.accessible _ hacc)
    obtain ⟨bs, hbs, hmem⟩ := hab
    rw [compileCalls] at hbs
    split_ifs at hbs
    obtain rfl := Option.some.inj hbs
    obtain ⟨c, hc, rfl⟩ := List.mem_map.1 hmem
    exact hc
  · obtain ⟨hpath, hheld⟩ := compileCalls_held hq
    rw [compileCalls, if_neg fun hmem ↦ hacyclic q.2 hpath (hheld q.2 hmem)]
    rfl

/-- Without cycles everything comes back. -/
theorem wellFoundedBelow_of_acyclic (hlive : ∀ r ∈ rules, r ∈ h.live)
    (hacyclic : ∀ p, h.Reachable rules p → ¬OnCycle h.IsChild p) : h.WellFoundedBelow rules := by
  have hacc : ∀ r ∈ rules, Acc (flip h.IsChild) r := fun r hr ↦
    acc_of_not_onCycle (fun p hp ↦ hp.live hlive) (fun p c hp hc ↦ hp.child hc) hacyclic
      (⟨r, hr, .refl⟩ : h.Reachable rules r)
  refine ⟨hacyclic, fun r hr ↦ exists_fold (hacc r hr), fun {β} emit ↦ ?_, fun r hr ↦
    exists_compileRecursion (hacc r hr) fun q hq ↦ hacyclic q ⟨r, hr, hq⟩⟩
  have heach : ∀ r ∈ rules, ∃ depth,
      (h.fold (fun fields below ↦ emit fields ++ below.flatten) depth r).isSome :=
    fun r hr ↦ exists_fold (hacc r hr)
  obtain ⟨depth, hdepth⟩ := Recursion.exists_depth heach
  refine ⟨depth, ?_⟩
  rw [emitRules, Option.isSome_map]
  exact Recursion.mapM_isSome_iff.2 hdepth

end Heap

end FastRules
