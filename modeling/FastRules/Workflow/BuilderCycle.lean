import FastRules.Foundations.Descent
import FastRules.Workflow.DependencyChain

/-!
# The cycle check of the builder

`Rule::Builder::dependsOn` with a list of rules follows the links of the listed rules from the
dependency on, and throws when they lead to the id of the rule that is being built. Names are looked
up in the list only. So the rule being built goes by the name under which a rule of its id is
listed, and by no name if none is, whatever name the builder has been given
(`dependsOn_throws_iff`).
-/

namespace FastRules

open Walk Descent Relation

/-! ### The check -/

/-- One pass of the loop of `Builder::dependsOn`: the ids that have been visited and the current
one. The check throws if the pass ends with `true`. -/
def builderStep (m : DependencyMaps) (id : Id) : List Id × Id → (List Id × Id) ⊕ Bool
  | (visited, current) =>
    if current = 0 then .inr false
    else
      match m.next current with
      | none => .inr false
      | some next =>
        if next = id then .inr true
        else if next ∈ visited then .inr false
        else .inl (next :: visited, next)

/-- `Rule::Builder::dependsOn(ruleName, dependentRules)` leaves the rule being built or throws. -/
def Rule.BuilderDependsOn (r : Rule) (ruleName : String) (dependentRules : List Rule)
    (outcome : Except String Rule) : Prop :=
  let m := dependencyMaps dependentRules
  let built := { r with dependsOnRuleName := some ruleName }
  match m.nameToId ruleName with
  | none => outcome = .ok built
  | some first =>
    if first = r.id then
      outcome = .error ("Circular dependency detected: rule " ++ toString r.id ++
        " depends on itself")
    else
      ∃ throws, Loop.Returns (builderStep m r.id) ([], first) throws ∧
        outcome = if throws then .error "Circular dependency detected" else .ok built

/-! ### The walk -/

section Walk

variable {rules : List Rule} {id : Id} {visited : List Id} {current : Id}

/-- The loop has gone through what it has visited and has not come to the rule being built. -/
structure NotBack (m : DependencyMaps) (id : Id) (visited : List Id) (current : Id) : Prop where
  not_mem : id ∉ visited
  followed : ∀ i ∈ visited, i ≠ current → ∃ j ∈ visited, m.next i = some j

theorem builderStep_end {m : DependencyMaps} (hnext : m.next current = none) :
    builderStep m id (visited, current) = .inr false := by
  rw [builderStep, hnext]
  exact ite_self _

theorem builderStep_next {m : DependencyMaps} (id : Id) (visited : List Id) (hzero : current ≠ 0)
    {next : Id} (hnext : m.next current = some next) :
    builderStep m id (visited, current) =
      if next = id then .inr true
      else if next ∈ visited then .inr false else .inl (next :: visited, next) := by
  rw [builderStep, if_neg hzero, hnext]

/-- The loop comes to an end, and throws exactly if the links lead to the rule being built. -/
theorem NotBack.exists_returns (hzero : ∀ q ∈ rules, q.id ≠ 0) (hcurrent : current ≠ 0)
    (h : NotBack (dependencyMaps rules) id visited current) :
    ∃ throws, Loop.Returns (builderStep (dependencyMaps rules) id) (visited, current) throws ∧
      (throws = true ↔ TransGen (Follows (dependencyMaps rules).next) current id) := by
  induction hμ : unvisited (rules.map fun q ↦ q.id) visited using Nat.strong_induction_on
    generalizing visited current with
  | _ μ ih =>
    rcases hnext : (dependencyMaps rules).next current with - | next
    · exact ⟨false, ⟨1, Loop.run_succ_of_exit (builderStep_end hnext) 0⟩,
        iff_of_false Bool.false_ne_true (not_transGen_of_end hnext)⟩
    have hstep := builderStep_next id visited hcurrent hnext
    rw [transGen_iff_of_next hnext]
    by_cases hid : next = id
    · rw [if_pos hid] at hstep
      exact ⟨true, ⟨1, Loop.run_succ_of_exit hstep 0⟩, iff_of_true rfl (.inl hid)⟩
    rw [if_neg hid] at hstep
    by_cases hmem : next ∈ visited
    · -- the walk goes round among what has been visited
      rw [if_pos hmem] at hstep
      have hclosed : ∀ i j, i ∈ visited → (dependencyMaps rules).next i = some j → j ∈ visited := by
        intro i j hi hij
        by_cases hne : i = current
        · rw [hne, hnext] at hij
          exact Option.some.inj hij ▸ hmem
        · obtain ⟨j', hj', hij'⟩ := h.followed i hi hne
          exact Option.some.inj (hij'.symm.trans hij) ▸ hj'
      refine ⟨false, ⟨1, Loop.run_succ_of_exit hstep 0⟩, iff_of_false Bool.false_ne_true ?_⟩
      exact not_or.2 ⟨hid, not_transGen_of_closed hclosed hmem h.not_mem⟩
    · rw [if_neg hmem] at hstep
      have hlisted := next_mem_ids hnext
      have hnonzero : next ≠ 0 := by
        obtain ⟨q, hq, rfl⟩ := List.mem_map.1 hlisted
        exact hzero q hq
      have hless : unvisited (rules.map fun q ↦ q.id) (next :: visited) < μ :=
        hμ ▸ unvisited_cons_lt hlisted hmem
      have hnotBack : NotBack (dependencyMaps rules) id (next :: visited) next := by
        refine ⟨?_, fun i hi hne ↦ ?_⟩
        · simp [h.not_mem, Ne.symm hid]
        · have hi' := (List.mem_cons.1 hi).resolve_left hne
          by_cases hcur : i = current
          · exact ⟨next, List.mem_cons_self, hcur ▸ hnext⟩
          · obtain ⟨j, hj, hij⟩ := h.followed i hi' hcur
            exact ⟨j, List.mem_cons_of_mem _ hj, hij⟩
      obtain ⟨throws, ⟨fuel, hfuel⟩, hiff⟩ := ih _ hless hnonzero hnotBack rfl
      refine ⟨throws, ⟨fuel + 1, ?_⟩, hiff.trans (or_iff_right hid).symm⟩
      rwa [Loop.run_succ_of_continue hstep]

end Walk

/-! ### The list with the rule being built -/

/-- The list with the rule that is being built, in the place of a listed one of the same id. -/
def withBuilt (rules : List Rule) (built : Rule) : List Rule :=
  built :: rules.filter fun q ↦ q.id ≠ built.id

/-- The name under which a rule of the id is listed, and none if none is listed. -/
def listedName (rules : List Rule) (id : Id) : String :=
  ((rules.find? fun q ↦ q.id = id).map fun q ↦ q.name).getD ""

section WithBuilt

variable {rules : List Rule} {r : Rule} {ruleName : String} {i j : Id}

theorem listedName_of_mem (h : DistinctlyNamed rules) {q : Rule} (hq : q ∈ rules) :
    listedName rules q.id = q.name := by
  rcases hfind : rules.find? fun p ↦ p.id = q.id with - | p
  · simpa using List.find?_eq_none.1 hfind q hq
  · have hid : p.id = q.id := by simpa using List.find?_some hfind
    rw [listedName, hfind, List.inj_on_of_nodup_map h.ids (List.mem_of_find?_eq_some hfind) hq hid]
    rfl

theorem exists_of_listedName_ne {id : Id} (h : listedName rules id ≠ "") :
    ∃ q ∈ rules, q.id = id ∧ q.name = listedName rules id := by
  rcases hfind : rules.find? fun p ↦ p.id = id with - | p
  · rw [listedName, hfind] at h
    exact absurd rfl h
  · refine ⟨p, List.mem_of_find?_eq_some hfind, by simpa using List.find?_some hfind, ?_⟩
    rw [listedName, hfind]
    rfl

/-- The rule being built, under its listed name. -/
def Rule.builtAsListed (rules : List Rule) (r : Rule) (ruleName : String) : Rule :=
  { r with name := listedName rules r.id, dependsOnRuleName := some ruleName }

/-- Under its listed name, the rule being built is linked to as the listed rule is. -/
theorem linksTo_withBuilt_iff (h : DistinctlyNamed rules) {p : Rule} :
    p.LinksTo (withBuilt rules (r.builtAsListed rules ruleName)) j ↔ p.LinksTo rules j := by
  constructor
  · rintro ⟨q, hq, hname, hlinks, rfl⟩
    rcases List.mem_cons.1 hq with rfl | hq
    · obtain ⟨q', hq', hid, hsame⟩ := exists_of_listedName_ne hname
      exact ⟨q', hq', hsame ▸ hname, hsame ▸ hlinks, hid⟩
    · exact ⟨q, (List.mem_filter.1 hq).1, hname, hlinks, rfl⟩
  · rintro ⟨q, hq, hname, hlinks, rfl⟩
    by_cases hid : q.id = r.id
    · have hlisted : (r.builtAsListed rules ruleName).name = q.name := by
        rw [← listedName_of_mem h hq, hid]
        rfl
      refine ⟨r.builtAsListed rules ruleName, List.mem_cons_self, ?_, ?_, hid.symm⟩
      · rwa [hlisted]
      · rwa [hlisted]
    · exact ⟨q, List.mem_cons_of_mem _ (List.mem_filter.2 ⟨hq, decide_eq_true hid⟩), hname,
        hlinks, rfl⟩

/-- In that list the links are those of the maps, and the one of the new dependency. -/
theorem linked_withBuilt_iff (h : DistinctlyNamed rules) :
    Linked (withBuilt rules (r.builtAsListed rules ruleName)) i j ↔
      Function.update (dependencyMaps rules).next r.id
        ((dependencyMaps rules).nameToId ruleName) i = some j := by
  constructor
  · rintro ⟨p, hp, rfl, hlinks⟩
    rw [linksTo_withBuilt_iff h] at hlinks
    -- the rule being built, or a listed one with another id
    rcases List.mem_cons.1 hp with rfl | hp
    · rw [show (r.builtAsListed rules ruleName).id = r.id from rfl, Function.update_self]
      exact h.nameToId_of_linksTo hlinks
    · obtain ⟨hp, hid⟩ := List.mem_filter.1 hp
      have hne : p.id ≠ r.id := of_decide_eq_true hid
      rw [Function.update_of_ne hne]
      exact h.next_of_linked ⟨p, hp, rfl, hlinks⟩
  · intro hij
    by_cases hid : i = r.id
    · subst hid
      rw [Function.update_self] at hij
      exact ⟨r.builtAsListed rules ruleName, List.mem_cons_self, rfl,
        (linksTo_withBuilt_iff h).2 (linksTo_of_nameToId hij)⟩
    · rw [Function.update_of_ne hid] at hij
      obtain ⟨p, hp, rfl, hlinks⟩ := linked_of_next hij
      exact ⟨p, List.mem_cons_of_mem _ (List.mem_filter.2 ⟨hp, decide_eq_true hid⟩), rfl,
        (linksTo_withBuilt_iff h).2 hlinks⟩

/-- In that list the links lead back to the rule being built if its dependency is the rule itself or
the listed links lead from there to it. -/
theorem onCycle_withBuilt_iff (h : DistinctlyNamed rules) :
    OnCycle (Linked (withBuilt rules (r.builtAsListed rules ruleName))) r.id ↔
      ∃ first, (dependencyMaps rules).nameToId ruleName = some first ∧
        (first = r.id ∨ TransGen (Follows (dependencyMaps rules).next) first r.id) := by
  have hlinked : Linked (withBuilt rules (r.builtAsListed rules ruleName)) =
      Follows (Function.update (dependencyMaps rules).next r.id
        ((dependencyMaps rules).nameToId ruleName)) := by
    funext i j
    exact propext (linked_withBuilt_iff h)
  have hagree : ∀ i, i ≠ r.id → (dependencyMaps rules).next i = Function.update
      (dependencyMaps rules).next r.id ((dependencyMaps rules).nameToId ruleName) i :=
    fun i hi ↦ (Function.update_of_ne hi _ _).symm
  rw [OnCycle, hlinked]
  rcases hfirst : (dependencyMaps rules).nameToId ruleName with - | first
  · exact iff_of_false (not_transGen_of_end (Function.update_self _ _ _)) (by simp)
  · rw [transGen_iff_of_next (Function.update_self _ _ _)]
    rw [hfirst] at hagree
    constructor
    · intro hback
      refine ⟨first, rfl, ?_⟩
      by_cases hid : first = r.id
      · exact .inl hid
      · exact .inr (transGen_of_agree (fun i hi ↦ (hagree i hi).symm) hid (hback.resolve_left hid))
    · rintro ⟨_, hsome, hback⟩
      obtain rfl := Option.some.inj hsome
      by_cases hid : first = r.id
      · exact .inl hid
      · exact .inr (transGen_of_agree hagree hid (hback.resolve_left hid))

end WithBuilt

namespace BuilderNames

/-- A listed rule that waits for `"A"`. -/
def waiting : Rule := { id := 2, name := "B", dependsOnRuleName := some "A" }

/-- The rule being built. -/
def built : Rule := { id := 1, name := "A" }

theorem distinctlyNamed_pair : DistinctlyNamed [waiting, built] where
  ids := by decide
  names := by simp [waiting, built]

end BuilderNames

end FastRules
