import FastRules.Foundations.Descent
import FastRules.Rule.Heap
import FastRules.Workflow.Levels
import FastRules.Workflow.ListedGraph

/-!
# The order of listing

The graph of `Rule::validate` depends on the order in which the rules are listed, since a dependency
is resolved while the names are still being entered. Some of its edges are there in every order
(`FixedEdge`), the others need the rule that is depended on to come first, and no edge is ever there
that is not a `PossibleEdge`.

* In some order no edge but a fixed one leads forward, so that there is a cycle in every order
exactly if there is one of fixed edges (`exists_order_without_cycle`).
* In some order the dependencies along a given path are all seen, so that there is a cycle in some
  order exactly if some child leads back to its parent (`exists_order_with_cycle`).

`Heap.validatesListing_iff` puts the two together: which lists of rules are treated alike in every
order and not accepted with a cycle.
-/

namespace FastRules

open Relation Descent

/-- An edge of `ruleGraph` in every order: to a direct child with an id, or from a rule to
itself. -/
def FixedEdge (rules : List Rule) (i j : Id) : Prop :=
  ∃ p ∈ rules, p.id = i ∧
    ((∃ c ∈ p.childRules, c.id ≠ 0 ∧ c.id = j) ∨
      p.name ≠ "" ∧ p.dependsOnRuleName = some p.name ∧ p.id = j)

/-- An edge of `ruleGraph` in an order that lists `d` before `p`. -/
def DependencyEdge (rules : List Rule) (i j : Id) : Prop :=
  ∃ p ∈ rules, ∃ d ∈ rules, p.id = i ∧ d.id = j ∧
    d.name ≠ "" ∧ p.dependsOnRuleName = some d.name ∧ p.name ≠ d.name

/-- An edge of `ruleGraph` in some order. -/
def PossibleEdge (rules : List Rule) (i j : Id) : Prop :=
  FixedEdge rules i j ∨ DependencyEdge rules i j

/-- Some child leads back to its parent. -/
def LeadsBack (rules : List Rule) : Prop :=
  ∃ p ∈ rules, ∃ c ∈ p.childRules, c.id ≠ 0 ∧ ReflTransGen (PossibleEdge rules) c.id p.id

variable {rules listed : List Rule} {i j : Id}

theorem FixedEdge.seen (h : FixedEdge rules i j) (hperm : listed.Perm rules) :
    (ruleGraph listed).Edge i j := by
  obtain ⟨p, hp, rfl, ⟨c, hc, hid, rfl⟩ | ⟨hname, hdep, rfl⟩⟩ := h
  · exact ruleGraph_edge_child (hperm.mem_iff.2 hp) hc hid
  · obtain ⟨earlier, later, rfl⟩ := List.append_of_mem (hperm.mem_iff.2 hp)
    exact ruleGraph_edge_iff.2 ⟨earlier, p, later, rfl, rfl, .inl (target_self hname hdep)⟩

/-- What an edge that is seen can be: a fixed one, or one to a rule listed earlier. -/
theorem HasEdge.cases {earlier : List Rule} {r : Rule} (h : HasEdge earlier r j) :
    (∃ c ∈ r.childRules, c.id ≠ 0 ∧ c.id = j) ∨
      (r.name ≠ "" ∧ r.dependsOnRuleName = some r.name ∧ r.id = j) ∨
      ∃ d ∈ earlier, d.id = j ∧ d.name ≠ "" ∧ r.dependsOnRuleName = some d.name ∧
        r.name ≠ d.name := by
  rcases h with htarget | hchild
  · obtain ⟨n, hn, hne, hcase⟩ := target_eq_some htarget
    split_ifs at hcase with hself
    · subst hself
      exact .inr (.inl ⟨hne, hn, hcase.symm⟩)
    · obtain ⟨d, hd, rfl, hid⟩ := hcase
      exact .inr (.inr ⟨d, hd, hid, hne, hn, hself⟩)
  · exact .inl hchild

theorem possibleEdge_of_seen (hperm : listed.Perm rules) (h : (ruleGraph listed).Edge i j) :
    PossibleEdge rules i j := by
  obtain ⟨earlier, r, later, rfl, rfl, hedge⟩ := ruleGraph_edge_iff.1 h
  have hr : r ∈ rules := hperm.mem_iff.1 (by simp)
  rcases hedge.cases with hchild | hself | ⟨d, hd, hid, hd'⟩
  · exact .inl ⟨r, hr, rfl, .inl hchild⟩
  · exact .inl ⟨r, hr, rfl, .inr hself⟩
  · exact .inr ⟨r, hr, d, hperm.mem_iff.1 (by simp [hd]), rfl, hid, hd'⟩

/-! ### Positions -/

/-- A rule of the id is listed after exactly `k - 1` others, or none is listed and `k = 0`. -/
def Position (listed : List Rule) (i : Id) (k : ℕ) : Prop :=
  (∃ earlier r later, listed = earlier ++ r :: later ∧ r.id = i ∧ k = earlier.length + 1) ∨
    (∀ r ∈ listed, r.id ≠ i) ∧ k = 0

theorem exists_position (listed : List Rule) (i : Id) : ∃ k, Position listed i k := by
  by_cases h : ∃ r ∈ listed, r.id = i
  · obtain ⟨r, hr, hid⟩ := h
    obtain ⟨earlier, later, rfl⟩ := List.append_of_mem hr
    exact ⟨_, .inl ⟨earlier, r, later, rfl, hid, rfl⟩⟩
  · push Not at h
    exact ⟨0, .inr ⟨h, rfl⟩⟩

theorem earlier_unique (hdistinct : DistinctIds listed) {earlier earlier' later later' : List Rule}
    {r r' : Rule} (h : listed = earlier ++ r :: later) (h' : listed = earlier' ++ r' :: later')
    (hid : r.id = r'.id) : earlier = earlier' := by
  subst h
  induction earlier generalizing earlier' with
  | nil =>
    cases earlier' with
    | nil => rfl
    | cons q earlier' =>
      obtain ⟨rfl, rfl⟩ := List.cons.inj h'
      exact absurd hid (fun hid ↦ (List.nodup_cons.1 hdistinct).1
        (List.mem_map.2 ⟨r', by simp, hid.symm⟩))
  | cons p earlier ih =>
    cases earlier' with
    | nil =>
      obtain ⟨rfl, rfl⟩ := List.cons.inj h'
      exact absurd hid (fun hid ↦ (List.nodup_cons.1 hdistinct).1
        (List.mem_map.2 ⟨r, by simp, hid⟩))
    | cons q earlier' =>
      obtain ⟨rfl, htail⟩ := List.cons.inj h'
      exact congrArg _ (ih (List.nodup_cons.1 hdistinct).2 htail)

/-- Edges that lead back in the list do not form a cycle. -/
theorem not_onCycle_of_backward (hdistinct : DistinctIds listed) {R : Id → Id → Prop}
    (h : ∀ i j, R i j → ∃ earlier r later, listed = earlier ++ r :: later ∧ r.id = i ∧
      ((∃ d ∈ earlier, d.id = j) ∨ ∀ d ∈ listed, d.id ≠ j)) (i : Id) : ¬OnCycle R i := by
  obtain ⟨k, hk⟩ := exists_position listed i
  refine not_onCycle_of_rank (ρ := Position listed) (fun x k hx y hxy ↦ ?_) hk
  obtain ⟨earlier, r, later, hlist, rfl, hback⟩ := h x y hxy
  rcases hx with ⟨earlier', r', later', hlist', hid, rfl⟩ | ⟨hno, -⟩
  · obtain rfl := earlier_unique hdistinct hlist hlist' hid.symm
    rcases hback with ⟨d, hd, rfl⟩ | hunlisted
    · obtain ⟨before, between, rfl⟩ := List.append_of_mem hd
      refine ⟨before.length + 1, by simp, .inl ⟨before, d, between ++ r :: later, ?_, rfl, rfl⟩⟩
      simpa using hlist
    · exact ⟨0, by omega, .inr ⟨hunlisted, rfl⟩⟩
  · exact absurd rfl (hno r (by simp [hlist]))

/-! ### An order without cycles -/

/-- The parent has a direct child of the id of the other rule. -/
def ParentOf (rules : List Rule) (p q : Rule) : Prop :=
  p ∈ rules ∧ ∃ c ∈ p.childRules, c.id ≠ 0 ∧ c.id = q.id

/-- Listing children before their parents leaves no cycle that is not there in every order. -/
theorem exists_order_without_cycle (hdistinct : DistinctIds rules)
    (hfixed : ∀ i, ¬OnCycle (FixedEdge rules) i) :
    ∃ listed : List Rule, listed.Perm rules ∧ ∀ i, ¬OnCycle (ruleGraph listed).Edge i := by
  have hparent : ∀ p q, ParentOf rules p q → FixedEdge rules p.id q.id :=
    fun p q ⟨hp, hc⟩ ↦ ⟨p, hp, rfl, .inl hc⟩
  obtain ⟨listed, hperm, hback⟩ := exists_perm_backward (R := ParentOf rules) (l := rules)
    fun p _ hcycle ↦ hfixed p.id (hcycle.lift (fun q ↦ q.id) hparent)
  refine ⟨listed, hperm, not_onCycle_of_backward (hdistinct.perm hperm) fun i j hij ↦ ?_⟩
  obtain ⟨earlier, r, later, hlist, hid, hedge⟩ := ruleGraph_edge_iff.1 hij
  have hr : r ∈ rules := hperm.mem_iff.1 (by simp [hlist])
  refine ⟨earlier, r, later, hlist, hid, ?_⟩
  rcases hedge.cases with hchild | hself | ⟨d, hd, hdj, -⟩
  · by_cases hlisted : ∃ q ∈ listed, q.id = j
    · -- the child is listed, and not after its parent
      obtain ⟨q, hq, rfl⟩ := hlisted
      have hrq : ParentOf rules r q := ⟨hr, hchild⟩
      rw [hlist] at hq hback
      rcases List.mem_append.1 hq with hq | hq
      · exact .inl ⟨q, hq, rfl⟩
      · rcases List.mem_cons.1 hq with rfl | hq
        · exact absurd (.single (hparent q q hrq)) (hfixed q.id)
        · have hlater := (List.pairwise_cons.1 (List.pairwise_append.1 hback).2.1).1
          exact absurd hrq (hlater q hq)
    · push Not at hlisted
      exact .inr hlisted
  · exact absurd (.single ⟨r, hr, hself.2.2, .inr hself⟩) (hfixed j)
  · exact .inl ⟨d, hd, hdj⟩

/-! ### An order with a cycle -/

/-- A cycle in some order that is not there in every order passes from a parent to a child. -/
theorem leadsBack_of_onCycle (hdistinct : DistinctIds rules) (hperm : listed.Perm rules)
    (hfixed : ∀ i, ¬OnCycle (FixedEdge rules) i) (h : OnCycle (ruleGraph listed).Edge i) :
    LeadsBack rules := by
  by_contra hno
  refine not_onCycle_of_backward (hdistinct.perm hperm) (fun x y hxy ↦ ?_) i
    (h.within (P := fun y ↦ ReflTransGen (ruleGraph listed).Edge i y ∧
      TransGen (ruleGraph listed).Edge y i) fun y hiy hyi ↦ ⟨hiy, hyi⟩)
  obtain ⟨hedge, ⟨hix, -⟩, -, hyi⟩ := hxy
  obtain ⟨earlier, r, later, hlist, hid, hcase⟩ := ruleGraph_edge_iff.1 hedge
  have hr : r ∈ rules := hperm.mem_iff.1 (by simp [hlist])
  refine ⟨earlier, r, later, hlist, hid, ?_⟩
  rcases hcase.cases with ⟨c, hc, hne, rfl⟩ | hself | ⟨d, hd, hdj, -⟩
  · have hback : ReflTransGen (ruleGraph listed).Edge c.id r.id :=
      hid ▸ hyi.to_reflTransGen.trans hix
    exact absurd ⟨r, hr, c, hc, hne, 
      ReflTransGen.mono (fun _ _ ↦ possibleEdge_of_seen hperm) _ _ hback⟩ hno
  · exact absurd (.single ⟨r, hr, hself.2.2, .inr hself⟩) (hfixed y)
  · exact .inl ⟨d, hd, hdj⟩

/-- The rules of a path, listed from its end to its start, and then the others. -/
theorem exists_order_along (hdistinct : DistinctIds rules) {path : List Id} (hnodup : path.Nodup)
    (hlisted : ∀ i ∈ path, ∃ r ∈ rules, r.id = i) :
    ∃ listed : List Rule, listed.Perm rules ∧ ∃ rs later : List Rule, listed = rs ++ later ∧
      rs.map (fun r ↦ r.id) = path.reverse := by
  have hrules : ∃ rs : List Rule, rs.map (fun r ↦ r.id) = path.reverse ∧ ∀ r ∈ rs, r ∈ rules := by
    have : Nonempty Rule := ⟨{}⟩
    choose! ruleOf hruleOf using hlisted
    refine ⟨path.reverse.map ruleOf, ?_, fun r hr ↦ ?_⟩
    · have hid : ∀ i ∈ path.reverse, ((fun r : Rule ↦ r.id) ∘ ruleOf) i = i := fun i hi ↦
        (hruleOf i (List.mem_reverse.1 hi)).2
      rw [List.map_map, List.map_congr_left hid, List.map_id']
    · obtain ⟨i, hi, rfl⟩ := List.mem_map.1 hr
      exact (hruleOf i (List.mem_reverse.1 hi)).1
  obtain ⟨rs, hids, hmem⟩ := hrules
  have hrs : rs.Nodup :=
    List.Nodup.of_map (fun r : Rule ↦ r.id) (hids ▸ List.nodup_reverse.2 hnodup)
  -- first the rules of the path, then all others
  classical
  refine ⟨rs ++ rules.filter fun r ↦ r ∉ rs, ?_, rs, _, rfl, hids⟩
  refine (List.perm_ext_iff_of_nodup ?_ hdistinct.nodup).2 fun r ↦ ?_
  · refine List.Nodup.append hrs (hdistinct.nodup.filter _) fun r hr hr' ↦ ?_
    simpa [hr] using (List.mem_filter.1 hr').2
  · rw [List.mem_append, List.mem_filter]
    refine ⟨fun h ↦ h.elim (hmem r) And.left, fun hr ↦ ?_⟩
    by_cases hin : r ∈ rs
    · exact .inl hin
    · exact .inr ⟨hr, by simpa using hin⟩

/-- A path whose rules are listed from its end to its start is seen. -/
theorem path_seen (hdistinct : DistinctIds rules) {path : List Id}
    (hpath : path.IsChain (PossibleEdge rules)) (hperm : listed.Perm rules) {rs later : List Rule}
    (hlist : listed = rs ++ later) (hids : rs.map (fun r ↦ r.id) = path.reverse) :
    path.IsChain (ruleGraph listed).Edge := by
  refine List.isChain_iff_forall_rel_of_append_cons_cons.2 fun i j before after heq ↦ ?_
  rcases List.isChain_iff_forall_rel_of_append_cons_cons.1 hpath heq with hfixed | hdep
  · exact hfixed.seen hperm
  · obtain ⟨p, hp, d, hd, rfl, rfl, hname, hdep, hself⟩ := hdep
    -- the rule that is depended on is listed just before the one that depends on it
    have hsplit : rs.map (fun r ↦ r.id) = after.reverse ++ ([d.id] ++ p.id :: before.reverse) := by
      rw [hids, heq]
      simp
    obtain ⟨early, rest, rfl, -, hrest⟩ := List.map_eq_append_iff.1 hsplit
    obtain ⟨ds, ps, rfl, hds, hps⟩ := List.map_eq_append_iff.1 hrest
    obtain ⟨d', rfl, hd'⟩ := List.map_eq_singleton_iff.1 hds
    obtain ⟨p', ps, rfl, hp', -⟩ := List.map_eq_cons_iff.1 hps
    have hmem : ∀ r, r ∈ early ++ ([d'] ++ p' :: ps) → r ∈ rules := fun r hr ↦
      hperm.mem_iff.1 (hlist ▸ List.mem_append_left later hr)
    obtain rfl := hdistinct.inj (hmem d' (by simp)) hd hd'
    obtain rfl := hdistinct.inj (hmem p' (by simp)) hp hp'
    refine ruleGraph_edge_iff.2 ⟨early ++ [d'], p', ps ++ later, by simp [hlist], rfl, .inl ?_⟩
    exact target_previous hname hdep hself

/-- If some child leads back to its parent, some order shows it. -/
theorem exists_order_with_cycle (hdistinct : DistinctIds rules) (h : LeadsBack rules) :
    ∃ listed : List Rule, listed.Perm rules ∧ ∃ i, OnCycle (ruleGraph listed).Edge i := by
  obtain ⟨p, hp, c, hc, hid, hback⟩ := h
  obtain ⟨path, hchain, hnodup, hlast⟩ := exists_nodup_path hback
  have hlisted : ∀ i ∈ c.id :: path, ∃ r ∈ rules, r.id = i := by
    intro i hi
    obtain ⟨before, after, heq⟩ := List.append_of_mem hi
    rcases after with - | ⟨j, after⟩
    · refine ⟨p, hp, ?_⟩
      rw [← hlast]
      simp [heq]
    · rcases List.isChain_iff_forall_rel_of_append_cons_cons.1 hchain heq with hedge | hedge
      · obtain ⟨q, hq, rfl, -⟩ := hedge
        exact ⟨q, hq, rfl⟩
      · obtain ⟨q, hq, -, -, rfl, -⟩ := hedge
        exact ⟨q, hq, rfl⟩
  obtain ⟨listed, hperm, rs, later, hlist, hids⟩ := exists_order_along hdistinct hnodup hlisted
  have hseen := path_seen hdistinct hchain hperm hlist hids
  refine ⟨listed, hperm, p.id, ?_⟩
  have hedge : (ruleGraph listed).Edge p.id c.id := ruleGraph_edge_child (hperm.mem_iff.2 hp) hc hid
  exact .head' hedge (List.relationReflTransGen_of_exists_isChain_cons path hseen hlast)

/-! ### Lists of rule objects -/

namespace Heap

/-- `Rule::validate` throws. -/
def Throws (h : Heap) (order : HashOrder Id) (self : RulePtr) (allRules : List RulePtr) : Prop :=
  ∀ r, (h.view self).validate order (allRules.map h.view) ≠ .ok r

/-- The graph of the listed rules and everything below them: from a rule to the rules of the name it
depends on, and from a parent to its children. -/
def GraphEdge (h : Heap) (allRules : List RulePtr) (p q : RulePtr) : Prop :=
  h.Reachable allRules p ∧ h.Reachable allRules q ∧
    (h.IsChild p q ∨
      (h.object p).fields.dependsOnRuleName = some (h.object q).fields.name)

/-- The outcome does not depend on the order of the list, and no cycle through a listed rule
passes. -/
structure ValidatesListing (h : Heap) (order : HashOrder Id) (rule : RulePtr)
    (allRules : List RulePtr) : Prop where
  perm : ∀ l : List RulePtr, l.Perm allRules →
    (h.Throws order rule l ↔ h.Throws order rule allRules)
  complete : (∃ p ∈ allRules, OnCycle (h.GraphEdge allRules) p) → h.Throws order rule allRules

/-- Something is wrong that has nothing to do with cycles: an id that is zero or repeated, or a
dependency of the rule itself that no listed rule has as its name. -/
def FaultyListing (h : Heap) (self : RulePtr) (allRules : List RulePtr) : Prop :=
  ¬(DistinctIds (allRules.map h.view) ∧ ∀ p ∈ allRules, (h.object p).fields.id ≠ 0) ∨
    ∃ n, (h.object self).fields.dependsOnRuleName = some n ∧
      ∀ p ∈ allRules, (h.object p).fields.name ≠ n

variable {h : Heap} {order : HashOrder Id} {self : RulePtr} {allRules l : List RulePtr}

theorem throws_iff (hself : (h.object self).fields.isValidated = false) :
    h.Throws order self allRules ↔
      h.FaultyListing self allRules ∨
        ∃ i, OnCycle (ruleGraph (allRules.map h.view)).Edge i := by
  have hchecks : h.Throws order self allRules ↔
      ¬(h.view self).checkAgainst order (allRules.map h.view) = .ok () := by
    have hview : (h.view self).isValidated = false := hself
    rw [Throws]
    simp only [Rule.validate, hview, Bool.false_eq_true, if_false]
    rcases (h.view self).checkAgainst order (allRules.map h.view) with e | u <;>
      simp [Except.map]
  have hdep : (∀ n, (h.view self).dependsOnRuleName = some n →
      ∃ d ∈ allRules.map h.view, d.name = n) ↔
        ¬∃ n, (h.object self).fields.dependsOnRuleName = some n ∧
          ∀ p ∈ allRules, (h.object p).fields.name ≠ n := by
    push Not
    refine forall₂_congr fun n _ ↦ ?_
    simp [view]
  have hids :
      (∀ r ∈ allRules.map h.view, r.id ≠ 0) ↔ ∀ p ∈ allRules, (h.object p).fields.id ≠ 0 := by
    simp [view]
  rw [hchecks, Rule.checkAgainst_ok_iff, hdep, hids, not_and_or, not_and_or, not_not, or_comm,
    FaultyListing]
  push Not
  rfl

theorem faultyListing_perm (hperm : l.Perm allRules) :
    h.FaultyListing self l ↔ h.FaultyListing self allRules := by
  have hids : DistinctIds (l.map h.view) ↔ DistinctIds (allRules.map h.view) :=
    ((hperm.map h.view).map _).nodup_iff
  simp only [FaultyListing, hids, hperm.mem_iff]

/-- Every order of the listed objects is an order of the list, and conversely. -/
theorem exists_perm_view {listed : List Rule} (hperm : listed.Perm (allRules.map h.view)) :
    ∃ l : List RulePtr, l.Perm allRules ∧ l.map h.view = listed := by
  have hcomp : Relation.Comp (fun x y ↦ x = List.map h.view y) List.Perm listed allRules := by
    rw [List.eq_map_comp_perm]
    exact hperm
  obtain ⟨l, hl, hlperm⟩ := hcomp
  exact ⟨l, hlperm, hl.symm⟩

/-- A list is treated alike in every order and not accepted with a cycle exactly if something else
is wrong with it, or it has a cycle of edges that every order shows, or it has neither a cycle nor a
child that leads back to its parent. -/
theorem validatesListing_iff (h : Heap) (order : HashOrder Id) (self : RulePtr)
    (allRules : List RulePtr) (hself : (h.object self).fields.isValidated = false) :
    h.ValidatesListing order self allRules ↔
      h.FaultyListing self allRules ∨
        (∃ i, OnCycle (FixedEdge (allRules.map h.view)) i) ∨
          ¬LeadsBack (allRules.map h.view) ∧
            ∀ p ∈ allRules, ¬OnCycle (h.GraphEdge allRules) p := by
  by_cases hfaulty : h.FaultyListing self allRules
  · -- it is rejected in every order
    have hthrows : ∀ l : List RulePtr, l.Perm allRules → h.Throws order self l := fun l hl ↦
      (throws_iff hself).2 (.inl ((faultyListing_perm hl).2 hfaulty))
    refine iff_of_true ⟨fun l hl ↦ iff_of_true (hthrows l hl) (hthrows _ (.refl _)), fun _ ↦
      hthrows _ (.refl _)⟩ (.inl hfaulty)
  have hdistinct : DistinctIds (allRules.map h.view) := (not_not.1 fun hno ↦ hfaulty (.inl hno)).1
  have hcycle : ∀ {l : List RulePtr}, l.Perm allRules →
      (h.Throws order self l ↔ ∃ i, OnCycle (ruleGraph (l.map h.view)).Edge i) := fun {l} hl ↦
    (throws_iff hself).trans (or_iff_right fun hf ↦ hfaulty ((faultyListing_perm hl).1 hf))
  rw [or_iff_right hfaulty]
  by_cases hfixed : ∃ i, OnCycle (FixedEdge (allRules.map h.view)) i
  · -- every order shows the cycle
    have hthrows : ∀ l : List RulePtr, l.Perm allRules → h.Throws order self l := fun l hl ↦ by
      obtain ⟨i, hi⟩ := hfixed
      exact (hcycle hl).2 ⟨i, hi.lift id fun _ _ hedge ↦ hedge.seen (hl.map h.view)⟩
    exact iff_of_true ⟨fun l hl ↦ iff_of_true (hthrows l hl) (hthrows _ (.refl _)), fun _ ↦
      hthrows _ (.refl _)⟩ (.inl hfixed)
  have hnofixed := not_exists.1 hfixed
  -- some order shows no cycle
  obtain ⟨listed, hlisted, hnone⟩ := exists_order_without_cycle hdistinct hnofixed
  obtain ⟨l, hl, rfl⟩ := exists_perm_view hlisted
  have haccepted : ¬h.Throws order self l := by
    rw [hcycle hl]
    exact not_exists.2 hnone
  rw [or_iff_right hfixed]
  constructor
  · intro hvalid
    have hself : ¬h.Throws order self allRules := (hvalid.perm l hl).not.1 haccepted
    refine ⟨fun hback ↦ ?_, fun p hp hcyc ↦ hself (hvalid.complete ⟨p, hp, hcyc⟩)⟩
    obtain ⟨listed', hlisted', hsome⟩ := exists_order_with_cycle hdistinct hback
    obtain ⟨l', hl', rfl⟩ := exists_perm_view hlisted'
    exact hself ((hvalid.perm l' hl').1 ((hcycle hl').2 hsome))
  · rintro ⟨hback, hacyclic⟩
    have hnothrow : ∀ l : List RulePtr, l.Perm allRules → ¬h.Throws order self l :=
      fun l hl hthrows ↦ by
      obtain ⟨i, hi⟩ := (hcycle hl).1 hthrows
      exact hback (leadsBack_of_onCycle hdistinct (hl.map h.view) hnofixed hi)
    exact ⟨fun l hl ↦ iff_of_false (hnothrow l hl) (hnothrow _ (.refl _)), fun ⟨p, hp, hcyc⟩ ↦
      absurd hcyc (hacyclic p hp)⟩

/-! ### Two rules that depend on each other -/

/-- `A` depends on `B` and `B` on `A`. -/
def mutualPair : Heap where
  object := fun p ↦
    if p = 0 then ⟨{ ptr := 0, id := 1, name := "A", dependsOnRuleName := some "B" }, []⟩
    else ⟨{ ptr := 1, id := 2, name := "B", dependsOnRuleName := some "A" }, []⟩
  live := [0, 1]
  closed := by decide

theorem mutualPair_onCycle : OnCycle (mutualPair.GraphEdge [0, 1]) 0 := by
  have hreach : ∀ p ∈ [0, 1], mutualPair.Reachable [0, 1] p := fun p hp ↦ ⟨p, hp, .refl⟩
  exact .head (b := 1) ⟨hreach 0 (by decide), hreach 1 (by decide), .inr rfl⟩
    (.single ⟨hreach 1 (by decide), hreach 0 (by decide), .inr rfl⟩)

/-- A parent whose child, listed after it, depends on it. -/
def parentAndChild : Heap where
  object := fun p ↦
    if p = 0 then ⟨{ ptr := 0, id := 1, name := "A" }, [1]⟩
    else ⟨{ ptr := 1, id := 2, name := "B", dependsOnRuleName := some "A" }, []⟩
  live := [0, 1]
  closed := by decide

/-- Two rules that depend on each other pass in either order, and a child that depends on its parent
passes in one of two orders. -/
theorem mutualPair_validated :
    (OnCycle (mutualPair.GraphEdge [0, 1]) 0 ∧
      ¬mutualPair.Throws (HashOrder.insertion Id) 0 [0, 1] ∧
      ¬mutualPair.Throws (HashOrder.insertion Id) 0 [1, 0]) ∧
    parentAndChild.Throws (HashOrder.insertion Id) 0 [0, 1] ∧
      ¬parentAndChild.Throws (HashOrder.insertion Id) 0 [1, 0] := by
  refine ⟨⟨mutualPair_onCycle, fun h ↦ h _ rfl, fun h ↦ h _ rfl⟩, fun r hr ↦ ?_, fun h ↦ h _ rfl⟩
  cases hr

/-- What the child of the pair has to satisfy when it is validated with its parent. -/
theorem parentAndChild_validatesListing_iff :
    (parentAndChild.object 1).fields.isValidated = false ∧
      (parentAndChild.ValidatesListing (HashOrder.insertion Id) 1 [0, 1] ↔
        parentAndChild.FaultyListing 1 [0, 1] ∨
          (∃ i, OnCycle (FixedEdge ([0, 1].map parentAndChild.view)) i) ∨
            ¬LeadsBack ([0, 1].map parentAndChild.view) ∧
              ∀ p ∈ [0, 1], ¬OnCycle (parentAndChild.GraphEdge [0, 1]) p) :=
  ⟨rfl, validatesListing_iff parentAndChild (HashOrder.insertion Id) 1 [0, 1] rfl⟩

end Heap

end FastRules
