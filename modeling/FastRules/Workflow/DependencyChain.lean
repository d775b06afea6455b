import FastRules.Foundations.Loop
import FastRules.Foundations.Walk
import FastRules.Rule.Basic
import Mathlib.Data.List.Duplicate
import Mathlib.Data.List.Chain
import Mathlib.Data.List.Perm.Subperm

/-!
# Dependency chains

`Rule::hasCircularDependency` and `Rule::getDependencyChain` follow the same links through the same
maps and stop at different points: the one as soon as it is back at the rule or comes to an id it
has visited, the other after it has added such an id to the chain. So the one finds a circle exactly
if the other repeats an id (`chain_walkers_consistent`).
-/

namespace FastRules

open Walk

/-! ### The maps -/

/-- `ruleMap` and `nameToId`. -/
structure DependencyMaps where
  ruleMap : Id → Option Rule := fun _ ↦ none
  nameToId : String → Option Id := fun _ ↦ none

namespace DependencyMaps

/-- A rule without a name is found by its id only. -/
def add (m : DependencyMaps) (rule : Rule) : DependencyMaps where
  ruleMap := Function.update m.ruleMap rule.id (some rule)
  nameToId :=
    if rule.name ≠ "" then Function.update m.nameToId rule.name (some rule.id) else m.nameToId

/-- The id that the dependency of the rule with the given id leads to. -/
def next (m : DependencyMaps) (current : Id) : Option Id :=
  (m.ruleMap current).bind fun rule ↦ rule.dependsOnRuleName.bind m.nameToId

end DependencyMaps

/-- The maps of a list of rules. -/
def dependencyMaps (allRules : List Rule) : DependencyMaps :=
  allRules.foldl DependencyMaps.add {}

/-- The rule waits for a listed rule with the given id, by its name. -/
def Rule.LinksTo (allRules : List Rule) (r : Rule) (target : Id) : Prop :=
  ∃ q ∈ allRules, q.name ≠ "" ∧ r.dependsOnRuleName = some q.name ∧ q.id = target

/-- A listed rule with the first id waits for one with the second. -/
def Linked (allRules : List Rule) (i j : Id) : Prop :=
  ∃ p ∈ allRules, p.id = i ∧ p.LinksTo allRules j

section Maps

variable {allRules : List Rule} {i j : Id} {n : String} {r : Rule}

theorem dependencyMaps_concat (allRules : List Rule) (r : Rule) :
    dependencyMaps (allRules ++ [r]) = (dependencyMaps allRules).add r :=
  List.foldl_append

theorem mem_of_ruleMap (h : (dependencyMaps allRules).ruleMap i = some r) :
    r ∈ allRules ∧ r.id = i := by
  induction allRules using List.reverseRecOn with
  | nil => exact absurd h (by simp [dependencyMaps])
  | append_singleton rules p ih =>
    rw [dependencyMaps_concat, DependencyMaps.add] at h
    dsimp only at h
    by_cases hi : i = p.id
    · subst hi
      rw [Function.update_self] at h
      obtain rfl := Option.some.inj h
      exact ⟨List.mem_append_right _ List.mem_cons_self, rfl⟩
    · rw [Function.update_of_ne hi] at h
      exact ⟨List.mem_append_left _ (ih h).1, (ih h).2⟩

theorem mem_of_nameToId (h : (dependencyMaps allRules).nameToId n = some i) :
    ∃ q ∈ allRules, q.name = n ∧ n ≠ "" ∧ q.id = i := by
  induction allRules using List.reverseRecOn with
  | nil => exact absurd h (by simp [dependencyMaps])
  | append_singleton rules p ih =>
    rw [dependencyMaps_concat, DependencyMaps.add] at h
    dsimp only at h
    have hold (h : (dependencyMaps rules).nameToId n = some i) :
        ∃ q ∈ rules ++ [p], q.name = n ∧ n ≠ "" ∧ q.id = i := by
      obtain ⟨q, hq, hname⟩ := ih h
      exact ⟨q, List.mem_append_left _ hq, hname⟩
    split_ifs at h with hp
    · by_cases hn : n = p.name
      · subst hn
        rw [Function.update_self] at h
        exact ⟨p, List.mem_append_right _ List.mem_cons_self, rfl, hp, Option.some.inj h⟩
      · rw [Function.update_of_ne hn] at h
        exact hold h
    · exact hold h

theorem exists_ruleMap {q : Rule} (hq : q ∈ allRules) :
    ∃ p, (dependencyMaps allRules).ruleMap q.id = some p := by
  induction allRules using List.reverseRecOn with
  | nil => exact absurd hq List.not_mem_nil
  | append_singleton rules p ih =>
    rw [dependencyMaps_concat, DependencyMaps.add]
    by_cases hid : q.id = p.id
    · exact ⟨p, by rw [hid]; exact Function.update_self _ _ _⟩
    · have hold := (List.mem_append.1 hq).resolve_right fun hlast ↦
        hid (congrArg (fun p ↦ p.id) (List.mem_singleton.1 hlast))
      obtain ⟨p', hp'⟩ := ih hold
      exact ⟨p', (Function.update_of_ne hid _ _).trans hp'⟩

theorem exists_nameToId {q : Rule} (hq : q ∈ allRules) (hname : q.name ≠ "") :
    ∃ i, (dependencyMaps allRules).nameToId q.name = some i := by
  induction allRules using List.reverseRecOn with
  | nil => exact absurd hq List.not_mem_nil
  | append_singleton rules p ih =>
    rw [dependencyMaps_concat, DependencyMaps.add]
    dsimp only
    by_cases hsame : q.name = p.name
    · rw [← hsame, if_pos hname, Function.update_self]
      exact ⟨p.id, rfl⟩
    · have hold := (List.mem_append.1 hq).resolve_right fun hlast ↦
        hsame (congrArg (fun p ↦ p.name) (List.mem_singleton.1 hlast))
      obtain ⟨i, hi⟩ := ih hold
      refine ⟨i, ?_⟩
      split_ifs
      · rwa [Function.update_of_ne hsame]
      · exact hi

/-- Ids are distinct, and so are the names of rules that have one. -/
structure DistinctlyNamed (allRules : List Rule) : Prop where
  ids : (allRules.map fun q ↦ q.id).Nodup
  names : ∀ p ∈ allRules, ∀ q ∈ allRules, p.name ≠ "" → q.name = p.name → q = p

theorem DistinctlyNamed.ruleMap (h : DistinctlyNamed allRules) {q : Rule} (hq : q ∈ allRules) :
    (dependencyMaps allRules).ruleMap q.id = some q := by
  obtain ⟨p, hp⟩ := exists_ruleMap hq
  obtain ⟨hmem, hid⟩ := mem_of_ruleMap hp
  rw [hp, List.inj_on_of_nodup_map h.ids hmem hq hid]

theorem DistinctlyNamed.nameToId (h : DistinctlyNamed allRules) {q : Rule} (hq : q ∈ allRules)
    (hname : q.name ≠ "") : (dependencyMaps allRules).nameToId q.name = some q.id := by
  obtain ⟨i, hi⟩ := exists_nameToId hq hname
  obtain ⟨p, hp, hsame, -, rfl⟩ := mem_of_nameToId hi
  rw [hi, h.names q hq p hp hname hsame]

/-- What the maps lead to is a link. -/
theorem linksTo_of_nameToId
    (h : r.dependsOnRuleName.bind (dependencyMaps allRules).nameToId = some i) :
    r.LinksTo allRules i := by
  obtain ⟨n, hn, hi⟩ := Option.bind_eq_some_iff.1 h
  obtain ⟨q, hq, rfl, hname, hid⟩ := mem_of_nameToId hi
  exact ⟨q, hq, hname, hn, hid⟩

theorem linked_of_next (h : (dependencyMaps allRules).next i = some j) : Linked allRules i j := by
  obtain ⟨p, hp, hj⟩ := Option.bind_eq_some_iff.1 h
  exact ⟨p, (mem_of_ruleMap hp).1, (mem_of_ruleMap hp).2, linksTo_of_nameToId hj⟩

/-- With distinct ids and names, every link is one that the maps lead along. -/
theorem DistinctlyNamed.nameToId_of_linksTo (h : DistinctlyNamed allRules)
    (hlinks : r.LinksTo allRules i) :
    r.dependsOnRuleName.bind (dependencyMaps allRules).nameToId = some i := by
  obtain ⟨q, hq, hname, hn, rfl⟩ := hlinks
  rw [hn]
  exact h.nameToId hq hname

theorem DistinctlyNamed.next_of_linked (h : DistinctlyNamed allRules)
    (hlinked : Linked allRules i j) :
    (dependencyMaps allRules).next i = some j := by
  obtain ⟨p, hp, rfl, hlinks⟩ := hlinked
  exact Option.bind_eq_some_iff.2 ⟨p, h.ruleMap hp, h.nameToId_of_linksTo hlinks⟩

theorem Rule.LinksTo.mem_ids (h : r.LinksTo allRules i) : i ∈ allRules.map fun q ↦ q.id := by
  obtain ⟨q, hq, -, -, rfl⟩ := h
  exact List.mem_map_of_mem hq

theorem next_mem_ids (h : (dependencyMaps allRules).next i = some j) :
    j ∈ allRules.map fun q ↦ q.id := by
  obtain ⟨p, -, -, hlinks⟩ := linked_of_next h
  exact hlinks.mem_ids

end Maps

/-! ### The walkers -/

/-- One pass of the loop of `hasCircularDependency` for the rule with the id `id`: the ids visited
so far, the latest first, and the current one. -/
def circularStep (m : DependencyMaps) (id : Id) : List Id × Id → (List Id × Id) ⊕ Bool
  | (visited, current) =>
    if current = 0 then .inr false
    else if current = id then .inr true
    else if current ∈ visited then .inr true
    else
      match m.next current with
      | none => .inr false
      | some next => .inl (current :: visited, next)

/-- `Rule::hasCircularDependency` returns `answer`. -/
def Rule.HasCircularDependency (allRules : List Rule) (r : Rule) (answer : Bool) : Prop :=
  match r.dependsOnRuleName.bind (dependencyMaps allRules).nameToId with
  | none => answer = false
  | some current => Loop.Returns (circularStep (dependencyMaps allRules) r.id) ([], current) answer

/-- What `getDependencyChain` keeps while it walks. -/
structure ChainWalk where
  chain : List Id
  visited : List Id := []
  current : Id

/-- One pass of the loop of `getDependencyChain`. -/
def chainStep (m : DependencyMaps) (s : ChainWalk) : ChainWalk ⊕ List Id :=
  if s.current = 0 then .inr s.chain
  else
    let chain := s.chain ++ [s.current]
    if s.current ∈ s.visited then .inr chain
    else
      match m.next s.current with
      | none => .inr chain
      | some next => .inl { chain, visited := s.current :: s.visited, current := next }

/-- `Rule::getDependencyChain` returns `chain`. -/
def Rule.GetDependencyChain (allRules : List Rule) (r : Rule) (chain : List Id) : Prop :=
  match r.dependsOnRuleName.bind (dependencyMaps allRules).nameToId with
  | none => chain = [r.id]
  | some current =>
    Loop.Returns (chainStep (dependencyMaps allRules)) { chain := [r.id], current } chain

/-! ### Side by side -/

section Walkers

variable {allRules : List Rule} {visited : List Id} {current : Id}

/-- Where both walkers stand at the head of their loops: what has been visited is a chain of
distinct listed ids that leads to the current one. -/
structure AtHead (allRules : List Rule) (visited : List Id) (current : Id) : Prop where
  nodup : visited.Nodup
  visitedListed : ∀ i ∈ visited, i ∈ allRules.map fun q ↦ q.id
  currentListed : current ∈ allRules.map fun q ↦ q.id
  linked : (visited.reverse ++ [current]).IsChain (Linked allRules)

theorem AtHead.length_le (h : AtHead allRules visited current) :
    visited.length ≤ allRules.length := by
  have hle := (h.nodup.subperm h.visitedListed).length_le
  rwa [List.length_map] at hle

theorem AtHead.advance (h : AtHead allRules visited current) (hnew : current ∉ visited) {next : Id}
    (hnext : (dependencyMaps allRules).next current = some next) :
    AtHead allRules (current :: visited) next where
  nodup := List.nodup_cons.2 ⟨hnew, h.nodup⟩
  visitedListed := List.forall_mem_cons.2 ⟨h.currentListed, h.visitedListed⟩
  currentListed := next_mem_ids hnext
  linked := by
    rw [List.reverse_cons]
    refine h.linked.append (.singleton next) ?_
    intro i hi j hj
    rw [List.getLast?_append, List.getLast?_singleton] at hi
    obtain rfl : current = i := by simpa using hi
    obtain rfl : next = j := by simpa using hj
    exact linked_of_next hnext

/-- From the head of the loop on, the chain grows by `rest`, and the other walker finds a circle
exactly if the chain of the rule repeats an id. -/
structure WalksOn (allRules : List Rule) (id : Id) (visited : List Id) (current : Id)
    (rest : List Id) :
    Prop where
  chain : Loop.Returns (chainStep (dependencyMaps allRules))
    ⟨id :: visited.reverse, visited, current⟩ (id :: (visited.reverse ++ rest))
  length : visited.length + rest.length ≤ allRules.length + 1
  linked : (visited.reverse ++ rest).IsChain (Linked allRules)
  head : ∀ i ∈ rest.head?, i = current
  circular : id ∉ visited → ∃ answer,
    Loop.Returns (circularStep (dependencyMaps allRules) id) (visited, current) answer ∧
      (answer = true ↔ ¬(id :: (visited.reverse ++ rest)).Nodup)

section Steps

variable {id next : Id}

theorem chainStep_zero (h : current = 0) (m : DependencyMaps) (chain : List Id) :
    chainStep m ⟨chain, visited, current⟩ = .inr chain :=
  if_pos h

theorem chainStep_visited {m : DependencyMaps} (hzero : current ≠ 0) (hmem : current ∈ visited)
    (chain : List Id) : chainStep m ⟨chain, visited, current⟩ = .inr (chain ++ [current]) := by
  rw [chainStep, if_neg hzero]
  exact if_pos hmem

theorem chainStep_end {m : DependencyMaps} (hzero : current ≠ 0) (hmem : current ∉ visited)
    (hnext : m.next current = none) (chain : List Id) :
    chainStep m ⟨chain, visited, current⟩ = .inr (chain ++ [current]) := by
  rw [chainStep, if_neg hzero]
  dsimp only
  rw [if_neg hmem, hnext]

theorem chainStep_next {m : DependencyMaps} (hzero : current ≠ 0) (hmem : current ∉ visited)
    (hnext : m.next current = some next) (chain : List Id) :
    chainStep m ⟨chain, visited, current⟩ =
      .inl ⟨chain ++ [current], current :: visited, next⟩ := by
  rw [chainStep, if_neg hzero]
  dsimp only
  rw [if_neg hmem, hnext]

theorem circularStep_zero (h : current = 0) (m : DependencyMaps) (id : Id) :
    circularStep m id (visited, current) = .inr false :=
  if_pos h

theorem circularStep_back {m : DependencyMaps} (hzero : current ≠ 0)
    (h : current = id ∨ current ∈ visited) : circularStep m id (visited, current) = .inr true := by
  rw [circularStep, if_neg hzero]
  split_ifs with hid hmem
  · rfl
  · rfl
  · exact absurd h (not_or.2 ⟨hid, hmem⟩)

theorem circularStep_end {m : DependencyMaps} (hzero : current ≠ 0) (hid : current ≠ id)
    (hmem : current ∉ visited) (hnext : m.next current = none) :
    circularStep m id (visited, current) = .inr false := by
  rw [circularStep, if_neg hzero, if_neg hid, if_neg hmem, hnext]

theorem circularStep_next {m : DependencyMaps} (hzero : current ≠ 0) (hid : current ≠ id)
    (hmem : current ∉ visited) (hnext : m.next current = some next) :
    circularStep m id (visited, current) = .inl (current :: visited, next) := by
  rw [circularStep, if_neg hzero, if_neg hid, if_neg hmem, hnext]

end Steps

/-- The walkers leave their loops side by side, after one more id: the one is back at the rule or at
a visited id exactly if the other repeats it. -/
theorem AtHead.walksOn_last (h : AtHead allRules visited current) {id : Id} (hzero : current ≠ 0)
    (hlast : current ∈ visited ∨ (dependencyMaps allRules).next current = none) :
    WalksOn allRules id visited current [current] := by
  have hlength := h.length_le
  refine ⟨⟨1, Loop.run_succ_of_exit ?_ 0⟩, by simpa using hlength, h.linked, by simp, fun hid ↦ ?_⟩
  · by_cases hmem : current ∈ visited
    · exact chainStep_visited hzero hmem _
    · exact chainStep_end hzero hmem (hlast.resolve_left hmem) _
  · by_cases hback : current = id ∨ current ∈ visited
    · refine ⟨true, ⟨1, Loop.run_succ_of_exit (circularStep_back hzero hback) 0⟩,
        iff_of_true rfl ?_⟩
      intro hnodup
      rcases hback with rfl | hmem
      · exact (List.nodup_cons.1 hnodup).1 (by simp)
      · exact (List.nodup_append.1 (List.nodup_cons.1 hnodup).2).2.2 current (by simpa using hmem)
          current (by simp) rfl
    · rw [not_or] at hback
      have hnext := hlast.resolve_left hback.2
      refine ⟨false, ⟨1, Loop.run_succ_of_exit (circularStep_end hzero hback.1 hback.2 hnext) 0⟩,
        iff_of_false Bool.false_ne_true (not_not.2 ?_)⟩
      have hnodup : (visited.reverse ++ [current]).Nodup := by
        rw [List.nodup_append_comm, List.singleton_append, List.nodup_cons, List.nodup_reverse,
          List.mem_reverse]
        exact ⟨hback.2, h.nodup⟩
      refine List.nodup_cons.2 ⟨?_, hnodup⟩
      simpa [hid] using Ne.symm hback.1

/-- The walkers come to an end side by side. -/
theorem AtHead.exists_walksOn (h : AtHead allRules visited current) (id : Id) :
    ∃ rest, WalksOn allRules id visited current rest := by
  induction hμ : unvisited (allRules.map fun q ↦ q.id) visited using Nat.strong_induction_on
    generalizing visited current with
  | _ μ ih =>
    -- an id of zero stands for no rule, and both loops end there
    by_cases hzero : current = 0
    · have hlength := h.length_le
      refine ⟨[], ⟨1, ?_⟩, ?_, ?_, by simp, fun hid ↦ ⟨false, ⟨1, ?_⟩, ?_⟩⟩
      · rw [Loop.run_succ_of_exit (chainStep_zero hzero _ _), List.append_nil]
      · rw [List.length_nil]
        omega
      · rw [List.append_nil]
        exact h.linked.left_of_append
      · exact Loop.run_succ_of_exit (circularStep_zero hzero _ _) 0
      · refine iff_of_false Bool.false_ne_true (not_not.2 ?_)
        simpa [hid] using h.nodup
    by_cases hmem : current ∈ visited
    · exact ⟨[current], h.walksOn_last hzero (.inl hmem)⟩
    rcases hnext : (dependencyMaps allRules).next current with - | next
    · exact ⟨[current], h.walksOn_last hzero (.inr hnext)⟩
    -- both loops go on, with one id less to visit
    have hless : unvisited (allRules.map fun q ↦ q.id) (current :: visited) < μ :=
      hμ ▸ unvisited_cons_lt h.currentListed hmem
    obtain ⟨rest, hrest⟩ := ih _ hless (h.advance hmem hnext) rfl
    have hchain :
        (current :: visited).reverse ++ rest = visited.reverse ++ current :: rest := by simp
    refine ⟨current :: rest, ?_, ?_, hchain ▸ hrest.linked, by simp, fun hid ↦ ?_⟩
    · obtain ⟨fuel, hfuel⟩ := hrest.chain
      refine ⟨fuel + 1, ?_⟩
      rw [Loop.run_succ_of_continue (chainStep_next hzero hmem hnext _), ← hchain]
      simpa using hfuel
    · have hlength := hrest.length
      rw [List.length_cons] at hlength ⊢
      omega
    · -- only the walker that looks for circles stops when it is back at the rule
      by_cases hback : current = id
      · refine ⟨true, ⟨1, Loop.run_succ_of_exit (circularStep_back hzero (.inl hback)) 0⟩,
          iff_of_true rfl fun hnodup ↦ (List.nodup_cons.1 hnodup).1 ?_⟩
        rw [hback]
        simp
      · obtain ⟨answer, ⟨fuel, hfuel⟩, hanswer⟩ := hrest.circular (by simp [hid, Ne.symm hback])
        refine ⟨answer, ⟨fuel + 1, ?_⟩, hchain ▸ hanswer⟩
        rwa [Loop.run_succ_of_continue (circularStep_next hzero hback hmem hnext)]

end Walkers

/-- The chain begins with the rule, which waits for the second entry, and every further entry is an
id that a listed rule with the previous id waits for. -/
def ChainOf (allRules : List Rule) (r : Rule) (chain : List Id) : Prop :=
  ∃ rest, chain = r.id :: rest ∧ (∀ i ∈ rest.head?, r.LinksTo allRules i) ∧
    rest.IsChain (Linked allRules)

/-- **The chain walkers are consistent**: both come to an end; the chain is linked and has at most
two entries more than there are rules; and there is a circular dependency exactly if an id is
repeated. -/
theorem chain_walkers_consistent (allRules : List Rule) (r : Rule) :
    (∃ chain, r.GetDependencyChain allRules chain) ∧
      (∃ answer, r.HasCircularDependency allRules answer) ∧
      ∀ chain answer, r.GetDependencyChain allRules chain →
        r.HasCircularDependency allRules answer →
        chain.length ≤ allRules.length + 2 ∧ ChainOf allRules r chain ∧
          (answer = true ↔ ∃ i, 2 ≤ chain.count i) := by
  simp only [Rule.GetDependencyChain, Rule.HasCircularDependency]
  rcases hfirst : r.dependsOnRuleName.bind (dependencyMaps allRules).nameToId with - | first
  · refine ⟨⟨_, rfl⟩, ⟨_, rfl⟩, ?_⟩
    rintro chain answer rfl rfl
    refine ⟨by simp, ⟨[], rfl, by simp, .nil⟩, iff_of_false Bool.false_ne_true ?_⟩
    rintro ⟨i, hi⟩
    exact absurd (hi.trans List.count_le_length) (Nat.not_succ_le_self 1)
  · have hlinks : r.LinksTo allRules first := linksTo_of_nameToId hfirst
    have hhead : AtHead allRules [] first :=
      ⟨List.nodup_nil, fun _ hi ↦ absurd hi List.not_mem_nil, hlinks.mem_ids, .singleton first⟩
    obtain ⟨rest, hrest⟩ := hhead.exists_walksOn r.id
    obtain ⟨answer, hanswer, hiff⟩ := hrest.circular List.not_mem_nil
    refine ⟨⟨_, hrest.chain⟩, ⟨answer, hanswer⟩, fun chain answer' hchain hanswer' ↦ ?_⟩
    obtain rfl := hrest.chain.unique hchain
    obtain rfl := hanswer.unique hanswer'
    have hlength := hrest.length
    refine ⟨?_, ⟨rest, rfl, ?_, hrest.linked⟩, hiff.trans ?_⟩
    · simp at hlength ⊢
      omega
    · intro i hi
      rwa [hrest.head i hi]
    · simp only [← List.duplicate_iff_two_le_count]
      exact List.exists_duplicate_iff_not_nodup.symm

end FastRules
