import FastRules.Workflow.Validate

/-!
# The graph of a list of rules

Which edges `ruleGraph` has, read off the list instead of the loop that fills the maps. A rule has
an edge to each direct child with an id. For its dependency it has at most one edge, to the rule
that the name denotes when the loop comes to the rule: itself if it carries the name, otherwise the
last rule before it that does.
-/

namespace FastRules

namespace RuleGraph

variable {g : RuleGraph} {parent i j : Id} {children : List Rule} {r : Rule}

theorem mem_addId_ids {id : Id} : j ∈ (g.addId id).ids ↔ j ∈ g.ids ∨ j = id := by
  rw [addId]
  dsimp only
  split_ifs with h
  · exact ⟨Or.inl, fun hj ↦ hj.elim (fun hmem ↦ hmem) (fun he ↦ he ▸ h)⟩
  · simp

theorem mem_addEdge_adjacency {source target : Id} :
    j ∈ (g.addEdge source target).adjacency i ↔
      j ∈ g.adjacency i ∨ i = source ∧ j = target := by
  show j ∈ Function.update g.adjacency source (g.adjacency source ++ [target]) i ↔ _
  rcases eq_or_ne i source with rfl | hne
  · simp
  · simp [hne]

/-! ### The children of a rule -/

theorem mem_addChildren_adjacency :
    j ∈ (children.foldl (addChild parent) g).adjacency i ↔
      j ∈ g.adjacency i ∨ i = parent ∧ ∃ c ∈ children, c.id ≠ 0 ∧ c.id = j := by
  induction children generalizing g with
  | nil => simp
  | cons c children ih =>
    rw [List.foldl_cons, ih, addChild]
    split_ifs with hc
    · have hadd : j ∈ ((g.addEdge parent c.id).addId c.id).adjacency i ↔
          j ∈ g.adjacency i ∨ i = parent ∧ j = c.id := mem_addEdge_adjacency
      rw [hadd]
      constructor
      · rintro ((h | ⟨hi, hj⟩) | ⟨hi, d, hd, hj⟩)
        · exact .inl h
        · exact .inr ⟨hi, c, List.mem_cons_self, hc, hj.symm⟩
        · exact .inr ⟨hi, d, List.mem_cons_of_mem c hd, hj⟩
      · rintro (h | ⟨hi, d, hd, hj⟩)
        · exact .inl (.inl h)
        · rcases List.mem_cons.1 hd with rfl | hd
          · exact .inl (.inr ⟨hi, hj.2.symm⟩)
          · exact .inr ⟨hi, d, hd, hj⟩
    · simp [not_not.1 hc]

theorem mem_addChildren_ids :
    j ∈ (children.foldl (addChild parent) g).ids ↔
      j ∈ g.ids ∨ ∃ c ∈ children, c.id ≠ 0 ∧ c.id = j := by
  induction children generalizing g with
  | nil => simp
  | cons c children ih =>
    rw [List.foldl_cons, ih, addChild]
    split_ifs with hc
    · rw [mem_addId_ids]
      constructor
      · rintro ((h | h) | ⟨d, hd, hj⟩)
        · exact .inl h
        · exact .inr ⟨c, List.mem_cons_self, hc, h.symm⟩
        · exact .inr ⟨d, List.mem_cons_of_mem c hd, hj⟩
      · rintro (h | ⟨d, hd, hj⟩)
        · exact .inl (.inl h)
        · rcases List.mem_cons.1 hd with rfl | hd
          · exact .inl (.inr hj.2.symm)
          · exact .inr ⟨d, hd, hj⟩
    · simp [not_not.1 hc]

theorem addChildren_ruleByName :
    (children.foldl (addChild parent) g).ruleByName = g.ruleByName := by
  induction children generalizing g with
  | nil => rfl
  | cons c children ih =>
    rw [List.foldl_cons, ih, addChild]
    split_ifs <;> rfl

/-! ### One rule -/

/-- What names denote once the rule has been entered. -/
def namesWith (g : RuleGraph) (r : Rule) : String → Option Id :=
  if r.name ≠ "" then Function.update g.ruleByName r.name (some r.id) else g.ruleByName

/-- The rule its dependency leads to. -/
def target (g : RuleGraph) (r : Rule) : Option Id :=
  r.dependsOnRuleName.bind (g.namesWith r)

/-- The maps after the rule's id and name, before its edges. -/
def enter (g : RuleGraph) (r : Rule) : RuleGraph :=
  { g.addId r.id with ruleByName := g.namesWith r }

theorem addRule_eq (g : RuleGraph) (r : Rule) :
    g.addRule r = r.childRules.foldl (addChild r.id) ((g.enter r).addDependency r) := by
  rw [addRule, enter, namesWith]
  split_ifs <;> rfl

theorem addRule_ruleByName : (g.addRule r).ruleByName = g.namesWith r := by
  rw [addRule_eq, addChildren_ruleByName, addDependency]
  split <;> rfl

theorem mem_addRule_adjacency :
    j ∈ (g.addRule r).adjacency i ↔
      j ∈ g.adjacency i ∨
        i = r.id ∧ (g.target r = some j ∨ ∃ c ∈ r.childRules, c.id ≠ 0 ∧ c.id = j) := by
  have hdep : j ∈ ((g.enter r).addDependency r).adjacency i ↔
      j ∈ g.adjacency i ∨ i = r.id ∧ g.target r = some j := by
    rw [addDependency, target]
    split
    · rename_i t ht
      have ht' : r.dependsOnRuleName.bind (g.namesWith r) = some t := ht
      rw [mem_addEdge_adjacency, ht', Option.some.injEq, eq_comm (a := j)]
      rfl
    · rename_i ht
      have ht' : r.dependsOnRuleName.bind (g.namesWith r) = none := ht
      rw [ht']
      simp [enter, addId]
  rw [addRule_eq, mem_addChildren_adjacency, hdep, or_assoc, ← and_or_left]

theorem mem_addRule_ids :
    j ∈ (g.addRule r).ids ↔ j ∈ g.ids ∨ j = r.id ∨ ∃ c ∈ r.childRules, c.id ≠ 0 ∧ c.id = j := by
  have hdep : ((g.enter r).addDependency r).ids = (g.addId r.id).ids := by
    rw [addDependency]
    split <;> rfl
  rw [addRule_eq, mem_addChildren_ids, hdep, mem_addId_ids, or_assoc]

end RuleGraph

/-! ### All rules -/

variable {l : List Rule} {r : Rule} {i j : Id}

theorem ruleGraph_concat (l : List Rule) (r : Rule) :
    ruleGraph (l ++ [r]) = (ruleGraph l).addRule r :=
  List.foldl_concat _ _ _ _

theorem mem_ruleGraph_ids :
    j ∈ (ruleGraph l).ids ↔
      ∃ r ∈ l, j = r.id ∨ ∃ c ∈ r.childRules, c.id ≠ 0 ∧ c.id = j := by
  induction l using List.reverseRecOn with
  | nil => simp [ruleGraph]
  | append_singleton l r ih =>
    rw [ruleGraph_concat, RuleGraph.mem_addRule_ids, ih]
    simp [or_and_right, exists_or]

/-- A name denotes an id that its owner has. -/
theorem ruleByName_eq_some {n : String} (h : (ruleGraph l).ruleByName n = some j) :
    n ≠ "" ∧ ∃ d ∈ l, d.name = n ∧ d.id = j := by
  induction l using List.reverseRecOn with
  | nil => cases h
  | append_singleton l r ih =>
    rw [ruleGraph_concat, RuleGraph.addRule_ruleByName, RuleGraph.namesWith] at h
    have hold : (ruleGraph l).ruleByName n = some j → n ≠ "" ∧ ∃ d ∈ l ++ [r], d.name = n ∧
      d.id = j := by
      intro h
      obtain ⟨hn, d, hd, hdn⟩ := ih h
      exact ⟨hn, d, List.mem_append_left [r] hd, hdn⟩
    split_ifs at h with hname
    · rcases eq_or_ne n r.name with rfl | hne
      · rw [Function.update_self] at h
        exact ⟨hname, r, by simp, rfl, Option.some.inj h⟩
      · rw [Function.update_of_ne hne] at h
        exact hold h
    · exact hold h

/-- The rule has an edge when the rules before it are `earlier`. -/
def HasEdge (earlier : List Rule) (r : Rule) (j : Id) : Prop :=
  (ruleGraph earlier).target r = some j ∨ ∃ c ∈ r.childRules, c.id ≠ 0 ∧ c.id = j

theorem mem_ruleGraph_adjacency :
    j ∈ (ruleGraph l).adjacency i ↔
      ∃ earlier r later, l = earlier ++ r :: later ∧ r.id = i ∧ HasEdge earlier r j := by
  induction l using List.reverseRecOn with
  | nil => simp [ruleGraph]
  | append_singleton l r ih =>
    rw [ruleGraph_concat, RuleGraph.mem_addRule_adjacency, ih]
    constructor
    · rintro (⟨earlier, q, later, rfl, hi, hedge⟩ | ⟨hi, hedge⟩)
      · exact ⟨earlier, q, later ++ [r], by simp, hi, hedge⟩
      · exact ⟨l, r, [], rfl, hi.symm, hedge⟩
    · rintro ⟨earlier, q, later, heq, hi, hedge⟩
      rcases List.eq_nil_or_concat later with rfl | ⟨later', x, rfl⟩
      · obtain ⟨rfl, hqr⟩ := List.append_inj' heq rfl
        obtain rfl : r = q := List.singleton_injective hqr
        exact .inr ⟨hi.symm, hedge⟩
      · have heq' : l ++ [r] = (earlier ++ q :: later') ++ [x] := by simpa using heq
        obtain ⟨rfl, -⟩ := List.append_inj' heq' rfl
        exact .inl ⟨earlier, q, later', rfl, hi, hedge⟩

/-- The edges of the graph. Every edge leads to a node. -/
theorem ruleGraph_edge_iff :
    (ruleGraph l).Edge i j ↔
      ∃ earlier r later, l = earlier ++ r :: later ∧ r.id = i ∧ HasEdge earlier r j := by
  refine Iff.trans (and_iff_left_of_imp fun hadj ↦ ?_) mem_ruleGraph_adjacency
  obtain ⟨earlier, r, later, rfl, -, htarget | hchild⟩ := mem_ruleGraph_adjacency.1 hadj
  · rw [RuleGraph.target, Option.bind_eq_some_iff] at htarget
    obtain ⟨n, -, hn⟩ := htarget
    rw [← RuleGraph.addRule_ruleByName, ← ruleGraph_concat] at hn
    obtain ⟨-, d, hd, -, rfl⟩ := ruleByName_eq_some hn
    have hlisted : earlier ++ r :: later = earlier ++ [r] ++ later := by simp
    exact mem_ruleGraph_ids.2 ⟨d, hlisted ▸ List.mem_append_left later hd, .inl rfl⟩
  · exact mem_ruleGraph_ids.2 ⟨r, by simp, .inr hchild⟩

/-- A direct child of a listed rule is seen wherever the rule is listed. -/
theorem ruleGraph_edge_child {c : Rule} (hr : r ∈ l) (hc : c ∈ r.childRules) (hid : c.id ≠ 0) :
    (ruleGraph l).Edge r.id c.id := by
  obtain ⟨earlier, later, rfl⟩ := List.append_of_mem hr
  exact ruleGraph_edge_iff.2 ⟨earlier, r, later, rfl, rfl, .inr ⟨c, hc, hid, rfl⟩⟩

/-! ### What a dependency leads to -/

theorem target_eq_some {earlier : List Rule} (h : (ruleGraph earlier).target r = some j) :
    ∃ n, r.dependsOnRuleName = some n ∧ n ≠ "" ∧
      if r.name = n then j = r.id else ∃ d ∈ earlier, d.name = n ∧ d.id = j := by
  obtain ⟨n, hn, hname⟩ := Option.bind_eq_some_iff.1 h
  refine ⟨n, hn, ?_⟩
  rw [RuleGraph.namesWith] at hname
  rcases eq_or_ne r.name n with rfl | hself
  · rw [if_pos rfl]
    split_ifs at hname with hne
    · rw [Function.update_self] at hname
      exact ⟨hne, (Option.some.inj hname).symm⟩
    · exact absurd (not_not.1 hne) (ruleByName_eq_some hname).1
  · rw [if_neg hself]
    split_ifs at hname
    · rw [Function.update_of_ne hself.symm] at hname
      exact ruleByName_eq_some hname
    · exact ruleByName_eq_some hname

/-- A rule that carries the name it depends on depends on itself. -/
theorem target_self {earlier : List Rule} (hne : r.name ≠ "")
    (hdep : r.dependsOnRuleName = some r.name) : (ruleGraph earlier).target r = some r.id := by
  rw [RuleGraph.target, hdep, Option.bind_some, RuleGraph.namesWith, if_pos hne,
    Function.update_self]

/-- Otherwise the name denotes the rule just before it, if that carries the name. -/
theorem target_previous {earlier : List Rule} {d : Rule} (hne : d.name ≠ "")
    (hdep : r.dependsOnRuleName = some d.name) (hself : r.name ≠ d.name) :
    (ruleGraph (earlier ++ [d])).target r = some d.id := by
  have hd : (ruleGraph (earlier ++ [d])).ruleByName d.name = some d.id := by
    rw [ruleGraph_concat, RuleGraph.addRule_ruleByName, RuleGraph.namesWith, if_pos hne,
      Function.update_self]
  rw [RuleGraph.target, hdep, Option.bind_some, RuleGraph.namesWith]
  split_ifs
  · rwa [Function.update_of_ne hself.symm]
  · exact hd

end FastRules
