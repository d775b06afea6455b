import FastRules.Workflow.Levels

/-!
# The levels are the distances to the end of the dependency chain

Where a name that some rule depends on belongs to one rule only, a rule is ready exactly when the
rule it depends on is done (`ready_iff`). The levelling then throws exactly on cyclic dependencies,
and otherwise every rule sits one level above its dependency.
-/

namespace FastRules

open Layers Descent

/-- `d` is listed under the name that `r` depends on. -/
def DependsOn (rules : List Rule) (r d : Rule) : Prop :=
  r ∈ rules ∧ d ∈ rules ∧ r.dependsOnRuleName = some d.name

/-- Names that rules depend on: each belongs to one rule at most and is free of NUL bytes. -/
structure UniqueDependencyNames (rules : List Rule) : Prop where
  eq_of_name : ∀ r ∈ rules, ∀ n, r.dependsOnRuleName = some n →
    ∀ a ∈ rules, ∀ b ∈ rules, a.name = n → b.name = n → a = b
  nulFree : ∀ r ∈ rules, ∀ n, r.dependsOnRuleName = some n → NulFree n

variable {rules : List Rule} {levels : List (List Rule)} {order : HashOrder Rule}

/-! ### Readiness -/

theorem isCounted_iff_dependsOn (hnul : ∀ r ∈ rules, ∀ n, r.dependsOnRuleName = some n → NulFree n)
    {r : Rule} (hr : r ∈ rules) : isCounted rules r = true ↔ ∃ d, DependsOn rules r d := by
  rw [isCounted_iff]
  constructor
  · rintro ⟨n, hn, d, hd, hname⟩
    exact ⟨d, hr, hd, by rw [hn, hname, cStr_eq_self (hnul r hr n hn)]⟩
  · rintro ⟨d, -, hd, hdep⟩
    exact ⟨d.name, hdep, d, hd, (cStr_eq_self (hnul r hr _ hdep)).symm⟩

section Unique

variable (h : UniqueDependencyNames rules) {done : List Rule} (hnodup : done.Nodup)
  (hsub : ∀ q ∈ done, q ∈ rules) {r d : Rule}
include h hnodup hsub

omit hnodup in
/-- The rules that end the waiting are the dependencies. -/
theorem UniqueDependencyNames.eq_of_waitsOn (hrd : DependsOn rules r d) {q : Rule} (hq : q ∈ done)
    (hwait : waitsOn q r = true) : q = d :=
  h.eq_of_name r hrd.1 _ (waitsOn_iff.1 hwait) q (hsub q hq) d hrd.2.1 rfl
    (Option.some.inj (hrd.2.2.symm.trans (waitsOn_iff.1 hwait)))

/-- With unique names, ready means that the dependency is done. -/
theorem UniqueDependencyNames.ready_iff (hr : r ∈ rules) :
    Ready rules done r ↔ ∀ d, DependsOn rules r d → d ∈ done := by
  by_cases hex : ∃ d, DependsOn rules r d
  · obtain ⟨d, hrd⟩ := hex
    have hcharge : charge rules r = 1 :=
      if_pos ((isCounted_iff_dependsOn h.nulFree hr).2 ⟨d, hrd⟩)
    rw [Ready, hcharge]
    rw [hits_eq_one_iff hnodup]
    constructor
    · rintro ⟨q, hq, hwait, -⟩ e hre
      exact h.eq_of_waitsOn hsub hre hq hwait ▸ hq
    · exact fun hall ↦ ⟨d, hall d hrd, waitsOn_iff.2 hrd.2.2,
        fun q hq hwait ↦ h.eq_of_waitsOn hsub hrd hq hwait⟩
  · have hcharge : charge rules r = 0 :=
      if_neg fun hc ↦ hex ((isCounted_iff_dependsOn h.nulFree hr).1 hc)
    have hhits : hits done r = 0 := hits_eq_zero_iff.2 fun q hq hwait ↦
      hex ⟨q, hr, hsub q hq, waitsOn_iff.1 hwait⟩
    rw [Ready, hcharge, hhits]
    exact ⟨fun _ d hrd ↦ absurd ⟨d, hrd⟩ hex, fun _ ↦ rfl⟩

end Unique

/-! ### The levels -/

/-- Between two rules of one level, first comes the lower priority, then the earlier listed. -/
def PriorityOrder (rules : List Rule) (a b : Rule) : Prop :=
  a.priority < b.priority ∨ a.priority = b.priority ∧ [a, b].Sublist rules

theorem PriorityOrder.mono {l : List Rule} (hl : l.Sublist rules) {a b : Rule}
    (h : PriorityOrder l a b) : PriorityOrder rules a b :=
  h.imp_right fun hab ↦ ⟨hab.1, hab.2.trans hl⟩

/-- Inserting the head of a list into its sorted tail keeps the order stable. -/
theorem pairwise_orderedInsert {rule : Rule} {l sorted : List Rule} (hmem : ∀ r ∈ sorted, r ∈ l)
    (h : sorted.Pairwise (PriorityOrder l)) :
    (sorted.orderedInsert (fun a b ↦ a.priority ≤ b.priority) rule).Pairwise
      (PriorityOrder (rule :: l)) := by
  induction sorted with
  | nil => simp
  | cons b sorted ih =>
    have hmono : ∀ {a c}, PriorityOrder l a c → PriorityOrder (rule :: l) a c :=
      PriorityOrder.mono (List.sublist_cons_self rule l)
    obtain ⟨hb, htail⟩ := List.pairwise_cons.1 h
    rw [List.orderedInsert_cons]
    split_ifs with hle
    · refine List.pairwise_cons.2 ⟨fun c hc ↦ ?_, h.imp hmono⟩
      have hbc : b.priority ≤ c.priority := by
        rcases List.mem_cons.1 hc with rfl | hc
        · exact le_rfl
        · exact (hb c hc).elim le_of_lt fun hbc ↦ hbc.1.le
      rcases (hle.trans hbc).lt_or_eq with hlt | heq
      · exact Or.inl hlt
      · exact Or.inr ⟨heq, (List.singleton_sublist.2 (hmem c hc)).cons_cons rule⟩
    · refine List.pairwise_cons.2
        ⟨fun c hc ↦ ?_, ih (fun r hr ↦ hmem r (List.mem_cons_of_mem b hr)) htail⟩
      rcases (List.mem_orderedInsert _).1 hc with rfl | hc
      · exact Or.inl (not_le.1 hle)
      · exact hmono (hb c hc)

/-- `std::stable_sort` by priority is what its name says. -/
theorem sortByPriority_pairwise (l : List Rule) :
    (sortByPriority l).Pairwise (PriorityOrder l) := by
  induction l with
  | nil => exact List.Pairwise.nil
  | cons rule l ih => exact pairwise_orderedInsert (fun r hr ↦ mem_sortByPriority.1 hr) ih

section Levels

variable (hrules : DistinctIds rules) (h : UniqueDependencyNames rules)
include hrules h

/-- A levelling that succeeds puts each rule one level above its dependency. -/
theorem dependsOn_succ_level (hok : buildDependencyLevels order rules = .ok levels) {r d : Rule}
    (hrd : DependsOn rules r d) : ∃ i, At levels i d ∧ At levels (i + 1) r := by
  obtain ⟨hlay, hall, -⟩ := buildDependencyLevels_ok hrules hok
  obtain ⟨k, hk⟩ := mem_flatten_iff.1 (hall r hrd.1)
  have hready : ∀ i, Ready rules (before levels i) r ↔ ∀ e, DependsOn rules r e →
    e ∈ before levels i :=
    fun i ↦ h.ready_iff (hlay.before_nodup i) (fun _ ↦ hlay.mem_nodes_of_mem_before) hrd.1
  obtain ⟨i, hi, hd⟩ := mem_before_iff.1 ((hready k).1 (hlay.ready_of_at hk) d hrd)
  refine ⟨i, hd, ?_⟩
  rcases Nat.lt_or_ge (i + 1) k with hlt | hge
  · -- the dependency is done before level `i + 1`, so the rule would not have waited for level `k`
    refine absurd ((hready (i + 1)).2 fun e hre ↦ ?_) (hlay.not_ready_of_lt hk hlt)
    have hed : e = d := h.eq_of_name r hrd.1 _ hre.2.2 e hre.2.1 d hrd.2.1 rfl
      (Option.some.inj (hrd.2.2.symm.trans hre.2.2))
    exact mem_before_iff.2 ⟨i, Nat.lt_succ_self i, hed ▸ hd⟩
  · obtain rfl : k = i + 1 := by omega
    exact hk

/-- A rule whose dependency does not resolve is in level zero. -/
theorem no_dependency_level_zero (hok : buildDependencyLevels order rules = .ok levels) {r : Rule}
    (hr : r ∈ rules) (hno : ∀ d, ¬DependsOn rules r d) : At levels 0 r := by
  obtain ⟨hlay, hall, -⟩ := buildDependencyLevels_ok hrules hok
  obtain ⟨k, hk⟩ := mem_flatten_iff.1 (hall r hr)
  rcases Nat.eq_zero_or_pos k with rfl | hpos
  · exact hk
  · refine absurd ?_ (hlay.not_ready_of_lt hk hpos)
    exact (h.ready_iff (hlay.before_nodup 0) (fun _ ↦ hlay.mem_nodes_of_mem_before) hr).2
      fun d hd ↦ absurd hd (hno d)

/-- The levelling throws exactly on cyclic dependencies. -/
theorem buildDependencyLevels_throws_iff :
    (∃ message, buildDependencyLevels order rules = .error message) ↔
      ∃ r, OnCycle (DependsOn rules) r := by
  constructor
  · rintro ⟨message, herr⟩
    obtain ⟨-, levels, hlay, ⟨r, hr, hrout⟩, hstuck⟩ := buildDependencyLevels_error hrules herr
    -- every rule left over waits for another rule left over
    classical
    let left := rules.filter fun r ↦ r ∉ levels.flatten
    have hleft : ∀ {q}, q ∈ left ↔ q ∈ rules ∧ q ∉ levels.flatten := by
      intro q
      simp [left]
    obtain ⟨x, -, hx⟩ := exists_onCycle (R := DependsOn rules)
      (List.ne_nil_of_mem (hleft.2 ⟨hr, hrout⟩)) fun q hq ↦ by
        obtain ⟨hqr, hqout⟩ := hleft.1 hq
        have hnot := hstuck q hqr hqout
        rw [h.ready_iff hlay.flatten_nodup (fun _ ↦ hlay.mem_nodes_of_mem_flatten) hqr] at hnot
        push Not at hnot
        obtain ⟨d, hqd, hd⟩ := hnot
        exact ⟨d, hleft.2 ⟨hqd.2.1, hd⟩, hqd⟩
    exact ⟨x, hx⟩
  · rintro ⟨r, hr⟩
    rcases hout : buildDependencyLevels order rules with message | levels
    · exact ⟨message, rfl⟩
    · -- levels rank the rules, so there is no cycle
      obtain ⟨hlay, hall, -⟩ := buildDependencyLevels_ok hrules hout
      obtain ⟨d, hrd, -⟩ := hr.exists_succ
      obtain ⟨i, hi⟩ := mem_flatten_iff.1 (hall r hrd.1)
      refine absurd hr (not_onCycle_of_rank (ρ := fun x i ↦ At levels i x) ?_ hi)
      intro x i hx y hxy
      obtain ⟨j, hy, hx'⟩ := dependsOn_succ_level hrules h hout hxy
      have := hlay.at_unique hx hx'
      exact ⟨j, by omega, hy⟩

omit h in
/-- Inside a level the rules are in order of priority, ties in the order of the workflow. -/
theorem level_pairwise (hok : buildDependencyLevels order rules = .ok levels) {level : List Rule}
    (hlevel : level ∈ levels) : level.Pairwise (PriorityOrder rules) := by
  obtain ⟨-, -, hsorted⟩ := buildDependencyLevels_ok hrules hok
  obtain ⟨l, hl, rfl⟩ := hsorted level hlevel
  exact (sortByPriority_pairwise l).imp (PriorityOrder.mono hl)

end Levels

/-- **Dependency levelling is correct.** The loop ends; it throws exactly when the dependencies are
cyclic; otherwise its levels partition the rules, a rule stands directly above its dependency, and a
level is sorted by priority with ties in the order of the workflow. -/
theorem buildDependencyLevels_correct (order : HashOrder Rule) (rules : List Rule)
    (hrules : DistinctIds rules) (hnames : UniqueDependencyNames rules) :
    Loop.Returns (kahnStep rules) (kahnInit order rules) (buildDependencyLevels order rules) ∧
      ((∃ message, buildDependencyLevels order rules = .error message) ↔
        ∃ r, OnCycle (DependsOn rules) r) ∧
      ∀ levels, buildDependencyLevels order rules = .ok levels →
        levels.flatten.Perm rules ∧
        (∀ r d, DependsOn rules r d → ∃ i, At levels i d ∧ At levels (i + 1) r) ∧
        (∀ r ∈ rules, (∀ d, ¬DependsOn rules r d) → At levels 0 r) ∧
        ∀ level ∈ levels, level.Pairwise (PriorityOrder rules) := by
  refine ⟨buildDependencyLevels_returns order rules,
    buildDependencyLevels_throws_iff hrules hnames, fun levels hok ↦ ⟨?_, ?_, ?_, ?_⟩⟩
  · obtain ⟨hlay, hall, -⟩ := buildDependencyLevels_ok hrules hok
    exact hlay.flatten_perm hrules.nodup hall
  · exact fun r d ↦ dependsOn_succ_level hrules hnames hok
  · exact fun r ↦ no_dependency_level_zero hrules hnames hok
  · exact fun level ↦ level_pairwise hrules hok

/-- A rule listed before the rule it depends on. -/
def guardedPair : List Rule :=
  [{ id := 1, name := "B", dependsOnRuleName := some "A" }, { id := 2, name := "A" }]

theorem guardedPair_uniqueNames : UniqueDependencyNames guardedPair where
  eq_of_name := by
    simp [guardedPair]
  nulFree := by
    simp [guardedPair, NulFree]

theorem buildDependencyLevels_correct_guardedPair :
    DistinctIds guardedPair ∧ UniqueDependencyNames guardedPair ∧
      ((∃ message, buildDependencyLevels (HashOrder.insertion Rule) guardedPair = .error message) ↔
        ∃ r, OnCycle (DependsOn guardedPair) r) :=
  have hids : DistinctIds guardedPair := by decide
  ⟨hids, guardedPair_uniqueNames,
    (buildDependencyLevels_correct (HashOrder.insertion Rule) guardedPair hids
      guardedPair_uniqueNames).2.1⟩

end FastRules
