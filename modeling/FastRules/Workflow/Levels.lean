import FastRules.Foundations.Descent
import FastRules.Foundations.Layers
import FastRules.Foundations.Loop
import FastRules.Rule.Basic
import Mathlib.Data.List.Sort
import Mathlib.Logic.Function.Basic
import Mathlib.Data.List.Count
import Mathlib.Tactic.Ring

/-!
# Dependency levels

`Workflow::buildDependencyLevels`: Kahn's algorithm over the rules of a workflow, with the in-degree
of a rule counted by name and the levels read off the original vector.

The loop is an iterated pass (`kahnStep`) over an explicit state. What a pass does is said once, in
`KahnState.Inv`: the remaining map holds the rules without a level, and the in-degree of each of
them is its initial count (`charge`) minus the number of finished rules carrying the name it depends
on (`hits`). Everything about the output follows from `KahnState.Inv.layering`: the levels are the
layering of the rules whose readiness predicate is `Ready`, whatever the iteration order of the hash
map.
-/

namespace FastRules

open Layers

/-! ### Hash maps keyed by rule ids -/

/-- `ruleMap[rule->id] = rule`. The key of an entry is always the id of its value. -/
def insertById (m : List Rule) (rule : Rule) : List Rule :=
  m.filter (fun r ↦ r.id ≠ rule.id) ++ [rule]

/-- The map from ids to rules, in iteration order. -/
def ruleMapOf (order : HashOrder Rule) (rules : List Rule) : List Rule :=
  order.visit (rules.foldl insertById [])

/-- Rules whose ids are pairwise distinct. -/
def DistinctIds (rules : List Rule) : Prop :=
  (rules.map fun r ↦ r.id).Nodup

instance (rules : List Rule) : Decidable (DistinctIds rules) :=
  inferInstanceAs (Decidable (List.Nodup _))

theorem DistinctIds.nodup {rules : List Rule} (h : DistinctIds rules) : rules.Nodup :=
  List.Nodup.of_map _ h

theorem DistinctIds.inj {rules : List Rule} (h : DistinctIds rules) {r q : Rule} (hr : r ∈ rules)
    (hq : q ∈ rules) (heq : r.id = q.id) : r = q :=
  List.inj_on_of_nodup_map h hr hq heq

theorem DistinctIds.sublist {rules l : List Rule} (h : DistinctIds rules) (hl : l.Sublist rules) :
    DistinctIds l :=
  List.Nodup.sublist (hl.map _) h

theorem DistinctIds.perm {rules l : List Rule} (h : DistinctIds rules) (hl : l.Perm rules) :
    DistinctIds l :=
  (hl.map _).nodup_iff.2 h

theorem length_insertById_le (m : List Rule) (rule : Rule) :
    (insertById m rule).length ≤ m.length + 1 := by
  rw [insertById, List.length_append, List.length_singleton]
  exact Nat.add_le_add_right (List.length_filter_le _ _) 1

theorem length_foldl_insertById_le (m rules : List Rule) :
    (rules.foldl insertById m).length ≤ m.length + rules.length := by
  induction rules generalizing m with
  | nil => simp
  | cons rule rules ih =>
    have h := ih (insertById m rule)
    have h' := length_insertById_le m rule
    rw [List.foldl_cons, List.length_cons]
    omega

theorem length_ruleMapOf_le (order : HashOrder Rule) (rules : List Rule) :
    (ruleMapOf order rules).length ≤ rules.length := by
  rw [ruleMapOf, (order.perm _).length_eq]
  simpa using length_foldl_insertById_le [] rules

/-- Inserting rules of new, distinct ids appends them. -/
theorem foldl_insertById {m rules : List Rule} (h : DistinctIds (m ++ rules)) :
    rules.foldl insertById m = m ++ rules := by
  induction rules generalizing m with
  | nil => simp
  | cons rule rules ih =>
    have hfresh : m.filter (fun r ↦ r.id ≠ rule.id) = m := by
      refine List.filter_eq_self.2 fun r hr ↦ ?_
      have := h
      rw [DistinctIds, List.map_append, List.nodup_append] at this
      simpa using this.2.2 _ (List.mem_map_of_mem hr) rule.id (by simp)
    have happ : m ++ rule :: rules = m ++ [rule] ++ rules := by simp
    rw [List.foldl_cons, insertById, hfresh, happ]
    exact ih (by rwa [happ] at h)

theorem distinctIds_insertById {m : List Rule} (h : DistinctIds m) (rule : Rule) :
    DistinctIds (insertById m rule) := by
  rw [DistinctIds, insertById, List.map_append, List.nodup_append]
  refine ⟨(h.sublist List.filter_sublist : DistinctIds _), List.nodup_singleton _, ?_⟩
  intro i hi j hj
  obtain ⟨r, hr, rfl⟩ := List.mem_map.1 hi
  rw [List.mem_singleton.1 hj]
  simpa using (List.mem_filter.1 hr).2

/-- The keys of a map are distinct. -/
theorem distinctIds_ruleMapOf (order : HashOrder Rule) (rules : List Rule) :
    DistinctIds (ruleMapOf order rules) := by
  have hfold : ∀ m, DistinctIds m → DistinctIds (rules.foldl insertById m) := by
    induction rules with
    | nil => exact fun m hm ↦ hm
    | cons rule rules ih => exact fun m hm ↦ ih _ (distinctIds_insertById hm rule)
  exact (hfold [] List.nodup_nil).perm (order.perm _)

theorem ruleMapOf_insertion {rules : List Rule} (h : DistinctIds rules) :
    ruleMapOf (HashOrder.insertion Rule) rules = rules :=
  foldl_insertById (m := []) h

/-- With distinct ids the map holds exactly the listed rules. -/
theorem ruleMapOf_perm (order : HashOrder Rule) {rules : List Rule} (h : DistinctIds rules) :
    (ruleMapOf order rules).Perm rules := by
  rw [ruleMapOf, foldl_insertById (m := []) (by simpa using h), List.nil_append]
  exact order.perm rules

/-! ### Kahn's algorithm -/

/-- The message of the `RuleValidationException` the levelling throws. -/
def circularMessage : String :=
  "Circular dependency detected in workflow"

/-- `for (r : m) if (p(r)) inDegree[r->id] += c`. -/
def adjustWhere (p : Rule → Bool) (c : Int) (m : List Rule) (inDegree : Id → Int) : Id → Int :=
  m.foldl (fun d r ↦ if p r then Function.update d r.id (d r.id + c) else d) inDegree

/-- The rule waits for some rule of the map: `r->name == dependsOnRuleName.value().c_str()`. -/
def isCounted (ruleMap : List Rule) (rule : Rule) : Bool :=
  match rule.dependsOnRuleName with
  | some n => ruleMap.any fun r ↦ r.name = cStr n
  | none => false

/-- `r->dependsOnRuleName.value() == rule->name`. -/
def waitsOn (rule r : Rule) : Bool :=
  r.dependsOnRuleName = some rule.name

/-- The variables of the `while (!ruleMap.empty())` loop. -/
structure KahnState where
  ruleMap : List Rule
  inDegree : Id → Int
  levels : List (List Rule)

/-- The state in which the loop is entered: all rules in the map, dependencies counted. -/
def kahnInit (order : HashOrder Rule) (rules : List Rule) : KahnState where
  ruleMap := ruleMapOf order rules
  inDegree := adjustWhere (isCounted (ruleMapOf order rules)) 1 rules fun _ ↦ 0
  levels := []

/-- `ruleMap.erase(rule->id)` and the decrements of the rules that depend on it. -/
def KahnState.retire (s : KahnState) (rule : Rule) : KahnState :=
  let ruleMap := s.ruleMap.filter fun r ↦ r.id ≠ rule.id
  { s with ruleMap, inDegree := adjustWhere (waitsOn rule) (-1) ruleMap s.inDegree }

/-- `std::stable_sort` by priority. -/
def sortByPriority (level : List Rule) : List Rule :=
  level.insertionSort fun a b ↦ a.priority ≤ b.priority

/-- The rules of in-degree zero that are still in the map, in the order of the vector. -/
def KahnState.frontier (s : KahnState) (rules : List Rule) : List Rule :=
  rules.filter fun rule ↦ s.ruleMap.any (fun r ↦ r.id = rule.id) && s.inDegree rule.id == 0

/-- One pass of the loop. -/
def kahnStep (rules : List Rule) (s : KahnState) :
    KahnState ⊕ Except String (List (List Rule)) :=
  if s.ruleMap.isEmpty then
    Sum.inr (.ok s.levels)
  else if (s.frontier rules).isEmpty then
    Sum.inr (.error circularMessage)
  else
    let level := sortByPriority (s.frontier rules)
    let s' := level.foldl KahnState.retire s
    Sum.inl { s' with levels := s'.levels ++ [level] }

/-! ### Termination -/

theorem retire_foldl_ruleMap (level : List Rule) (s : KahnState) :
    (level.foldl KahnState.retire s).ruleMap =
      s.ruleMap.filter fun r ↦ level.all fun q ↦ r.id ≠ q.id := by
  induction level generalizing s with
  | nil => simp
  | cons rule level ih =>
    rw [List.foldl_cons, ih, KahnState.retire, List.filter_filter]
    exact List.filter_congr fun r _ ↦ by simp [Bool.and_comm]

theorem mem_sortByPriority {level : List Rule} {r : Rule} : r ∈ sortByPriority level ↔ r ∈ level :=
  List.mem_insertionSort _

/-- A pass that continues takes at least one rule out of the map. -/
theorem kahnStep_lt {rules : List Rule} {s s' : KahnState}
    (h : kahnStep rules s = Sum.inl s') : s'.ruleMap.length < s.ruleMap.length := by
  unfold kahnStep at h
  split_ifs at h with hmap hlevel
  obtain rfl := Sum.inl.inj h
  obtain ⟨q, hq⟩ := List.exists_mem_of_ne_nil _ (by simpa using hlevel)
  obtain ⟨r, hr, hrq⟩ : ∃ r ∈ s.ruleMap, r.id = q.id := by
    have hin := ((Bool.and_eq_true _ _).mp (List.mem_filter.1 hq).2).1
    simpa using hin
  show (List.foldl _ s _).ruleMap.length < _
  rw [retire_foldl_ruleMap]
  refine List.length_filter_lt_length_iff_exists.2 ⟨r, hr, ?_⟩
  simpa using ⟨q, mem_sortByPriority.2 hq, hrq⟩

theorem kahn_run_isSome (order : HashOrder Rule) (rules : List Rule) :
    (Loop.run (kahnStep rules) (rules.length + 1) (kahnInit order rules)).isSome :=
  Loop.run_isSome_of_measure (fun _ ↦ True) (fun s : KahnState ↦ s.ruleMap.length)
    (fun _ _ _ h ↦ ⟨trivial, kahnStep_lt h⟩) trivial
    (Nat.lt_succ_of_le (length_ruleMapOf_le order rules))

/-- `Workflow::buildDependencyLevels`. The loop makes at most one pass per rule and one more, so
reading off its result needs no default. -/
def buildDependencyLevels (order : HashOrder Rule) (rules : List Rule) :
    Except String (List (List Rule)) :=
  (Loop.run (kahnStep rules) (rules.length + 1) (kahnInit order rules)).get
    (kahn_run_isSome order rules)

/-- The function is the loop's result. -/
theorem buildDependencyLevels_returns (order : HashOrder Rule) (rules : List Rule) :
    Loop.Returns (kahnStep rules) (kahnInit order rules) (buildDependencyLevels order rules) :=
  ⟨_, (Option.some_get _).symm⟩

/-- `Workflow::resolveExecutionOrder`. -/
def resolveExecutionOrder (order : HashOrder Rule) (rules : List Rule) :
    Except String (List Rule) :=
  (buildDependencyLevels order rules).map List.flatten

/-! ### What a pass does -/

/-- The number of finished rules carrying the name `r` depends on. -/
def hits (done : List Rule) (r : Rule) : ℕ :=
  done.countP fun q ↦ waitsOn q r

/-- The initial in-degree of a rule. -/
def charge (rules : List Rule) (r : Rule) : ℕ :=
  if isCounted rules r then 1 else 0

/-- A rule is ready when the finished rules have used up its initial in-degree exactly. -/
def Ready (rules done : List Rule) (r : Rule) : Prop :=
  hits done r = charge rules r

theorem isCounted_perm {m rules : List Rule} (h : m.Perm rules) (r : Rule) :
    isCounted m r = isCounted rules r := by
  unfold isCounted
  rcases r.dependsOnRuleName with - | n
  · rfl
  · exact h.any_eq

theorem isCounted_iff {rules : List Rule} {r : Rule} :
    isCounted rules r = true ↔
      ∃ n, r.dependsOnRuleName = some n ∧ ∃ q ∈ rules, q.name = cStr n := by
  unfold isCounted
  rcases r.dependsOnRuleName with - | n <;> simp

theorem hits_append (done level : List Rule) (r : Rule) :
    hits (done ++ level) r = hits done r + hits level r :=
  List.countP_append

theorem hits_perm {done done' : List Rule} (h : done.Perm done') (r : Rule) :
    hits done r = hits done' r :=
  h.countP_eq _

theorem waitsOn_iff {rule r : Rule} :
    waitsOn rule r = true ↔ r.dependsOnRuleName = some rule.name := by
  simp [waitsOn]

theorem hits_eq_zero_iff {done : List Rule} {r : Rule} :
    hits done r = 0 ↔ ∀ q ∈ done, ¬waitsOn q r = true :=
  List.countP_eq_zero

/-- A single hit is a single rule of the name. -/
theorem hits_eq_one_iff {done : List Rule} (hdone : done.Nodup) {r : Rule} :
    hits done r = 1 ↔
      ∃ d ∈ done, waitsOn d r = true ∧ ∀ q ∈ done, waitsOn q r = true → q = d := by
  rw [hits, List.countP_eq_length_filter, List.length_eq_one_iff]
  constructor
  · rintro ⟨d, hd⟩
    have hmem : ∀ q, q ∈ done ∧ waitsOn q r = true ↔ q = d := fun q ↦ by
      rw [← List.mem_filter (p := fun q ↦ waitsOn q r), hd, List.mem_singleton]
    exact ⟨d, ((hmem d).2 rfl).1, ((hmem d).2 rfl).2, fun q hq hw ↦ (hmem q).1 ⟨hq, hw⟩⟩
  · rintro ⟨d, hd, hw, huniq⟩
    refine ⟨d, List.perm_singleton.1 ?_⟩
    refine (List.perm_ext_iff_of_nodup (hdone.filter _) (List.nodup_singleton d)).2 fun q ↦ ?_
    rw [List.mem_filter, List.mem_singleton]
    exact ⟨fun hq ↦ huniq q hq.1 hq.2, fun hq ↦ hq ▸ ⟨hd, hw⟩⟩

/-- Outside the adjusted ids nothing changes. -/
theorem adjustWhere_of_not_mem {p : Rule → Bool} {c : Int} {m : List Rule} {inDegree : Id → Int}
    {i : Id} (h : ∀ r ∈ m, r.id ≠ i) : adjustWhere p c m inDegree i = inDegree i := by
  induction m generalizing inDegree with
  | nil => rfl
  | cons q m ih =>
    rw [adjustWhere, List.foldl_cons]
    refine (ih fun r hr ↦ h r (List.mem_cons_of_mem q hr)).trans ?_
    split_ifs with hp
    · exact Function.update_of_ne (h q List.mem_cons_self).symm _ _
    · rfl

/-- Each listed rule is adjusted once. -/
theorem adjustWhere_of_mem {p : Rule → Bool} {c : Int} {m : List Rule} {inDegree : Id → Int}
    {r : Rule} (hm : DistinctIds m) (hr : r ∈ m) :
    adjustWhere p c m inDegree r.id = inDegree r.id + if p r then c else 0 := by
  induction m generalizing inDegree with
  | nil => exact absurd hr List.not_mem_nil
  | cons q m ih =>
    have hcons : q.id ∉ m.map (fun r ↦ r.id) ∧ DistinctIds m := List.nodup_cons.1 hm
    rw [adjustWhere, List.foldl_cons]
    rcases List.mem_cons.1 hr with rfl | hr
    · have hfresh : ∀ q ∈ m, q.id ≠ r.id := fun q hq he ↦
        hcons.1 (he ▸ List.mem_map_of_mem (f := fun r : Rule ↦ r.id) hq)
      refine (adjustWhere_of_not_mem hfresh).trans ?_
      split_ifs <;> simp
    · refine (ih hcons.2 hr).trans ?_
      have hne : r.id ≠ q.id := fun he ↦
        hcons.1 (he ▸ List.mem_map_of_mem (f := fun r : Rule ↦ r.id) hr)
      split_ifs <;> simp [Function.update_of_ne hne]

/-- Retiring a level lowers the in-degree of each remaining rule by its hits in the level. -/
theorem retire_foldl_inDegree {level : List Rule} {s : KahnState} (hm : DistinctIds s.ruleMap)
    {r : Rule} (hr : r ∈ (level.foldl KahnState.retire s).ruleMap) :
    (level.foldl KahnState.retire s).inDegree r.id = s.inDegree r.id - hits level r := by
  induction level generalizing s with
  | nil => simp [hits]
  | cons rule level ih =>
    rw [List.foldl_cons] at hr ⊢
    have hm' : DistinctIds (s.retire rule).ruleMap := hm.sublist List.filter_sublist
    have hr' : r ∈ (s.retire rule).ruleMap := by
      rw [retire_foldl_ruleMap] at hr
      exact List.mem_of_mem_filter hr
    rw [ih hm' hr]
    have hstep : (s.retire rule).inDegree r.id =
        s.inDegree r.id + if waitsOn rule r then -1 else 0 := adjustWhere_of_mem hm' hr'
    rw [hstep, hits, hits, List.countP_cons]
    split_ifs <;> push_cast <;> ring

theorem retire_foldl_levels (level : List Rule) (s : KahnState) :
    (level.foldl KahnState.retire s).levels = s.levels := by
  induction level generalizing s with
  | nil => rfl
  | cons rule level ih => rw [List.foldl_cons, ih]; rfl

/-- What holds between the passes: the rules are split between the levels and the map, and the
in-degrees of the remaining ones are initial count minus hits. -/
structure KahnState.Inv (rules : List Rule) (s : KahnState) : Prop where
  distinct : DistinctIds s.ruleMap
  mem_iff : ∀ r, r ∈ s.ruleMap ↔ r ∈ rules ∧ r ∉ s.levels.flatten
  degree : ∀ r ∈ s.ruleMap, s.inDegree r.id = charge rules r - hits s.levels.flatten r
  layering : Layering rules (Ready rules) s.levels
  sorted : ∀ l ∈ s.levels, ∃ l', l'.Sublist rules ∧ l = sortByPriority l'

theorem kahnInit_inv (order : HashOrder Rule) {rules : List Rule} (h : DistinctIds rules) :
    (kahnInit order rules).Inv rules where
  distinct := h.perm (ruleMapOf_perm order h)
  mem_iff r := by
    have hperm : (kahnInit order rules).ruleMap.Perm rules := ruleMapOf_perm order h
    rw [hperm.mem_iff]
    simp [kahnInit]
  degree r hr := by
    have hr' : r ∈ rules := (ruleMapOf_perm order h).mem_iff.1 hr
    have hdeg : (kahnInit order rules).inDegree r.id =
        0 + if isCounted (ruleMapOf order rules) r then 1 else 0 := adjustWhere_of_mem h hr'
    rw [hdeg, isCounted_perm (ruleMapOf_perm order h)]
    by_cases hc : isCounted rules r = true <;> simp [charge, hits, hc, kahnInit]
  layering := Layering.nil
  sorted l hl := absurd hl List.not_mem_nil

section Step

variable {rules : List Rule} {s : KahnState} (hrules : DistinctIds rules) (h : s.Inv rules)
include hrules h

theorem KahnState.Inv.mem_frontier_iff {r : Rule} :
    r ∈ s.frontier rules ↔
      r ∈ rules ∧ r ∉ s.levels.flatten ∧ Ready rules s.levels.flatten r := by
  rw [KahnState.frontier, List.mem_filter]
  refine and_congr_right fun hr ↦ ?_
  have hmem : s.ruleMap.any (fun q ↦ q.id = r.id) = true ↔ r ∉ s.levels.flatten := by
    constructor
    · intro hany
      obtain ⟨q, hq, hid⟩ := List.any_eq_true.1 hany
      have hqr : q = r := hrules.inj ((h.mem_iff q).1 hq).1 hr (of_decide_eq_true hid)
      exact ((h.mem_iff r).1 (hqr ▸ hq)).2
    · exact fun hnot ↦ List.any_eq_true.2 ⟨r, (h.mem_iff r).2 ⟨hr, hnot⟩, by simp⟩
  rw [Bool.and_eq_true, hmem, beq_iff_eq]
  refine and_congr_right fun hnot ↦ ?_
  rw [h.degree r ((h.mem_iff r).2 ⟨hr, hnot⟩), Ready]
  omega

/-- A pass that continues keeps the invariant. -/
theorem kahnStep_inv {s' : KahnState} (hstep : kahnStep rules s = Sum.inl s') : s'.Inv rules := by
  unfold kahnStep at hstep
  split_ifs at hstep with hmap hlevel
  obtain rfl := Sum.inl.inj hstep
  set level := sortByPriority (s.frontier rules) with hlev
  have hmemLevel : ∀ r, r ∈ level ↔
      r ∈ rules ∧ r ∉ s.levels.flatten ∧ Ready rules s.levels.flatten r := fun r ↦
    mem_sortByPriority.trans (h.mem_frontier_iff hrules)
  -- the level leaves the remaining map, and nothing else does
  have hmemMap : ∀ r, r ∈ (level.foldl KahnState.retire s).ruleMap ↔
      r ∈ s.ruleMap ∧ r ∉ level := by
    intro r
    rw [retire_foldl_ruleMap, List.mem_filter]
    refine and_congr_right fun hr ↦ ?_
    have hr' : r ∈ rules := ((h.mem_iff r).1 hr).1
    simp only [List.all_eq_true, decide_eq_true_eq]
    exact ⟨fun hall hin ↦ hall r hin rfl,
      fun hout q hq he ↦ hout (hrules.inj hr' ((hmemLevel q).1 hq).1 he ▸ hq)⟩
  have hflat : (s.levels ++ [level]).flatten = s.levels.flatten ++ level := by simp
  rw [retire_foldl_levels]
  refine ⟨?_, fun r ↦ ?_, fun r hr ↦ ?_, ?_, fun l hl ↦ ?_⟩
  · show DistinctIds (level.foldl KahnState.retire s).ruleMap
    rw [retire_foldl_ruleMap]
    exact h.distinct.sublist List.filter_sublist
  · rw [hflat, List.mem_append, not_or, ← and_assoc, ← h.mem_iff r]
    exact hmemMap r
  · show (level.foldl KahnState.retire s).inDegree r.id = _
    rw [hflat, hits_append, retire_foldl_inDegree h.distinct hr,
      h.degree r ((hmemMap r).1 hr).1]
    -- each rule of the level lowers the count of those that wait for its name by one
    push_cast
    ring
  · refine h.layering.snoc ?_ ?_ hmemLevel
    · exact (List.perm_insertionSort _ _).nodup_iff.2 (hrules.nodup.filter _)
    · obtain ⟨q, hq⟩ := List.exists_mem_of_ne_nil _ (by simpa using hlevel)
      exact List.ne_nil_of_mem (mem_sortByPriority.2 hq)
  · rcases List.mem_append.1 hl with hl | hl
    · exact h.sorted l hl
    · exact ⟨_, List.filter_sublist, (List.mem_singleton.1 hl).trans hlev⟩

end Step

/-! ### The two ways out of the loop -/

/-- The levelling returns the layering of the rules under `Ready`, and every rule has a level. -/
theorem buildDependencyLevels_ok {order : HashOrder Rule} {rules : List Rule}
    (hrules : DistinctIds rules) {levels : List (List Rule)}
    (h : buildDependencyLevels order rules = .ok levels) :
    Layering rules (Ready rules) levels ∧ (∀ r ∈ rules, r ∈ levels.flatten) ∧
      ∀ l ∈ levels, ∃ l', l'.Sublist rules ∧ l = sortByPriority l' := by
  obtain ⟨s, hinv, hexit⟩ := (buildDependencyLevels_returns order rules).invariant
    (fun _ _ hi ↦ kahnStep_inv hrules hi) (kahnInit_inv order hrules)
  rw [h] at hexit
  unfold kahnStep at hexit
  split_ifs at hexit with hmap hlevel
  · obtain rfl : s.levels = levels := Except.ok.inj (Sum.inr.inj hexit)
    refine ⟨hinv.layering, fun r hr ↦ ?_, hinv.sorted⟩
    by_contra hnot
    have := (hinv.mem_iff r).2 ⟨hr, hnot⟩
    rw [List.isEmpty_iff.1 hmap] at this
    exact absurd this List.not_mem_nil
  · cases Sum.inr.inj hexit

/-- The levelling throws in a state in which some rules have no level and none of these is ready. -/
theorem buildDependencyLevels_error {order : HashOrder Rule} {rules : List Rule}
    (hrules : DistinctIds rules) {message : String}
    (h : buildDependencyLevels order rules = .error message) :
    message = circularMessage ∧ ∃ levels, Layering rules (Ready rules) levels ∧
      (∃ r ∈ rules, r ∉ levels.flatten) ∧
      ∀ r ∈ rules, r ∉ levels.flatten → ¬Ready rules levels.flatten r := by
  obtain ⟨s, hinv, hexit⟩ := (buildDependencyLevels_returns order rules).invariant
    (fun _ _ hi ↦ kahnStep_inv hrules hi) (kahnInit_inv order hrules)
  rw [h] at hexit
  unfold kahnStep at hexit
  split_ifs at hexit with hmap hlevel
  · cases Sum.inr.inj hexit
  · refine ⟨(Except.error.inj (Sum.inr.inj hexit)).symm, s.levels, hinv.layering, ?_,
      fun r hr hnot hready ↦ ?_⟩
    · obtain ⟨r, hr⟩ := List.exists_mem_of_ne_nil s.ruleMap (by simpa using hmap)
      exact ⟨r, (hinv.mem_iff r).1 hr⟩
    · have := (hinv.mem_frontier_iff hrules).2 ⟨hr, hnot, hready⟩
      rw [List.isEmpty_iff.1 hlevel] at this
      exact absurd this List.not_mem_nil

/-! ### What the levels depend on -/

theorem ready_congr {rules done done' : List Rule} (hdone : done.Nodup) (hdone' : done'.Nodup)
    (h : ∀ q, q ∈ done ↔ q ∈ done') (r : Rule) : Ready rules done r ↔ Ready rules done' r := by
  rw [Ready, Ready, hits_perm ((List.perm_ext_iff_of_nodup hdone hdone').2 h)]

section Unique

variable {rules : List Rule} {levels : List (List Rule)} (order : HashOrder Rule)
  (hrules : DistinctIds rules) (hlay : Layering rules (Ready rules) levels)
include hrules hlay

/-- A complete layering of sorted levels is the one that is returned, in whatever order the map is
iterated. -/
theorem buildDependencyLevels_eq_ok (hall : ∀ r ∈ rules, r ∈ levels.flatten)
    (hsorted : ∀ l ∈ levels, ∃ l', l'.Sublist rules ∧ l = sortByPriority l') :
    buildDependencyLevels order rules = .ok levels := by
  have hready : ∀ done done' x, x ∈ rules → done.Nodup → done'.Nodup →
      (∀ y, y ∈ done ↔ y ∈ done') → (Ready rules done x ↔ Ready rules done' x) :=
    fun _ _ x _ hdone hdone' hsame ↦ ready_congr hdone hdone' hsame x
  rcases hout : buildDependencyLevels order rules with message | built
  · obtain ⟨-, stuck, hstuckLay, hleft, hstuck⟩ := buildDependencyLevels_error hrules hout
    obtain ⟨r, hr, hnot, hrready⟩ := hlay.exists_ready_of_congr hstuckLay hready hall hleft
    exact absurd hrready (hstuck r hr hnot)
  · obtain ⟨hbuilt, hbuiltAll, hbuiltSorted⟩ := buildDependencyLevels_ok hrules hout
    have hlen : built.length = levels.length :=
      le_antisymm (hbuilt.length_le_of_congr hlay hready hall)
        (hlay.length_le_of_congr hbuilt hready hbuiltAll)
    refine congrArg _ (List.ext_getElem hlen fun i hi hi' ↦ ?_)
    obtain ⟨l, hl, hle⟩ := hbuiltSorted _ (List.getElem_mem hi)
    obtain ⟨l', hl', hle'⟩ := hsorted _ (List.getElem_mem hi')
    have hsame : ∀ r, r ∈ l ↔ r ∈ l' := fun r ↦ by
      have hat := hbuilt.at_congr hlay hready i hi hi' r
      simp only [At, List.getElem?_eq_getElem hi, List.getElem?_eq_getElem hi', Option.some.injEq,
        exists_eq_left', hle, hle', mem_sortByPriority] at hat
      exact hat
    have hperm : l.Perm l' := (List.perm_ext_iff_of_nodup (hl.nodup hrules.nodup)
      (hl'.nodup hrules.nodup)).2 hsame
    rw [hle, hle', (hrules.nodup.perm_iff_eq_of_sublist hl hl').1 hperm]

/-- A layering with which nobody is ready who is left is the one on which the levelling throws. -/
theorem buildDependencyLevels_eq_error (hleft : ∃ r ∈ rules, r ∉ levels.flatten)
    (hstuck : ∀ r ∈ rules, r ∉ levels.flatten → ¬Ready rules levels.flatten r) :
    buildDependencyLevels order rules = .error circularMessage := by
  rcases hout : buildDependencyLevels order rules with message | built
  · rw [(buildDependencyLevels_error hrules hout).1]
  · obtain ⟨hbuilt, hall, -⟩ := buildDependencyLevels_ok hrules hout
    obtain ⟨r, hr, hnot, hready⟩ := hbuilt.exists_ready_of_congr hlay
      (fun _ _ x _ hdone hdone' hsame ↦ ready_congr hdone hdone' hsame x) hall hleft
    exact absurd hready (hstuck r hr hnot)

end Unique

/-- What the levelling looks at is not changed. -/
structure KeepsDependencies (f : Rule → Rule) : Prop where
  id : ∀ r, (f r).id = r.id
  name : ∀ r, (f r).name = r.name
  priority : ∀ r, (f r).priority = r.priority
  dependsOnRuleName : ∀ r, (f r).dependsOnRuleName = r.dependsOnRuleName

namespace KeepsDependencies

variable {f : Rule → Rule} (hf : KeepsDependencies f) {rules : List Rule}
include hf

theorem hits_map (done : List Rule) (r : Rule) : hits (done.map f) (f r) = hits done r := by
  rw [hits, hits, List.countP_map]
  refine List.countP_congr fun q _ ↦ ?_
  rw [Function.comp_apply, waitsOn_iff, waitsOn_iff, hf.name, hf.dependsOnRuleName]

theorem charge_map (rules : List Rule) (r : Rule) :
    charge (rules.map f) (f r) = charge rules r := by
  have hcounted : isCounted (rules.map f) (f r) = isCounted rules r := by
    rw [isCounted, isCounted, hf.dependsOnRuleName]
    rcases r.dependsOnRuleName with - | n
    · rfl
    · simp [Function.comp_def, hf.name]
  rw [charge, charge, hcounted]

theorem distinctIds_map (h : DistinctIds rules) : DistinctIds (rules.map f) := by
  rw [DistinctIds, List.map_map]
  exact (List.map_congr_left fun r _ ↦ hf.id r).symm ▸ h

theorem sortByPriority_map (l : List Rule) : sortByPriority (l.map f) = (sortByPriority l).map f :=
  (List.map_insertionSort _ _ f l fun a _ b _ ↦ by rw [hf.priority, hf.priority]).symm

theorem layering_map {levels : List (List Rule)} (hrules : DistinctIds rules)
    (h : Layering rules (Ready rules) levels) :
    Layering (rules.map f) (Ready (rules.map f)) (levels.map (List.map f)) := by
  refine h.map (fun r hr q hq heq ↦ hrules.inj hr hq ?_) fun done r _ _ ↦ ?_
  · rw [← hf.id, heq, hf.id]
  · rw [Ready, Ready, hf.hits_map, hf.charge_map]

/-- The levelling commutes with such a change, whatever the iteration orders. -/
theorem buildDependencyLevels_map (hrules : DistinctIds rules) (order order' : HashOrder Rule) :
    buildDependencyLevels order' (rules.map f) =
      (buildDependencyLevels order rules).map (List.map (List.map f)) := by
  have hinj : ∀ r ∈ rules, ∀ q ∈ rules, f q = f r → q = r := fun r hr q hq heq ↦
    hrules.inj hq hr (by rw [← hf.id, heq, hf.id])
  have hmem : ∀ {l : List Rule}, (∀ q ∈ l, q ∈ rules) → ∀ r ∈ rules, f r ∈ l.map f → r ∈ l :=
    fun hl r hr hin ↦ by
      obtain ⟨q, hq, heq⟩ := List.mem_map.1 hin
      exact hinj r hr q (hl q hq) heq ▸ hq
  rcases hout : buildDependencyLevels order rules with message | levels
  · obtain ⟨rfl, levels, hlay, ⟨r, hr, hnot⟩, hstuck⟩ := buildDependencyLevels_error hrules hout
    have hflat : ∀ q ∈ levels.flatten, q ∈ rules := fun _ ↦ hlay.mem_nodes_of_mem_flatten
    refine buildDependencyLevels_eq_error order' (hf.distinctIds_map hrules)
      (hf.layering_map hrules hlay) ⟨f r, List.mem_map_of_mem hr, fun hin ↦ ?_⟩ fun q hq hout ↦ ?_
    · rw [← List.map_flatten] at hin
      exact hnot (hmem hflat r hr hin)
    · obtain ⟨r, hr, rfl⟩ := List.mem_map.1 hq
      rw [← List.map_flatten] at hout ⊢
      rw [Ready, hf.hits_map, hf.charge_map]
      exact hstuck r hr fun hin ↦ hout (List.mem_map_of_mem hin)
  · obtain ⟨hlay, hall, hsorted⟩ := buildDependencyLevels_ok hrules hout
    refine buildDependencyLevels_eq_ok order' (hf.distinctIds_map hrules)
      (hf.layering_map hrules hlay) (fun q hq ↦ ?_) fun l hl ↦ ?_
    · obtain ⟨r, hr, rfl⟩ := List.mem_map.1 hq
      rw [← List.map_flatten]
      exact List.mem_map_of_mem (hall r hr)
    · obtain ⟨k, hk, rfl⟩ := List.mem_map.1 hl
      obtain ⟨l', hl', rfl⟩ := hsorted k hk
      exact ⟨l'.map f, hl'.map f, (hf.sortByPriority_map l').symm⟩

theorem resolveExecutionOrder_map (hrules : DistinctIds rules) (order order' : HashOrder Rule) :
    resolveExecutionOrder order' (rules.map f) =
      (resolveExecutionOrder order rules).map (List.map f) := by
  rw [resolveExecutionOrder, resolveExecutionOrder, hf.buildDependencyLevels_map hrules
    order order']
  rcases buildDependencyLevels order rules with message | levels
  · rfl
  · exact congrArg _ List.map_flatten.symm

end KeepsDependencies

end FastRules
