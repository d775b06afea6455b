import FastRules.Async.Completion
import FastRules.Async.Levels
import FastRules.Parallel.Modes

/-!
# The order of asynchronous results

`executeParallelAsync` returns, level by level, first the results of the rules that are not active
and then those of the others, in the order in which the map of rules happened to be visited
(`Logs.eq_resultRules`). So the order of the results is that of `buildDependencyLevels` only where
no level leaves anything to order (`async_order_iff`).
-/

namespace FastRules

open Program Interleaving Layers Descent

/-! ### The rules of the results -/

namespace AsyncCall

variable {x : AsyncCall} {c : Config} {rs : List Rule}

/-- The call can come to the configuration, with results of these rules in `allResults`. -/
inductive Logs (x : AsyncCall) : Config → List Rule → Prop
  | start : Logs x x.start []
  | request {c : Config} {rs : List Rule} {i : ℕ} {op : Op} {next : op.Ans → RuleProgram RuleResult}
      {a : op.Ans} {s' : AsyncState} (h : Logs x c rs) (hthread : c.thread i = .ask op next)
      (hstep : x.step i op c.state a s') : Logs x ⟨Function.update c.thread i (next a), s'⟩ rs
  | startLevel {c : Config} {rs level : List Rule} (h : Logs x c rs)
      (hlevel : x.levels[c.state.level]? = some level)
      (hdone : ∀ i t, x.tasks[i]? = some t → t.level < c.state.level → i < c.state.collected) :
      Logs x ⟨c.thread, x.startLevel c.state level⟩ (rs ++ level.filter fun r ↦ !r.isActive)
  | collect {c : Config} {rs : List Rule} {t : AsyncTask} {latest : RuleResult} (h : Logs x c rs)
      (htask : x.tasks[c.state.collected]? = some t) (hlevel : t.level < c.state.level)
      (hready : c.thread c.state.collected = .ret latest) :
      Logs x ⟨c.thread, c.state.collect latest⟩ (rs ++ [t.rule])

theorem Logs.reaches (h : x.Logs c rs) : x.Reaches c := by
  induction h with
  | start => exact .refl
  | request _ hthread hstep ih => exact ih.tail (.own hthread hstep)
  | startLevel _ hlevel hdone ih => exact ih.tail (.other (.startLevel hlevel hdone))
  | collect _ htask hlevel hready ih => exact ih.tail (.other (.collect htask hlevel hready))

theorem Reaches.exists_logs (h : x.Reaches c) : ∃ rs, x.Logs c rs := by
  induction h with
  | refl => exact ⟨_, .start⟩
  | tail _ hstep ih =>
    obtain ⟨rs, hlogs⟩ := ih
    rcases hstep with ⟨hthread, hstep⟩ | hsup
    · exact ⟨_, hlogs.request hthread hstep⟩
    · rcases hsup with ⟨hlevel, hdone⟩ | ⟨htask, hlevel, hready⟩
      · exact ⟨_, hlogs.startLevel hlevel hdone⟩
      · exact ⟨_, hlogs.collect htask hlevel hready⟩

/-- The result is that of the rule: of a task for it, or the one that stands for it. -/
def Produced (x : AsyncCall) (c : Config) (r : Rule) (result : RuleResult) : Prop :=
  r.isActive = false ∧ result = skipResult r ∨
    ∃ i t, x.tasks[i]? = some t ∧ t.rule = r ∧ c.thread i = .ret result

/-- The results in `allResults` are those of the rules. -/
theorem Logs.produced (h : x.Logs c rs) : List.Forall₂ (x.Produced c) rs c.state.allResults := by
  induction h with
  | start => exact List.Forall₂.nil
  | @request c rs i op next a s' _ hthread hstep ih =>
    rw [show s'.allResults = c.state.allResults from (step_frame hstep).2.2.2]
    refine ih.imp fun r result hproduced ↦ hproduced.imp_right ?_
    rintro ⟨j, t, ht, htr, hret⟩
    have hne : j ≠ i := by
      rintro rfl
      rw [hthread] at hret
      cases hret
    exact ⟨j, t, ht, htr, (Function.update_of_ne hne _ _).trans hret⟩
  | @startLevel c rs level _ hlevel hdone ih =>
    refine List.rel_append ih ?_
    rw [List.forall₂_map_right_iff, List.forall₂_same]
    intro r hr
    exact .inl ⟨by simpa using (List.mem_filter.1 hr).2, rfl⟩
  | collect _ htask _ hready ih =>
    exact List.rel_append ih (.cons (.inr ⟨_, _, htask, rfl, hready⟩) .nil)

/-- The rules whose results are there when so many levels have been entered and so many results
collected. -/
def logUpTo (x : AsyncCall) (level collected : ℕ) : List Rule :=
  (x.levels.take level).zipIdx.flatMap fun y ↦ (y.1.filter fun r ↦ !r.isActive) ++
    ((x.tasks.take collected).filter fun t ↦ t.level = y.2).map fun t ↦ t.rule

theorem logUpTo_startLevel {k n : ℕ} {level : List Rule} (hlevel : x.levels[k]? = some level)
    (hentered : ∀ t ∈ x.tasks.take n, t.level < k) :
    x.logUpTo (k + 1) n = x.logUpTo k n ++ level.filter fun r ↦ !r.isActive := by
  have hlt : k < x.levels.length := (List.getElem?_eq_some_iff.1 hlevel).1
  have hnone : ((x.tasks.take n).filter fun t ↦ t.level = k) = [] :=
    List.filter_eq_nil_iff.2 fun t ht ↦ by simpa using (hentered t ht).ne
  have hlength : (x.levels.take k).length = k := List.length_take_of_le hlt.le
  rw [logUpTo, logUpTo, List.take_add_one, hlevel, Option.toList_some, List.zipIdx_append,
    List.flatMap_append, hlength]
  simp [hnone]

theorem logUpTo_collect {k n : ℕ} {t : AsyncTask} (ht : x.tasks[n]? = some t)
    (hlevel : t.level = k) (hk : k < x.levels.length) :
    x.logUpTo (k + 1) (n + 1) = x.logUpTo (k + 1) n ++ [t.rule] := by
  have hlength : (x.levels.take k).length = k := List.length_take_of_le hk.le
  have hbefore : ∀ y ∈ (x.levels.take k).zipIdx,
      ((x.tasks.take (n + 1)).filter fun t ↦ t.level = y.2) =
        (x.tasks.take n).filter fun t ↦ t.level = y.2 := by
    intro y hy
    have hlt : y.2 < k := by
      have hidx := (List.mem_zipIdx_iff_getElem?.1 hy)
      exact hlength ▸ (List.getElem?_eq_some_iff.1 hidx).1
    rw [List.take_add_one, ht, List.filter_append]
    simp [hlevel, hlt.ne']
  have htake : x.levels.take (k + 1) = x.levels.take k ++ [x.levels[k]] := by
    rw [List.take_add_one, List.getElem?_eq_getElem hk]
    rfl
  rw [logUpTo, logUpTo, htake, List.zipIdx_append, List.flatMap_append, List.flatMap_append,
    hlength, List.flatMap_congr fun y hy ↦ by rw [hbefore y hy]]
  simp [List.take_add_one, ht, hlevel]

/-- All tasks of the levels before the last one entered are collected, and the log is as it has to
be. -/
theorem Logs.eq_logUpTo (h : x.Logs c rs) :
    rs = x.logUpTo c.state.level c.state.collected ∧
      ∀ i t, x.tasks[i]? = some t → t.level + 1 < c.state.level → i < c.state.collected := by
  induction h with
  | start => exact ⟨rfl, fun _ _ _ h ↦ absurd h (Nat.not_lt_zero _)⟩
  | request _ _ hstep ih =>
    obtain ⟨hlevel, hcollected, -, -⟩ := step_frame hstep
    dsimp only
    rw [hlevel, hcollected]
    exact ih
  | @startLevel c rs level hlogs hlevel hdone ih =>
    refine ⟨?_, fun i t ht hlt ↦ hdone i t ht (Nat.lt_of_succ_lt_succ hlt)⟩
    rw [ih.1]
    refine (logUpTo_startLevel hlevel fun t ht ↦ ?_).symm
    obtain ⟨i, hit⟩ := List.mem_iff_getElem?.1 ht
    rw [List.getElem?_take] at hit
    split_ifs at hit with hi
    obtain ⟨t', ht', hlt⟩ := hlogs.reaches.alive.entered i hi
    obtain rfl : t' = t := Option.some.inj (ht'.symm.trans hit)
    exact hlt
  | @collect c rs t latest hlogs htask hlevel _ ih =>
    have hnext : c.state.level = t.level + 1 := by
      have hnot : ¬t.level + 1 < c.state.level := fun hlt ↦ lt_irrefl _ (ih.2 _ t htask hlt)
      omega
    refine ⟨?_, fun i u hu hlt ↦ (ih.2 i u hu hlt).trans (Nat.lt_succ_self _)⟩
    have hk : t.level < x.levels.length := hlevel.trans_le hlogs.reaches.alive.level_le
    have hlog := logUpTo_collect htask rfl hk
    rw [← hnext] at hlog
    rw [ih.1]
    exact hlog.symm

end AsyncCall

/-- The rules of the results, level by level: first those that are not active. -/
def resultRules (levels : List (List Rule)) : List Rule :=
  levels.flatMap fun level ↦ (level.filter fun r ↦ !r.isActive) ++ level.filter fun r ↦ r.isActive

/-- The tasks of a level are its active rules. -/
theorem filter_level_zipIdx (levels : List (List Rule)) {level : List Rule} {k : ℕ}
    (h : levels[k]? = some level) (n : ℕ) :
    (((levels.zipIdx n).flatMap fun y ↦ (y.1.filter fun r ↦ r.isActive).map fun rule ↦
      (⟨y.2, rule⟩ : AsyncTask)).filter fun t ↦ t.level = n + k).map (fun t ↦ t.rule) =
        level.filter fun r ↦ r.isActive := by
  induction levels generalizing n k with
  | nil => cases h
  | cons first levels ih =>
    rw [List.zipIdx_cons, List.flatMap_cons, List.filter_append, List.map_append]
    rcases k with - | k
    · obtain rfl := Option.some.inj h
      -- the levels behind have higher numbers
      have hrest : (((levels.zipIdx (n + 1)).flatMap fun y ↦
          (y.1.filter fun r ↦ r.isActive).map fun rule ↦
            (⟨y.2, rule⟩ : AsyncTask)).filter fun t ↦ t.level = n + 0) = [] := by
        refine List.filter_eq_nil_iff.2 fun t ht ↦ ?_
        obtain ⟨y, hy, ht⟩ := List.mem_flatMap.1 ht
        obtain ⟨r, -, rfl⟩ := List.mem_map.1 ht
        have hle := List.le_snd_of_mem_zipIdx hy
        simpa using (by omega : y.2 ≠ n)
      rw [hrest]
      simp [List.filter_map, Function.comp_def]
    · have hrest := ih h (n + 1)
      rw [show n + 1 + k = n + (k + 1) by omega] at hrest
      rw [hrest]
      simp [List.filter_map, Function.comp_def]

theorem AsyncCall.Logs.eq_resultRules {x : AsyncCall} {c : AsyncCall.Config} {rs : List Rule}
    (h : x.Logs c rs) (hreturned : x.Returned c) : rs = resultRules x.levels := by
  have hlevel : ∀ y ∈ x.levels.zipIdx, (y.1.filter fun r ↦ !r.isActive) ++
      (x.tasks.filter fun t ↦ t.level = y.2).map (fun t ↦ t.rule) =
        (y.1.filter fun r ↦ !r.isActive) ++ y.1.filter fun r ↦ r.isActive := by
    intro y hy
    have htasks := filter_level_zipIdx x.levels (List.mem_zipIdx_iff_getElem?.1 hy) 0
    rw [Nat.zero_add] at htasks
    rw [← htasks]
    rfl
  rw [h.eq_logUpTo.1, AsyncCall.logUpTo, hreturned.levels, hreturned.collected, List.take_length,
    List.take_length, List.flatMap_congr hlevel, resultRules]
  conv_rhs => rw [← List.zipIdx_map_fst 0 x.levels, List.flatMap_map]

/-! ### Levels and order -/

variable {rules : List Rule} {order : HashOrder Rule} {levels : List (List Rule)} {a b : Rule}

/-- The level of a rule is the length of the longest chain of dependencies from it. -/
def DependencyLevel (rules : List Rule) (i : ℕ) (r : Rule) : Prop :=
  Depth (DependsOn rules) i r

/-- Before: in a lower level, or in the same level by priority and then by insertion. -/
def ResultOrder (rules : List Rule) (a b : Rule) : Prop :=
  ∃ i j, DependencyLevel rules i a ∧ DependencyLevel rules j b ∧
    (i < j ∨ i = j ∧ PriorityOrder rules a b)

/-- Of two rules of a level one is not active and the other is, and they are in this order. -/
def Settled (rules : List Rule) : Prop :=
  ∀ a ∈ rules, ∀ b ∈ rules, a ≠ b → ∀ i, DependencyLevel rules i a → DependencyLevel rules i b →
    a.isActive = false ∧ b.isActive = true ∧ PriorityOrder rules a b ∨
      b.isActive = false ∧ a.isActive = true ∧ PriorityOrder rules b a

/-- Every call returns, and its results are those of the same sequence of rules, in order, whatever
the order is in which the map is visited, and in every interleaving. -/
def Reproducible (rules : List Rule) : Prop :=
  ∃ sequence : List Rule, sequence.Pairwise (ResultOrder rules) ∧
    ∀ order : HashOrder Rule, ∃ levels,
      Loop.Returns asyncLevelStep (asyncLevelInit order rules) levels ∧
        ∀ x : AsyncCall, x.levels = levels →
          ((∀ op, ∃ a, x.answers op a) →
            Inevitably (Step x.step x.Supervise) x.Returned x.start) ∧
          ∀ c rs, x.Logs c rs → x.Returned c → rs = sequence

/-- Of two members of a list without repetitions, one comes first. -/
theorem not_sublist_swap {l : List Rule} (hnodup : l.Nodup) (hab : [a, b].Sublist l)
    (hba : [b, a].Sublist l) : False := by
  induction l with
  | nil => cases hab
  | cons c l ih =>
    obtain ⟨hc, hnodup⟩ := List.nodup_cons.1 hnodup
    cases hab with
    | cons _ hab =>
      cases hba with
      | cons _ hba => exact ih hnodup hab hba
      | cons_cons _ _ => exact hc (hab.subset (List.mem_cons_of_mem a List.mem_cons_self))
    | cons_cons _ hb =>
      cases hba with
      | cons _ hba => exact hc (hba.subset (List.mem_cons_of_mem b List.mem_cons_self))
      | cons_cons _ _ => exact hc (hb.subset List.mem_cons_self)

theorem PriorityOrder.asymm (hnodup : rules.Nodup) (hab : PriorityOrder rules a b)
    (hba : PriorityOrder rules b a) : False := by
  rcases hab with hlt | ⟨heq, hab⟩ <;> rcases hba with hlt' | ⟨heq', hba⟩
  · omega
  · omega
  · omega
  · exact not_sublist_swap hnodup hab hba

/-- The rules that are left, and those of each level, are in the order in which the map is
visited. -/
structure VisitedIn (visited : List Rule) (s : AsyncLevelState) : Prop where
  remaining : s.remaining.Sublist visited
  levels : ∀ level ∈ s.levels, level.Sublist visited

theorem VisitedIn.step {visited : List Rule} {s s' : AsyncLevelState} (h : VisitedIn visited s)
    (hstep : asyncLevelStep s = .inl s') : VisitedIn visited s' := by
  unfold asyncLevelStep at hstep
  split_ifs at hstep with hempty hlevel
  all_goals
    obtain rfl := Sum.inl.inj hstep
    refine ⟨?_, fun level hl ↦ ?_⟩
    · rw [foldl_erase]
      exact List.filter_sublist.trans h.remaining
  · exact h.levels level hl
  · rcases List.mem_append.1 hl with hl | hl
    · exact h.levels level hl
    · obtain rfl := List.mem_singleton.1 hl
      exact List.filter_sublist.trans h.remaining

theorem asyncLevels_sublist
    (h : Loop.Returns asyncLevelStep (asyncLevelInit order rules) levels) :
    ∀ level ∈ levels, level.Sublist (ruleMapOf order rules) := by
  have hstart : VisitedIn (ruleMapOf order rules) (asyncLevelInit order rules) :=
    ⟨List.Sublist.refl _, fun _ hl ↦ absurd hl List.not_mem_nil⟩
  obtain ⟨s, hs, hexit⟩ := h.invariant (fun _ _ hs hstep ↦ VisitedIn.step hs hstep) hstart
  unfold asyncLevelStep at hexit
  split_ifs at hexit
  exact Sum.inr.inj hexit ▸ hs.levels

theorem ResultOrder.asymm (hnodup : rules.Nodup) (hab : ResultOrder rules a b)
    (hba : ResultOrder rules b a) : False := by
  obtain ⟨i, j, hi, hj, hij⟩ := hab
  obtain ⟨j', i', hj', hi', hji⟩ := hba
  obtain rfl := hi.unique hi'
  obtain rfl := hj.unique hj'
  rcases hij with hlt | ⟨rfl, hab⟩ <;> rcases hji with hlt' | ⟨heq, hba⟩
  · omega
  · omega
  · omega
  · exact hab.asymm hnodup hba

section Sequence

variable (hrules : DistinctIds rules)
  (h : Loop.Returns asyncLevelStep (asyncLevelInit order rules) levels)
include hrules h

theorem dependencyLevel_of_at {i : ℕ} (ha : At levels i a) : DependencyLevel rules i a :=
  Layering.depth_of_at (asyncLevels_layering hrules h).1 ha

theorem exists_level {i : ℕ} (ha : a ∈ rules) (hi : DependencyLevel rules i a) :
    ∃ level, levels[i]? = some level ∧ a ∈ level := by
  obtain ⟨k, hk⟩ := mem_flatten_iff.1 ((asyncLevels_layering hrules h).2 a ha)
  obtain rfl : k = i := (dependencyLevel_of_at hrules h hk).unique hi
  exact hk

theorem exists_level_pair {i : ℕ} (ha : a ∈ rules) (hb : b ∈ rules)
    (hia : DependencyLevel rules i a) (hib : DependencyLevel rules i b) :
    ∃ level ∈ levels, a ∈ level ∧ b ∈ level := by
  obtain ⟨level, hlevel, hal⟩ := exists_level hrules h ha hia
  obtain ⟨level', hlevel', hbl⟩ := exists_level hrules h hb hib
  obtain rfl : level' = level := Option.some.inj (hlevel'.symm.trans hlevel)
  exact ⟨level', List.mem_of_getElem? hlevel, hal, hbl⟩

theorem resultRules_perm : (resultRules levels).Perm rules := by
  obtain ⟨hlay, hall⟩ := asyncLevels_layering hrules h
  refine List.Perm.trans ?_ (hlay.flatten_perm hrules.nodup hall)
  rw [resultRules, ← List.flatMap_id]
  exact List.Perm.flatMap_left levels fun level _ ↦
    List.perm_append_comm.trans (List.filter_append_perm _ level)

/-- Where at most two rules share a level, the results are in order. -/
theorem resultRules_pairwise (hsettled : Settled rules) :
    (resultRules levels).Pairwise (ResultOrder rules) := by
  obtain ⟨hlay, -⟩ := asyncLevels_layering hrules h
  rw [resultRules, List.pairwise_flatMap]
  constructor
  · intro level hlevel
    obtain ⟨i, hi⟩ := List.mem_iff_getElem?.1 hlevel
    have hat {r : Rule} (hr : r ∈ level) : r ∈ rules ∧ DependencyLevel rules i r :=
      ⟨hlay.mem_nodes ⟨level, hi, hr⟩, dependencyLevel_of_at hrules h ⟨level, hi, hr⟩⟩
    have hpair {r q : Rule} (hr : r ∈ level) (hq : q ∈ level) (hne : r ≠ q) :=
      hsettled r (hat hr).1 q (hat hq).1 hne i (hat hr).2 (hat hq).2
    have hone (active : Bool) :
        (level.filter fun r ↦ r.isActive == active).Pairwise (ResultOrder rules) := by
      refine ((hlay.nodup level hlevel).filter _).imp_of_mem fun {r q} hr hq hne ↦ ?_
      simp only [List.mem_filter, beq_iff_eq] at hr hq
      rcases hpair hr.1 hq.1 hne with ⟨hr', hq', -⟩ | ⟨hq', hr', -⟩
      all_goals
        have heq := hr'.symm.trans (hr.2.trans (hq.2.symm.trans hq'))
        cases heq
    have hinactive := hone false
    have hactive := hone true
    simp only [beq_false, beq_true] at hinactive hactive
    refine List.pairwise_append.2 ⟨hinactive, hactive, fun r hr q hq ↦ ?_⟩
    simp only [List.mem_filter, Bool.not_eq_true'] at hr hq
    have hne : r ≠ q := by
      rintro rfl
      exact Bool.noConfusion (hr.2.symm.trans hq.2)
    refine ⟨i, i, (hat hr.1).2, (hat hq.1).2, .inr ⟨rfl, ?_⟩⟩
    rcases hpair hr.1 hq.1 hne with ⟨-, -, hprio⟩ | ⟨hq', -, -⟩
    · exact hprio
    · exact Bool.noConfusion (hq'.symm.trans hq.2)
  · refine List.pairwise_iff_getElem.2 fun i j hi hj hij r hr q hq ↦ ?_
    have hat {k : ℕ} (hk : k < levels.length) {p : Rule}
        (hp : p ∈ (levels[k].filter fun r ↦ !r.isActive) ++ levels[k].filter fun r ↦ r.isActive) :
        DependencyLevel rules k p := by
      refine dependencyLevel_of_at hrules h ⟨_, List.getElem?_eq_getElem hk, ?_⟩
      rcases List.mem_append.1 hp with hp | hp
      · exact (List.mem_filter.1 hp).1
      · exact (List.mem_filter.1 hp).1
    exact ⟨i, j, hat hi hr, hat hj hq, .inl hij⟩

end Sequence

/-- The order is the one that `buildDependencyLevels` lists the rules in. -/
theorem buildDependencyLevels_pairwise (hrules : DistinctIds rules)
    (hnames : UniqueDependencyNames rules) (hok : buildDependencyLevels order rules = .ok levels) :
    levels.flatten.Pairwise (ResultOrder rules) := by
  obtain ⟨hlay, -, -⟩ := buildDependencyLevels_ok hrules hok
  -- with unique names, a rule is ready if the rules that it depends on are done
  have hunblocked : Layering rules (Unblocked rules) levels :=
    ⟨fun i hi r ↦ (hlay.at_iff i hi r).trans <| and_congr_right fun hr ↦ and_congr_right fun _ ↦
      hnames.ready_iff (hlay.before_nodup i) (fun _ ↦ hlay.mem_nodes_of_mem_before) hr,
      hlay.nodup, hlay.ne_nil⟩
  have hlevel {i : ℕ} {r : Rule} (hr : At levels i r) : DependencyLevel rules i r :=
    Layering.depth_of_at hunblocked hr
  rw [List.pairwise_flatten]
  constructor
  · intro level hmem
    obtain ⟨i, hi⟩ := List.mem_iff_getElem?.1 hmem
    exact (level_pairwise hrules hok hmem).imp_of_mem fun {r q} hr hq hrq ↦
      ⟨i, i, hlevel ⟨level, hi, hr⟩, hlevel ⟨level, hi, hq⟩, .inr ⟨rfl, hrq⟩⟩
  · refine List.pairwise_iff_getElem.2 fun i j hi hj hij r hr q hq ↦ ?_
    exact ⟨i, j, hlevel ⟨_, List.getElem?_eq_getElem hi, hr⟩,
      hlevel ⟨_, List.getElem?_eq_getElem hj, hq⟩, .inl hij⟩

/-! ### Reproducible results -/

theorem reproducible_of_settled (hrules : DistinctIds rules)
    (hacyclic : ∀ r, ¬OnCycle (DependsOn rules) r) (hsettled : Settled rules) :
    Reproducible rules := by
  obtain ⟨levels, hlevels⟩ := asyncLevels_returns (HashOrder.insertion Rule) hrules hacyclic
  have hpairwise := resultRules_pairwise hrules hlevels hsettled
  refine ⟨resultRules levels, hpairwise, fun order ↦ ?_⟩
  obtain ⟨levels', hlevels'⟩ := asyncLevels_returns order hrules hacyclic
  refine ⟨levels', hlevels', fun x hx ↦ ⟨fun hanswers ↦ AsyncCall.returns hanswers, ?_⟩⟩
  intro c rs hlogs hreturned
  rw [hlogs.eq_resultRules hreturned, hx]
  -- two arrangements of the rules in one strict order
  refine List.Perm.eq_of_pairwise (fun a b _ _ hab hba ↦ ?_)
    (resultRules_pairwise hrules hlevels' hsettled) hpairwise
    ((resultRules_perm hrules hlevels').trans (resultRules_perm hrules hlevels).symm)
  exact (hab.asymm hrules.nodup hba).elim

/-- A call on these levels, with one thread and without parameters. -/
def callOn (levels : List (List Rule)) : AsyncCall where
  levels := levels
  threadCount := 1
  parameters := []
  answers := (Meaning.ofScripts fun _ ↦ none).answers

theorem callOn_logs (levels : List (List Rule)) :
    ∃ c, (callOn levels).Logs c (resultRules levels) ∧ (callOn levels).Returned c := by
  obtain ⟨c, hc⟩ := (AsyncCall.returns (x := callOn levels) (Meaning.exists_answer _)).exists
  obtain ⟨rs, hlogs⟩ := hc.reaches.exists_logs
  exact ⟨c, hlogs.eq_resultRules hc ▸ hlogs, hc⟩

/-- The last rule first. -/
def reverseOrder : HashOrder Rule where
  visit := List.reverse
  perm := List.reverse_perm

theorem ruleMapOf_reverseOrder (hrules : DistinctIds rules) :
    ruleMapOf reverseOrder rules = rules.reverse :=
  congrArg List.reverse (ruleMapOf_insertion hrules)

theorem sublist_pair {l : List Rule} (ha : a ∈ l) (hb : b ∈ l) (hne : a ≠ b) :
    [a, b].Sublist l ∨ [b, a].Sublist l := by
  obtain ⟨pre, post, rfl⟩ := List.append_of_mem ha
  rcases List.mem_append.1 hb with hb | hb
  · exact .inr ((List.singleton_sublist.2 hb).append (List.singleton_sublist.2 List.mem_cons_self))
  · have hpost : b ∈ post := (List.mem_cons.1 hb).resolve_left hne.symm
    exact .inl (((List.singleton_sublist.2 hpost).cons_cons a).trans (List.sublist_append_right ..))

/-- The results of a level, those of its rules that are not active first. -/
theorem block_sublist {level : List Rule} (hlevel : level ∈ levels) :
    ((level.filter fun r ↦ !r.isActive) ++ level.filter fun r ↦ r.isActive).Sublist
      (resultRules levels) := by
  rw [resultRules, List.flatMap_def]
  exact List.sublist_flatten_of_mem (List.mem_map_of_mem hlevel)

/-- A rule that is not active comes before an active one of its level. -/
theorem inactive_active_sublist {level : List Rule} (hlevel : level ∈ levels) (ha : a ∈ level)
    (hb : b ∈ level) (hactive : a.isActive = false) (hactive' : b.isActive = true) :
    [a, b].Sublist (resultRules levels) := by
  have ha' : a ∈ level.filter fun r ↦ !r.isActive := List.mem_filter.2 ⟨ha, by rw [hactive]; rfl⟩
  have hb' : b ∈ level.filter fun r ↦ r.isActive := List.mem_filter.2 ⟨hb, hactive'⟩
  exact ((List.singleton_sublist.2 ha').append (List.singleton_sublist.2 hb')).trans
    (block_sublist hlevel)

/-- Rules of one level that come in order are in the order of their priorities. -/
theorem priorityOrder_of_sublist {sequence : List Rule} {i : ℕ}
    (hpairwise : sequence.Pairwise (ResultOrder rules)) (hab : [a, b].Sublist sequence)
    (ha : DependencyLevel rules i a) (hb : DependencyLevel rules i b) :
    PriorityOrder rules a b := by
  obtain ⟨m, n, hm, hn, hmn⟩ := List.pairwise_pair.1 (hpairwise.sublist hab)
  obtain rfl := hm.unique ha
  obtain rfl := hn.unique hb
  exact (hmn.resolve_left (lt_irrefl _)).2

/-- Two rules of one list are in the order in which they are in a longer one. -/
theorem sublist_pair_of {l all : List Rule} (hall : all.Nodup) (hl : l.Sublist all) (ha : a ∈ l)
    (hb : b ∈ l) (hne : a ≠ b) (hab : [a, b].Sublist all) : [a, b].Sublist l :=
  (sublist_pair ha hb hne).resolve_right fun hba ↦ not_sublist_swap hall hab (hba.trans hl)

/-- Two rules of a level that are both active, or both not, come in either order. -/
theorem sublist_sequences (hrules : DistinctIds rules) {level level' : List Rule}
    (hlevel : level.Sublist rules) (hlevel' : level'.Sublist rules.reverse)
    (ha : a ∈ level) (hb : b ∈ level) (ha' : a ∈ level') (hb' : b ∈ level') (hne : a ≠ b)
    (p : Rule → Bool) (hpa : p a = true) (hpb : p b = true) :
    [a, b].Sublist (level.filter p) ∧ [b, a].Sublist (level'.filter p) ∨
      [b, a].Sublist (level.filter p) ∧ [a, b].Sublist (level'.filter p) := by
  have hboth {r q : Rule} (hr : p r = true) (hq : p q = true) : [r, q].filter p = [r, q] := by
    simp [hr, hq]
  have hreverse : rules.reverse.Nodup := List.nodup_reverse.2 hrules.nodup
  rcases sublist_pair (hlevel.subset ha) (hlevel.subset hb) hne with hab | hba
  · refine .inl ⟨hboth hpa hpb ▸ List.Sublist.filter p ?_, hboth hpb hpa ▸ List.Sublist.filter p ?_⟩
    · exact sublist_pair_of hrules.nodup hlevel ha hb hne hab
    · exact sublist_pair_of hreverse hlevel' hb' ha' hne.symm hab.reverse
  · refine .inr ⟨hboth hpb hpa ▸ List.Sublist.filter p ?_, hboth hpa hpb ▸ List.Sublist.filter p ?_⟩
    · exact sublist_pair_of hrules.nodup hlevel hb ha hne.symm hba
    · exact sublist_pair_of hreverse hlevel' ha' hb' hne hba.reverse

theorem settled_of_reproducible (hrules : DistinctIds rules) (h : Reproducible rules) :
    (∀ r, ¬OnCycle (DependsOn rules) r) ∧ Settled rules := by
  obtain ⟨sequence, hpairwise, hall⟩ := h
  have hsequence (order : HashOrder Rule) : ∃ levels,
      Loop.Returns asyncLevelStep (asyncLevelInit order rules) levels ∧
        resultRules levels = sequence := by
    obtain ⟨levels, hlevels, hcalls⟩ := hall order
    obtain ⟨c, hlogs, hreturned⟩ := callOn_logs levels
    exact ⟨levels, hlevels, (hcalls (callOn levels) rfl).2 c _ hlogs hreturned⟩
  obtain ⟨levels, hlevels, heq⟩ := hsequence (HashOrder.insertion Rule)
  obtain ⟨levels', hlevels', heq'⟩ := hsequence reverseOrder
  obtain ⟨hlay, hmem⟩ := asyncLevels_layering hrules hlevels
  obtain ⟨hlay', hmem'⟩ := asyncLevels_layering hrules hlevels'
  have hnodup : sequence.Nodup := heq ▸ (resultRules_perm hrules hlevels).nodup_iff.2 hrules.nodup
  refine ⟨fun r hr ↦ ?_, fun a ha b hb hne i hia hib ↦ ?_⟩
  · obtain ⟨d, hrd, -⟩ := hr.exists_succ
    exact not_onCycle_of_asyncLevels hlay r (hmem r hrd.1) hr
  · -- the level of both, in either order of the map
    obtain ⟨level, hlevel, hal, hbl⟩ := exists_level_pair hrules hlevels ha hb hia hib
    obtain ⟨level', hlevel', hal', hbl'⟩ := exists_level_pair hrules hlevels' ha hb hia hib
    have hblock := block_sublist hlevel
    have hblock' := block_sublist hlevel'
    rw [heq] at hblock
    rw [heq'] at hblock'
    have hsub := asyncLevels_sublist hlevels _ hlevel
    rw [ruleMapOf_insertion hrules] at hsub
    have hsub' := asyncLevels_sublist hlevels' _ hlevel'
    rw [ruleMapOf_reverseOrder hrules] at hsub'
    have hsame (p : Rule → Bool) (hpa : p a = true) (hpb : p b = true)
        (hp : (level.filter p).Sublist sequence) (hp' : (level'.filter p).Sublist sequence) :
        False := by
      rcases sublist_sequences hrules hsub hsub' hal hbl hal' hbl' hne p hpa hpb with
        ⟨hab, hba⟩ | ⟨hba, hab⟩
      · exact not_sublist_swap hnodup (hab.trans hp) (hba.trans hp')
      · exact not_sublist_swap hnodup (hab.trans hp') (hba.trans hp)
    cases hactive : a.isActive <;> cases hactive' : b.isActive
    · exact (hsame (fun r ↦ !r.isActive) (by rw [hactive]; rfl) (by rw [hactive']; rfl)
        ((List.sublist_append_left ..).trans hblock)
        ((List.sublist_append_left ..).trans hblock')).elim
    · have hab := heq ▸ inactive_active_sublist hlevel hal hbl hactive hactive'
      exact .inl ⟨rfl, rfl, priorityOrder_of_sublist hpairwise hab hia hib⟩
    · have hba := heq ▸ inactive_active_sublist hlevel hbl hal hactive' hactive
      exact .inr ⟨rfl, rfl, priorityOrder_of_sublist hpairwise hba hib hia⟩
    · exact (hsame (fun r ↦ r.isActive) hactive hactive'
        ((List.sublist_append_right ..).trans hblock)
        ((List.sublist_append_right ..).trans hblock')).elim

/-- **The results of the asynchronous executor are reproducible** exactly if no rule depends on
itself and no level leaves anything to order. -/
theorem async_order_iff (idOrder : HashOrder Id) (order : HashOrder Rule) (w w' : Workflow)
    (hw : w.Fresh) (hvalid : w.validate idOrder order = (.ok (), w')) :
    Reproducible w'.rules ↔ (∀ r, ¬OnCycle (DependsOn w'.rules) r) ∧ Settled w'.rules :=
  have hrules := (Workflow.validate_accepted hw hvalid).distinct
  ⟨settled_of_reproducible hrules, fun h ↦ reproducible_of_settled hrules h.1 h.2⟩

/-- Two rules with nothing to order them but their priorities. -/
def unorderedPair : Workflow where
  rules := [{ id := 1, name := "A", priority := 2 }, { id := 2, name := "B", priority := 1 }]

theorem unorderedPair_fresh : unorderedPair.Fresh :=
  ⟨rfl, by decide⟩

/-- The pair as validation leaves it. -/
def unorderedPairValidated : Workflow :=
  (unorderedPair.validate (HashOrder.insertion Id) (HashOrder.insertion Rule)).2

theorem unorderedPair_reproducible_iff :
    Reproducible unorderedPairValidated.rules ↔
      (∀ r, ¬OnCycle (DependsOn unorderedPairValidated.rules) r) ∧
        Settled unorderedPairValidated.rules :=
  async_order_iff (HashOrder.insertion Id) (HashOrder.insertion Rule) unorderedPair
    unorderedPairValidated unorderedPair_fresh rfl

/-- The pair is accepted, and its results come in the order of the map. -/
theorem unorderedPair_not_reproducible :
    unorderedPair.validate (HashOrder.insertion Id) (HashOrder.insertion Rule) =
        (.ok (), unorderedPairValidated) ∧
      ¬Reproducible unorderedPairValidated.rules := by
  refine ⟨rfl, fun h ↦ ?_⟩
  have hlevel : ∀ r, DependencyLevel unorderedPairValidated.rules 0 r := by
    refine fun r ↦ ⟨trivial, ?_⟩
    rintro ⟨d, ⟨hr, -, hdep⟩, -⟩
    have hnone : ∀ r ∈ unorderedPairValidated.rules, r.dependsOnRuleName = none := by decide
    rw [hnone r hr] at hdep
    cases hdep
  have hdistinct : DistinctIds unorderedPairValidated.rules := by decide
  have hactive : ∀ r ∈ unorderedPairValidated.rules, r.isActive = true := by decide
  obtain ⟨a, ha, b, hb, hne⟩ : ∃ a ∈ unorderedPairValidated.rules,
      ∃ b ∈ unorderedPairValidated.rules, a ≠ b :=
    ⟨_, List.mem_cons_self, _, List.mem_cons_of_mem _ List.mem_cons_self,
      fun h ↦ absurd (congrArg (fun r : Rule ↦ r.id) h) (by decide)⟩
  rcases (settled_of_reproducible hdistinct h).2 a ha b hb hne 0 (hlevel a) (hlevel b) with
    ⟨hfalse, -⟩ | ⟨hfalse, -⟩
  · cases (hactive a ha).symm.trans hfalse
  · cases (hactive b hb).symm.trans hfalse

end FastRules
