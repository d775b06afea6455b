import FastRules.Workflow.LevelOrder
import FastRules.Workflow.Validate

/-!
# The levels of the asynchronous executor

The loop of `AsyncWorkflow::executeParallelAsync` that groups the rules: a rule waits while *any*
rule that is left carries the name it depends on. Without a guard for an empty level the loop goes
on forever when all rules that are left wait, which happens exactly on a cycle of `DependsOn`.
-/

namespace FastRules

open Layers Descent

/-- The variables of the loop: the map `remaining` in iteration order and the levels so far. -/
structure AsyncLevelState where
  remaining : List Rule
  levels : List (List Rule)

/-- The state in which the loop is entered. -/
def asyncLevelInit (order : HashOrder Rule) (rules : List Rule) : AsyncLevelState where
  remaining := ruleMapOf order rules
  levels := []

/-- `!depsSatisfied`: some rule that is left carries the name. -/
def isBlocked (remaining : List Rule) (rule : Rule) : Bool :=
  match rule.dependsOnRuleName with
  | some n => remaining.any fun r ↦ r.name = n
  | none => false

/-- The level of a pass, in iteration order. -/
def AsyncLevelState.level (s : AsyncLevelState) : List Rule :=
  s.remaining.filter fun rule ↦ !isBlocked s.remaining rule

/-- One pass of `while (!remaining.empty())`. -/
def asyncLevelStep (s : AsyncLevelState) : AsyncLevelState ⊕ List (List Rule) :=
  if s.remaining.isEmpty then
    Sum.inr s.levels
  else
    Sum.inl {
      remaining := s.level.foldl (fun m rule ↦ m.filter fun r ↦ r.id ≠ rule.id) s.remaining
      levels := if s.level.isEmpty then s.levels else s.levels ++ [s.level] }

variable {rules : List Rule} {order : HashOrder Rule} {s s' : AsyncLevelState}

/-- No rule that could delay `r` is missing from `done`. -/
def Unblocked (rules done : List Rule) (r : Rule) : Prop :=
  ∀ d, DependsOn rules r d → d ∈ done

theorem isBlocked_iff {remaining : List Rule} {r : Rule} :
    isBlocked remaining r = true ↔ ∃ d ∈ remaining, r.dependsOnRuleName = some d.name := by
  unfold isBlocked
  rcases r.dependsOnRuleName with - | n
  · simp
  · simp only [List.any_eq_true, decide_eq_true_eq, Option.some.injEq]
    exact exists_congr fun d ↦ and_congr_right fun _ ↦ eq_comm

theorem foldl_erase (level m : List Rule) :
    level.foldl (fun m rule ↦ m.filter fun r ↦ r.id ≠ rule.id) m =
      m.filter fun r ↦ level.all fun q ↦ r.id ≠ q.id := by
  induction level generalizing m with
  | nil => simp
  | cons rule level ih =>
    rw [List.foldl_cons, ih, List.filter_filter]
    exact List.filter_congr fun r _ ↦ by simp [Bool.and_comm]

/-- What holds between the passes. -/
structure AsyncLevelState.Inv (rules : List Rule) (s : AsyncLevelState) : Prop where
  distinct : DistinctIds s.remaining
  mem_iff : ∀ r, r ∈ s.remaining ↔ r ∈ rules ∧ r ∉ s.levels.flatten
  layering : Layering rules (Unblocked rules) s.levels

theorem asyncLevelInit_inv (order : HashOrder Rule) (h : DistinctIds rules) :
    (asyncLevelInit order rules).Inv rules where
  distinct := h.perm (ruleMapOf_perm order h)
  mem_iff r := by
    have hperm : (asyncLevelInit order rules).remaining.Perm rules := ruleMapOf_perm order h
    rw [hperm.mem_iff]
    simp [asyncLevelInit]
  layering := Layering.nil

section Step

variable (hrules : DistinctIds rules) (h : s.Inv rules)
include h

theorem AsyncLevelState.Inv.mem_level_iff {r : Rule} :
    r ∈ s.level ↔ r ∈ rules ∧ r ∉ s.levels.flatten ∧ Unblocked rules s.levels.flatten r := by
  rw [AsyncLevelState.level, List.mem_filter, h.mem_iff, and_assoc]
  refine and_congr_right fun hr ↦ and_congr_right fun _ ↦ ?_
  rw [Bool.not_eq_true', ← Bool.not_eq_true, isBlocked_iff, not_exists]
  constructor
  · intro hnone d hrd
    by_contra hd
    exact hnone d ⟨(h.mem_iff d).2 ⟨hrd.2.1, hd⟩, hrd.2.2⟩
  · rintro hfree d ⟨hd, hdep⟩
    obtain ⟨hdr, hdout⟩ := (h.mem_iff d).1 hd
    exact hdout (hfree d ⟨hr, hdr, hdep⟩)

include hrules

theorem AsyncLevelState.Inv.mem_remaining_iff {r : Rule} :
    r ∈ s.level.foldl (fun m rule ↦ m.filter fun r ↦ r.id ≠ rule.id) s.remaining ↔
      r ∈ s.remaining ∧ r ∉ s.level := by
  rw [foldl_erase, List.mem_filter]
  refine and_congr_right fun hr ↦ ?_
  have hr' : r ∈ rules := ((h.mem_iff r).1 hr).1
  simp only [List.all_eq_true, decide_eq_true_eq]
  exact ⟨fun hall hin ↦ hall r hin rfl,
    fun hout q hq he ↦ hout (hrules.inj hr' (h.mem_level_iff.1 hq).1 he ▸ hq)⟩

/-- A pass keeps the invariant. -/
theorem asyncLevelStep_inv (hstep : asyncLevelStep s = Sum.inl s') : s'.Inv rules := by
  unfold asyncLevelStep at hstep
  split_ifs at hstep with hempty hlevel
  · obtain rfl := Sum.inl.inj hstep
    rw [List.isEmpty_iff] at hlevel
    exact ⟨by rw [hlevel]; exact h.distinct, by rw [hlevel]; exact h.mem_iff, h.layering⟩
  · obtain rfl := Sum.inl.inj hstep
    have hflat : (s.levels ++ [s.level]).flatten = s.levels.flatten ++ s.level := by simp
    refine ⟨?_, fun r ↦ ?_, h.layering.snoc ?_ ?_ fun _ ↦ h.mem_level_iff⟩
    · show DistinctIds (s.level.foldl _ s.remaining)
      rw [foldl_erase]
      exact h.distinct.sublist List.filter_sublist
    · rw [hflat, List.mem_append, not_or, ← and_assoc, ← h.mem_iff r]
      exact h.mem_remaining_iff hrules
    · exact h.distinct.nodup.filter _
    · simpa using hlevel

/-- Without cycles a pass removes a rule. -/
theorem asyncLevelStep_lt (hacyclic : ∀ r, ¬OnCycle (DependsOn rules) r)
    (hstep : asyncLevelStep s = Sum.inl s') : s'.remaining.length < s.remaining.length := by
  have hlevel : ∃ r ∈ s.remaining, r ∈ s.level := by
    by_contra hnone
    push Not at hnone
    unfold asyncLevelStep at hstep
    split_ifs at hstep with hempty hlevel
    -- every rule that is left waits for a rule that is left
    all_goals
      obtain ⟨x, -, hx⟩ := exists_onCycle (R := DependsOn rules)
        (by simpa using hempty : s.remaining ≠ []) fun r hr ↦ by
          obtain ⟨hrr, hrout⟩ := (h.mem_iff r).1 hr
          have hblocked : ¬Unblocked rules s.levels.flatten r := fun hfree ↦
            hnone r hr (h.mem_level_iff.2 ⟨hrr, hrout, hfree⟩)
          rw [Unblocked] at hblocked
          push Not at hblocked
          obtain ⟨d, hrd, hd⟩ := hblocked
          exact ⟨d, (h.mem_iff d).2 ⟨hrd.2.1, hd⟩, hrd⟩
      exact hacyclic x hx
  obtain ⟨r, hr, hin⟩ := hlevel
  have hmem : ∀ q, q ∈ s'.remaining ↔ q ∈ s.remaining ∧ q ∉ s.level := by
    unfold asyncLevelStep at hstep
    split_ifs at hstep <;> obtain rfl := Sum.inl.inj hstep <;>
      exact fun q ↦ h.mem_remaining_iff hrules
  have hinv := asyncLevelStep_inv hrules h hstep
  have hsub : s'.remaining.Subperm (s.remaining.filter fun q ↦ q.id ≠ r.id) :=
    List.subperm_of_subset hinv.distinct.nodup fun q hq ↦ by
      obtain ⟨hqs, hql⟩ := (hmem q).1 hq
      refine List.mem_filter.2 ⟨hqs, decide_eq_true fun he ↦ hql ?_⟩
      exact hrules.inj ((h.mem_iff q).1 hqs).1 ((h.mem_iff r).1 hr).1 he ▸ hin
  exact hsub.length_le.trans_lt
    (List.length_filter_lt_length_iff_exists.2 ⟨r, hr, by simp⟩)

end Step

/-! ### The result of the loop -/

/-- The levels of a loop that ends are a complete layering. -/
theorem asyncLevels_layering (hrules : DistinctIds rules) {levels : List (List Rule)}
    (h : Loop.Returns asyncLevelStep (asyncLevelInit order rules) levels) :
    Layering rules (Unblocked rules) levels ∧ ∀ r ∈ rules, r ∈ levels.flatten := by
  obtain ⟨s, hinv, hexit⟩ := h.invariant (fun _ _ hi ↦ asyncLevelStep_inv hrules hi)
    (asyncLevelInit_inv order hrules)
  unfold asyncLevelStep at hexit
  split_ifs at hexit with hempty
  obtain rfl : s.levels = levels := Sum.inr.inj hexit
  refine ⟨hinv.layering, fun r hr ↦ ?_⟩
  by_contra hout
  have hmem := (hinv.mem_iff r).2 ⟨hr, hout⟩
  rw [List.isEmpty_iff.1 hempty] at hmem
  exact absurd hmem List.not_mem_nil

/-- The loop places the rules of its map: of rules with one id the last. -/
theorem mem_asyncLevels {levels : List (List Rule)}
    (h : Loop.Returns asyncLevelStep (asyncLevelInit order rules) levels) {r : Rule} :
    r ∈ levels.flatten ↔ r ∈ ruleMapOf order rules := by
  have hdistinct : DistinctIds (ruleMapOf order rules) := distinctIds_ruleMapOf order rules
  have hinit : asyncLevelInit order rules =
      asyncLevelInit (HashOrder.insertion Rule) (ruleMapOf order rules) := by
    rw [asyncLevelInit, asyncLevelInit, ruleMapOf_insertion hdistinct]
  rw [hinit] at h
  obtain ⟨hlay, hall⟩ := asyncLevels_layering hdistinct h
  exact ⟨hlay.mem_nodes_of_mem_flatten, hall r⟩

/-- A complete layering in which rules come after all they depend on leaves no room for cycles. -/
theorem not_onCycle_of_asyncLevels {levels : List (List Rule)}
    (hlay : Layering rules (Unblocked rules) levels) (r : Rule) : r ∈ levels.flatten →
    ¬OnCycle (DependsOn rules) r := by
  intro hr
  obtain ⟨i, hi⟩ := mem_flatten_iff.1 hr
  refine not_onCycle_of_rank (ρ := fun x i ↦ At levels i x) (fun x i hx y hxy ↦ ?_) hi
  exact mem_before_iff.1 (hlay.ready_of_at hx y hxy)

/-- Without cycles the loop ends. -/
theorem asyncLevels_returns (order : HashOrder Rule) (hrules : DistinctIds rules)
    (hacyclic : ∀ r, ¬OnCycle (DependsOn rules) r) :
    ∃ levels, Loop.Returns asyncLevelStep (asyncLevelInit order rules) levels :=
  Loop.exists_returns_of_measure (AsyncLevelState.Inv rules)
    (fun s : AsyncLevelState ↦ s.remaining.length)
    (fun _ _ hi hstep ↦ ⟨asyncLevelStep_inv hrules hi hstep,
      asyncLevelStep_lt hrules hi hacyclic hstep⟩) (asyncLevelInit_inv order hrules)

/-- **The level loop of a validated workflow** removes a rule in each pass and ends with every rule
in one level exactly if no rule depends on itself through the rules of the names in question. -/
theorem asyncLevels_terminates_iff (idOrder : HashOrder Id) (order order' : HashOrder Rule)
    (w w' : Workflow) (hw : w.Fresh) (h : w.validate idOrder order = (.ok (), w')) :
    ((∀ s s', Loop.Reaches asyncLevelStep (asyncLevelInit order' w'.rules) s →
        asyncLevelStep s = Sum.inl s' → s'.remaining.length < s.remaining.length) ∧
      ∃ levels, Loop.Returns asyncLevelStep (asyncLevelInit order' w'.rules) levels ∧
        levels.flatten.Perm w'.rules) ↔
      ∀ r, ¬OnCycle (DependsOn w'.rules) r := by
  have hrules := (Workflow.validate_accepted hw h).distinct
  constructor
  · rintro ⟨-, levels, hreturns, -⟩ r hr
    obtain ⟨hlay, hall⟩ := asyncLevels_layering hrules hreturns
    obtain ⟨d, hrd, -⟩ := hr.exists_succ
    exact not_onCycle_of_asyncLevels hlay r (hall r hrd.1) hr
  · intro hacyclic
    refine ⟨fun s s' hreach hstep ↦ ?_, ?_⟩
    · exact asyncLevelStep_lt hrules (hreach.invariant
        (fun _ _ hi ↦ asyncLevelStep_inv hrules hi) (asyncLevelInit_inv order' hrules))
          hacyclic hstep
    · obtain ⟨levels, hreturns⟩ := asyncLevels_returns order' hrules hacyclic
      obtain ⟨hlay, hall⟩ := asyncLevels_layering hrules hreturns
      exact ⟨levels, hreturns, hlay.flatten_perm hrules.nodup hall⟩

/-- Two rules that depend on each other, one of them under the id that stands for "not found". -/
def hiddenPair : Workflow where
  rules := [{ id := -1, name := "A", dependsOnRuleName := some "B" },
    { id := 2, name := "B", dependsOnRuleName := some "A" }]

theorem hiddenPair_fresh : hiddenPair.Fresh :=
  ⟨rfl, by simp [hiddenPair]⟩

/-- The pair as validation leaves it. -/
def hiddenPairValidated : Workflow :=
  (hiddenPair.validate (HashOrder.insertion Id) (HashOrder.insertion Rule)).2

/-- The first pass removes nothing, so the loop stays in the state it starts from. -/
theorem hiddenPair_stuck (levels : List (List Rule)) :
    ¬Loop.Returns asyncLevelStep
      (asyncLevelInit (HashOrder.insertion Rule) hiddenPairValidated.rules) levels :=
  Loop.not_returns_of_invariant (fun s ↦ s = asyncLevelInit _ _)
    (fun s hs ↦ ⟨s, by rw [hs]; rfl, hs⟩) rfl levels

theorem hiddenPair_onCycle : ∃ r, OnCycle (DependsOn hiddenPairValidated.rules) r := by
  by_contra hno
  push Not at hno
  obtain ⟨-, levels, hreturns, -⟩ := (asyncLevels_terminates_iff (HashOrder.insertion Id)
    (HashOrder.insertion Rule) (HashOrder.insertion Rule) hiddenPair hiddenPairValidated
    hiddenPair_fresh rfl).2 hno
  exact hiddenPair_stuck levels hreturns

/-- Validation accepts the pair, and the level loop never ends. -/
theorem hiddenPair_validated_and_stuck :
    hiddenPair.Fresh ∧
      hiddenPair.validate (HashOrder.insertion Id) (HashOrder.insertion Rule) =
        (.ok (), hiddenPairValidated) ∧
      ∀ levels, ¬Loop.Returns asyncLevelStep
        (asyncLevelInit (HashOrder.insertion Rule) hiddenPairValidated.rules) levels :=
  ⟨hiddenPair_fresh, rfl, hiddenPair_stuck⟩

end FastRules
