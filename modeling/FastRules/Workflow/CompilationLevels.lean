import FastRules.Foundations.Loop
import FastRules.Rule.Basic
import Mathlib.Data.Finset.Card
import Mathlib.Logic.Function.Basic

/-!
# Compilation levels

`Workflow::buildCompilationLevels`: the listed rules in levels, a rule after its listed children.
Rules are told apart by their addresses, but the in-degrees are kept by id, so rules that share an
id share one count. What matters to compilation does not depend on the counts: every listed rule is
in some level, the last one taking up the rules that were never released
(`exists_mem_compilationLevels`), and nothing else is.
-/

namespace FastRules

/-- The rule has the other one as a child. -/
def hasChild (potentialParent rule : Rule) : Bool :=
  potentialParent.childRules.any fun child ↦ child.ptr = rule.ptr

/-- The variables of the `while (!currentLevel.empty())` loop. -/
structure CompilationLevels where
  inDegree : Id → Int
  remaining : Finset RulePtr
  currentLevel : List Rule
  levels : List (List Rule)

namespace CompilationLevels

variable (rules : List Rule)

/-- The number of listed children of each rule, by the id of the rule. -/
def countChildren : Id → Int :=
  rules.foldl
    (fun inDegree rule ↦ Function.update inDegree rule.id
      (inDegree rule.id + rule.childRules.countP fun child ↦ rules.any fun r ↦ r.ptr = child.ptr))
    fun _ ↦ 0

/-- The state in which the loop is entered. -/
def start : CompilationLevels where
  inDegree := countChildren rules
  remaining := (rules.map fun r ↦ r.ptr).toFinset
  currentLevel := rules.filter fun rule ↦ countChildren rules rule.id = 0
  levels := []

/-- Lower the in-degree of a remaining parent of the rule, once. -/
def release (rule : Rule) (s : CompilationLevels) (potentialParent : Rule) : CompilationLevels :=
  if potentialParent.ptr ∈ s.remaining ∧ hasChild potentialParent rule then
    let inDegree := s.inDegree potentialParent.id - 1
    { s with
      inDegree := Function.update s.inDegree potentialParent.id inDegree
      currentLevel := if inDegree = 0 then s.currentLevel ++ [potentialParent] else s.currentLevel }
  else s

/-- Close the current level. -/
def close (s : CompilationLevels) : CompilationLevels :=
  { s with
    remaining := s.currentLevel.foldl (fun remaining rule ↦ remaining.erase rule.ptr) s.remaining
    currentLevel := []
    levels := s.levels ++ [s.currentLevel] }

/-- One pass of the loop, and the level of leftovers behind it. -/
def pass (s : CompilationLevels) : CompilationLevels ⊕ List (List Rule) :=
  if s.currentLevel.isEmpty then
    .inr (if s.remaining = ∅ then s.levels
      else s.levels ++ [rules.filter fun rule ↦ rule.ptr ∈ s.remaining])
  else .inl (s.currentLevel.foldl (fun t rule ↦ rules.foldl (release rule) t) s.close)

/-! ### What a pass does -/

variable {rules} {s : CompilationLevels}

/-- The current level is made of remaining rules. -/
def Pending (rules : List Rule) (s : CompilationLevels) : Prop :=
  ∀ r ∈ s.currentLevel, r ∈ rules ∧ r.ptr ∈ s.remaining

theorem release_frame (rule : Rule) (s : CompilationLevels) (q : Rule) :
    (s.release rule q).remaining = s.remaining ∧ (s.release rule q).levels = s.levels := by
  rw [release]
  split_ifs <;> exact ⟨rfl, rfl⟩

theorem release_pending (rule : Rule) {q : Rule} (hq : q ∈ rules) (h : s.Pending rules) :
    (s.release rule q).Pending rules := by
  rw [release]
  split_ifs with hparent
  · show ∀ r ∈ (if s.inDegree q.id - 1 = 0 then s.currentLevel ++ [q] else s.currentLevel),
      r ∈ rules ∧ r.ptr ∈ s.remaining
    split_ifs
    · refine List.forall_mem_append.2 ⟨h, fun r hr ↦ ?_⟩
      obtain rfl := List.mem_singleton.1 hr
      exact ⟨hq, hparent.1⟩
    · exact h
  · exact h

/-- Releasing all parents of a rule. -/
theorem release_foldl (rule : Rule) {l : List Rule} (hl : ∀ q ∈ l, q ∈ rules)
    (h : s.Pending rules) :
    (l.foldl (release rule) s).Pending rules ∧ (l.foldl (release rule) s).remaining = s.remaining ∧
      (l.foldl (release rule) s).levels = s.levels := by
  induction l generalizing s with
  | nil => exact ⟨h, rfl, rfl⟩
  | cons q l ih =>
    obtain ⟨hremaining, hlevels⟩ := s.release_frame rule q
    obtain ⟨hpending, hremaining', hlevels'⟩ := ih (s := s.release rule q)
      (fun r hr ↦ hl r (List.mem_cons_of_mem q hr))
        (release_pending rule (hl q List.mem_cons_self) h)
    exact ⟨hpending, hremaining'.trans hremaining, hlevels'.trans hlevels⟩

/-- Releasing the parents of all rules of a level. -/
theorem release_level (level : List Rule) (h : s.Pending rules) :
    let s' := level.foldl (fun t rule ↦ rules.foldl (release rule) t) s
    s'.Pending rules ∧ s'.remaining = s.remaining ∧ s'.levels = s.levels := by
  induction level generalizing s with
  | nil => exact ⟨h, rfl, rfl⟩
  | cons rule level ih =>
    obtain ⟨hpending, hremaining, hlevels⟩ := release_foldl rule (fun q hq ↦ hq) h
    obtain ⟨hpending', hremaining', hlevels'⟩ := ih hpending
    exact ⟨hpending', hremaining'.trans hremaining, hlevels'.trans hlevels⟩

/-- What is left after a level. -/
theorem mem_close_remaining {p : RulePtr} :
    p ∈ s.close.remaining ↔ p ∈ s.remaining ∧ ∀ r ∈ s.currentLevel, r.ptr ≠ p := by
  show p ∈ s.currentLevel.foldl (fun remaining rule ↦ remaining.erase rule.ptr) s.remaining ↔ _
  generalize s.remaining = m
  induction s.currentLevel generalizing m with
  | nil => simp
  | cons q l ih =>
    rw [List.foldl_cons, ih, Finset.mem_erase, List.forall_mem_cons]
    tauto

/-- A pass that continues. -/
theorem pass_inl {s' : CompilationLevels} (h : pass rules s = .inl s') :
    s.currentLevel ≠ [] ∧ s'.Pending rules ∧ s'.remaining = s.close.remaining ∧
      s'.levels = s.levels ++ [s.currentLevel] := by
  rw [pass] at h
  split_ifs at h with hempty
  obtain rfl := Sum.inl.inj h
  refine ⟨by simpa using hempty, release_level s.currentLevel ?_⟩
  show ∀ r ∈ ([] : List Rule), _
  exact fun r hr ↦ absurd hr List.not_mem_nil

/-- A pass that continues takes rules away. -/
theorem pass_card_lt {s' : CompilationLevels} (hpending : s.Pending rules)
    (h : pass rules s = .inl s') : s'.remaining.card < s.remaining.card := by
  obtain ⟨hne, -, hremaining, -⟩ := pass_inl h
  obtain ⟨r, hr⟩ := List.exists_mem_of_ne_nil _ hne
  rw [hremaining]
  refine Finset.card_lt_card ⟨fun p hp ↦ (mem_close_remaining.1 hp).1, fun hsub ↦ ?_⟩
  exact (mem_close_remaining.1 (hsub (hpending r hr).2)).2 r hr rfl

theorem start_pending (rules : List Rule) : (start rules).Pending rules := by
  intro r hr
  have hmem : r ∈ rules := List.mem_of_mem_filter hr
  exact ⟨hmem, List.mem_toFinset.2 (List.mem_map_of_mem hmem)⟩

theorem run_isSome (rules : List Rule) :
    (Loop.run (pass rules) (rules.length + 1) (start rules)).isSome := by
  refine Loop.run_isSome_of_measure (fun s ↦ s.Pending rules) (fun s ↦ s.remaining.card)
    (fun s s' hpending h ↦ ⟨(pass_inl h).2.1, pass_card_lt hpending h⟩) (start_pending rules) ?_
  have hcard : (start rules).remaining.card ≤ (rules.map fun r ↦ r.ptr).length :=
    List.toFinset_card_le _
  rw [List.length_map] at hcard
  exact Nat.lt_succ_of_le hcard

end CompilationLevels

open CompilationLevels

/-- `Workflow::buildCompilationLevels`. -/
def buildCompilationLevels (rules : List Rule) : List (List Rule) :=
  (Loop.run (pass rules) (rules.length + 1) (start rules)).get (run_isSome rules)

/-! ### The levels -/

/-- The invariant of the loop: a listed rule is remaining or in a level, and only listed rules are
in levels. -/
structure CompilationLevels.Inv (rules : List Rule) (s : CompilationLevels) : Prop where
  pending : s.Pending rules
  placed : ∀ r ∈ rules, r.ptr ∈ s.remaining ∨ ∃ level ∈ s.levels, ∃ q ∈ level, q.ptr = r.ptr
  listed : ∀ level ∈ s.levels, ∀ r ∈ level, r ∈ rules

theorem CompilationLevels.Inv.pass {rules : List Rule} {s s' : CompilationLevels} (h : s.Inv rules)
    (hpass : pass rules s = .inl s') : s'.Inv rules := by
  obtain ⟨-, hpending, hremaining, hlevels⟩ := pass_inl hpass
  refine ⟨hpending, fun r hr ↦ ?_, fun level hlevel ↦ ?_⟩
  · rw [hremaining, hlevels]
    rcases h.placed r hr with hleft | ⟨level, hlevel, q, hq, hptr⟩
    · by_cases hcurrent : ∃ q ∈ s.currentLevel, q.ptr = r.ptr
      · exact .inr ⟨_, List.mem_append_right _ (List.mem_singleton_self _), hcurrent⟩
      · push Not at hcurrent
        exact .inl (mem_close_remaining.2 ⟨hleft, hcurrent⟩)
    · exact .inr ⟨level, List.mem_append_left _ hlevel, q, hq, hptr⟩
  · rw [hlevels] at hlevel
    rcases List.mem_append.1 hlevel with hlevel | hlevel
    · exact h.listed level hlevel
    · obtain rfl := List.mem_singleton.1 hlevel
      exact fun r hr ↦ (h.pending r hr).1

theorem compilationLevels_inv (rules : List Rule) : ∃ s, CompilationLevels.Inv rules s ∧
    pass rules s = .inr (buildCompilationLevels rules) := by
  have hstart : (start rules).Inv rules :=
    ⟨start_pending rules, fun r hr ↦ .inl (List.mem_toFinset.2 (List.mem_map_of_mem hr)),
      fun level hlevel ↦ absurd hlevel List.not_mem_nil⟩
  exact Loop.Returns.invariant (fun s s' hs h ↦ hs.pass h) hstart ⟨_, (Option.some_get _).symm⟩

/-- Every listed rule is in some level. -/
theorem exists_mem_compilationLevels {rules : List Rule} {r : Rule} (hr : r ∈ rules) :
    ∃ level ∈ buildCompilationLevels rules, ∃ q ∈ level, q.ptr = r.ptr := by
  obtain ⟨s, hinv, hpass⟩ := compilationLevels_inv rules
  rw [CompilationLevels.pass] at hpass
  split_ifs at hpass with hempty hremaining
  · rw [← Sum.inr.inj hpass]
    refine (hinv.placed r hr).resolve_left fun hleft ↦ ?_
    rw [hremaining] at hleft
    exact absurd hleft (Finset.notMem_empty _)
  · rw [← Sum.inr.inj hpass]
    rcases hinv.placed r hr with hleft | ⟨level, hlevel, hq⟩
    · exact ⟨_, List.mem_append_right _ (List.mem_singleton_self _), r,
        List.mem_filter.2 ⟨hr, by simpa using hleft⟩, rfl⟩
    · exact ⟨level, List.mem_append_left _ hlevel, hq⟩

/-- Nothing else is. -/
theorem mem_of_mem_compilationLevels {rules level : List Rule} {r : Rule}
    (hlevel : level ∈ buildCompilationLevels rules) (hr : r ∈ level) : r ∈ rules := by
  obtain ⟨s, hinv, hpass⟩ := compilationLevels_inv rules
  rw [CompilationLevels.pass] at hpass
  split_ifs at hpass with hempty hremaining
  · rw [← Sum.inr.inj hpass] at hlevel
    exact hinv.listed level hlevel r hr
  · rw [← Sum.inr.inj hpass] at hlevel
    rcases List.mem_append.1 hlevel with hlevel | hlevel
    · exact hinv.listed level hlevel r hr
    · obtain rfl := List.mem_singleton.1 hlevel
      exact List.mem_of_mem_filter hr

end FastRules
