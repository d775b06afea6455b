import FastRules.Engine.Compiling
import FastRules.Workflow.CompilationLevels
import FastRules.Workflow.Validate

/-!
# The order of the compilation levels

An in-degree counts every entry of `childRules` that is listed; a rule that is finished lowers the
in-degree of each parent by one, however often the parent has it. So a rule that has a listed child
twice is never released (`ready_iff`), no rule above it is, and all of these end up in the last
level together. The levels keep parents behind their children exactly if no such rule has a listed
parent (`compilationLevels_respect_children_iff`).
-/

namespace FastRules

open CompilationLevels Layers

/-! ### Listed children -/

/-- Both rules are listed, and the second is a child of the first. -/
def ListedChild (rules : List Rule) (r c : Rule) : Prop :=
  r ∈ rules ∧ c ∈ rules ∧ hasChild r c = true

/-- A listed rule is several times in `childRules`. -/
def RepeatsListedChild (rules : List Rule) (r : Rule) : Prop :=
  ∃ c ∈ rules, 2 ≤ (r.childRules.map fun child ↦ child.ptr).count c.ptr

/-- The entries of `childRules` that are counted. -/
def listedChildren (rules : List Rule) (r : Rule) : List RulePtr :=
  (r.childRules.filter fun child ↦ rules.any fun q ↦ q.ptr = child.ptr).map fun child ↦ child.ptr

/-- How often the in-degree of the rule has been lowered. -/
def childHits (done : List Rule) (r : Rule) : ℕ :=
  done.countP fun q ↦ hasChild r q

/-- The in-degree of the rule has come down to zero. -/
def ChildrenReady (rules done : List Rule) (r : Rule) : Prop :=
  childHits done r = (listedChildren rules r).length

/-- Listed rules have distinct addresses. -/
def DistinctObjects (rules : List Rule) : Prop :=
  ∀ p ∈ rules, ∀ q ∈ rules, p.ptr = q.ptr → p = q

/-- A listed rule that is also a child has the same children there. -/
def ChildrenAgree (rules : List Rule) : Prop :=
  ∀ r c, ListedChild rules r c →
    ∀ child ∈ r.childRules, child.ptr = c.ptr → c.childRules = child.childRules

section Children

variable {rules done : List Rule} {r c : Rule} {p : RulePtr}

theorem hasChild_iff : hasChild r c = true ↔ ∃ child ∈ r.childRules, child.ptr = c.ptr := by
  simp [hasChild]

theorem mem_listedChildren : p ∈ listedChildren rules r ↔ ∃ q ∈ rules, q.ptr = p ∧ hasChild r q =
    true := by
  rw [listedChildren, List.mem_map]
  constructor
  · rintro ⟨child, hchild, rfl⟩
    obtain ⟨hchild, hlisted⟩ := List.mem_filter.1 hchild
    obtain ⟨q, hq, hptr⟩ := List.any_eq_true.1 hlisted
    exact ⟨q, hq, of_decide_eq_true hptr, hasChild_iff.2
      ⟨child, hchild, (of_decide_eq_true hptr).symm⟩⟩
  · rintro ⟨q, hq, rfl, hchild⟩
    obtain ⟨child, hchild, hptr⟩ := hasChild_iff.1 hchild
    have hlisted : rules.any (fun q ↦ q.ptr = child.ptr) = true :=
      List.any_eq_true.2 ⟨q, hq, decide_eq_true hptr.symm⟩
    exact ⟨child, List.mem_filter.2 ⟨hchild, hlisted⟩, hptr⟩

theorem repeatsListedChild_iff : RepeatsListedChild rules r ↔ ¬(listedChildren rules r).Nodup := by
  have hcount : ∀ q ∈ rules, (listedChildren rules r).count q.ptr =
      (r.childRules.map fun child ↦ child.ptr).count q.ptr := by
    intro q hq
    rw [listedChildren, List.count_eq_countP, List.count_eq_countP, List.countP_map,
      List.countP_map,
      List.countP_filter]
    refine List.countP_congr fun child _ ↦ ?_
    simp only [Function.comp_apply, beq_iff_eq, Bool.and_eq_true, List.any_eq_true,
      decide_eq_true_eq]
    exact ⟨fun h ↦ h.1, fun h ↦ ⟨h, q, hq, h.symm⟩⟩
  rw [List.nodup_iff_count_le_one]
  push Not
  constructor
  · rintro ⟨q, hq, htwice⟩
    exact ⟨q.ptr, (hcount q hq).symm ▸ htwice⟩
  · rintro ⟨p, htwice⟩
    have hmem : p ∈ listedChildren rules r :=
      List.count_pos_iff.1 (lt_of_lt_of_le (by omega) htwice)
    obtain ⟨q, hq, rfl, -⟩ := mem_listedChildren.1 hmem
    exact ⟨q, hq, hcount q hq ▸ htwice⟩

variable (hobjects : DistinctObjects rules) (hnodup : done.Nodup) (hlisted : ∀ q ∈ done, q ∈ rules)
include hobjects hnodup hlisted

theorem hit_ptrs_nodup : ((done.filter fun q ↦ hasChild r q).map fun q ↦ q.ptr).Nodup := by
  refine (hnodup.filter _).map_on fun p hp q hq ↦ ?_
  exact hobjects p (hlisted p (List.mem_of_mem_filter hp)) q (hlisted q (List.mem_of_mem_filter hq))

omit hobjects hnodup in
theorem hit_ptrs_subset :
    (done.filter fun q ↦ hasChild r q).map (fun q ↦ q.ptr) ⊆ listedChildren rules r := by
  intro p hp
  obtain ⟨q, hq, rfl⟩ := List.mem_map.1 hp
  obtain ⟨hq, hchild⟩ := List.mem_filter.1 hq
  exact mem_listedChildren.2 ⟨q, hlisted q hq, rfl, by simpa using hchild⟩

omit hobjects hnodup hlisted in
theorem childHits_eq_length :
    childHits done r = ((done.filter fun q ↦ hasChild r q).map fun q ↦ q.ptr).length := by
  rw [childHits, List.countP_eq_length_filter, List.length_map]

/-- An in-degree does not become negative. -/
theorem childHits_le : childHits done r ≤ (listedChildren rules r).length := by
  rw [childHits_eq_length]
  exact ((hit_ptrs_nodup hobjects hnodup hlisted).subperm (hit_ptrs_subset hlisted)).length_le

/-- A rule is released after its last listed child, if it has none of them twice. -/
theorem childrenReady_iff (hr : r ∈ rules) :
    ChildrenReady rules done r ↔
      ¬RepeatsListedChild rules r ∧ ∀ c, ListedChild rules r c → c ∈ done := by
  rw [repeatsListedChild_iff, not_not]
  have hsub := (hit_ptrs_nodup (r := r) hobjects hnodup hlisted).subperm (hit_ptrs_subset hlisted)
  constructor
  · intro hready
    rw [ChildrenReady, childHits_eq_length] at hready
    have hperm := hsub.perm_of_length_le hready.ge
    refine ⟨hperm.nodup_iff.1 (hit_ptrs_nodup hobjects hnodup hlisted), fun c hc ↦ ?_⟩
    have hmem := hperm.mem_iff.2 (mem_listedChildren.2 ⟨c, hc.2.1, rfl, hc.2.2⟩)
    obtain ⟨q, hq, hptr⟩ := List.mem_map.1 hmem
    have hq := List.mem_of_mem_filter hq
    exact hobjects q (hlisted q hq) c hc.2.1 hptr ▸ hq
  · rintro ⟨honce, hall⟩
    have hsub' : listedChildren rules r ⊆ (done.filter fun q ↦ hasChild r q).map fun q ↦ q.ptr := by
      intro p hp
      obtain ⟨q, hq, rfl, hchild⟩ := mem_listedChildren.1 hp
      exact List.mem_map_of_mem (List.mem_filter.2 ⟨hall q ⟨hr, hq, hchild⟩, by simpa using hchild⟩)
    rw [ChildrenReady, childHits_eq_length]
    exact le_antisymm hsub.length_le (honce.subperm hsub').length_le

end Children

section Marked

variable {rules : List Rule} (h : SameObjects (nodesOf rules))
include h

theorem SameObjects.distinctObjects_map : DistinctObjects (rules.map Rule.markValidated) := by
  intro p' hp' q' hq' hptr
  obtain ⟨p, hp, rfl⟩ := List.mem_map.1 hp'
  obtain ⟨q, hq, rfl⟩ := List.mem_map.1 hq'
  rw [h p (Rule.mem_nodesOf.2 ⟨p, hp, p.self_mem_nodes⟩) q
    (Rule.mem_nodesOf.2 ⟨q, hq, q.self_mem_nodes⟩) hptr]

theorem SameObjects.childrenAgree_map : ChildrenAgree (rules.map Rule.markValidated) := by
  rintro r' c' ⟨hr', hc', -⟩ child hchild hptr
  obtain ⟨r, hr, rfl⟩ := List.mem_map.1 hr'
  obtain ⟨c, hc, rfl⟩ := List.mem_map.1 hc'
  have hbelow : child ∈ nodesOf rules := by
    refine Rule.mem_nodesOf.2 ⟨r, hr, ?_⟩
    rw [Rule.nodes_eq]
    exact List.mem_cons_of_mem _ (Rule.mem_nodesOf.2 ⟨child, hchild, child.self_mem_nodes⟩)
  rw [h child hbelow c (Rule.mem_nodesOf.2 ⟨c, hc, c.self_mem_nodes⟩) hptr]
  rfl

end Marked

/-! ### Releasing parents -/

namespace CompilationLevels

section Release

variable {rules : List Rule} {s : CompilationLevels} {rule q x : Rule} {l level : List Rule}

/-- The rule is still to come and has the other one as a child. -/
def Releases (s : CompilationLevels) (rule x : Rule) : Prop :=
  x.ptr ∈ s.remaining ∧ hasChild x rule = true

instance : Decidable (s.Releases rule x) :=
  inferInstanceAs (Decidable (_ ∧ _))

theorem release_of (hrel : s.Releases rule q) :
    s.release rule q =
      { s with
        inDegree := Function.update s.inDegree q.id (s.inDegree q.id - 1)
        currentLevel :=
          if s.inDegree q.id - 1 = 0 then s.currentLevel ++ [q] else s.currentLevel } :=
  if_pos hrel

theorem release_of_not (hrel : ¬s.Releases rule q) : s.release rule q = s :=
  if_neg hrel

theorem release_inDegree_self :
    (s.release rule q).inDegree q.id = s.inDegree q.id - if s.Releases rule q then 1 else 0 := by
  by_cases hrel : s.Releases rule q
  · rw [release_of hrel, if_pos hrel]
    exact Function.update_self _ _ _
  · rw [release_of_not hrel, if_neg hrel, sub_zero]

theorem release_inDegree_of_ne (hid : x.id ≠ q.id) :
    (s.release rule q).inDegree x.id = s.inDegree x.id := by
  by_cases hrel : s.Releases rule q
  · rw [release_of hrel]
    exact Function.update_of_ne hid _ _
  · rw [release_of_not hrel]

theorem release_currentLevel :
    (s.release rule q).currentLevel =
      s.currentLevel ++ if s.Releases rule q ∧ s.inDegree q.id = 1 then [q] else [] := by
  by_cases hrel : s.Releases rule q
  · rw [release_of hrel]
    by_cases hone : s.inDegree q.id = 1
    · have hzero : s.inDegree q.id - 1 = 0 := by omega
      rw [if_pos hzero, if_pos ⟨hrel, hone⟩]
    · have hnonzero : ¬s.inDegree q.id - 1 = 0 := by omega
      rw [if_neg hnonzero, if_neg fun h ↦ hone h.2, List.append_nil]
  · rw [release_of_not hrel, if_neg fun h ↦ hrel h.1, List.append_nil]

theorem release_foldl_frame (rule : Rule) (l : List Rule) (s : CompilationLevels) :
    (l.foldl (release rule) s).remaining = s.remaining ∧
      (l.foldl (release rule) s).levels = s.levels := by
  induction l generalizing s with
  | nil => exact ⟨rfl, rfl⟩
  | cons q l ih =>
    obtain ⟨hremaining, hlevels⟩ := s.release_frame rule q
    exact ⟨(ih _).1.trans hremaining, (ih _).2.trans hlevels⟩

theorem release_foldl_inDegree_of_not_mem (hx : ∀ q ∈ l, x.id ≠ q.id) :
    (l.foldl (release rule) s).inDegree x.id = s.inDegree x.id := by
  induction l generalizing s with
  | nil => rfl
  | cons q l ih =>
    exact (ih fun p hp ↦ hx p (List.mem_cons_of_mem q hp)).trans
      (release_inDegree_of_ne (hx q List.mem_cons_self))

/-- Each parent of a finished rule is lowered once, and released if that takes it to zero. -/
theorem release_foldl_spec (rule : Rule) (s : CompilationLevels) (hl : DistinctIds l) :
    (∀ x ∈ l, (l.foldl (release rule) s).inDegree x.id =
        s.inDegree x.id - if s.Releases rule x then 1 else 0) ∧
      (l.foldl (release rule) s).currentLevel =
        s.currentLevel ++ l.filter fun x ↦ s.Releases rule x ∧ s.inDegree x.id = 1 := by
  induction l generalizing s with
  | nil => exact ⟨fun x hx ↦ absurd hx List.not_mem_nil, (List.append_nil _).symm⟩
  | cons q l ih =>
    have hcons : q.id ∉ l.map (fun r ↦ r.id) ∧ DistinctIds l := List.nodup_cons.1 hl
    have hne : ∀ x ∈ l, x.id ≠ q.id := fun x hx he ↦
      hcons.1 (he ▸ List.mem_map_of_mem (f := fun r : Rule ↦ r.id) hx)
    have hremaining := (s.release_frame rule q).1
    -- releasing one rule does not change whether another is released, ids being distinct
    have hsame : ∀ x, (s.release rule q).Releases rule x ↔ s.Releases rule x := fun x ↦ by
      rw [Releases, Releases, hremaining]
    obtain ⟨hdegree, hlevel⟩ := ih (s := s.release rule q) hcons.2
    rw [List.foldl_cons]
    refine ⟨List.forall_mem_cons.2 ⟨?_, fun x hx ↦ ?_⟩, ?_⟩
    · rw [release_foldl_inDegree_of_not_mem fun x hx ↦ (hne x hx).symm, release_inDegree_self]
    · rw [hdegree x hx, release_inDegree_of_ne (hne x hx)]
      simp only [hsame]
    · have hfilter : (l.filter fun x ↦ (s.release rule q).Releases rule x ∧
            (s.release rule q).inDegree x.id = 1) =
          l.filter fun x ↦ s.Releases rule x ∧ s.inDegree x.id = 1 := by
        refine List.filter_congr fun x hx ↦ ?_
        rw [release_inDegree_of_ne (hne x hx)]
        simp only [hsame]
      rw [hlevel, hfilter, release_currentLevel, List.append_assoc, List.filter_cons]
      split_ifs <;> simp_all

/-- The rules that have been released are counted down. -/
structure Settled (rules : List Rule) (s : CompilationLevels) : Prop where
  nodup : s.currentLevel.Nodup
  listed : ∀ x ∈ s.currentLevel, x ∈ rules
  counted : ∀ x ∈ s.currentLevel, s.inDegree x.id ≤ 0

/-- What finishing the rules of a level does. -/
structure Released (rules level : List Rule) (s s' : CompilationLevels) : Prop where
  remaining : s'.remaining = s.remaining
  levels : s'.levels = s.levels
  degree : ∀ x ∈ rules, x.ptr ∈ s.remaining → s'.inDegree x.id = s.inDegree x.id - childHits level x
  mem_iff : ∀ x, x ∈ s'.currentLevel ↔ x ∈ s.currentLevel ∨
    x ∈ rules ∧ x.ptr ∈ s.remaining ∧ 0 < s.inDegree x.id ∧ s.inDegree x.id ≤ childHits level x
  settled : s.Settled rules → s'.Settled rules

variable (hrules : DistinctIds rules)
include hrules

theorem Settled.release_all (h : s.Settled rules) :
    (rules.foldl (release rule) s).Settled rules := by
  obtain ⟨hdegree, hlevel⟩ := release_foldl_spec rule s hrules
  have hlisted : ∀ x ∈ (rules.foldl (release rule) s).currentLevel, x ∈ rules := by
    rw [hlevel]
    exact List.forall_mem_append.2 ⟨h.listed, fun x hx ↦ List.mem_of_mem_filter hx⟩
  refine ⟨?_, hlisted, fun x hx ↦ ?_⟩
  · rw [hlevel]
    refine List.Nodup.append h.nodup (hrules.nodup.filter _) fun x hx hnew ↦ ?_
    have hone : s.inDegree x.id = 1 := (of_decide_eq_true (List.mem_filter.1 hnew).2).2
    have hcounted := h.counted x hx
    omega
  · rw [hdegree x (hlisted x hx)]
    rw [hlevel] at hx
    rcases List.mem_append.1 hx with hx | hx
    · have hcounted := h.counted x hx
      split_ifs <;> omega
    · obtain ⟨hrel, hone⟩ := of_decide_eq_true (List.mem_filter.1 hx).2
      rw [if_pos hrel, hone]
      omega

theorem released_level (level : List Rule) (s : CompilationLevels) :
    Released rules level s (level.foldl (fun t rule ↦ rules.foldl (release rule) t) s) := by
  induction level generalizing s with
  | nil =>
    refine ⟨rfl, rfl, fun x _ _ ↦ by simp [childHits], fun x ↦ ?_, id⟩
    refine (or_iff_left ?_).symm
    rintro ⟨-, -, hpos, hle⟩
    rw [childHits, List.countP_nil] at hle
    omega
  | cons rule level ih =>
    obtain ⟨hremaining, hlevels⟩ := release_foldl_frame rule rules s
    obtain ⟨hdegree, hlevel⟩ := release_foldl_spec rule s hrules
    have hrest := ih (rules.foldl (release rule) s)
    have hstep : ∀ x ∈ rules, x.ptr ∈ s.remaining →
        (rules.foldl (release rule) s).inDegree x.id =
          s.inDegree x.id - if hasChild x rule = true then 1 else 0 := by
      intro x hx hptr
      rw [hdegree x hx]
      simp only [Releases, hptr, true_and]
    have hhits : ∀ x, (childHits (rule :: level) x : Int) =
        childHits level x + if hasChild x rule = true then 1 else 0 := by
      intro x
      rw [childHits, List.countP_cons]
      split_ifs <;> simp [childHits]
    refine ⟨hrest.remaining.trans hremaining, hrest.levels.trans hlevels, fun x hx hptr ↦ ?_,
      fun x ↦ ?_,
      fun h ↦ hrest.settled (h.release_all hrules)⟩
    · rw [List.foldl_cons, hrest.degree x hx (hremaining.symm ▸ hptr), hstep x hx hptr, hhits]
      omega
    · have hnew : (x ∈ rules.filter fun x ↦ s.Releases rule x ∧ s.inDegree x.id = 1) ↔
          x ∈ rules ∧ (x.ptr ∈ s.remaining ∧ hasChild x rule = true) ∧ s.inDegree x.id = 1 := by
        rw [List.mem_filter, decide_eq_true_iff, Releases]
      rw [List.foldl_cons, hrest.mem_iff x, hremaining, hlevel, List.mem_append, hnew, or_assoc]
      refine or_congr_right ?_
      -- A rule enters the next level with this rule or with a later one of the level: its count
      -- falls to zero at exactly one of them.
      by_cases hx : x ∈ rules
      · by_cases hptr : x.ptr ∈ s.remaining
        · rw [hstep x hx hptr, hhits]
          simp only [hx, hptr, true_and]
          rcases hasChild x rule with - | -
          · simp
          · simp only [if_true, true_and]
            omega
        · simp [hptr]
      · simp [hx]

end Release

/-! ### The loop -/

section Counting

variable {rules l : List Rule} {x : Rule} {inDegree : Id → Int} {n : Rule → Int}

theorem foldl_count_of_not_mem (hx : ∀ q ∈ l, x.id ≠ q.id) :
    l.foldl (fun d rule ↦ Function.update d rule.id (d rule.id + n rule)) inDegree x.id =
      inDegree x.id := by
  induction l generalizing inDegree with
  | nil => rfl
  | cons q l ih =>
    rw [List.foldl_cons, ih fun p hp ↦ hx p (List.mem_cons_of_mem q hp)]
    exact Function.update_of_ne (hx q List.mem_cons_self) _ _

theorem foldl_count_of_mem (hl : DistinctIds l) (hx : x ∈ l) :
    l.foldl (fun d rule ↦ Function.update d rule.id (d rule.id + n rule)) inDegree x.id =
      inDegree x.id + n x := by
  induction l generalizing inDegree with
  | nil => exact absurd hx List.not_mem_nil
  | cons q l ih =>
    have hcons : q.id ∉ l.map (fun r ↦ r.id) ∧ DistinctIds l := List.nodup_cons.1 hl
    have hne : ∀ p ∈ l, p.id ≠ q.id := fun p hp he ↦
      hcons.1 (he ▸ List.mem_map_of_mem (f := fun r : Rule ↦ r.id) hp)
    rw [List.foldl_cons]
    rcases List.mem_cons.1 hx with rfl | hx
    · rw [foldl_count_of_not_mem fun p hp ↦ (hne p hp).symm, Function.update_self]
    · rw [ih hcons.2 hx, Function.update_of_ne (hne x hx)]

/-- The in-degrees at the start. -/
theorem countChildren_eq (hrules : DistinctIds rules) (hx : x ∈ rules) :
    countChildren rules x.id = (listedChildren rules x).length := by
  refine (foldl_count_of_mem hrules hx).trans ?_
  rw [zero_add, listedChildren, List.length_map, List.countP_eq_length_filter]

end Counting

/-- The variables of the loop are what the levels so far make them. -/
structure Layered (rules : List Rule) (s : CompilationLevels) : Prop where
  layering : Layering rules (ChildrenReady rules) s.levels
  remaining : ∀ x ∈ rules, x.ptr ∈ s.remaining ↔ x ∉ s.levels.flatten
  degree : ∀ x ∈ rules, x.ptr ∈ s.remaining →
    s.inDegree x.id = (listedChildren rules x).length - childHits s.levels.flatten x
  nodup : s.currentLevel.Nodup
  mem_iff : ∀ x, x ∈ s.currentLevel ↔
    x ∈ rules ∧ x ∉ s.levels.flatten ∧ ChildrenReady rules s.levels.flatten x

section Loop

variable {rules : List Rule} {s s' : CompilationLevels} (hrules : DistinctIds rules)
  (hobjects : DistinctObjects rules)
include hrules

theorem start_layered : (start rules).Layered rules where
  layering := Layering.nil
  remaining x hx := by
    refine iff_of_true (List.mem_toFinset.2 (List.mem_map_of_mem hx)) ?_
    exact List.not_mem_nil
  degree x hx _ := by
    show countChildren rules x.id = _
    rw [countChildren_eq hrules hx]
    simp [start, childHits]
  nodup := hrules.nodup.filter _
  mem_iff x := by
    rw [start, List.mem_filter]
    refine and_congr_right fun hx ↦ ?_
    rw [decide_eq_true_iff, countChildren_eq hrules hx, ChildrenReady]
    simp [childHits, eq_comm]

include hobjects

/-- A pass that continues adds the level of the rules whose children are done. -/
theorem Layered.pass (h : s.Layered rules) (hpass : pass rules s = .inl s') : s'.Layered rules := by
  obtain ⟨hne, -, -, -⟩ := pass_inl hpass
  have hlayering := h.layering.snoc h.nodup hne h.mem_iff
  have hflat :
      (s.levels ++ [s.currentLevel]).flatten = s.levels.flatten ++ s.currentLevel := by simp
  rw [CompilationLevels.pass] at hpass
  split_ifs at hpass with hempty
  obtain rfl := Sum.inl.inj hpass
  have hreleased := released_level hrules s.currentLevel s.close
  have hclosed : ∀ x ∈ rules,
      x.ptr ∈ s.close.remaining ↔ x ∉ s.levels.flatten ++ s.currentLevel := by
    intro x hx
    rw [mem_close_remaining, h.remaining x hx, List.mem_append, not_or]
    refine and_congr_right fun _ ↦ ⟨fun hall hin ↦ hall x hin rfl, fun hout q hq hptr ↦ ?_⟩
    exact hout (hobjects q ((h.mem_iff q).1 hq).1 x hx hptr ▸ hq)
  have hdegree : ∀ x ∈ rules, x.ptr ∈ s.close.remaining →
      s.close.inDegree x.id = (listedChildren rules x).length - childHits s.levels.flatten x :=
    fun x hx hptr ↦ h.degree x hx (mem_close_remaining.1 hptr).1
  have hhits : ∀ x, childHits (s.levels.flatten ++ s.currentLevel) x =
      childHits s.levels.flatten x + childHits s.currentLevel x := fun x ↦ List.countP_append
  have hsettled : s.close.Settled rules :=
    ⟨List.nodup_nil, fun x hx ↦ absurd hx List.not_mem_nil, fun x hx ↦ absurd hx List.not_mem_nil⟩
  have hlevels :
      (s.currentLevel.foldl (fun t rule ↦ rules.foldl (release rule) t) s.close).levels.flatten =
        s.levels.flatten ++ s.currentLevel := by
    rw [hreleased.levels]
    exact hflat
  refine ⟨hreleased.levels ▸ hlayering, ?_, ?_, (hreleased.settled hsettled).nodup, fun x ↦ ?_⟩
  · rwa [hlevels, hreleased.remaining]
  · intro x hx hptr
    rw [hreleased.remaining] at hptr
    rw [hlevels, hreleased.degree x hx hptr, hdegree x hx hptr, hhits]
    omega
  · have hnil : x ∉ s.close.currentLevel := List.not_mem_nil
    rw [hreleased.mem_iff x, hlevels, or_iff_right hnil]
    refine and_congr_right fun hx ↦ ?_
    rw [hclosed x hx]
    refine and_congr_right fun hout ↦ ?_
    have hle := childHits_le (r := x) hobjects hlayering.flatten_nodup
      fun q hq ↦ hlayering.mem_nodes_of_mem_flatten hq
    rw [hflat] at hle
    -- a rule that is still to come was not ready before
    have hbefore : childHits s.levels.flatten x ≠ (listedChildren rules x).length := fun hready ↦
      hout (List.mem_append_right _
        ((h.mem_iff x).2 ⟨hx, fun hin ↦ hout (List.mem_append_left _ hin), hready⟩))
    rw [hdegree x hx ((hclosed x hx).2 hout), ChildrenReady]
    rw [hhits] at hle ⊢
    omega

theorem compilationLevels_layered :
    ∃ s, Layered rules s ∧ pass rules s = .inr (buildCompilationLevels rules) :=
  Loop.Returns.invariant (fun _ _ hs h ↦ hs.pass hrules hobjects h) (start_layered hrules)
    ⟨_, (Option.some_get _).symm⟩

end Loop

end CompilationLevels

/-! ### The levels -/

/-- The levels of the rules that were released, and behind them the level of those that were not. -/
structure Leveling (rules : List Rule) (levels : List (List Rule)) (leftovers : List Rule)
    (built : List (List Rule)) : Prop where
  layering : Layering rules (ChildrenReady rules) levels
  nodup : leftovers.Nodup
  mem_iff : ∀ x, x ∈ leftovers ↔ x ∈ rules ∧ x ∉ levels.flatten
  not_ready : ∀ x ∈ leftovers, ¬ChildrenReady rules levels.flatten x
  at_iff : ∀ i x, At built i x ↔ At levels i x ∨ i = levels.length ∧ x ∈ leftovers
  flatten : built.flatten = levels.flatten ++ leftovers

theorem exists_leveling {rules : List Rule} (hrules : DistinctIds rules)
    (hobjects : DistinctObjects rules) :
    ∃ levels leftovers, Leveling rules levels leftovers (buildCompilationLevels rules) := by
  obtain ⟨s, hs, hpass⟩ := compilationLevels_layered hrules hobjects
  rw [CompilationLevels.pass] at hpass
  split_ifs at hpass with hempty hremaining
  · -- nothing remains: every rule is in a level that its children allowed
    refine ⟨s.levels, [], ?_⟩
    have hall : ∀ x ∈ rules, x ∈ s.levels.flatten := by
      intro x hx
      by_contra hout
      have hptr := (hs.remaining x hx).2 hout
      rw [hremaining] at hptr
      exact absurd hptr (Finset.notMem_empty _)
    rw [← Sum.inr.inj hpass]
    exact ⟨hs.layering, List.nodup_nil,
      fun x ↦ iff_of_false List.not_mem_nil fun hx ↦ hx.2 (hall x hx.1),
      fun x hx ↦ absurd hx List.not_mem_nil, fun i x ↦ by simp, by simp⟩
  · -- the last level takes up all that was never released
    refine ⟨s.levels, rules.filter fun x ↦ x.ptr ∈ s.remaining, ?_⟩
    have hmem : ∀ x, (x ∈ rules.filter fun x ↦ x.ptr ∈ s.remaining) ↔
        x ∈ rules ∧ x ∉ s.levels.flatten := by
      intro x
      rw [List.mem_filter, decide_eq_true_iff]
      exact and_congr_right fun hx ↦ hs.remaining x hx
    have hnil : s.currentLevel = [] := by simpa using hempty
    rw [← Sum.inr.inj hpass]
    refine ⟨hs.layering, hrules.nodup.filter _, hmem, fun x hx hready ↦ ?_, fun i x ↦
      at_snoc_iff, by simp⟩
    have hcurrent : x ∈ s.currentLevel :=
      (hs.mem_iff x).2 ⟨((hmem x).1 hx).1, ((hmem x).1 hx).2, hready⟩
    rw [hnil] at hcurrent
    exact absurd hcurrent List.not_mem_nil

namespace Leveling

variable {rules leftovers : List Rule} {levels built : List (List Rule)} {r c : Rule}
  (hrules : DistinctIds rules) (hobjects : DistinctObjects rules)
  (h : Leveling rules levels leftovers built)
include h

/-- The levels partition the listed rules. -/
theorem perm (hrules : DistinctIds rules) : built.flatten.Perm rules := by
  rw [h.flatten]
  refine (List.perm_ext_iff_of_nodup ?_ hrules.nodup).2 fun x ↦ ?_
  · exact h.layering.flatten_nodup.append h.nodup fun x hx hleft ↦ ((h.mem_iff x).1 hleft).2 hx
  · rw [List.mem_append, h.mem_iff]
    constructor
    · exact fun hx ↦ hx.elim h.layering.mem_nodes_of_mem_flatten And.left
    · exact fun hx ↦ or_iff_not_imp_left.2 fun hout ↦ ⟨hx, hout⟩

include hobjects

theorem ready_iff (hr : r ∈ rules) :
    ChildrenReady rules levels.flatten r ↔
      ¬RepeatsListedChild rules r ∧ ∀ c, ListedChild rules r c → c ∈ levels.flatten :=
  childrenReady_iff hobjects h.layering.flatten_nodup (fun _ ↦ h.layering.mem_nodes_of_mem_flatten)
    hr

/-- A released rule has each listed child once, in an earlier level. -/
theorem released {j : ℕ} (hr : At levels j r) :
    ¬RepeatsListedChild rules r ∧ ∀ c, ListedChild rules r c → ∃ i < j, At levels i c := by
  have hready := (childrenReady_iff hobjects (h.layering.before_nodup j)
    (fun _ ↦ h.layering.mem_nodes_of_mem_before) (h.layering.mem_nodes hr)).1
      (h.layering.ready_of_at hr)
  exact ⟨hready.1, fun c hc ↦ mem_before_iff.1 (hready.2 c hc)⟩

/-- A rule that has a listed child twice is left over. -/
theorem leftover_of_repeats (hr : r ∈ rules) (hrepeats : RepeatsListedChild rules r) :
    r ∈ leftovers := by
  refine (h.mem_iff r).2 ⟨hr, fun hplaced ↦ ?_⟩
  obtain ⟨j, hj⟩ := mem_flatten_iff.1 hplaced
  exact (h.released hobjects hj).1 hrepeats

/-- So are the parents of what is left over. -/
theorem leftover_of_child (hc : ListedChild rules r c) (hleft : c ∈ leftovers) : r ∈ leftovers := by
  refine (h.mem_iff r).2 ⟨hc.1, fun hplaced ↦ ?_⟩
  obtain ⟨j, hj⟩ := mem_flatten_iff.1 hplaced
  obtain ⟨i, -, hi⟩ := (h.released hobjects hj).2 c hc
  exact ((h.mem_iff c).1 hleft).2 (mem_flatten_iff.2 ⟨i, hi⟩)

/-- Where nothing else is left over, children come first. -/
theorem lt_of_placed {i j : ℕ} (hc : ListedChild rules r c) (hplaced : c ∈ levels.flatten)
    (hi : At built i c) (hj : At built j r) : i < j := by
  have hi' : At levels i c :=
    ((h.at_iff i c).1 hi).resolve_right fun hleft ↦ ((h.mem_iff c).1 hleft.2).2 hplaced
  rcases (h.at_iff j r).1 hj with hj' | ⟨rfl, -⟩
  · obtain ⟨k, hk, hkc⟩ := (h.released hobjects hj').2 c hc
    exact h.layering.at_unique hi' hkc ▸ hk
  · exact hi'.lt_length

/-- A child that no repeated entry holds back is released, by induction on the trees. -/
theorem placed_of_once (hagree : ChildrenAgree rules)
    (honce : ∀ r c, ListedChild rules r c → ¬RepeatsListedChild rules c) (x : Rule) :
    ∀ r c, ListedChild rules r c → c.childRules = x.childRules → c ∈ levels.flatten := by
  induction x using Rule.induction_children with
  | h x ih =>
    intro r c hc hsame
    by_contra hout
    have hleft : c ∈ leftovers := (h.mem_iff c).2 ⟨hc.2.1, hout⟩
    refine h.not_ready c hleft ((h.ready_iff hobjects hc.2.1).2 ⟨honce r c hc, fun d hd ↦ ?_⟩)
    obtain ⟨child, hchild, hptr⟩ := hasChild_iff.1 hd.2.2
    exact ih child (hsame ▸ hchild) c d hd (hagree c d hd child hchild hptr)

end Leveling

/-- **Compilation levels and children.** The loop ends, its levels partition the listed rules, and a
rule comes after its listed children, if and only if no listed rule has a child that itself has a
listed child twice. Rules are trees, so no rule is below itself. -/
theorem compilationLevels_respect_children_iff (idOrder : HashOrder Id) (order : HashOrder Rule)
    (w w' : Workflow) (hw : w.Fresh) (hvalid : w.validate idOrder order = (.ok (), w'))
    (hobjects : SameObjects (nodesOf w.rules)) :
    (Loop.Returns (pass w'.rules) (start w'.rules) (buildCompilationLevels w'.rules) ∧
      (buildCompilationLevels w'.rules).flatten.Perm w'.rules ∧
      ∀ r c, ListedChild w'.rules r c → ∀ i j, At (buildCompilationLevels w'.rules) i c →
        At (buildCompilationLevels w'.rules) j r → i < j) ↔
      ∀ r c, ListedChild w'.rules r c → ¬RepeatsListedChild w'.rules c := by
  have hrules := (Workflow.validate_accepted hw hvalid).distinct
  obtain ⟨-, hmarked, -⟩ := Workflow.validate_ok hw hvalid
  have hdistinct : DistinctObjects w'.rules := hmarked ▸ hobjects.distinctObjects_map
  have hagree : ChildrenAgree w'.rules := hmarked ▸ hobjects.childrenAgree_map
  obtain ⟨levels, leftovers, h⟩ := exists_leveling hrules hdistinct
  constructor
  · rintro ⟨-, -, hlt⟩ r c hc hrepeats
    have hleft := h.leftover_of_repeats hdistinct hc.2.1 hrepeats
    have hat : ∀ x ∈ leftovers, At (buildCompilationLevels w'.rules) levels.length x :=
      fun x hx ↦ (h.at_iff _ x).2 (.inr ⟨rfl, hx⟩)
    exact absurd (hlt r c hc _ _ (hat c hleft) (hat r (h.leftover_of_child hdistinct hc hleft)))
      (lt_irrefl _)
  · intro honce
    refine ⟨⟨_, (Option.some_get _).symm⟩, h.perm hrules, fun r c hc i j hi hj ↦ ?_⟩
    exact h.lt_of_placed hdistinct hc (h.placed_of_once hdistinct hagree honce c r c hc rfl) hi hj

namespace RepeatedChild

/-- A rule without children. -/
def leaf : Rule := { ptr := 1, id := 1, name := "leaf" }

/-- A rule that has the other one twice. -/
def twice : Rule := { ptr := 2, id := 2, name := "twice", childRules := [leaf, leaf] }

/-- A rule above it. -/
def above : Rule := { ptr := 3, id := 3, name := "above", childRules := [twice] }

theorem sameObjects_pair : SameObjects (nodesOf [leaf, twice]) := by
  simp [SameObjects, nodesOf, Rule.nodes, leaf, twice]

/-- With nothing above it, a rule may have a listed child twice. -/
theorem pair_respected :
    let w : Workflow := { rules := [leaf, twice] }
    let w' := (w.validate (HashOrder.insertion Id) (HashOrder.insertion Rule)).2
    (Loop.Returns (pass w'.rules) (start w'.rules) (buildCompilationLevels w'.rules) ∧
      (buildCompilationLevels w'.rules).flatten.Perm w'.rules ∧
      ∀ r c, ListedChild w'.rules r c → ∀ i j, At (buildCompilationLevels w'.rules) i c →
        At (buildCompilationLevels w'.rules) j r → i < j) := by
  refine (compilationLevels_respect_children_iff (HashOrder.insertion Id) (HashOrder.insertion Rule)
    { rules := [leaf, twice] } _ ⟨rfl, by simp [leaf, twice]⟩ rfl sameObjects_pair).2 ?_
  show ∀ r c, ListedChild [leaf.markValidated, twice.markValidated] r c → ¬RepeatsListedChild _ c
  rintro r c ⟨hr, hc, hchild⟩ ⟨q, hq, hcount⟩
  have hleaf : c = leaf.markValidated := by
    rcases List.mem_cons.1 hc with rfl | hc
    · rfl
    · obtain rfl := List.mem_singleton.1 hc
      simp only [List.mem_cons, List.not_mem_nil, or_false] at hr
      rcases hr with rfl | rfl <;> exact absurd hchild (by decide)
  rw [hleaf] at hcount
  exact absurd hcount (by simp [leaf, Rule.markValidated])

/-- The rule above is in the level of its child. -/
theorem above_not_later :
    let w : Workflow := { rules := [leaf, twice, above] }
    let w' := (w.validate (HashOrder.insertion Id) (HashOrder.insertion Rule)).2
    w.Fresh ∧ (w.validate (HashOrder.insertion Id) (HashOrder.insertion Rule)).1 = .ok () ∧
      SameObjects (nodesOf w.rules) ∧
      ListedChild w'.rules above.markValidated twice.markValidated ∧
      At (buildCompilationLevels w'.rules) 1 twice.markValidated ∧
      At (buildCompilationLevels w'.rules) 1 above.markValidated := by
  refine ⟨⟨rfl, by simp [leaf, twice, above]⟩, rfl, ?_, ⟨?_, ?_, rfl⟩, ⟨_, rfl, ?_⟩, ⟨_, rfl, ?_⟩⟩
  · simp [SameObjects, nodesOf, Rule.nodes, leaf, twice, above]
  · exact List.mem_cons_of_mem _ (List.mem_cons_of_mem _ List.mem_cons_self)
  · exact List.mem_cons_of_mem _ List.mem_cons_self
  · exact List.mem_cons_self
  · exact List.mem_cons_of_mem _ List.mem_cons_self

end RepeatedChild

end FastRules
