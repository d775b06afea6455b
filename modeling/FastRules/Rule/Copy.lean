import FastRules.Foundations.Descent
import FastRules.Foundations.Recursion
import FastRules.Rule.Basic
import Mathlib.Data.List.ReduceOption
import Mathlib.Logic.Function.Basic

/-!
# Copies of rules

The copy constructor of `Rule` makes new objects of the children and of the dependent rules, and of
theirs. It comes back unless a rule is below itself. The copy is then the same tree, in objects of
its own: nothing that was in memory has changed, no object of the copy is owned from outside of it,
and each but the copy itself has one owner, also where the original shares objects
(`copy_isolated`). What the objects have cached or compiled is not copied.
-/

namespace FastRules

open Relation Descent

/-- A `Rule` object. -/
structure RuleStorage where
  fields : RuleFields := {}
  isCompiled : Bool := false
  /-- The keys of `cache_`. -/
  cache : List String := []
  cacheGeneration : ℕ := 0
  /-- The engines of `engineCompilations_`. -/
  engineCompilations : List ℕ := []
  /-- `nullptr`s included. -/
  childRules : List (Option RulePtr) := []
  dependentRules : List (Option RulePtr) := []

/-- The objects that a rule keeps alive. -/
def RuleStorage.owned (o : RuleStorage) : List RulePtr :=
  o.childRules.reduceOption ++ o.dependentRules.reduceOption

/-- The `push_back`s of the copied rules. -/
def RuleStorage.adopt (o : RuleStorage) (children dependents : List RulePtr) : RuleStorage :=
  { o with childRules := children.map some, dependentRules := dependents.map some }

/-- The objects in memory, at the addresses before the next free one. -/
structure RuleMemory where
  object : RulePtr → RuleStorage := fun _ ↦ {}
  next : ℕ := 0

namespace RuleMemory

/-- A new object. -/
def put (m : RuleMemory) (p : RulePtr) (o : RuleStorage) : RuleMemory :=
  { m with object := Function.update m.object p o }

/-- The members that the copy constructor copies or initializes, for a copy at an address. -/
def copyMembers (o : RuleStorage) (p : RulePtr) : RuleStorage where
  fields := { o.fields with ptr := p }
  isCompiled := false
  cacheGeneration := 0
  engineCompilations := []

/-- `for (const auto& child : ...) if (child) ...push_back(std::make_shared<Rule>(*child))`. -/
def copyAll (copy : RuleMemory → RulePtr → Option (RulePtr × RuleMemory)) :
    RuleMemory → List (Option RulePtr) → Option (List RulePtr × RuleMemory)
  | m, [] => some ([], m)
  | m, none :: rules => copyAll copy m rules
  | m, some p :: rules =>
    (copy m p).bind fun (p', m) ↦
      (copyAll copy m rules).map fun (rules', m) ↦ (p' :: rules', m)

/-- `std::make_shared<Rule>(rule)`, with at most `depth` nested calls of the copy constructor. -/
def copy : ℕ → RuleMemory → RulePtr → Option (RulePtr × RuleMemory)
  | 0, _, _ => none
  | depth + 1, m, p =>
    let p' := m.next
    let other := m.object p
    let o := copyMembers other p'
    (copyAll (copy depth) { m.put p' o with next := p' + 1 } other.childRules).bind
      fun (children, m) ↦
        (copyAll (copy depth) m other.dependentRules).map fun (dependents, m) ↦
          (p', m.put p' (o.adopt children dependents))

/-! ### What a copy is -/

/-- A rule with the rules that it keeps alive. -/
inductive Tree
  | node (fields : RuleFields) (childRules dependentRules : List Tree)

/-- The rules below a rule: what a reader can find out about it, but for the addresses and for what
is cached and compiled. -/
def tree (m : RuleMemory) : ℕ → RulePtr → Option Tree :=
  Recursion.run (fun p ↦ some (m.object p).owned) fun p below ↦
    .node { (m.object p).fields with ptr := 0 }
      (below.take (m.object p).childRules.reduceOption.length)
      (below.drop (m.object p).childRules.reduceOption.length)

/-- Objects only keep others alive that are there. -/
def Closed (m : RuleMemory) : Prop :=
  ∀ p < m.next, ∀ c ∈ (m.object p).owned, c < m.next

/-- The addresses that are new in a memory. -/
def block (m m' : RuleMemory) : List RulePtr :=
  List.range' m.next (m'.next - m.next)

/-- Nothing is cached or compiled. -/
structure Unused (o : RuleStorage) : Prop where
  isCompiled : o.isCompiled = false
  cache : o.cache = []
  cacheGeneration : o.cacheGeneration = 0
  engineCompilations : o.engineCompilations = []

/-- New objects, each owned once: by another new one or, if it is a root, from outside. -/
structure Copied (m m' : RuleMemory) (roots : List RulePtr) : Prop where
  le : m.next ≤ m'.next
  old : ∀ q < m.next, m'.object q = m.object q
  owners : (roots ++ (block m m').flatMap fun q ↦ (m'.object q).owned).Perm (block m m')
  unused : ∀ q ∈ block m m', Unused (m'.object q)

variable {m m₁ m₂ m' : RuleMemory} {p q p' depth : ℕ} {roots roots' : List RulePtr}

theorem mem_block (h : m.next ≤ m'.next) : q ∈ block m m' ↔ m.next ≤ q ∧ q < m'.next := by
  rw [block, List.mem_range'_1]
  omega

theorem block_append (h₁ : m.next ≤ m₁.next) (h₂ : m₁.next ≤ m₂.next) :
    block m m₂ = block m m₁ ++ block m₁ m₂ := by
  have hnext : m₁.next = m.next + 1 * (m₁.next - m.next) := by omega
  have hlength : m₂.next - m.next = (m₁.next - m.next) + (m₂.next - m₁.next) := by omega
  rw [block, block, block, hlength, ← List.range'_append, ← hnext]

theorem mapM_congr_left {α β : Type} {f g : α → Option β} {l : List α} (h : ∀ a ∈ l, f a = g a) :
    l.mapM f = l.mapM g := by
  induction l with
  | nil => rfl
  | cons a l ih =>
    obtain ⟨ha, hl⟩ := List.forall_mem_cons.1 h
    rw [List.mapM_cons, List.mapM_cons, ha, ih hl]

theorem tree_succ : m.tree (depth + 1) p =
    ((m.object p).owned.mapM (m.tree depth)).map fun below ↦
      .node { (m.object p).fields with ptr := 0 }
        (below.take (m.object p).childRules.reduceOption.length)
        (below.drop (m.object p).childRules.reduceOption.length) := rfl

/-- A tree depends on the objects below the rule alone. -/
theorem tree_congr (S : RulePtr → Prop) (hclosed : ∀ q, S q → ∀ c ∈ (m.object q).owned, S c)
    (hsame : ∀ q, S q → m'.object q = m.object q) (hp : S p) :
    m'.tree depth p = m.tree depth p := by
  induction depth generalizing p with
  | zero => rfl
  | succ depth ih =>
    rw [tree_succ, tree_succ, hsame p hp]
    have hbelow : (m.object p).owned.mapM (m'.tree depth) =
        (m.object p).owned.mapM (m.tree depth) :=
      mapM_congr_left fun c hc ↦ ih (hclosed p hp c hc)
    rw [hbelow]

theorem Copied.mem_block_of_owned (h : Copied m m' roots) (hq : q ∈ block m m')
    (hp : p ∈ (m'.object q).owned) : p ∈ block m m' :=
  h.owners.mem_iff.1 (List.mem_append_right _ (List.mem_flatMap.2 ⟨q, hq, hp⟩))

theorem Copied.mem_block_of_root (h : Copied m m' roots) (hp : p ∈ roots) : p ∈ block m m' :=
  h.owners.mem_iff.1 (List.mem_append_left _ hp)

theorem Copied.closed (h : Copied m m' roots) (hm : Closed m) : Closed m' := by
  intro q hq c hc
  rcases Nat.lt_or_ge q m.next with hlt | hge
  · rw [h.old q hlt] at hc
    exact lt_of_lt_of_le (hm q hlt c hc) h.le
  · have hblock : q ∈ block m m' := (mem_block h.le).2 ⟨hge, hq⟩
    exact ((mem_block h.le).1 (h.mem_block_of_owned hblock hc)).2

/-- Copying leaves the trees of the rules that were there. -/
theorem Copied.tree_old (h : Copied m m' roots) (hm : Closed m) (hp : p < m.next) :
    m'.tree depth p = m.tree depth p :=
  tree_congr (· < m.next) hm h.old hp

/-- The tree of a copy depends on new objects alone. -/
theorem Copied.tree_new (h : Copied m m' roots) (hp : p ∈ roots)
    (hsame : ∀ q ∈ block m m', m₂.object q = m'.object q) :
    m₂.tree depth p = m'.tree depth p :=
  tree_congr (· ∈ block m m') (fun _ hq _ hc ↦ h.mem_block_of_owned hq hc) hsame
    (h.mem_block_of_root hp)

theorem Copied.refl : Copied m m [] where
  le := le_rfl
  old _ _ := rfl
  owners := by simp [block]
  unused q hq := by simp [block] at hq

theorem Copied.append (h₁ : Copied m m₁ roots) (h₂ : Copied m₁ m₂ roots') :
    Copied m m₂ (roots ++ roots') := by
  have hblock : block m m₂ = block m m₁ ++ block m₁ m₂ := block_append h₁.le h₂.le
  have hsame : ∀ q ∈ block m m₁, m₂.object q = m₁.object q :=
    fun q hq ↦ h₂.old q ((mem_block h₁.le).1 hq).2
  have howned : (block m m₁).flatMap (fun q ↦ (m₂.object q).owned) =
      (block m m₁).flatMap fun q ↦ (m₁.object q).owned :=
    List.flatMap_congr fun q hq ↦ congrArg RuleStorage.owned (hsame q hq)
  refine ⟨h₁.le.trans h₂.le, fun q hq ↦ ?_, ?_, fun q hq ↦ ?_⟩
  · exact (h₂.old q (lt_of_lt_of_le hq h₁.le)).trans (h₁.old q hq)
  · rw [hblock, List.flatMap_append, howned]
    refine List.Perm.trans ?_ (h₁.owners.append h₂.owners)
    rw [List.append_assoc, List.append_assoc]
    exact (List.perm_append_comm_assoc roots' _ _).append_left roots
  · rw [hblock] at hq
    rcases List.mem_append.1 hq with hq | hq
    · rw [hsame q hq]
      exact h₁.unused q hq
    · exact h₂.unused q hq

/-! ### What copying does -/

/-- The copies of several rules, given that copying one rule is right. -/
theorem copied_copyAll {copy : RuleMemory → RulePtr → Option (RulePtr × RuleMemory)}
    (hcopy : ∀ {m p p' m'}, Closed m → p < m.next → copy m p = some (p', m') →
      Copied m m' [p'] ∧ ∀ d, m'.tree d p' = m.tree d p)
    {rules : List (Option RulePtr)} (hm : Closed m) (hrules : ∀ p ∈ rules.reduceOption, p < m.next)
    (h : copyAll copy m rules = some (roots, m')) :
    Copied m m' roots ∧ ∀ d, roots.mapM (m'.tree d) = rules.reduceOption.mapM (m.tree d) := by
  induction rules generalizing m roots with
  | nil =>
    obtain ⟨rfl, rfl⟩ := Prod.mk.inj (Option.some.inj h)
    exact ⟨.refl, fun _ ↦ rfl⟩
  | cons rule rules ih =>
    rcases rule with - | p
    · exact ih hm hrules h
    · rw [copyAll, Option.bind_eq_some_iff] at h
      obtain ⟨⟨p', m₁⟩, hp, h⟩ := h
      obtain ⟨⟨roots', m₂⟩, hrest, heq⟩ := Option.map_eq_some_iff.1 h
      obtain ⟨rfl, rfl⟩ := Prod.mk.inj heq
      rw [List.reduceOption_cons_of_some] at hrules ⊢
      obtain ⟨hlt, hrules⟩ := List.forall_mem_cons.1 hrules
      obtain ⟨hcopied, htree⟩ := hcopy hm hlt hp
      obtain ⟨hcopied', htree'⟩ :=
        ih (hcopied.closed hm) (fun q hq ↦ lt_of_lt_of_le (hrules q hq) hcopied.le) hrest
      refine ⟨hcopied.append hcopied', fun d ↦ ?_⟩
      -- the copies made first are old by the time the others are made
      have hhead : m₂.tree d p' = m.tree d p := by
        have hroot : p' ∈ block m m₁ := hcopied.mem_block_of_root List.mem_cons_self
        rw [hcopied'.tree_old (hcopied.closed hm) ((mem_block hcopied.le).1 hroot).2, htree]
      have htail : rules.reduceOption.mapM (m₁.tree d) = rules.reduceOption.mapM (m.tree d) :=
        mapM_congr_left fun q hq ↦ hcopied.tree_old hm (hrules q hq)
      rw [List.mapM_cons, List.mapM_cons, hhead, htree', htail]

theorem length_copyAll {copy : RuleMemory → RulePtr → Option (RulePtr × RuleMemory)}
    {rules : List (Option RulePtr)} (h : copyAll copy m rules = some (roots, m')) :
    roots.length = rules.reduceOption.length := by
  induction rules generalizing m roots with
  | nil =>
    obtain ⟨rfl, rfl⟩ := Prod.mk.inj (Option.some.inj h)
    rfl
  | cons rule rules ih =>
    rcases rule with - | p
    · exact ih h
    · rw [copyAll, Option.bind_eq_some_iff] at h
      obtain ⟨⟨p', m₁⟩, -, h⟩ := h
      obtain ⟨⟨roots', m₂⟩, hrest, heq⟩ := Option.map_eq_some_iff.1 h
      obtain ⟨rfl, rfl⟩ := Prod.mk.inj heq
      rw [List.reduceOption_cons_of_some, List.length_cons, List.length_cons, ih hrest]

/-- The object of a rule as it is while its children are copied. -/
theorem closed_put (hm : Closed m) (o : RuleStorage) (ho : o.owned = []) :
    Closed { m.put m.next o with next := m.next + 1 } := by
  intro q hq c hc
  have hc : c ∈ (Function.update m.object m.next o q).owned := hc
  rcases eq_or_ne q m.next with rfl | hne
  · rw [Function.update_self, ho] at hc
    exact absurd hc List.not_mem_nil
  · rw [Function.update_of_ne hne] at hc
    exact (hm q (Nat.lt_of_le_of_ne (Nat.le_of_lt_succ hq) hne) c hc).trans (Nat.lt_succ_self _)

theorem tree_put (o : RuleStorage) (hm : Closed m) (hp : p < m.next) :
    tree { m.put m.next o with next := m.next + 1 } depth p = m.tree depth p :=
  tree_congr (· < m.next) hm (fun _ hq ↦ Function.update_of_ne (ne_of_lt hq) _ _) hp

/-- A new object that owns copies made after it. -/
theorem Copied.put (o : RuleStorage)
    (h : Copied { m.put m.next o with next := m.next + 1 } m' roots) {o' : RuleStorage}
    (hunused : Unused o') (howned : o'.owned = roots) : Copied m (m'.put m.next o') [m.next] := by
  have hle : m.next + 1 ≤ m'.next := h.le
  have hblock : block m (m'.put m.next o') =
      m.next :: block { m.put m.next o with next := m.next + 1 } m' := by
    have hlength : m'.next - m.next = (m'.next - (m.next + 1)) + 1 := by omega
    change List.range' m.next (m'.next - m.next) = _
    rw [hlength, List.range'_succ]
    rfl
  have hne : ∀ q ∈ block { m.put m.next o with next := m.next + 1 } m', q ≠ m.next :=
    fun q hq ↦ (Nat.lt_of_succ_le ((mem_block h.le).1 hq).1).ne'
  have hsame : ∀ q, q ≠ m.next → (m'.put m.next o').object q = m'.object q :=
    fun q hq ↦ Function.update_of_ne hq _ _
  have hself : (m'.put m.next o').object m.next = o' := Function.update_self _ _ _
  refine ⟨(Nat.le_succ _).trans hle, fun q hq ↦ ?_, ?_, fun q hq ↦ ?_⟩
  · rw [hsame q (ne_of_lt hq), h.old q (hq.trans (Nat.lt_succ_self _))]
    exact Function.update_of_ne (ne_of_lt hq) _ _
  · rw [hblock, List.flatMap_cons, hself, howned, List.flatMap_congr fun q hq ↦
      congrArg RuleStorage.owned (hsame q (hne q hq))]
    exact h.owners.cons m.next
  · rw [hblock] at hq
    rcases List.mem_cons.1 hq with rfl | hq
    · rw [hself]
      exact hunused
    · rw [hsame q (hne q hq)]
      exact h.unused q hq

theorem reduceOption_map_some (l : List RulePtr) : (l.map some).reduceOption = l := by
  rw [List.reduceOption, List.filterMap_map]
  exact List.filterMap_some

theorem owned_adopt (o : RuleStorage) (children dependents : List RulePtr) :
    (o.adopt children dependents).owned = children ++ dependents :=
  congrArg₂ (· ++ ·) (reduceOption_map_some children) (reduceOption_map_some dependents)

/-- A call of the copy constructor that returns: the object, the children, the dependent rules. -/
theorem copy_succ (h : copy (depth + 1) m p = some (p', m')) :
    ∃ children m₁ dependents m₂,
      copyAll (copy depth) { m.put m.next (copyMembers (m.object p) m.next) with
        next := m.next + 1 } (m.object p).childRules = some (children, m₁) ∧
      copyAll (copy depth) m₁ (m.object p).dependentRules = some (dependents, m₂) ∧
      p' = m.next ∧
      m' = m₂.put m.next ((copyMembers (m.object p) m.next).adopt children dependents) := by
  rw [copy, Option.bind_eq_some_iff] at h
  obtain ⟨⟨children, m₁⟩, hchildren, h⟩ := h
  obtain ⟨⟨dependents, m₂⟩, hdependents, heq⟩ := Option.map_eq_some_iff.1 h
  obtain ⟨rfl, rfl⟩ := Prod.mk.inj heq
  exact ⟨children, m₁, dependents, m₂, hchildren, hdependents, rfl, rfl⟩

/-- What a call of the copy constructor returns is a copy, and the same tree. -/
theorem copied_copy (hm : Closed m) (hp : p < m.next) (h : copy depth m p = some (p', m')) :
    Copied m m' [p'] ∧ ∀ d, m'.tree d p' = m.tree d p := by
  induction depth generalizing m p p' m' with
  | zero => exact absurd h (Option.some_ne_none _).symm
  | succ depth ih =>
    obtain ⟨children, m₁, dependents, m₂, hchildren, hdependents, rfl, rfl⟩ := copy_succ h
    have hclosed := closed_put hm (copyMembers (m.object p) m.next) rfl
    obtain ⟨hchild, hdependent⟩ := List.forall_mem_append.1 (hm p hp)
    have hsucc : m.next < m.next + 1 := Nat.lt_succ_self _
    obtain ⟨hcopied₁, htree₁⟩ :=
      copied_copyAll ih hclosed (fun q hq ↦ (hchild q hq).trans hsucc) hchildren
    have hclosed₁ := hcopied₁.closed hclosed
    obtain ⟨hcopied₂, htree₂⟩ := copied_copyAll ih hclosed₁
      (fun q hq ↦ lt_of_lt_of_le ((hdependent q hq).trans hsucc) hcopied₁.le) hdependents
    have hcopied := hcopied₁.append hcopied₂
    refine ⟨hcopied.put _ ⟨rfl, rfl, rfl, rfl⟩ (owned_adopt _ children dependents), fun d ↦ ?_⟩
    rcases d with - | d
    · rfl
    have hself : (m₂.put m.next
        ((copyMembers (m.object p) m.next).adopt children dependents)).object m.next =
        (copyMembers (m.object p) m.next).adopt children dependents :=
      Function.update_self _ _ _
    have hnew : ∀ q ∈ block { m.put m.next (copyMembers (m.object p) m.next) with
        next := m.next + 1 } m₂, (m₂.put m.next ((copyMembers (m.object p) m.next).adopt children
        dependents)).object q = m₂.object q :=
      fun q hq ↦ Function.update_of_ne (Nat.lt_of_succ_le ((mem_block hcopied.le).1 hq).1).ne' _ _
    have hchildTree : children.mapM (m₂.tree d) =
        (m.object p).childRules.reduceOption.mapM (m.tree d) := by
      rw [mapM_congr_left fun c hc ↦ hcopied₂.tree_old hclosed₁
        ((mem_block hcopied₁.le).1 (hcopied₁.mem_block_of_root hc)).2, htree₁]
      exact mapM_congr_left fun q hq ↦ tree_put _ hm (hchild q hq)
    have hdependentTree : dependents.mapM (m₂.tree d) =
        (m.object p).dependentRules.reduceOption.mapM (m.tree d) := by
      rw [htree₂, mapM_congr_left fun q hq ↦
        hcopied₁.tree_old hclosed ((hdependent q hq).trans hsucc)]
      exact mapM_congr_left fun q hq ↦ tree_put _ hm (hdependent q hq)
    have hbelow : (children ++ dependents).mapM (tree (m₂.put m.next
        ((copyMembers (m.object p) m.next).adopt children dependents)) d) =
        (m.object p).owned.mapM (m.tree d) := by
      rw [mapM_congr_left fun c hc ↦ hcopied.tree_new hc hnew, RuleStorage.owned, List.mapM_append,
        List.mapM_append, hchildTree, hdependentTree]
    rw [tree_succ, tree_succ, hself, owned_adopt, hbelow, RuleStorage.adopt, reduceOption_map_some,
      length_copyAll hchildren]
    rfl

/-- Copies come back if the trees below the rules are finite. -/
theorem copyAll_isSome_iff {rules : List (Option RulePtr)} (hm : Closed m)
    (hrules : ∀ p ∈ rules.reduceOption, p < m.next)
    (hcopy : ∀ {m p}, Closed m → p < m.next →
      ((copy depth m p).isSome ↔ (m.tree depth p).isSome)) :
    (copyAll (copy depth) m rules).isSome ↔ ∀ p ∈ rules.reduceOption, (m.tree depth p).isSome := by
  induction rules generalizing m with
  | nil => exact iff_of_true rfl fun p hp ↦ absurd hp List.not_mem_nil
  | cons rule rules ih =>
    rcases rule with - | p
    · exact ih hm hrules
    rw [List.reduceOption_cons_of_some] at hrules ⊢
    obtain ⟨hlt, hrules⟩ := List.forall_mem_cons.1 hrules
    rw [List.forall_mem_cons, ← hcopy hm hlt, copyAll]
    rcases h : copy depth m p with - | ⟨p', m₁⟩
    · simp
    · obtain ⟨hcopied, -⟩ := copied_copy hm hlt h
      have hrest := ih (hcopied.closed hm) fun q hq ↦ lt_of_lt_of_le (hrules q hq) hcopied.le
      rw [Option.bind_some, Option.isSome_map, hrest]
      simp only [Option.isSome_some, true_and]
      exact forall₂_congr fun q hq ↦ by rw [hcopied.tree_old hm (hrules q hq)]

theorem copy_isSome_iff (hm : Closed m) (hp : p < m.next) :
    (copy depth m p).isSome ↔ (m.tree depth p).isSome := by
  induction depth generalizing m p with
  | zero => exact Iff.rfl
  | succ depth ih =>
    have hclosed := closed_put hm (copyMembers (m.object p) m.next) rfl
    obtain ⟨hchild, hdependent⟩ := List.forall_mem_append.1 (hm p hp)
    have hsucc : m.next < m.next + 1 := Nat.lt_succ_self _
    have hchildren := copyAll_isSome_iff hclosed (fun q hq ↦ (hchild q hq).trans hsucc) ih
    have hchildTree : ∀ q ∈ (m.object p).childRules.reduceOption,
        tree { m.put m.next (copyMembers (m.object p) m.next) with next := m.next + 1 } depth q =
          m.tree depth q := fun q hq ↦ tree_put _ hm (hchild q hq)
    rw [forall₂_congr fun q hq ↦ by rw [hchildTree q hq]] at hchildren
    rw [tree_succ, Option.isSome_map, Recursion.mapM_isSome_iff, RuleStorage.owned,
      List.forall_mem_append, ← hchildren, copy]
    rcases h : copyAll (copy depth) { m.put m.next (copyMembers (m.object p) m.next) with
        next := m.next + 1 } (m.object p).childRules with - | ⟨children, m₁⟩
    · simp
    · obtain ⟨hcopied, -⟩ :=
        copied_copyAll copied_copy hclosed (fun q hq ↦ (hchild q hq).trans hsucc) h
      have hdependents := copyAll_isSome_iff (hcopied.closed hclosed)
        (fun q hq ↦ lt_of_lt_of_le ((hdependent q hq).trans hsucc) hcopied.le) ih
      have hdependentTree : ∀ q ∈ (m.object p).dependentRules.reduceOption,
          m₁.tree depth q = m.tree depth q := fun q hq ↦ by
        rw [hcopied.tree_old hclosed ((hdependent q hq).trans hsucc),
          tree_put _ hm (hdependent q hq)]
      rw [forall₂_congr fun q hq ↦ by rw [hdependentTree q hq]] at hdependents
      simp only [Option.bind_some, Option.isSome_map, Option.isSome_some, true_and, hdependents]

/-- `p` keeps `q` alive. -/
def Owns (m : RuleMemory) (p q : RulePtr) : Prop :=
  q ∈ (m.object p).owned

/-- Some depth is enough for a rule exactly if no rule at or below it is below itself. -/
theorem exists_tree_iff (hm : Closed m) (hp : p < m.next) :
    (∃ depth, (m.tree depth p).isSome) ↔
      ∀ q, ReflTransGen m.Owns p q → ¬OnCycle m.Owns q := by
  have hcalls : Recursion.Calls (fun p ↦ some (m.object p).owned) = m.Owns := by
    ext q c
    refine ⟨fun ⟨cs, hcs, hc⟩ ↦ ?_, fun hc ↦ ⟨_, rfl, hc⟩⟩
    obtain rfl := Option.some.inj hcs
    exact hc
  have hbelow : ∀ q, ReflTransGen m.Owns p q → q < m.next := fun q hq ↦ by
    induction hq with
    | refl => exact hp
    | tail _ hc ih => exact hm _ ih _ hc
  rw [tree, Recursion.exists_run_iff, hcalls]
  constructor
  · rintro ⟨hacc, -⟩ q hq
    refine not_onCycle_of_acc ?_
    induction hq with
    | refl => exact hacc
    | tail _ hc ih => exact ih.inv hc
  · intro hacyclic
    refine ⟨acc_of_not_onCycle (l := List.range m.next) (P := ReflTransGen m.Owns p)
      (fun q hq ↦ List.mem_range.2 (hbelow q hq)) (fun q c hq hc ↦ hq.tail hc) hacyclic .refl,
      fun _ _ ↦ rfl⟩

/-- Copying a rule comes back unless a rule at or below it is below itself, at any number of levels.
The copy is the same tree, and reads nothing but objects of its own: nothing that was in memory has
changed, each new object is owned once, the copy itself by the caller, and what is done to other
objects later does not show in the copy. Nothing that was cached or compiled is copied. -/
theorem copy_isolated (hm : Closed m) (hp : p < m.next) :
    ((∃ depth, (copy depth m p).isSome) ↔ ∀ q, ReflTransGen m.Owns p q → ¬OnCycle m.Owns q) ∧
      ∀ depth p' m', copy depth m p = some (p', m') →
        Copied m m' [p'] ∧ Closed m' ∧ ∃ t, m.tree depth p = some t ∧
          ∀ m₂ : RuleMemory, (∀ q ∈ block m m', m₂.object q = m'.object q) →
            m₂.tree depth p' = some t := by
  refine ⟨?_, fun depth p' m' h ↦ ?_⟩
  · rw [← exists_tree_iff hm hp]
    exact exists_congr fun depth ↦ copy_isSome_iff hm hp
  · obtain ⟨hcopied, htree⟩ := copied_copy hm hp h
    have hsome : (m.tree depth p).isSome :=
      (copy_isSome_iff hm hp).1 (Option.isSome_iff_exists.2 ⟨_, h⟩)
    obtain ⟨t, ht⟩ := Option.isSome_iff_exists.1 hsome
    refine ⟨hcopied, hcopied.closed hm, t, ht, fun m₂ hsame ↦ ?_⟩
    rw [hcopied.tree_new List.mem_cons_self hsame, htree, ht]

/-- Two children that depend on the same rule. -/
def diamond : RuleMemory where
  object p :=
    if p = 3 then { childRules := [some 1, none, some 2] }
    else if p = 0 then { isCompiled := true } else { dependentRules := [some 0] }
  next := 4

/-- The rule that both depend on is copied twice. -/
theorem copiedDiamond_owners :
    ∃ m', copy 3 diamond 3 = some (4, m') ∧ (m'.object 5).owned = [6] ∧ (m'.object 7).owned = [8] ∧
      Copied diamond m' [4] ∧ Closed m' := by
  have hcopy : (copy 3 diamond 3).map (fun c ↦ (c.1, (c.2.object 5).owned, (c.2.object 7).owned)) =
      some (4, [6], [8]) := rfl
  obtain ⟨⟨p', m'⟩, h, heq⟩ := Option.map_eq_some_iff.1 hcopy
  simp only [Prod.mk.injEq] at heq
  obtain ⟨rfl, h₅, h₇⟩ := heq
  have hclosed : diamond.Closed := by
    change ∀ p < 4, ∀ c ∈ (diamond.object p).owned, c < 4
    decide
  obtain ⟨hcopied, hclosed', -⟩ :=
    (copy_isolated hclosed (show 3 < diamond.next by decide)).2 3 4 m' h
  exact ⟨m', h, h₅, h₇, hcopied, hclosed'⟩

end RuleMemory

end FastRules
