import FastRules.Pool.EnginePool

/-!
# The engine pool where memory is used again

`EnginePool` names a node by the number of its allocation. Here a `NodePtr` is an address: a node
that no `shared_ptr` refers to any more is freed, and `push` may get its address for the next one.
A compare-exchange compares addresses. `Step` says what the tasks do, but for the allocation.

A thread refers to the nodes that it compares with, so that an address means the same node
throughout (`Represents`), and every run is a run of the pool with numbers (`reuse_refines`).
-/

namespace FastRules

/-- The same node where nodes have other names. -/
def EngineNode.rename (f : NodePtr → NodePtr) (node : EngineNode) : EngineNode :=
  { node with next := node.next.map f }

/-- A chain goes on from each of its nodes. -/
theorem EngineNode.Chain.mem_next {nodes : NodePtr → EngineNode} {head : Option NodePtr}
    {ps : List NodePtr} (h : Chain nodes head ps) {p q : NodePtr} (hp : p ∈ ps)
    (hq : (nodes p).next = some q) : q ∈ ps := by
  induction h with
  | nil => exact absurd hp List.not_mem_nil
  | cons hrest ih =>
    rcases List.mem_cons.1 hp with rfl | hp
    · rw [hq] at hrest
      obtain ⟨rest, rfl, -⟩ := hrest.of_some
      exact List.mem_cons_of_mem _ List.mem_cons_self
    · exact List.mem_cons_of_mem _ (ih hp)

namespace EnginePool

variable {ι : Type}

/-! ### What is alive -/

/-- The nodes that the task has a `shared_ptr` to. -/
def TaskState.references : TaskState → List NodePtr
  | popRead current | tryRead current => [current]
  | popExchange current next | tryExchange current next => current :: next.toList
  | pushing _ node _ => [node]
  | pushExchange _ node current _ => node :: current.toList
  | _ => []

/-- The nodes that are not freed: those that the head, a task or another such node refers to. -/
inductive PoolState.Referenced (s : PoolState ι) : NodePtr → Prop
  | head {p : NodePtr} (h : s.head = some p) : s.Referenced p
  | task {p : NodePtr} (i : ι) (h : p ∈ (s.tasks i).references) : s.Referenced p
  | next {p q : NodePtr} (h : s.Referenced p) (hq : (s.nodes p).next = some q) : s.Referenced q

theorem not_referenced {s : PoolState ι} (hhead : s.head = none)
    (htasks : ∀ i, (s.tasks i).references = []) (p : NodePtr) : ¬s.Referenced p := by
  intro h
  induction h with
  | head h =>
    rw [hhead] at h
    cases h
  | task i h =>
    rw [htasks i] at h
    exact absurd h List.not_mem_nil
  | next _ _ ih => exact ih

/-- One step of one task, where an allocation gives any address at which nothing is alive. -/
inductive ReuseStep [DecidableEq ι] (kind : ι → TaskKind) : PoolState ι → PoolState ι → Prop
  | step {s s' : PoolState ι} (h : Step kind s s') (hnone : s'.allocated = s.allocated) :
      ReuseStep kind s s'
  | pushAllocates {s : PoolState ι} {i : ι} {engine : EnginePtr} {ending : Ending} {node : NodePtr}
      (h : s.tasks i = .releasing engine ending) (hfree : ¬s.Referenced node) :
      ReuseStep kind s ((s.setNode node ⟨engine, none⟩).setTask i (.pushing engine node ending))

/-! ### Other names for the nodes -/

def TaskState.rename (f : NodePtr → NodePtr) : TaskState → TaskState
  | popRead current => popRead (f current)
  | popExchange current next => popExchange (f current) (next.map f)
  | tryRead current => tryRead (f current)
  | tryExchange current next => tryExchange (f current) (next.map f)
  | pushing engine node ending => pushing engine (f node) ending
  | pushExchange engine node current ending => pushExchange engine (f node) (current.map f) ending
  | state => state

/-- The same pool at other addresses. -/
def PoolState.placedAt (s : PoolState ι) (place : Equiv.Perm NodePtr) : PoolState ι where
  head := s.head.map place
  nodes p := (s.nodes (place.symm p)).rename place
  allocated := s.allocated
  tasks i := (s.tasks i).rename place

section Rename

variable {f g : NodePtr → NodePtr} {state : TaskState}

theorem map_congr_option {o : Option NodePtr} (h : ∀ p ∈ o.toList, f p = g p) :
    o.map f = o.map g := by
  rcases o with - | p
  · rfl
  · exact congrArg some (h p List.mem_cons_self)

theorem TaskState.rename_congr (h : ∀ p ∈ state.references, f p = g p) :
    state.rename f = state.rename g := by
  cases state with
  | popRead current => exact congrArg popRead (h current List.mem_cons_self)
  | tryRead current => exact congrArg tryRead (h current List.mem_cons_self)
  | popExchange current next =>
    obtain ⟨hcurrent, hnext⟩ := List.forall_mem_cons.1 h
    exact congrArg₂ popExchange hcurrent (map_congr_option hnext)
  | tryExchange current next =>
    obtain ⟨hcurrent, hnext⟩ := List.forall_mem_cons.1 h
    exact congrArg₂ tryExchange hcurrent (map_congr_option hnext)
  | pushing engine node ending =>
    exact congrArg (pushing engine · ending) (h node List.mem_cons_self)
  | pushExchange engine node current ending =>
    obtain ⟨hnode, hcurrent⟩ := List.forall_mem_cons.1 h
    exact congrArg₂ (pushExchange engine · · ending) hnode (map_congr_option hcurrent)
  | _ => rfl

theorem TaskState.held_rename (f : NodePtr → NodePtr) (state : TaskState) :
    (state.rename f).held = state.held := by
  cases state <;> rfl

theorem TaskState.references_rename (f : NodePtr → NodePtr) (state : TaskState) :
    (state.rename f).references = state.references.map f := by
  have hoption (o : Option NodePtr) : (o.map f).toList = o.toList.map f := by cases o <;> rfl
  cases state <;> simp [rename, references, hoption]

end Rename

/-! ### Addresses and numbers -/

/-- The pool with addresses is the pool with numbers, where `number` is the number of the node that
is alive at an address. -/
structure Represents (number : NodePtr → NodePtr) (c s : PoolState ι) : Prop where
  head : s.head = c.head.map number
  tasks : ∀ i, s.tasks i = (c.tasks i).rename number
  nodes : ∀ p, c.Referenced p → s.nodes (number p) = (c.nodes p).rename number
  lt : ∀ p, c.Referenced p → number p < s.allocated
  inj : ∀ p q, c.Referenced p → c.Referenced q → number p = number q → p = q

namespace Represents

variable [DecidableEq ι] {number : NodePtr → NodePtr} {c s : PoolState ι} {i : ι}
  {state : TaskState}

/-- Where no node is written, what is alive was alive before. -/
theorem referenced_setTask {head : Option NodePtr} (hhead : ∀ p, head = some p → c.Referenced p)
    (hstate : ∀ p ∈ state.references, c.Referenced p) {p : NodePtr}
    (h : ({ c.setTask i state with head := head } : PoolState ι).Referenced p) :
    c.Referenced p := by
  induction h with
  | head h => exact hhead _ h
  | task j h =>
    replace h : _ ∈ (Function.update c.tasks i state j).references := h
    rcases eq_or_ne j i with rfl | hne
    · rw [Function.update_self] at h
      exact hstate _ h
    · rw [Function.update_of_ne hne] at h
      exact .task j h
  | next _ hq ih => exact .next ih hq

/-- A task goes on, and the head may be moved, to nodes that are alive. -/
theorem setTask (h : Represents number c s) {head : Option NodePtr}
    (hhead : ∀ p, head = some p → c.Referenced p)
    (hstate : ∀ p ∈ state.references, c.Referenced p) :
    Represents number { c.setTask i state with head := head }
      { s.setTask i (state.rename number) with head := head.map number } where
  head := rfl
  tasks j := by
    show Function.update s.tasks i _ j = (Function.update c.tasks i state j).rename number
    rcases eq_or_ne j i with rfl | hne
    · rw [Function.update_self, Function.update_self]
    · rw [Function.update_of_ne hne, Function.update_of_ne hne]
      exact h.tasks j
  nodes p hp := h.nodes p (referenced_setTask hhead hstate hp)
  lt p hp := h.lt p (referenced_setTask hhead hstate hp)
  inj p q hp hq :=
    h.inj p q (referenced_setTask hhead hstate hp) (referenced_setTask hhead hstate hq)

/-- A task goes on, and the head stays. -/
theorem goOn (h : Represents number c s) (hstate : ∀ p ∈ state.references, c.Referenced p) :
    Represents number (c.setTask i state) (s.setTask i (state.rename number)) := by
  have hnext := h.setTask (i := i) (fun p hp ↦ .head hp) hstate
  rwa [← h.head] at hnext

/-- A task writes the head to the `next` field of a node of its own. -/
theorem write (h : Represents number c s) {engine : EnginePtr} {node : NodePtr} {ending : Ending}
    (hnode : c.Referenced node) :
    Represents number
      ((c.setNode node ⟨(c.nodes node).engine, c.head⟩).setTask i
        (.pushExchange engine node c.head ending))
      ((s.setNode (number node) ⟨(s.nodes (number node)).engine, s.head⟩).setTask i
        (.pushExchange engine (number node) s.head ending)) := by
  have hself : Function.update c.nodes node ⟨(c.nodes node).engine, c.head⟩ node =
      ⟨(c.nodes node).engine, c.head⟩ := Function.update_self _ _ _
  -- nothing comes alive
  have hold {p : NodePtr} (hp : PoolState.Referenced
      ((c.setNode node ⟨(c.nodes node).engine, c.head⟩).setTask i
        (.pushExchange engine node c.head ending)) p) : c.Referenced p := by
    induction hp with
    | head hp => exact .head hp
    | @task p j hp =>
      replace hp : p ∈ (Function.update c.tasks i _ j).references := hp
      rcases eq_or_ne j i with rfl | hne
      · rw [Function.update_self] at hp
        rcases List.mem_cons.1 hp with rfl | hp
        · exact hnode
        · exact .head (Option.mem_toList.1 hp)
      · rw [Function.update_of_ne hne] at hp
        exact .task j hp
    | @next p q _ hq ih =>
      replace hq : (Function.update c.nodes node ⟨(c.nodes node).engine, c.head⟩ p).next =
        some q := hq
      rcases eq_or_ne p node with rfl | hne
      · rw [hself] at hq
        exact .head hq
      · rw [Function.update_of_ne hne] at hq
        exact .next ih hq
  refine ⟨h.head, fun j ↦ ?_, fun p hp ↦ ?_, fun p hp ↦ h.lt p (hold hp),
    fun p q hp hq ↦ h.inj p q (hold hp) (hold hq)⟩
  · show Function.update s.tasks i _ j = (Function.update c.tasks i _ j).rename number
    rcases eq_or_ne j i with rfl | hne
    · rw [Function.update_self, Function.update_self, h.head]
      rfl
    · rw [Function.update_of_ne hne, Function.update_of_ne hne]
      exact h.tasks j
  · show Function.update s.nodes (number node) _ (number p) =
      (Function.update c.nodes node ⟨(c.nodes node).engine, c.head⟩ p).rename number
    rcases eq_or_ne p node with rfl | hne
    · rw [Function.update_self, hself, h.nodes p (hold hp), h.head]
      rfl
    · rw [Function.update_of_ne hne,
        Function.update_of_ne fun heq ↦ hne (h.inj p node (hold hp) hnode heq)]
      exact h.nodes p (hold hp)

/-- A node is allocated where nothing is alive: the address has a new number from now on. -/
theorem allocate (h : Represents number c s) {engine : EnginePtr} {node : NodePtr} {ending : Ending}
    (hfree : ¬c.Referenced node) :
    Represents (Function.update number node s.allocated)
      ((c.setNode node ⟨engine, none⟩).setTask i (.pushing engine node ending))
      { (s.setNode s.allocated ⟨engine, none⟩).setTask i (.pushing engine s.allocated ending) with
        allocated := s.allocated + 1 } := by
  set number' := Function.update number node s.allocated with hnumber'
  have hself : number' node = s.allocated := Function.update_self _ _ _
  have hne {p : NodePtr} (hp : c.Referenced p) : p ≠ node := fun heq ↦ hfree (heq ▸ hp)
  have hkept {p : NodePtr} (hp : c.Referenced p) : number' p = number p :=
    Function.update_of_ne (hne hp) _ _
  have hnodes {p : NodePtr} (hp : c.Referenced p) :
      Function.update c.nodes node ⟨engine, none⟩ p = c.nodes p :=
    Function.update_of_ne (hne hp) _ _
  have hoption {o : Option NodePtr} (ho : ∀ p ∈ o.toList, c.Referenced p) :
      o.map number' = o.map number := map_congr_option fun p hp ↦ hkept (ho p hp)
  -- the new node is all that comes alive
  have hold {p : NodePtr} (hp : PoolState.Referenced
      ((c.setNode node ⟨engine, none⟩).setTask i (.pushing engine node ending)) p) :
      p = node ∨ c.Referenced p := by
    induction hp with
    | head hp => exact .inr (.head hp)
    | @task p j hp =>
      replace hp : p ∈ (Function.update c.tasks i _ j).references := hp
      rcases eq_or_ne j i with rfl | hne
      · rw [Function.update_self] at hp
        exact .inl (List.mem_singleton.1 hp)
      · rw [Function.update_of_ne hne] at hp
        exact .inr (.task j hp)
    | @next p q _ hq ih =>
      replace hq : (Function.update c.nodes node ⟨engine, none⟩ p).next = some q := hq
      rcases ih with rfl | hp
      · rw [Function.update_self] at hq
        cases hq
      · rw [hnodes hp] at hq
        exact .inr (.next hp hq)
  refine ⟨?_, fun j ↦ ?_, fun p hp ↦ ?_, fun p hp ↦ ?_, fun p q hp hq heq ↦ ?_⟩
  · show s.head = c.head.map number'
    rw [hoption fun p hp ↦ .head (Option.mem_toList.1 hp)]
    exact h.head
  · show Function.update s.tasks i _ j = (Function.update c.tasks i _ j).rename number'
    rcases eq_or_ne j i with rfl | hne
    · rw [Function.update_self, Function.update_self, TaskState.rename, hself]
    · rw [Function.update_of_ne hne, Function.update_of_ne hne, h.tasks j]
      exact TaskState.rename_congr fun p hp ↦ (hkept (.task j hp)).symm
  · show Function.update s.nodes s.allocated _ (number' p) =
      (Function.update c.nodes node ⟨engine, none⟩ p).rename number'
    rcases hold hp with rfl | hp
    · rw [hself, Function.update_self, Function.update_self]
      rfl
    · rw [hkept hp, Function.update_of_ne (h.lt p hp).ne, hnodes hp, h.nodes p hp,
        EngineNode.rename, EngineNode.rename,
        hoption fun q hq ↦ .next hp (Option.mem_toList.1 hq)]
  · show number' p < s.allocated + 1
    rcases hold hp with rfl | hp
    · rw [hself]
      exact Nat.lt_succ_self _
    · rw [hkept hp]
      exact Nat.lt_succ_of_lt (h.lt p hp)
  · rcases hold hp with rfl | hp'
    · rcases hold hq with rfl | hq'
      · rfl
      · rw [hself, hkept hq'] at heq
        exact absurd heq (h.lt q hq').ne'
    · rcases hold hq with rfl | hq'
      · rw [hself, hkept hp'] at heq
        exact absurd heq (h.lt p hp').ne
      · rw [hkept hp', hkept hq'] at heq
        exact h.inj p q hp' hq' heq

/-- **A step at addresses is a step with numbers.** -/
theorem step {kind : ι → TaskKind} {c' : PoolState ι} (h : Represents number c s)
    (hstep : ReuseStep kind c c') : ∃ number' s', Step kind s s' ∧ Represents number' c' s' := by
  have htask {i : ι} {state : TaskState} (hi : c.tasks i = state) :
      s.tasks i = state.rename number := hi ▸ h.tasks i
  have hhead {o : Option NodePtr} (ho : c.head = o) : s.head = o.map number := ho ▸ h.head
  have hrefs {i : ι} {state : TaskState} (hi : c.tasks i = state) :
      ∀ p ∈ state.references, c.Referenced p := fun p hp ↦ .task i (hi ▸ hp)
  -- a node that was compared with is alive, and so is the one after it
  have hnext {p : NodePtr} (hp : c.Referenced p) :
      (s.nodes (number p)).next = (c.nodes p).next.map number := by
    rw [h.nodes p hp]
    rfl
  have hengine {p : NodePtr} (hp : c.Referenced p) :
      (s.nodes (number p)).engine = (c.nodes p).engine := by
    rw [h.nodes p hp]
    rfl
  have hread {p : NodePtr} (hp : c.Referenced p) :
      ∀ q ∈ p :: (c.nodes p).next.toList, c.Referenced q := by
    rw [List.forall_mem_cons]
    exact ⟨hp, fun q hq ↦ .next hp (Option.mem_toList.1 hq)⟩
  have hafter {p q : NodePtr} {o : Option NodePtr} (hp : o = some p) : p ∈ q :: o.toList :=
    List.mem_cons_of_mem q (Option.mem_toList.2 hp)
  have hnone : ∀ p ∈ ([] : List NodePtr), c.Referenced p := fun p hp ↦ absurd hp List.not_mem_nil
  rcases hstep with ⟨hstep, hallocated⟩ | ⟨hi, hfree⟩
  swap
  · exact ⟨_, _, .pushAllocates (htask hi), h.allocate hfree⟩
  cases hstep with
  | start hi => exact ⟨number, _, .start (htask hi), h.goOn hnone⟩
  | popLoad hi hcurrent =>
    exact ⟨number, _, .popLoad (htask hi) (hhead hcurrent),
      h.goOn (List.forall_mem_singleton.2 (.head hcurrent))⟩
  | popEmpty hi hempty => exact ⟨number, _, .popEmpty (htask hi) (hhead hempty), h.goOn hnone⟩
  | @popNext i current hi =>
    have hlive : c.Referenced current := hrefs hi current List.mem_cons_self
    have hstep := @Step.popNext _ _ kind _ _ _ (htask hi)
    rw [hnext hlive] at hstep
    exact ⟨number, _, hstep, h.goOn (hread hlive)⟩
  | @popSucceeds i current next hi hcurrent =>
    have hlive : c.Referenced current := hrefs hi current List.mem_cons_self
    have hstep := @Step.popSucceeds _ _ kind _ _ _ _ (htask hi) (hhead hcurrent)
    rw [hengine hlive] at hstep
    exact ⟨number, _, hstep, h.setTask (fun p hp ↦ hrefs hi p (hafter hp)) hnone⟩
  | popFails hi => exact ⟨number, _, .popFails (htask hi), h.goOn hnone⟩
  | tryLoad hi hcurrent =>
    exact ⟨number, _, .tryLoad (htask hi) (hhead hcurrent),
      h.goOn (List.forall_mem_singleton.2 (.head hcurrent))⟩
  | tryTimesOut hi hempty => exact ⟨number, _, .tryTimesOut (htask hi) (hhead hempty), h.goOn hnone⟩
  | @tryNext i current hi =>
    have hlive : c.Referenced current := hrefs hi current List.mem_cons_self
    have hstep := @Step.tryNext _ _ kind _ _ _ (htask hi)
    rw [hnext hlive] at hstep
    exact ⟨number, _, hstep, h.goOn (hread hlive)⟩
  | @trySucceeds i current next hi hcurrent =>
    have hlive : c.Referenced current := hrefs hi current List.mem_cons_self
    have hstep := @Step.trySucceeds _ _ kind _ _ _ _ (htask hi) (hhead hcurrent)
    rw [hengine hlive] at hstep
    exact ⟨number, _, hstep, h.setTask (fun p hp ↦ hrefs hi p (hafter hp)) hnone⟩
  | tryFails hi => exact ⟨number, _, .tryFails (htask hi), h.goOn hnone⟩
  | dependencyFails hi hkind =>
    exact ⟨number, _, .dependencyFails (htask hi) hkind, h.goOn hnone⟩
  | execute hi => exact ⟨number, _, .execute (htask hi), h.goOn hnone⟩
  | returns hi => exact ⟨number, _, .returns (htask hi), h.goOn hnone⟩
  | throws hi => exact ⟨number, _, .throws (htask hi), h.goOn hnone⟩
  | pushAllocates => exact absurd hallocated (Nat.succ_ne_self _)
  | pushLoad hi =>
    exact ⟨number, _, .pushLoad (htask hi), h.write (hrefs hi _ List.mem_cons_self)⟩
  | pushSucceeds hi hcurrent =>
    refine ⟨number, _, .pushSucceeds (htask hi) (hhead hcurrent), h.setTask (fun p hp ↦ ?_) hnone⟩
    exact Option.some.inj hp ▸ hrefs hi _ List.mem_cons_self
  | pushFails hi =>
    exact ⟨number, _, .pushFails (htask hi), h.write (hrefs hi _ List.mem_cons_self)⟩

omit [DecidableEq ι] in
/-- The nodes that the pool has with numbers it has at addresses. -/
theorem chain (h : Represents number c s) {head : Option NodePtr} {ps : List NodePtr}
    (hhead : ∀ p, head = some p → c.Referenced p)
    (hchain : EngineNode.Chain s.nodes (head.map number) ps) :
    ∃ qs, EngineNode.Chain c.nodes head qs ∧ (∀ q ∈ qs, c.Referenced q) ∧ ps = qs.map number := by
  generalize hfirst : head.map number = first at hchain
  induction hchain generalizing head with
  | nil =>
    obtain rfl := Option.map_eq_none_iff.1 hfirst
    exact ⟨[], .nil, fun q hq ↦ absurd hq List.not_mem_nil, rfl⟩
  | cons _ ih =>
    obtain ⟨q, rfl, rfl⟩ := Option.map_eq_some_iff.1 hfirst
    have hq := hhead q rfl
    have hrest : (c.nodes q).next.map number = (s.nodes (number q)).next := by
      rw [h.nodes q hq]
      rfl
    obtain ⟨qs, hqs, hlive, rfl⟩ := ih (fun p hp ↦ .next hq hp) hrest
    exact ⟨q :: qs, .cons hqs, List.forall_mem_cons.2 ⟨hq, hlive⟩, rfl⟩

omit [DecidableEq ι] in
theorem contains (h : Represents number c s) {ps : List NodePtr}
    (hchain : EngineNode.Chain s.nodes s.head ps) :
    c.Contains (ps.map fun p ↦ (s.nodes p).engine) := by
  rw [h.head] at hchain
  obtain ⟨qs, hqs, hlive, rfl⟩ := h.chain (fun p hp ↦ .head hp) hchain
  refine ⟨qs, hqs, ?_⟩
  rw [List.map_map]
  refine List.map_congr_left fun q hq ↦ ?_
  show (s.nodes (number q)).engine = _
  rw [h.nodes q (hlive q hq)]
  rfl

omit [DecidableEq ι] in
/-- The head is a node that is alive exactly if it has its number. -/
theorem head_eq_iff (h : Represents number c s) {p : NodePtr} (hp : c.Referenced p) :
    c.head = some p ↔ s.head = some (number p) := by
  rw [h.head]
  constructor
  · intro hhead
    rw [hhead]
    rfl
  · intro hnumber
    obtain ⟨q, hq, heq⟩ := Option.map_eq_some_iff.1 hnumber
    rw [hq, h.inj q p (.head hq) hp heq]

end Represents

/-! ### Runs -/

theorem TaskState.rename_symm (place : Equiv.Perm NodePtr) (state : TaskState) :
    (state.rename place).rename place.symm = state := by
  have hoption (o : Option NodePtr) : (o.map place).map place.symm = o := by cases o <;> simp
  cases state <;> simp [rename, hoption]

/-- What is alive in the pool that was filled has a number. -/
theorem lt_of_referenced_initial {storage : List EnginePtr} {p : NodePtr}
    (h : (PoolState.initial ι storage).Referenced p) :
    p < (PoolState.initial ι storage).allocated := by
  obtain ⟨ps, hchain, hlt, -⟩ := PoolState.fill_contains (fun _ : ι ↦ .notStarted) storage.reverse
  refine hlt p ?_
  induction h with
  | head h =>
    replace h : (PoolState.fill (fun _ : ι ↦ .notStarted) storage.reverse).head = some _ := h
    rw [h] at hchain
    obtain ⟨rest, rfl, -⟩ := hchain.of_some
    exact List.mem_cons_self
  | task i h =>
    rw [PoolState.initial, PoolState.fill_tasks] at h
    exact absurd h List.not_mem_nil
  | next _ hq ih => exact hchain.mem_next ih hq

theorem referenced_placedAt {place : Equiv.Perm NodePtr} {s : PoolState ι} {p : NodePtr}
    (h : (s.placedAt place).Referenced p) : s.Referenced (place.symm p) := by
  induction h with
  | head h =>
    obtain ⟨q, hq, rfl⟩ := Option.map_eq_some_iff.1 h
    rw [Equiv.symm_apply_apply]
    exact .head hq
  | task i h =>
    rw [PoolState.placedAt, TaskState.references_rename] at h
    obtain ⟨q, hq, rfl⟩ := List.mem_map.1 h
    rw [Equiv.symm_apply_apply]
    exact .task i hq
  | next _ hq ih =>
    obtain ⟨q', hq', rfl⟩ := Option.map_eq_some_iff.1 hq
    rw [Equiv.symm_apply_apply]
    exact .next ih hq'

/-- Wherever the nodes are that the pool was filled with, the addresses have their numbers. -/
theorem represents_placedAt (place : Equiv.Perm NodePtr) {s : PoolState ι}
    (hlt : ∀ p, s.Referenced p → p < s.allocated) :
    Represents place.symm (s.placedAt place) s := by
  have hoption (o : Option NodePtr) : (o.map place).map place.symm = o := by cases o <;> simp
  refine ⟨(hoption s.head).symm, fun i ↦ ((s.tasks i).rename_symm place).symm, fun p _ ↦ ?_,
    fun p hp ↦ hlt _ (referenced_placedAt hp), fun p q _ _ heq ↦ place.symm.injective heq⟩
  show _ = EngineNode.mk (s.nodes (place.symm p)).engine
    (((s.nodes (place.symm p)).next.map place).map place.symm)
  rw [hoption]

/-- **No address is mistaken for another node.** Whatever addresses are used again, a run is a run
of the pool in which no node is ever freed: the tasks are at the same places, and the head is a node
that a task refers to exactly if it is that node there. The engines in the pool are the same, and
with those that the tasks hold they are the ones the pool was filled with. -/
theorem reuse_refines [Fintype ι] [DecidableEq ι] {kind : ι → TaskKind} {storage : List EnginePtr}
    {place : Equiv.Perm NodePtr} {c : PoolState ι}
    (h : Runs (· = (PoolState.initial ι storage).placedAt place) (ReuseStep kind) c) :
    ∃ number s, Reachable kind storage s ∧ (∀ i, s.tasks i = (c.tasks i).rename number) ∧
      (∀ i, ∀ p ∈ (c.tasks i).references, c.head = some p ↔ s.head = some (number p)) ∧
      ∃ engines, c.Contains engines ∧ s.Contains engines ∧
        (engines : Multiset EnginePtr) + custody TaskState.held c.tasks = storage := by
  obtain ⟨number, s, hreach, hs⟩ : ∃ number s, Reachable kind storage s ∧
      Represents number c s := by
    refine @Runs.invariant _ _ _ (fun c ↦ ∃ number s, Reachable kind storage s ∧
      Represents number c s) (fun c hc ↦ ?_) (fun c c' hc hstep ↦ ?_) c h
    · subst hc
      exact ⟨place.symm, _, ⟨_, rfl, .refl⟩,
        represents_placedAt place fun p hp ↦ lt_of_referenced_initial hp⟩
    · obtain ⟨number, s, hreach, hs⟩ := hc
      obtain ⟨number', s', hstep', hs'⟩ := hs.step hstep
      exact ⟨number', s', hreach.tail hstep', hs'⟩
  obtain ⟨ps, hchain, -, hconserved⟩ := hreach.invariant.stack
  have hheld : custody TaskState.held s.tasks = custody TaskState.held c.tasks :=
    Finset.sum_congr rfl fun i _ ↦ by rw [hs.tasks i, TaskState.held_rename]
  rw [hheld] at hconserved
  exact ⟨number, s, hreach, hs.tasks, fun i p hp ↦ hs.head_eq_iff (.task i hp), _,
    hs.contains hchain, ⟨ps, hchain, rfl⟩, hconserved⟩

/-- The engine comes back in a node at the address of the one that it was taken from. -/
theorem reuse_refines_sameAddress : ∃ (c s : PoolState Unit) (engines : List EnginePtr),
    c.head = some 0 ∧ c.tasks () = .finished .returned ∧
      Reachable (fun _ ↦ .async) [7] s ∧ c.Contains engines ∧
      (engines : Multiset EnginePtr) + custody TaskState.held c.tasks = [7] := by
  have start : Runs (· = (PoolState.initial Unit [7]).placedAt (Equiv.refl _))
      (ReuseStep fun _ ↦ .async) ((PoolState.initial Unit [7]).placedAt (Equiv.refl _)) :=
    ⟨_, rfl, .refl⟩
  have loaded := (start.tail (.step (@Step.start _ _ _ _ () rfl) rfl)).tail
    (.step (@Step.popLoad _ _ _ _ () _ rfl rfl) rfl)
  have acquired := (loaded.tail (.step (@Step.popNext _ _ _ _ () _ rfl) rfl)).tail
    (.step (@Step.popSucceeds _ _ _ _ () _ _ rfl rfl) rfl)
  have executed := (acquired.tail (.step (@Step.execute _ _ _ _ () _ rfl) rfl)).tail
    (.step (@Step.returns _ _ _ _ () _ rfl) rfl)
  have pushing := (executed.tail (@ReuseStep.pushAllocates _ _ _ _ () _ _ 0 rfl
    (not_referenced rfl (fun _ ↦ rfl) 0))).tail (.step (@Step.pushLoad _ _ _ _ () _ _ _ rfl) rfl)
  have finished := pushing.tail (.step (@Step.pushSucceeds _ _ _ _ () _ _ _ _ rfl rfl) rfl)
  obtain ⟨number, s, hreach, -, -, engines, hcontains, -, hconserved⟩ := reuse_refines finished
  exact ⟨_, s, engines, rfl, rfl, hreach, hcontains, hconserved⟩

end EnginePool

end FastRules
