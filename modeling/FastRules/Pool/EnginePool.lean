import FastRules.Foundations.Custody
import FastRules.Rule.Execute

/-!
# The engine pool

`EnginePool`, a stack of nodes behind one atomic head, and the tasks that take engines from it:
those of `Workflow::executeParallel` and those of `Workflow::executeAsync`. A step is one access to
the head (a load, or a compare-exchange that succeeds or fails) or to the `next` field of a node, or
a step of a task between acquiring an engine and releasing it. A weak compare-exchange may fail for
no reason.

A node is named by the number of its allocation. A thread that compares the head with a node holds a
`shared_ptr` to it, so no other node is at the same address meanwhile, and comparing addresses is
comparing nodes.
-/

namespace FastRules

/-! ### The stack -/

/-- The number of an allocated node. -/
abbrev NodePtr := ℕ

structure EngineNode where
  engine : EnginePtr
  next : Option NodePtr
  deriving DecidableEq, Repr

/-- The nodes from the given one on, following `next`. -/
inductive EngineNode.Chain (nodes : NodePtr → EngineNode) : Option NodePtr → List NodePtr → Prop
  | nil : Chain nodes none []
  | cons {p : NodePtr} {ps : List NodePtr} (h : Chain nodes (nodes p).next ps) :
      Chain nodes (some p) (p :: ps)

namespace EngineNode

variable {nodes nodes' : NodePtr → EngineNode} {head : Option NodePtr} {ps qs : List NodePtr}

theorem Chain.unique (h : Chain nodes head ps) (h' : Chain nodes head qs) : ps = qs := by
  induction h generalizing qs with
  | nil =>
    cases h'
    rfl
  | cons _ ih =>
    obtain - | ⟨h'⟩ := h'
    rw [ih h']

/-- Only the nodes of the chain matter. -/
theorem Chain.congr (h : Chain nodes head ps) (heq : ∀ p ∈ ps, nodes' p = nodes p) :
    Chain nodes' head ps := by
  induction h with
  | nil => exact .nil
  | @cons p ps _ ih =>
    refine .cons ?_
    rw [heq p List.mem_cons_self]
    exact ih fun q hq ↦ heq q (List.mem_cons_of_mem p hq)

/-- The first node of a chain. -/
theorem Chain.of_some {p : NodePtr} (h : Chain nodes (some p) ps) :
    ∃ rest, ps = p :: rest ∧ Chain nodes (nodes p).next rest := by
  obtain - | @⟨_, rest, h⟩ := h
  exact ⟨rest, rfl, h⟩

end EngineNode

namespace EnginePool

/-! ### Tasks -/

/-- What runs as a task. -/
inductive TaskKind
  /-- A task of `Workflow::executeParallel`, for a rule that depends on another one or not. -/
  | parallel (hasDependency : Bool)
  /-- The task of `Workflow::executeAsync`. -/
  | async
  deriving DecidableEq, Repr

/-- How a task ends. -/
inductive Ending
  /-- No engine could be acquired in time. -/
  | timedOut
  | dependencyFailed
  | returned
  | threw
  deriving DecidableEq, Repr

/-- Where a task is. -/
inductive TaskState
  | notStarted
  /-- In `pop`, before the load of the head. -/
  | popping
  /-- In `pop`, with `current` loaded. -/
  | popRead (current : NodePtr)
  /-- In `pop`, with `current->next` read. -/
  | popExchange (current : NodePtr) (next : Option NodePtr)
  /-- The same in the loop of `tryPop`. -/
  | tryPopping
  | tryRead (current : NodePtr)
  | tryExchange (current : NodePtr) (next : Option NodePtr)
  /-- The engine is acquired. -/
  | acquired (engine : EnginePtr)
  /-- Inside `Rule::execute` or `Workflow::execute`. -/
  | executing (engine : EnginePtr)
  /-- In `releaseEngine`, on the way to an ending. -/
  | releasing (engine : EnginePtr) (ending : Ending)
  /-- In `push`, with the node made. -/
  | pushing (engine : EnginePtr) (node : NodePtr) (ending : Ending)
  /-- In `push`, with `node->next = current` written. -/
  | pushExchange (engine : EnginePtr) (node : NodePtr) (current : Option NodePtr) (ending : Ending)
  | finished (ending : Ending)
  deriving DecidableEq, Repr

namespace TaskState

/-- The engine the task holds. -/
def held : TaskState → Multiset EnginePtr
  | acquired engine | executing engine | releasing engine _ => {engine}
  | pushing engine _ _ | pushExchange engine _ _ _ => {engine}
  | _ => 0

/-- The node the task has made and not put on the stack yet. -/
def ownNode : TaskState → Option NodePtr
  | pushing _ node _ | pushExchange _ node _ _ => some node
  | _ => none

/-- The task is not running. -/
def IsIdle : TaskState → Prop
  | notStarted | finished _ => True
  | _ => False

theorem IsIdle.held {state : TaskState} (h : state.IsIdle) : state.held = 0 := by
  cases state with
  | notStarted => rfl
  | finished ending => rfl
  | _ => exact absurd h id

end TaskState

/-- The pool and its tasks. -/
structure PoolState (ι : Type) where
  head : Option NodePtr
  nodes : NodePtr → EngineNode
  allocated : ℕ
  tasks : ι → TaskState

variable {ι : Type}

namespace PoolState

/-- The stack that pushing one engine after the other leaves. -/
def fill (tasks : ι → TaskState) : List EnginePtr → PoolState ι
  | [] => { head := none, nodes := fun _ ↦ ⟨0, none⟩, allocated := 0, tasks }
  | engine :: engines =>
    let s := fill tasks engines
    { s with
      head := some s.allocated
      nodes := Function.update s.nodes s.allocated ⟨engine, s.head⟩
      allocated := s.allocated + 1 }

/-- The pool as `compile` leaves it: the engines of the storage have been pushed in order, so the
last one is on top. -/
def initial (ι : Type) (storage : List EnginePtr) : PoolState ι :=
  fill (fun _ ↦ .notStarted) storage.reverse

/-- The engines in the pool, from the top. -/
def Contains (s : PoolState ι) (engines : List EnginePtr) : Prop :=
  ∃ ps, EngineNode.Chain s.nodes s.head ps ∧ engines = ps.map fun p ↦ (s.nodes p).engine

def setTask [DecidableEq ι] (s : PoolState ι) (i : ι) (state : TaskState) : PoolState ι :=
  { s with tasks := Function.update s.tasks i state }

def setNode (s : PoolState ι) (p : NodePtr) (node : EngineNode) : PoolState ι :=
  { s with nodes := Function.update s.nodes p node }

end PoolState

/-- One step of one task. -/
inductive Step [DecidableEq ι] (kind : ι → TaskKind) : PoolState ι → PoolState ι → Prop
  | start {s : PoolState ι} {i : ι} (h : s.tasks i = .notStarted) :
      Step kind s (s.setTask i .popping)
  /-- `pop`: `auto current = head_.load()`. -/
  | popLoad {s : PoolState ι} {i : ι} {current : NodePtr} (h : s.tasks i = .popping)
      (hhead : s.head = some current) : Step kind s (s.setTask i (.popRead current))
  /-- The pool looks empty to `pop`, and `acquireEngine` goes on to `tryPop`. -/
  | popEmpty {s : PoolState ι} {i : ι} (h : s.tasks i = .popping) (hhead : s.head = none) :
      Step kind s (s.setTask i .tryPopping)
  | popNext {s : PoolState ι} {i : ι} {current : NodePtr} (h : s.tasks i = .popRead current) :
      Step kind s (s.setTask i (.popExchange current (s.nodes current).next))
  | popSucceeds {s : PoolState ι} {i : ι} {current : NodePtr} {next : Option NodePtr}
      (h : s.tasks i = .popExchange current next) (hhead : s.head = some current) :
      Step kind s { s.setTask i (.acquired (s.nodes current).engine) with head := next }
  | popFails {s : PoolState ι} {i : ι} {current : NodePtr} {next : Option NodePtr}
      (h : s.tasks i = .popExchange current next) : Step kind s (s.setTask i .popping)
  | tryLoad {s : PoolState ι} {i : ι} {current : NodePtr} (h : s.tasks i = .tryPopping)
      (hhead : s.head = some current) : Step kind s (s.setTask i (.tryRead current))
  /-- The pool looks empty to `tryPop`, and the deadline has passed. Before it has, the loop goes
  round without changing anything. -/
  | tryTimesOut {s : PoolState ι} {i : ι} (h : s.tasks i = .tryPopping) (hhead : s.head = none) :
      Step kind s (s.setTask i (.finished .timedOut))
  | tryNext {s : PoolState ι} {i : ι} {current : NodePtr} (h : s.tasks i = .tryRead current) :
      Step kind s (s.setTask i (.tryExchange current (s.nodes current).next))
  | trySucceeds {s : PoolState ι} {i : ι} {current : NodePtr} {next : Option NodePtr}
      (h : s.tasks i = .tryExchange current next) (hhead : s.head = some current) :
      Step kind s { s.setTask i (.acquired (s.nodes current).engine) with head := next }
  | tryFails {s : PoolState ι} {i : ι} {current : NodePtr} {next : Option NodePtr}
      (h : s.tasks i = .tryExchange current next) : Step kind s (s.setTask i .tryPopping)
  /-- The dependency of the rule has no successful result. -/
  | dependencyFails {s : PoolState ι} {i : ι} {engine : EnginePtr}
      (h : s.tasks i = .acquired engine)
      (hkind : kind i = .parallel true) :
      Step kind s (s.setTask i (.releasing engine .dependencyFailed))
  | execute {s : PoolState ι} {i : ι} {engine : EnginePtr} (h : s.tasks i = .acquired engine) :
      Step kind s (s.setTask i (.executing engine))
  | returns {s : PoolState ι} {i : ι} {engine : EnginePtr} (h : s.tasks i = .executing engine) :
      Step kind s (s.setTask i (.releasing engine .returned))
  /-- The `catch` clause releases the engine before it throws again. -/
  | throws {s : PoolState ι} {i : ι} {engine : EnginePtr} (h : s.tasks i = .executing engine) :
      Step kind s (s.setTask i (.releasing engine .threw))
  /-- `push`: `auto node = std::make_shared<EngineNode>(engine)`. -/
  | pushAllocates {s : PoolState ι} {i : ι} {engine : EnginePtr} {ending : Ending}
      (h : s.tasks i = .releasing engine ending) :
      Step kind s { (s.setNode s.allocated ⟨engine, none⟩).setTask i
        (.pushing engine s.allocated ending) with allocated := s.allocated + 1 }
  /-- The head is loaded and written to `node->next`, which nobody else can see yet. -/
  | pushLoad {s : PoolState ι} {i : ι} {engine : EnginePtr} {node : NodePtr} {ending : Ending}
      (h : s.tasks i = .pushing engine node ending) :
      Step kind s ((s.setNode node ⟨(s.nodes node).engine, s.head⟩).setTask i
        (.pushExchange engine node s.head ending))
  | pushSucceeds {s : PoolState ι} {i : ι} {engine : EnginePtr} {node : NodePtr}
      {current : Option NodePtr} {ending : Ending}
      (h : s.tasks i = .pushExchange engine node current ending) (hhead : s.head = current) :
      Step kind s { s.setTask i (.finished ending) with head := some node }
  /-- A failed compare-exchange leaves the head in `current`. -/
  | pushFails {s : PoolState ι} {i : ι} {engine : EnginePtr} {node : NodePtr}
      {current : Option NodePtr} {ending : Ending}
      (h : s.tasks i = .pushExchange engine node current ending) :
      Step kind s ((s.setNode node ⟨(s.nodes node).engine, s.head⟩).setTask i
        (.pushExchange engine node s.head ending))

/-- The runs of the tasks on a pool that was filled from the storage. -/
def Reachable [DecidableEq ι] (kind : ι → TaskKind) (storage : List EnginePtr) (s : PoolState ι) :
    Prop :=
  Runs (· = .initial ι storage) (Step kind) s

/-! ### What every step keeps -/

/-- The node is, or was, on the stack: nobody changes it any more. -/
def PoolState.Published (s : PoolState ι) (p : NodePtr) : Prop :=
  p < s.allocated ∧ ∀ i, (s.tasks i).ownNode ≠ some p

/-- What a task knows of the nodes. -/
def TaskState.Consistent (nodes : NodePtr → EngineNode) (Published : NodePtr → Prop) :
    TaskState → Prop
  | popRead current | tryRead current => Published current
  | popExchange current next | tryExchange current next =>
    Published current ∧ (nodes current).next = next
  | pushing engine node _ => (nodes node).engine = engine
  | pushExchange engine node current _ => nodes node = ⟨engine, current⟩
  | _ => True

/-- It knows only published nodes and its own. -/
theorem TaskState.Consistent.mono {nodes nodes' : NodePtr → EngineNode}
    {Published Published' : NodePtr → Prop} {state : TaskState}
    (h : state.Consistent nodes Published) (hpublished : ∀ p, Published p → Published' p)
    (hnodes : ∀ p, Published p ∨ state.ownNode = some p → nodes' p = nodes p) :
    state.Consistent nodes' Published' := by
  cases state with
  | popRead current => exact hpublished current h
  | tryRead current => exact hpublished current h
  | popExchange current next =>
    exact ⟨hpublished current h.1, by rw [hnodes current (.inl h.1)]; exact h.2⟩
  | tryExchange current next =>
    exact ⟨hpublished current h.1, by rw [hnodes current (.inl h.1)]; exact h.2⟩
  | pushing engine node ending =>
    show (nodes' node).engine = engine
    rw [hnodes node (.inr rfl)]
    exact h
  | pushExchange engine node current ending =>
    show nodes' node = _
    rw [hnodes node (.inr rfl)]
    exact h
  | _ => trivial

/-- What holds in every reachable state. -/
structure Invariant [Fintype ι] (storage : List EnginePtr) (s : PoolState ι) : Prop where
  stack : ∃ ps, EngineNode.Chain s.nodes s.head ps ∧ (∀ p ∈ ps, s.Published p) ∧
    ((ps.map fun p ↦ (s.nodes p).engine : List EnginePtr) : Multiset EnginePtr) +
      custody TaskState.held s.tasks = storage
  own_lt : ∀ i p, (s.tasks i).ownNode = some p → p < s.allocated
  own_inj : ∀ i j p, (s.tasks i).ownNode = some p → (s.tasks j).ownNode = some p → i = j
  consistent : ∀ i, (s.tasks i).Consistent s.nodes s.Published

variable [Fintype ι] [DecidableEq ι] {storage : List EnginePtr} {s s' : PoolState ι}
  {state : TaskState}

/-- The rule for a step of one task: it says what becomes of the stack, that the task's node, if it
has one, is its own, and that nodes others know of have not changed. -/
theorem Invariant.of_step (h : Invariant storage s) {i : ι}
    (htasks : s'.tasks = Function.update s.tasks i state)
    (hallocated : s.allocated ≤ s'.allocated)
    (hstack : ∃ ps, EngineNode.Chain s'.nodes s'.head ps ∧ (∀ p ∈ ps, s'.Published p) ∧
      ((ps.map fun p ↦ (s'.nodes p).engine : List EnginePtr) : Multiset EnginePtr) +
        custody TaskState.held s'.tasks = storage)
    (hown : ∀ p, state.ownNode = some p →
      p < s'.allocated ∧ ¬ s.Published p ∧ ∀ j ≠ i, (s.tasks j).ownNode ≠ some p)
    (hnodes : ∀ j ≠ i, ∀ p, s.Published p ∨ (s.tasks j).ownNode = some p → s'.nodes p = s.nodes p)
    (hconsistent : state.Consistent s'.nodes s'.Published) : Invariant storage s' := by
  have hself : s'.tasks i = state := by rw [htasks, Function.update_self]
  have hother : ∀ j ≠ i, s'.tasks j = s.tasks j :=
    fun j hj ↦ by rw [htasks, Function.update_of_ne hj]
  -- a published node stays so: nobody makes it an own node again
  have hpublished : ∀ p, s.Published p → s'.Published p := by
    intro p hp
    refine ⟨hp.1.trans_le hallocated, fun j hj ↦ ?_⟩
    rcases eq_or_ne j i with rfl | hne
    · rw [hself] at hj
      exact (hown p hj).2.1 hp
    · rw [hother j hne] at hj
      exact hp.2 j hj
  refine ⟨hstack, fun j p hj ↦ ?_, fun j k p hj hk ↦ ?_, fun j ↦ ?_⟩
  · rcases eq_or_ne j i with rfl | hne
    · rw [hself] at hj
      exact (hown p hj).1
    · rw [hother j hne] at hj
      exact (h.own_lt j p hj).trans_le hallocated
  · -- no two tasks own one node
    rcases eq_or_ne j i with hji | hji <;> rcases eq_or_ne k i with hki | hki
    · rw [hji, hki]
    · rw [hji, hself] at hj
      rw [hother k hki] at hk
      exact absurd hk ((hown p hj).2.2 k hki)
    · rw [hki, hself] at hk
      rw [hother j hji] at hj
      exact absurd hj ((hown p hk).2.2 j hji)
    · rw [hother j hji] at hj
      rw [hother k hki] at hk
      exact h.own_inj j k p hj hk
  · rcases eq_or_ne j i with rfl | hne
    · rw [hself]
      exact hconsistent
    · rw [hother j hne]
      exact (h.consistent j).mono hpublished (hnodes j hne)

omit [DecidableEq ι] in
/-- What a node of one's own is to the others. -/
theorem Invariant.own (h : Invariant storage s) {i : ι} {p : NodePtr}
    (hi : (s.tasks i).ownNode = some p) :
    p < s.allocated ∧ ¬ s.Published p ∧ ∀ j ≠ i, (s.tasks j).ownNode ≠ some p :=
  ⟨h.own_lt i p hi, fun hp ↦ hp.2 i hi, fun j hj hjp ↦ hj (h.own_inj j i p hjp hi)⟩

omit [Fintype ι] in
theorem published_setTask {i : ι} (hown : state.ownNode = (s.tasks i).ownNode) :
    (s.setTask i state).Published = s.Published := by
  funext p
  refine propext (and_congr_right fun _ ↦ forall_congr' fun j ↦ ?_)
  show (Function.update s.tasks i state j).ownNode ≠ some p ↔ _
  rcases eq_or_ne j i with rfl | hne
  · rw [Function.update_self, hown]
  · rw [Function.update_of_ne hne]

/-- A task moves on without touching the pool. -/
theorem Invariant.setTask (h : Invariant storage s) {i : ι}
    (hheld : state.held = (s.tasks i).held) (hown : state.ownNode = (s.tasks i).ownNode)
    (hconsistent : state.Consistent s.nodes s.Published) :
    Invariant storage (s.setTask i state) := by
  obtain ⟨ps, hchain, hpublished, hstorage⟩ := h.stack
  refine h.of_step rfl le_rfl ⟨ps, hchain, ?_, ?_⟩ (fun p hp ↦ h.own (hown ▸ hp))
    (fun _ _ _ _ ↦ rfl) ?_
  · rwa [published_setTask hown]
  · show _ + custody TaskState.held (Function.update s.tasks i state) = _
    rw [custody_update_keep hheld]
    exact hstorage
  · rwa [published_setTask hown]

/-- A compare-exchange that takes a node off the stack. -/
theorem Invariant.take (h : Invariant storage s) {i : ι} {current : NodePtr} {next : Option NodePtr}
    (hheld : (s.tasks i).held = 0) (hown : (s.tasks i).ownNode = none)
    (hnext : (s.nodes current).next = next) (hhead : s.head = some current) :
    Invariant storage { s.setTask i (.acquired (s.nodes current).engine) with head := next } := by
  obtain ⟨ps, hchain, hpublished, hstorage⟩ := h.stack
  rw [hhead] at hchain
  obtain ⟨rest, rfl, hrest⟩ := hchain.of_some
  have hpub : (s.setTask i (.acquired (s.nodes current).engine)).Published = s.Published :=
    published_setTask (by rw [hown]; rfl)
  refine h.of_step rfl le_rfl ⟨rest, hnext ▸ hrest, fun p hp ↦ ?_, ?_⟩ (fun p hp ↦ nomatch hp)
    (fun _ _ _ _ ↦ rfl) trivial
  · show (s.setTask i (.acquired (s.nodes current).engine)).Published p
    rw [hpub]
    exact hpublished p (List.mem_cons_of_mem current hp)
  · have hcustody : custody TaskState.held
        (Function.update s.tasks i (.acquired (s.nodes current).engine)) =
          custody TaskState.held s.tasks + {(s.nodes current).engine} :=
      custody_update_take (by rw [hheld, zero_add]; rfl)
    show _ + custody TaskState.held (Function.update s.tasks i _) = _
    rw [hcustody, ← hstorage, List.map_cons, ← Multiset.cons_coe, ← Multiset.singleton_add]
    ac_rfl

/-- A node that nobody knows is the task's own from now on. -/
theorem Invariant.allocate (h : Invariant storage s) {i : ι} {engine : EnginePtr} {ending : Ending}
    (hi : s.tasks i = .releasing engine ending) :
    Invariant storage { (s.setNode s.allocated ⟨engine, none⟩).setTask i
      (.pushing engine s.allocated ending) with allocated := s.allocated + 1 } := by
  obtain ⟨ps, hchain, hpublished, hstorage⟩ := h.stack
  -- the new node is none of the nodes there are
  have hold : ∀ p < s.allocated, Function.update s.nodes s.allocated ⟨engine, none⟩ p = s.nodes p :=
    fun p hp ↦ Function.update_of_ne hp.ne _ _
  refine h.of_step rfl (Nat.le_succ _)
    ⟨ps, hchain.congr fun p hp ↦ hold p (hpublished p hp).1, fun p hp ↦ ⟨?_, fun j hj ↦ ?_⟩, ?_⟩
    (fun p hp ↦ ?_) (fun j _ p hp ↦ hold p (hp.elim And.left (h.own_lt j p)))
    (by show (Function.update s.nodes s.allocated _ s.allocated).engine = _
        rw [Function.update_self])
  · exact (hpublished p hp).1.trans (Nat.lt_succ_self _)
  · have hj' : (Function.update s.tasks i (.pushing engine s.allocated ending) j).ownNode =
      some p := hj
    rcases eq_or_ne j i with rfl | hne
    · rw [Function.update_self] at hj'
      obtain rfl : s.allocated = p := Option.some.inj hj'
      exact absurd (hpublished _ hp).1 (Nat.lt_irrefl _)
    · rw [Function.update_of_ne hne] at hj'
      exact (hpublished p hp).2 j hj'
  · show ((ps.map fun p ↦
        (Function.update s.nodes s.allocated ⟨engine, none⟩ p).engine : List EnginePtr) :
        Multiset EnginePtr) + custody TaskState.held (Function.update s.tasks i _) = _
    rw [custody_update_keep (by rw [hi]; rfl),
      List.map_congr_left fun p hp ↦ congrArg EngineNode.engine (hold p (hpublished p hp).1)]
    exact hstorage
  · obtain rfl : s.allocated = p := Option.some.inj hp
    exact ⟨Nat.lt_succ_self _, fun hpub ↦ absurd hpub.1 (Nat.lt_irrefl _),
      fun j _ hj ↦ absurd (h.own_lt j _ hj) (Nat.lt_irrefl _)⟩

/-- The task writes to its own node. -/
theorem Invariant.write (h : Invariant storage s) {i : ι} {engine : EnginePtr} {node : NodePtr}
    {ending : Ending} (hheld : (s.tasks i).held = {engine}) (hown : (s.tasks i).ownNode = some node)
    (hengine : (s.nodes node).engine = engine) :
    Invariant storage ((s.setNode node ⟨(s.nodes node).engine, s.head⟩).setTask i
      (.pushExchange engine node s.head ending)) := by
  obtain ⟨ps, hchain, hpublished, hstorage⟩ := h.stack
  have hother : ∀ p, p ≠ node → Function.update s.nodes node ⟨(s.nodes node).engine, s.head⟩ p =
      s.nodes p := fun p hp ↦ Function.update_of_ne hp _ _
  -- a node that a task owns is not on the stack
  have hne : ∀ p, s.Published p → p ≠ node := fun p hp hpn ↦ hp.2 i (hpn ▸ hown)
  have hpub : (s.setTask i (.pushExchange engine node s.head ending)).Published = s.Published :=
    published_setTask hown.symm
  refine h.of_step rfl le_rfl
    ⟨ps, hchain.congr fun p hp ↦ hother p (hne p (hpublished p hp)), fun p hp ↦ ?_, ?_⟩
    (fun p hp ↦ h.own (hown.trans hp)) (fun j hj p hp ↦ hother p ?_)
    (by show Function.update s.nodes node _ node = _
        rw [Function.update_self, hengine])
  · show (s.setTask i (.pushExchange engine node s.head ending)).Published p
    rw [hpub]
    exact hpublished p hp
  · show ((ps.map fun p ↦
        (Function.update s.nodes node ⟨(s.nodes node).engine, s.head⟩ p).engine : List EnginePtr) :
        Multiset EnginePtr) + custody TaskState.held (Function.update s.tasks i _) = _
    rw [custody_update_keep hheld.symm, List.map_congr_left fun p hp ↦
      congrArg EngineNode.engine (hother p (hne p (hpublished p hp)))]
    exact hstorage
  · rcases hp with hp | hp
    · exact hne p hp
    · rintro rfl
      exact hj (h.own_inj j i p hp hown)

/-- A compare-exchange that puts the task's node on the stack. -/
theorem Invariant.put (h : Invariant storage s) {i : ι} {engine : EnginePtr} {node : NodePtr}
    {current : Option NodePtr} {ending : Ending}
    (hi : s.tasks i = .pushExchange engine node current ending) (hhead : s.head = current) :
    Invariant storage { s.setTask i (.finished ending) with head := some node } := by
  obtain ⟨ps, hchain, hpublished, hstorage⟩ := h.stack
  have hown : (s.tasks i).ownNode = some node := by rw [hi]; rfl
  have hnode : s.nodes node = ⟨engine, current⟩ := by
    have hconsistent := h.consistent i
    rw [hi] at hconsistent
    exact hconsistent
  have hpub : ∀ p, s.Published p ∨ p = node → (s.setTask i (.finished ending)).Published p := by
    intro p hp
    refine ⟨hp.elim And.left fun hpn ↦ hpn ▸ h.own_lt i node hown, fun j hj ↦ ?_⟩
    have hj' : (Function.update s.tasks i (.finished ending) j).ownNode = some p := hj
    rcases eq_or_ne j i with rfl | hne
    · rw [Function.update_self] at hj'
      exact absurd hj' (by simp [TaskState.ownNode])
    · rw [Function.update_of_ne hne] at hj'
      rcases hp with hp | rfl
      · exact hp.2 j hj'
      · exact hne (h.own_inj j i p hj' hown)
  refine h.of_step rfl le_rfl ⟨node :: ps, .cons ?_, fun p hp ↦ ?_, ?_⟩ (fun p hp ↦ nomatch hp)
    (fun _ _ _ _ ↦ rfl) trivial
  · show EngineNode.Chain s.nodes (s.nodes node).next ps
    rw [hnode, ← hhead]
    exact hchain
  · exact hpub p ((List.mem_cons.1 hp).symm.imp_left (hpublished p))
  · have hcustody :
        custody TaskState.held (Function.update s.tasks i (.finished ending)) + {engine} =
          custody TaskState.held s.tasks :=
      custody_update_give (by rw [hi]; exact (zero_add _).symm)
    show (((node :: ps).map fun p ↦ (s.nodes p).engine : List EnginePtr) : Multiset EnginePtr) +
      custody TaskState.held (Function.update s.tasks i _) = _
    rw [← hstorage, ← hcustody, List.map_cons, ← Multiset.cons_coe, ← Multiset.singleton_add, hnode]
    ac_rfl

theorem Invariant.step {kind : ι → TaskKind} (h : Invariant storage s) (hstep : Step kind s s') :
    Invariant storage s' := by
  have hconsistent {i : ι} {state : TaskState} (hi : s.tasks i = state) :
      state.Consistent s.nodes s.Published := hi ▸ h.consistent i
  -- A node that was loaded from the head is on the stack.
  have hloaded {p : NodePtr} (hhead : s.head = some p) : s.Published p := by
    obtain ⟨ps, hchain, hpublished, -⟩ := h.stack
    rw [hhead] at hchain
    obtain ⟨rest, rfl, -⟩ := hchain.of_some
    exact hpublished p List.mem_cons_self
  cases hstep with
  | start hi => exact h.setTask (by rw [hi]; rfl) (by rw [hi]; rfl) trivial
  | popLoad hi hhead => exact h.setTask (by rw [hi]; rfl) (by rw [hi]; rfl) (hloaded hhead)
  | popEmpty hi hhead => exact h.setTask (by rw [hi]; rfl) (by rw [hi]; rfl) trivial
  | popNext hi => exact h.setTask (by rw [hi]; rfl) (by rw [hi]; rfl) ⟨hconsistent hi, rfl⟩
  | popSucceeds hi hhead =>
    exact h.take (by rw [hi]; rfl) (by rw [hi]; rfl) (hconsistent hi).2 hhead
  | popFails hi => exact h.setTask (by rw [hi]; rfl) (by rw [hi]; rfl) trivial
  | tryLoad hi hhead => exact h.setTask (by rw [hi]; rfl) (by rw [hi]; rfl) (hloaded hhead)
  | tryTimesOut hi hhead => exact h.setTask (by rw [hi]; rfl) (by rw [hi]; rfl) trivial
  | tryNext hi => exact h.setTask (by rw [hi]; rfl) (by rw [hi]; rfl) ⟨hconsistent hi, rfl⟩
  | trySucceeds hi hhead =>
    exact h.take (by rw [hi]; rfl) (by rw [hi]; rfl) (hconsistent hi).2 hhead
  | tryFails hi => exact h.setTask (by rw [hi]; rfl) (by rw [hi]; rfl) trivial
  | dependencyFails hi hkind => exact h.setTask (by rw [hi]; rfl) (by rw [hi]; rfl) trivial
  | execute hi => exact h.setTask (by rw [hi]; rfl) (by rw [hi]; rfl) trivial
  | returns hi => exact h.setTask (by rw [hi]; rfl) (by rw [hi]; rfl) trivial
  | throws hi => exact h.setTask (by rw [hi]; rfl) (by rw [hi]; rfl) trivial
  | pushAllocates hi => exact h.allocate hi
  | pushLoad hi => exact h.write (by rw [hi]; rfl) (by rw [hi]; rfl) (hconsistent hi)
  | pushSucceeds hi hhead => exact h.put hi hhead
  | pushFails hi =>
    exact h.write (by rw [hi]; rfl) (by rw [hi]; rfl) (congrArg EngineNode.engine (hconsistent hi))

omit [Fintype ι] [DecidableEq ι] in
/-- Pushing engines one after the other gives the stack of them, the last one on top. -/
theorem PoolState.fill_contains (tasks : ι → TaskState) (engines : List EnginePtr) :
    ∃ ps, EngineNode.Chain (fill tasks engines).nodes (fill tasks engines).head ps ∧
      (∀ p ∈ ps, p < (fill tasks engines).allocated) ∧
      ps.map (fun p ↦ ((fill tasks engines).nodes p).engine) = engines := by
  induction engines with
  | nil => exact ⟨[], .nil, fun _ hp ↦ absurd hp List.not_mem_nil, rfl⟩
  | cons engine engines ih =>
    obtain ⟨ps, hchain, hlt, hengines⟩ := ih
    let t := fill tasks engines
    let nodes := Function.update t.nodes t.allocated ⟨engine, t.head⟩
    have hself : nodes t.allocated = ⟨engine, t.head⟩ := Function.update_self _ _ _
    have hold : ∀ p ∈ ps, nodes p = t.nodes p := fun p hp ↦ Function.update_of_ne (hlt p hp).ne _ _
    refine ⟨t.allocated :: ps, .cons ?_, fun p hp ↦ ?_, ?_⟩
    · show EngineNode.Chain nodes (nodes t.allocated).next ps
      rw [hself]
      exact hchain.congr hold
    · rcases List.mem_cons.1 hp with rfl | hp
      · exact Nat.lt_succ_self _
      · exact (hlt p hp).trans (Nat.lt_succ_self _)
    · show (nodes t.allocated).engine :: ps.map (fun p ↦ (nodes p).engine) = _
      rw [hself, List.map_congr_left fun p hp ↦ congrArg EngineNode.engine (hold p hp), hengines]

omit [Fintype ι] [DecidableEq ι] in
theorem PoolState.fill_tasks (tasks : ι → TaskState) (engines : List EnginePtr) :
    (fill tasks engines).tasks = tasks := by
  induction engines with
  | nil => rfl
  | cons engine engines ih => exact ih

omit [DecidableEq ι] in
theorem Invariant.initial : Invariant storage (.initial ι storage) := by
  have htasks := PoolState.fill_tasks (fun _ : ι ↦ .notStarted) storage.reverse
  obtain ⟨ps, hchain, hlt, hengines⟩ :=
    PoolState.fill_contains (fun _ : ι ↦ .notStarted) storage.reverse
  have hidle : ∀ i, (PoolState.initial ι storage).tasks i = .notStarted := congrFun htasks
  have hcustody : custody TaskState.held (PoolState.initial ι storage).tasks = 0 :=
    custody_eq_zero fun i ↦ by rw [hidle i]; rfl
  refine ⟨⟨ps, hchain, fun p hp ↦ ⟨hlt p hp, fun i hi ↦ ?_⟩, ?_⟩, fun i p hi ↦ ?_,
    fun i _ p hi _ ↦ ?_, fun i ↦ ?_⟩
  · rw [hidle i] at hi
    exact absurd hi (by simp [TaskState.ownNode])
  · rw [hcustody, add_zero]
    exact (congrArg _ hengines).trans (Multiset.coe_eq_coe.2 (List.reverse_perm storage))
  · rw [hidle i] at hi
    exact absurd hi (by simp [TaskState.ownNode])
  · rw [hidle i] at hi
    exact absurd hi (by simp [TaskState.ownNode])
  · rw [hidle i]
    trivial

theorem Reachable.invariant {kind : ι → TaskKind} (h : Reachable kind storage s) :
    Invariant storage s :=
  Runs.invariant (fun _ hs ↦ hs ▸ .initial) (fun _ _ hs hstep ↦ hs.step hstep) h

omit [Fintype ι] [DecidableEq ι] in
/-- What the pool contains is determined by its state. -/
theorem PoolState.Contains.unique {engines engines' : List EnginePtr} (h : s.Contains engines)
    (h' : s.Contains engines') : engines = engines' := by
  obtain ⟨ps, hchain, rfl⟩ := h
  obtain ⟨qs, hchain', rfl⟩ := h'
  rw [hchain.unique hchain']

/-- In every reachable state the engines in the pool and those the tasks hold are exactly the ones
the pool was filled with. None of them is in two places, and if no task is running the pool has
all. -/
theorem engines_conserved (kind : ι → TaskKind) (hstorage : storage.Nodup)
    (hreach : Reachable kind storage s) :
    ∃ engines, s.Contains engines ∧ engines.Nodup ∧
      (engines : Multiset EnginePtr) + custody TaskState.held s.tasks = storage ∧
      (∀ i, ∀ engine ∈ (s.tasks i).held, engine ∉ engines ∧ ∀ j ≠ i, engine ∉ (s.tasks j).held) ∧
      ((∀ i, (s.tasks i).IsIdle) → engines.Perm storage) := by
  obtain ⟨ps, hchain, -, hconserved⟩ := hreach.invariant.stack
  have hnodup : (((ps.map fun p ↦ (s.nodes p).engine : List EnginePtr) : Multiset EnginePtr) +
      custody TaskState.held s.tasks).Nodup := by
    rw [hconserved]
    exact Multiset.coe_nodup.2 hstorage
  obtain ⟨hpool, hheld, hdisjoint⟩ := Multiset.nodup_add.1 hnodup
  refine ⟨_, ⟨ps, hchain, rfl⟩, Multiset.coe_nodup.1 hpool, hconserved, fun i engine hi ↦ ⟨?_, ?_⟩,
    fun hidle ↦ ?_⟩
  · intro hengine
    exact Multiset.disjoint_left.1 hdisjoint (Multiset.mem_coe.2 hengine)
      (Multiset.mem_of_le (le_custody _ _ i) hi)
  · intro j hj hengine
    exact Multiset.disjoint_left.1 (disjoint_of_nodup_custody hheld hj.symm) hi hengine
  · have hnone : custody TaskState.held s.tasks = 0 := custody_eq_zero fun i ↦ (hidle i).held
    rw [hnone, add_zero] at hconserved
    exact Multiset.coe_eq_coe.1 hconserved

/-- A run in which the only task acquires the only engine, executes and releases it. -/
theorem exists_finished : ∃ s : PoolState Unit,
    Reachable (fun _ ↦ .async) [7] s ∧ s.tasks () = .finished .returned := by
  have start : Runs (· = .initial Unit [7]) (Step fun _ ↦ .async) (.initial Unit [7]) :=
    ⟨_, rfl, .refl⟩
  have loaded := (start.tail (@Step.start _ _ _ _ () rfl)).tail (@Step.popLoad _ _ _ _ () _ rfl rfl)
  have acquired := (loaded.tail (@Step.popNext _ _ _ _ () _ rfl)).tail
    (@Step.popSucceeds _ _ _ _ () _ _ rfl rfl)
  have executed := (acquired.tail (@Step.execute _ _ _ _ () _ rfl)).tail
    (@Step.returns _ _ _ _ () _ rfl)
  have pushing := (executed.tail (@Step.pushAllocates _ _ _ _ () _ _ rfl)).tail
    (@Step.pushLoad _ _ _ _ () _ _ _ rfl)
  exact ⟨_, pushing.tail (@Step.pushSucceeds _ _ _ _ () _ _ _ _ rfl rfl), rfl⟩

/-- At its end the engine is in the pool again. -/
theorem engine_returned_of_exists_finished : ∃ (s : PoolState Unit) (engines : List EnginePtr),
    s.tasks () = .finished .returned ∧ s.Contains engines ∧ engines.Perm [7] := by
  obtain ⟨s, hreach, hfinished⟩ := exists_finished
  obtain ⟨engines, hcontains, -, -, -, hidle⟩ := engines_conserved _ (by decide) hreach
  exact ⟨s, engines, hfinished, hcontains, hidle fun _ ↦ by rw [hfinished]; trivial⟩

end EnginePool

end FastRules
