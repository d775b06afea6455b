import FastRules.Foundations.SlotTable
import FastRules.Rule.Numbers
import Mathlib.Data.Set.Card

/-!
# The slots of action handlers

How `LuaBridge3Backend::bindActions` turns the handlers of `ActionCallbacks` into globals: each name
gets a slot for its handler, and the global is a closure that knows the index of the slot. A name
keeps its slot until the backend is reset.

The table of the backend is a `SlotTable` (`FormsTable`), as long as the indices are `int`s, and it
holds what was bound (`ActionState.Agrees`). A global is known by what `lua_setglobal` sees of its
name.
-/

namespace FastRules

open KeyedList SlotTable

/-! ### The handlers -/

/-- `ActionCallbacks`: the handlers of type `H`, each with its name. -/
structure ActionCallbacks (H : Type) where
  handlers : List (String × H) := []
  distinct : DistinctKeys handlers := by exact distinctKeys_nil

variable {H : Type}

namespace ActionCallbacks

variable (callbacks : ActionCallbacks H)

def registerHandler (name : String) (handler : H) : ActionCallbacks H where
  handlers := (name, handler) :: eraseKey name callbacks.handlers
  distinct := callbacks.distinct.insert name handler

def hasHandler (name : String) : Bool :=
  name ∈ callbacks.handlers.map Prod.fst

variable {callbacks}

theorem mem_registerHandler {name : String} {handler : H} {x : String × H} :
    x ∈ (callbacks.registerHandler name handler).handlers ↔
      x = (name, handler) ∨ x ∈ callbacks.handlers ∧ x.1 ≠ name := by
  rw [registerHandler, List.mem_cons, mem_eraseKey]

end ActionCallbacks

/-! ### The slots -/

/-- What a `LuaBridge3Backend` has of the handlers. -/
structure ActionSlots (H : Type) where
  actionHandlers : List H := []
  actionHandlerIds : String → Option Int := fun _ ↦ none
  /-- The globals of the state that are closures of `bindActions`, with the upvalue of each. -/
  globals : String → Option Int := fun _ ↦ none

theorem toInt32_length_le (l : List H) : toInt32 l.length ≤ l.length := by
  have hlt : (l.length : Int).bmod (2 ^ 32) < ((2 ^ 32 : ℕ) + 1 : Int) / 2 :=
    Int.bmod_lt (by decide)
  by_cases h : (l.length : Int) < 2 ^ 31
  · exact (toInt32_eq_self_iff.2 ⟨by omega, h⟩).le
  · rw [toInt32]
    omega

namespace ActionSlots

variable (b : ActionSlots H)

/-- What `bindActions` does for one handler. -/
def bindAction (entry : String × H) : ActionSlots H :=
  match b.actionHandlerIds entry.1 with
  | some handlerId =>
    { b with
      -- the index is a `size_t`
      actionHandlers := b.actionHandlers.set (BitVec.ofInt 64 handlerId).toNat entry.2
      globals := Function.update b.globals (cStr entry.1) (some handlerId) }
  | none =>
    let handlerId := toInt32 b.actionHandlers.length
    { actionHandlers := b.actionHandlers ++ [entry.2]
      actionHandlerIds := Function.update b.actionHandlerIds entry.1 (some handlerId)
      globals := Function.update b.globals (cStr entry.1) (some handlerId) }

/-- `bindActions`. -/
def bindActions (order : HashOrder (String × H)) (callbacks : ActionCallbacks H) : ActionSlots H :=
  (order.visit callbacks.handlers).foldl bindAction b

/-- `reset`, which also gets rid of the globals. -/
def reset (_ : ActionSlots H) : ActionSlots H := {}

/-- The handler that a closure with the upvalue runs, or the error it raises. -/
def handlerOf (upvalue : Int) : Except String H :=
  let hId := toInt32 upvalue
  if h : 0 ≤ hId ∧ hId < toInt32 b.actionHandlers.length then
    .ok (b.actionHandlers.get ⟨hId.toNat, by
      have := toInt32_length_le b.actionHandlers
      omega⟩)
  else .error "Invalid action handler ID"

variable {b} {entry : String × H} {id : Int}

theorem bindAction_of_some (h : b.actionHandlerIds entry.1 = some id) :
    b.bindAction entry =
      { b with
        actionHandlers := b.actionHandlers.set (BitVec.ofInt 64 id).toNat entry.2
        globals := Function.update b.globals (cStr entry.1) (some id) } := by
  rw [bindAction, h]

theorem bindAction_of_none (h : b.actionHandlerIds entry.1 = none)
    (hid : toInt32 b.actionHandlers.length = id) :
    b.bindAction entry =
      { actionHandlers := b.actionHandlers ++ [entry.2]
        actionHandlerIds := Function.update b.actionHandlerIds entry.1 (some id)
        globals := Function.update b.globals (cStr entry.1) (some id) } := by
  rw [bindAction, h, ← hid]

theorem handlerOf_of_getElem? {i : ℕ} {handler : H} (hlength : b.actionHandlers.length < 2 ^ 31)
    (hi : b.actionHandlers[i]? = some handler) : b.handlerOf i = .ok handler := by
  obtain ⟨hlt, rfl⟩ := List.getElem?_eq_some_iff.1 hi
  have hvalue : toInt32 i = i := toInt32_eq_self_iff.2 ⟨by omega, by omega⟩
  have hcount : toInt32 b.actionHandlers.length = b.actionHandlers.length :=
    toInt32_eq_self_iff.2 ⟨by omega, by omega⟩
  rw [handlerOf, dif_pos (by rw [hvalue, hcount]; omega)]
  simp only [hvalue, Int.toNat_natCast, List.get_eq_getElem]

end ActionSlots

/-! ### What the slots stand for -/

/-- The slots of the backend are those of a slot table, and their indices are `int`s. -/
structure FormsTable (slots : List (String × H)) (b : ActionSlots H) : Prop where
  distinct : DistinctKeys slots
  length_le : slots.length ≤ 2 ^ 31
  handlers : b.actionHandlers = slots.map Prod.snd
  ids : ∀ name id,
    b.actionHandlerIds name = some id ↔ ∃ i : ℕ, (slots.map Prod.fst)[i]? = some name ∧ id = i
  globals : ∀ g id, b.globals g = some id →
    ∃ name, cStr name = g ∧ b.actionHandlerIds name = some id
  installed : ∀ name ∈ slots.map Prod.fst, (b.globals (cStr name)).isSome

namespace FormsTable

variable {slots entries : List (String × H)} {b b' : ActionSlots H} {e : String × H}
  {name g : String} {id : Int} {i : ℕ} {h : H}

theorem reset (b : ActionSlots H) : FormsTable [] b.reset where
  distinct := distinctKeys_nil
  length_le := Nat.zero_le _
  handlers := rfl
  ids name id := by simp [ActionSlots.reset]
  globals g id h := by cases h
  installed name h := by cases h

theorem index_lt (hb : FormsTable slots b) (hi : (slots.map Prod.fst)[i]? = some name) :
    i < 2 ^ 31 := by
  have hlength := hb.length_le
  have hlt := (List.getElem?_eq_some_iff.1 hi).1
  rw [List.length_map] at hlt
  omega

theorem mem_keys_of_id (hb : FormsTable slots b) (hid : b.actionHandlerIds name = some id) :
    name ∈ slots.map Prod.fst := by
  obtain ⟨i, hi, -⟩ := (hb.ids name id).1 hid
  exact List.mem_of_getElem? hi

theorem not_mem_keys_of_id (hb : FormsTable slots b) (hid : b.actionHandlerIds name = none) :
    name ∉ slots.map Prod.fst := by
  intro hmem
  obtain ⟨i, hi⟩ := List.mem_iff_getElem?.1 hmem
  cases hid.symm.trans ((hb.ids name i).2 ⟨i, hi, rfl⟩)

/-- The closures of the globals belong to names, also with one more global. -/
theorem globals_update (hb : FormsTable slots b) (hid : b'.actionHandlerIds name = some id)
    (hkeep : ∀ n i, b.actionHandlerIds n = some i → b'.actionHandlerIds n = some i) :
    ∀ g i, Function.update b.globals (cStr name) (some id) g = some i →
      ∃ n, cStr n = g ∧ b'.actionHandlerIds n = some i := by
  intro g i hg
  rcases eq_or_ne g (cStr name) with rfl | hne
  · rw [Function.update_self] at hg
    exact ⟨name, rfl, hid.trans hg⟩
  · rw [Function.update_of_ne hne] at hg
    obtain ⟨n, hn, hi⟩ := hb.globals g i hg
    exact ⟨n, hn, hkeep n i hi⟩

/-- Each name has a global, also with one more name. -/
theorem installed_update (hb : FormsTable slots b) :
    ∀ n ∈ (put slots e).map Prod.fst,
      (Function.update b.globals (cStr e.1) (some id) (cStr n)).isSome := by
  intro n hn
  by_cases heq : cStr n = cStr e.1
  · rw [heq, Function.update_self]
    rfl
  · rw [Function.update_of_ne heq]
    exact hb.installed n ((mem_keys_put.1 hn).resolve_left fun h ↦ heq (congrArg cStr h))

/-- A name that has a slot gets the new handler there. -/
theorem bindAction_of_some (hb : FormsTable slots b) (hid : b.actionHandlerIds e.1 = some id) :
    FormsTable (put slots e) (b.bindAction e) := by
  obtain ⟨i, hi, rfl⟩ := (hb.ids e.1 id).1 hid
  have hmem := List.mem_of_getElem? hi
  have hindex : (BitVec.ofInt 64 (i : Int)).toNat = i := by
    have hlt := hb.index_lt hi
    rw [BitVec.toNat_ofInt]
    omega
  rw [ActionSlots.bindAction_of_some hid, hindex]
  exact {
    distinct := distinctKeys_put hb.distinct
    length_le := by
      rw [put_of_mem hmem, List.length_map]
      exact hb.length_le
    handlers := by rw [values_put_of_mem hb.distinct hi, hb.handlers]
    ids := by
      rw [keys_put_of_mem hmem]
      exact hb.ids
    globals := hb.globals_update hid fun _ _ h ↦ h
    installed := hb.installed_update }

/-- A new name gets a new slot. -/
theorem bindAction_of_none (hb : FormsTable slots b) (hid : b.actionHandlerIds e.1 = none)
    (hlength : slots.length < 2 ^ 31) : FormsTable (put slots e) (b.bindAction e) := by
  have hnot := hb.not_mem_keys_of_id hid
  have hindex : toInt32 b.actionHandlers.length = slots.length := by
    rw [hb.handlers, List.length_map]
    exact toInt32_eq_self_iff.2 ⟨by omega, by omega⟩
  have hold : ∀ n i, b.actionHandlerIds n = some i → n ≠ e.1 := by
    rintro n i hi rfl
    cases hid.symm.trans hi
  rw [ActionSlots.bindAction_of_none hid hindex]
  exact {
    distinct := distinctKeys_put hb.distinct
    length_le := by
      rw [put_of_not_mem hnot, List.length_append]
      exact hlength
    handlers := by rw [values_put_of_not_mem hnot, hb.handlers]
    ids := fun n j ↦ by
      simp only [getElem?_keys_put_of_not_mem hnot]
      rcases eq_or_ne n e.1 with rfl | hne
      · rw [Function.update_self, Option.some_inj]
        constructor
        · rintro rfl
          exact ⟨_, .inr ⟨rfl, rfl⟩, rfl⟩
        · rintro ⟨i, hi | ⟨rfl, -⟩, rfl⟩
          · exact absurd (List.mem_of_getElem? hi) hnot
          · rfl
      · simp only [Function.update_of_ne hne, hb.ids, hne, and_false, or_false]
    globals := hb.globals_update (Function.update_self ..) fun n i hi ↦
      (Function.update_of_ne (hold n i hi) ..).trans hi
    installed := hb.installed_update }

theorem bindAction (hb : FormsTable slots b) (hlength : (put slots e).length ≤ 2 ^ 31) :
    FormsTable (put slots e) (b.bindAction e) := by
  rcases hid : b.actionHandlerIds e.1 with - | id
  · refine hb.bindAction_of_none hid ?_
    rwa [put_of_not_mem (hb.not_mem_keys_of_id hid), List.length_append] at hlength
  · exact hb.bindAction_of_some hid

theorem foldl_bindAction (hb : FormsTable slots b)
    (hlength : (entries.foldl put slots).length ≤ 2 ^ 31) :
    FormsTable (entries.foldl put slots) (entries.foldl ActionSlots.bindAction b) := by
  induction entries generalizing slots b with
  | nil => exact hb
  | cons e entries ih =>
    exact ih (hb.bindAction ((length_le_length_foldl_put _ entries).trans hlength)) hlength

/-- No two names have the same slot. -/
theorem ids_injective (hb : FormsTable slots b) {m n : String}
    (hm : b.actionHandlerIds m = some id) (hn : b.actionHandlerIds n = some id) : m = n := by
  obtain ⟨i, hi, rfl⟩ := (hb.ids m id).1 hm
  obtain ⟨j, hj, hij⟩ := (hb.ids n i).1 hn
  rw [← Int.ofNat_inj.1 hij, hi] at hj
  exact Option.some.inj hj

/-- The indices of the slots are those of the handlers. -/
theorem exists_id_iff (hb : FormsTable slots b) :
    (∃ n, b.actionHandlerIds n = some id) ↔ 0 ≤ id ∧ id < b.actionHandlers.length := by
  simp only [hb.ids, hb.handlers, List.length_map]
  constructor
  · rintro ⟨n, i, hi, rfl⟩
    have hlt := (List.getElem?_eq_some_iff.1 hi).1
    rw [List.length_map] at hlt
    omega
  · rintro ⟨hlow, hhigh⟩
    have hlt : id.toNat < (slots.map Prod.fst).length := by
      rw [List.length_map]
      omega
    exact ⟨_, id.toNat, List.getElem?_eq_getElem hlt, by omega⟩

/-- A closure with the index of a slot runs the handler of the slot. -/
theorem handlerOf_id (hb : FormsTable slots b) (hlength : slots.length < 2 ^ 31)
    (hid : b.actionHandlerIds name = some id) (hmem : (name, h) ∈ slots) :
    b.handlerOf id = .ok h := by
  obtain ⟨i, hi, rfl⟩ := (hb.ids name id).1 hid
  obtain ⟨j, hj⟩ := List.mem_iff_getElem?.1 hmem
  have hij : i = j := by
    refine (List.getElem?_inj (List.getElem?_eq_some_iff.1 hi).1 hb.distinct).1 (hi.trans ?_)
    rw [List.getElem?_map, hj]
    rfl
  subst hij
  refine ActionSlots.handlerOf_of_getElem? (by rwa [hb.handlers, List.length_map]) ?_
  rw [hb.handlers, List.getElem?_map, hj]
  rfl

end FormsTable

/-! ### Calls -/

/-- The calls that handlers, slots and globals come from. -/
inductive ActionCall (H : Type)
  | registerHandler (name : String) (handler : H)
  /-- The handlers are visited in the order of their `unordered_map` at the time. -/
  | bindActions (order : HashOrder (String × H))
  | reset

/-- The handlers of an engine and what its backend has of them. -/
structure ActionState (H : Type) where
  callbacks : ActionCallbacks H := {}
  backend : ActionSlots H := {}

def ActionState.step (s : ActionState H) : ActionCall H → ActionState H
  | .registerHandler name handler =>
    { s with callbacks := s.callbacks.registerHandler name handler }
  | .bindActions order => { s with backend := s.backend.bindActions order s.callbacks }
  | .reset => { s with backend := s.backend.reset }

/-- What calls say about names, without slots. -/
structure ActionLedger (H : Type) where
  registered : String → Option H := fun _ ↦ none
  /-- The names that were bound since the last reset. -/
  bound : Set String := ∅
  /-- What the names were registered with at the last `bindActions`. -/
  atLastBind : String → Option H := fun _ ↦ none

def ActionLedger.step (l : ActionLedger H) : ActionCall H → ActionLedger H
  | .registerHandler name handler =>
    { l with registered := Function.update l.registered name (some handler) }
  | .bindActions _ =>
    { l with
      bound := l.bound ∪ {name | (l.registered name).isSome}
      atLastBind := l.registered }
  | .reset => { l with bound := ∅ }

/-- A slot table lists the bound names with the handlers they had at the last `bindActions`. -/
structure ActionLedger.Lists (l : ActionLedger H) (slots : List (String × H)) : Prop where
  distinct : DistinctKeys slots
  keys : ∀ name, name ∈ slots.map Prod.fst ↔ name ∈ l.bound
  handlers : ∀ e ∈ slots, l.atLastBind e.1 = some e.2

/-- The state is what the calls say. -/
structure ActionState.Agrees (l : ActionLedger H) (s : ActionState H) : Prop where
  registered : ∀ name h, (name, h) ∈ s.callbacks.handlers ↔ l.registered name = some h
  bound : ∀ name ∈ l.bound, ∃ h, l.registered name = some h
  slots : ∃ slots, l.Lists slots ∧ (slots.length ≤ 2 ^ 31 → FormsTable slots s.backend)

namespace ActionState.Agrees

variable {l : ActionLedger H} {s : ActionState H}

theorem start : Agrees ({} : ActionLedger H) {} where
  registered name h := by simp
  bound name h := by cases h
  slots := ⟨[], ⟨distinctKeys_nil, by simp, by simp⟩, fun _ ↦ FormsTable.reset {}⟩

theorem registerHandler (h : Agrees l s) (name : String) (handler : H) :
    Agrees (l.step (.registerHandler name handler)) (s.step (.registerHandler name handler)) where
  registered n h' := by
    rw [ActionLedger.step, ActionState.step, ActionCallbacks.mem_registerHandler, Prod.mk.injEq,
      h.registered]
    rcases eq_or_ne n name with rfl | hne
    · simp [eq_comm]
    · simp [hne]
  bound n hn := by
    obtain ⟨handler', hregistered⟩ := h.bound n hn
    rcases eq_or_ne n name with rfl | hne
    · exact ⟨handler, Function.update_self ..⟩
    · exact ⟨handler', (Function.update_of_ne hne ..).trans hregistered⟩
  slots := h.slots.imp fun _ hslots ↦ ⟨⟨hslots.1.distinct, hslots.1.keys, hslots.1.handlers⟩,
    hslots.2⟩

theorem bindActions (h : Agrees l s) (order : HashOrder (String × H)) :
    Agrees (l.step (.bindActions order)) (s.step (.bindActions order)) where
  registered := h.registered
  bound n hn := hn.elim (h.bound n) Option.isSome_iff_exists.1
  slots := by
    obtain ⟨slots, hlists, hslots⟩ := h.slots
    have hperm := order.perm s.callbacks.handlers
    have hentries : DistinctKeys (order.visit s.callbacks.handlers) :=
      (hperm.map Prod.fst).nodup_iff.2 s.callbacks.distinct
    have hregistered : ∀ n, n ∈ (order.visit s.callbacks.handlers).map Prod.fst ↔
        (l.registered n).isSome := fun n ↦ by
      simp only [List.mem_map, hperm.mem_iff, Prod.exists, exists_and_right, exists_eq_right,
        h.registered, Option.isSome_iff_exists]
    refine ⟨(order.visit s.callbacks.handlers).foldl put slots,
      ⟨distinctKeys_foldl_put hlists.distinct, fun n ↦ ?_, fun e he ↦ ?_⟩, fun hlength ↦
        (hslots ((length_le_length_foldl_put _ _).trans hlength)).foldl_bindAction hlength⟩
    · rw [mem_keys_foldl_put, hlists.keys, hregistered, or_comm]
      rfl
    · -- what was bound before is registered still, so that it is bound again
      rcases (mem_foldl_put hentries).1 he with he | ⟨he, hnot⟩
      · exact (h.registered e.1 e.2).1 (hperm.mem_iff.1 he)
      · obtain ⟨h', hh'⟩ := h.bound e.1 ((hlists.keys e.1).1 (List.mem_map_of_mem he))
        exact absurd ((hregistered e.1).2 (hh' ▸ rfl)) hnot

theorem reset (h : Agrees l s) : Agrees (l.step .reset) (s.step .reset) where
  registered := h.registered
  bound n hn := by cases hn
  slots := ⟨[], ⟨distinctKeys_nil, by simp [ActionLedger.step], by simp⟩,
    fun _ ↦ FormsTable.reset s.backend⟩

theorem step (h : Agrees l s) : ∀ call, Agrees (l.step call) (s.step call)
  | .registerHandler name handler => h.registerHandler name handler
  | .bindActions order => h.bindActions order
  | .reset => h.reset

end ActionState.Agrees

/-- What calls say. -/
def ActionLedger.after (calls : List (ActionCall H)) : ActionLedger H :=
  calls.foldl ActionLedger.step {}

/-- Where calls lead. -/
def ActionState.after (calls : List (ActionCall H)) : ActionState H :=
  calls.foldl ActionState.step {}

theorem ActionState.agrees_after (calls : List (ActionCall H)) :
    (after calls).Agrees (ActionLedger.after calls) := by
  suffices h : ∀ (l : ActionLedger H) s, s.Agrees l →
      (calls.foldl ActionState.step s).Agrees (calls.foldl ActionLedger.step l) from
    h {} {} .start
  induction calls with
  | nil => exact fun _ _ h ↦ h
  | cons call calls ih => exact fun _ _ h ↦ ih _ _ (h.step call)

/-! ### Consistency -/

/-- The ids are those of the slots, of which each bound name has one. -/
structure ActionSlots.IdsExact (l : ActionLedger H) (b : ActionSlots H) : Prop where
  injective : ∀ m n id, b.actionHandlerIds m = some id → b.actionHandlerIds n = some id → m = n
  range : ∀ id, (∃ name, b.actionHandlerIds name = some id) ↔
    0 ≤ id ∧ id < b.actionHandlers.length
  count : l.bound.encard = b.actionHandlers.length

/-- A closure with the id runs the handler that the name had when the handlers were last bound. -/
def ActionSlots.Resolves (l : ActionLedger H) (b : ActionSlots H) (id : Int) (name : String) :
    Prop :=
  ∃ h, l.atLastBind name = some h ∧ b.handlerOf id = .ok h

/-- The slots are in order, and each global runs the handler of its name. -/
def ActionSlots.Consistent (l : ActionLedger H) (b : ActionSlots H) : Prop :=
  b.IdsExact l ∧ ∀ g id, b.globals g = some id → b.Resolves l id g

theorem ActionLedger.Lists.encard_bound {l : ActionLedger H} {slots : List (String × H)}
    (h : l.Lists slots) : l.bound.encard = slots.length := by
  have hbound : l.bound = (slots.map Prod.fst).toFinset := by
    ext name
    rw [List.coe_toFinset]
    exact (h.keys name).symm
  rw [hbound, Set.encard_coe_eq_coe_finsetCard, List.toFinset_card_of_nodup h.distinct,
    List.length_map]

/-- As long as the indices are `int`s, the slots are in order, and each global runs the handler of
a name that it is the global of. -/
theorem actionSlots_consistent (calls : List (ActionCall H))
    (hcount : (ActionLedger.after calls).bound.encard < 2 ^ 31) :
    (ActionState.after calls).backend.IdsExact (ActionLedger.after calls) ∧
      ∀ g id, (ActionState.after calls).backend.globals g = some id →
        ∃ name ∈ (ActionLedger.after calls).bound, cStr name = g ∧
          (ActionState.after calls).backend.Resolves (ActionLedger.after calls) id name := by
  obtain ⟨slots, hlists, hslots⟩ := (ActionState.agrees_after calls).slots
  have hlength : slots.length < 2 ^ 31 := by
    rw [hlists.encard_bound] at hcount
    exact_mod_cast hcount
  have hb := hslots hlength.le
  refine ⟨⟨fun m n id ↦ hb.ids_injective, fun id ↦ hb.exists_id_iff, ?_⟩, fun g id hg ↦ ?_⟩
  · rw [hlists.encard_bound, hb.handlers, List.length_map]
  · obtain ⟨name, hname, hid⟩ := hb.globals g id hg
    have hkey := hb.mem_keys_of_id hid
    obtain ⟨e, hmem, rfl⟩ := List.mem_map.1 hkey
    exact ⟨e.1, (hlists.keys e.1).1 hkey, hname, e.2, hlists.handlers e hmem,
      hb.handlerOf_id hlength hid hmem⟩

/-- A handler that is replaced after it was bound, and a state that is made anew. -/
def replacedAction : List (ActionCall ℕ) :=
  [.registerHandler "mail" 0, .registerHandler "log" 1, .bindActions (.insertion _), .reset,
    .registerHandler "mail" 2, .bindActions (.insertion _), .registerHandler "log" 3]

theorem replacedAction_consistent :
    (ActionState.after replacedAction).backend.IdsExact (ActionLedger.after replacedAction) ∧
      ∀ g id, (ActionState.after replacedAction).backend.globals g = some id →
        ∃ name ∈ (ActionLedger.after replacedAction).bound, cStr name = g ∧
          (ActionState.after replacedAction).backend.Resolves (ActionLedger.after replacedAction)
            id name := by
  refine actionSlots_consistent replacedAction ?_
  have hbound : (ActionLedger.after replacedAction).bound ⊆ {"mail", "log"} := by
    rintro name (hname | hname)
    · cases hname
    · by_contra hnot
      rw [Set.mem_insert_iff, Set.mem_singleton_iff, not_or] at hnot
      simp [ActionLedger.step, hnot] at hname
  calc (ActionLedger.after replacedAction).bound.encard
    _ ≤ Set.encard {"mail", "log"} := Set.encard_le_encard hbound
    _ = 2 := Set.encard_pair (by decide)
    _ < 2 ^ 31 := by exact_mod_cast (by decide : 2 < 2 ^ 31)

/-! ### Names that are cut and indices that are no integers -/

/-- A call of a closure is an error when the number of slots is no `int`. -/
theorem ActionSlots.handlerOf_of_length {b : ActionSlots H} (h : b.actionHandlers.length = 2 ^ 31)
    (id : Int) : b.handlerOf id = .error "Invalid action handler ID" := by
  rw [handlerOf, dif_neg]
  rw [h, show toInt32 (2 ^ 31 : ℕ) = -2 ^ 31 from rfl]
  omega

/-- With so many names, every global raises an error. -/
theorem not_consistent_of_count {calls : List (ActionCall H)}
    (h : (ActionLedger.after calls).bound.encard = 2 ^ 31) :
    ¬(ActionState.after calls).backend.Consistent (ActionLedger.after calls) := by
  rintro ⟨-, hglobals⟩
  obtain ⟨slots, hlists, hslots⟩ := (ActionState.agrees_after calls).slots
  have hlength : slots.length = 2 ^ 31 := by
    rw [hlists.encard_bound] at h
    exact_mod_cast h
  have hb := hslots hlength.le
  obtain ⟨e, he⟩ : ∃ e, e ∈ slots := List.exists_mem_of_length_pos (by omega)
  obtain ⟨id, hid⟩ := Option.isSome_iff_exists.1 (hb.installed e.1 (List.mem_map_of_mem he))
  obtain ⟨handler, -, hhandler⟩ := hglobals _ id hid
  rw [ActionSlots.handlerOf_of_length (by rw [hb.handlers, List.length_map, hlength])] at hhandler
  cases hhandler

/-- Register the handlers. -/
def registerAll (entries : List (String × H)) : List (ActionCall H) :=
  entries.map fun e ↦ .registerHandler e.1 e.2

theorem foldl_registerAll (entries : List (String × H)) (l : ActionLedger H) :
    ((registerAll entries).foldl ActionLedger.step l).bound = l.bound ∧
      ∀ name, (((registerAll entries).foldl ActionLedger.step l).registered name).isSome ↔
        name ∈ entries.map Prod.fst ∨ (l.registered name).isSome := by
  induction entries generalizing l with
  | nil => exact ⟨rfl, fun name ↦ by simp [registerAll]⟩
  | cons e entries ih =>
    obtain ⟨hbound, hregistered⟩ := ih (l.step (.registerHandler e.1 e.2))
    refine ⟨hbound, fun name ↦ (hregistered name).trans ?_⟩
    rw [List.map_cons, List.mem_cons, ActionLedger.step]
    rcases eq_or_ne name e.1 with rfl | hne
    · simp
    · simp [hne]

theorem bound_registerAll (entries : List (String × H)) (order : HashOrder (String × H)) :
    (ActionLedger.after (registerAll entries ++ [.bindActions order])).bound =
      {name | name ∈ entries.map Prod.fst} := by
  obtain ⟨hbound, hregistered⟩ := foldl_registerAll entries {}
  ext name
  rw [ActionLedger.after, List.foldl_append, List.foldl_cons, List.foldl_nil, ActionLedger.step,
    hbound]
  simpa using hregistered name

/-- Handlers for as many names as one likes. -/
def numbered (n : ℕ) : List (String × ℕ) :=
  (List.range n).map fun i ↦ (String.ofList (List.replicate i 'x'), i)

theorem distinctKeys_numbered (n : ℕ) : DistinctKeys (numbered n) := by
  rw [DistinctKeys, numbered, List.map_map]
  refine List.nodup_range.map fun i j h ↦ ?_
  simpa using congrArg (fun s ↦ s.toList.length) h

/-- Two names that Lua cannot tell apart. -/
def cutNames : List (ActionCall ℕ) :=
  registerAll [("log\x00old", 1), ("log", 0)] ++ [.bindActions (.insertion _)]

/-- So many names that their number is no `int`. -/
def manyNames : List (ActionCall ℕ) :=
  registerAll (numbered (2 ^ 31)) ++ [.bindActions (.insertion _)]

theorem cutNames_not_consistent :
    ¬(ActionState.after cutNames).backend.Consistent (ActionLedger.after cutNames) ∧
      ¬(ActionState.after manyNames).backend.Consistent (ActionLedger.after manyNames) := by
  constructor
  · rintro ⟨-, hglobals⟩
    obtain ⟨h, hlast, hrun⟩ := hglobals "log" 1 (by decide)
    have hown : (ActionLedger.after cutNames).atLastBind "log" = some 0 := by decide
    have hother : (ActionState.after cutNames).backend.handlerOf 1 = .ok 1 := by decide
    rw [hown] at hlast
    rw [hother] at hrun
    cases (Option.some.inj hlast).trans (Except.ok.inj hrun).symm
  · refine not_consistent_of_count ?_
    rw [manyNames, bound_registerAll, ← List.coe_toFinset, Set.encard_coe_eq_coe_finsetCard,
      List.toFinset_card_of_nodup (distinctKeys_numbered _), numbered, List.length_map,
      List.length_map, List.length_range]
    exact_mod_cast rfl

end FastRules
