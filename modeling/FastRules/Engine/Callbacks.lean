import FastRules.CApi.ObjectAccess
import FastRules.Engine.ActionSlots
import FastRules.Foundations.Scanning
import FastRules.Workflow.Validate

/-!
# Discovery of callbacks

`LuaEngine::discoverCallbacks` looks for `callbacks.` in the texts of actions, and takes what stands
before the next parenthesis for the name of a callback. Each callback that is called gets a handler
that way, and no handler is lost (`discoverCallbacks_handled`, `discoverCallbacks_unchanged`). But
the next parenthesis may belong to something else, and what stands before it need not be a name
(`findsExactly_iff`).
-/

namespace FastRules

open Scanning

variable {H : Type}

/-! ### The actions of a workflow -/

mutual

/-- `collectActions` for one rule. -/
def Rule.collectActions : Rule → List String
  | ⟨fields, children⟩ =>
    (if fields.action ≠ "" then [fields.action] else []) ++ collectActions children

/-- `Workflow::collectActions`. -/
def collectActions : List Rule → List String
  | [] => []
  | rule :: rules => rule.collectActions ++ collectActions rules

end

def Workflow.getAllActions (w : Workflow) : List String :=
  collectActions w.rules

/-! ### Discovery -/

/-- `registerStub`: the handler `stub` does nothing. -/
def ActionCallbacks.registerStub (callbacks : ActionCallbacks H) (stub : H) (name : String) :
    ActionCallbacks H :=
  callbacks.registerHandler name stub

/-- What is searched for. -/
def callbacksPrefix : List Char := "callbacks.".toList

/-- The name that is read after the prefix, without the blanks at its ends. -/
def nameBefore (rest : List Char) : Option String :=
  if '(' ∈ rest then
    some (String.ofList (((rest.takeWhile (· ≠ '(')).rdropWhile isSpace).dropWhile isSpace))
  else none

variable (stub : H)

/-- What the loop does about one occurrence. -/
def registerFound (callbacks : ActionCallbacks H) (rest : List Char) : ActionCallbacks H :=
  match nameBefore rest with
  | some name =>
    if name ≠ "" ∧ callbacks.hasHandler name = false then callbacks.registerStub stub name
    else callbacks
  | none => callbacks

/-- The search in one text. -/
def discoverIn (callbacks : ActionCallbacks H) (action : String) : ActionCallbacks H :=
  if action = "" then callbacks
  else (scan callbacksPrefix (by decide) action.toList).foldl (registerFound stub) callbacks

/-- `LuaEngine::discoverCallbacks`. -/
def ActionState.discoverCallbacks (order : HashOrder (String × H)) (actions : List String)
    (s : ActionState H) : ActionState H :=
  { s with callbacks := actions.foldl (discoverIn stub) s.callbacks }.step (.bindActions order)

/-! ### What is found -/

/-- The name is called in the text, where blanks may stand before the parenthesis. -/
structure CallSite (name : String) (action : String) : Prop where
  isName : IsLuaName name
  called : ∃ before blanks after, action.toList =
      before ++ callbacksPrefix ++ (name.toList ++ (blanks ++ '(' :: after)) ∧
    ∀ c ∈ blanks, isSpace c = true

/-- Exactly the callbacks that are called are found. -/
structure FindsExactly (actions : List String) (before after : ActionCallbacks H) : Prop where
  handled : ∀ action ∈ actions, ∀ name, CallSite name action → after.hasHandler name = true
  unchanged : ∀ e ∈ before.handlers, e ∈ after.handlers
  stubs : ∀ name, before.hasHandler name = false → after.hasHandler name = true →
    ∃ action ∈ actions, CallSite name action

/-- What stands between the prefix and the next parenthesis is the name of a callback that is
called, or of one that has a handler, or nothing. -/
def OnlyNames (actions : List String) (callbacks : ActionCallbacks H) : Prop :=
  ∀ action ∈ actions, ∀ before rest, action.toList = before ++ callbacksPrefix ++ rest →
    ∀ name, nameBefore rest = some name →
      name = "" ∨ callbacks.hasHandler name = true ∨ ∃ a ∈ actions, CallSite name a

variable {stub} {callbacks : ActionCallbacks H} {name : String} {rest : List Char}

theorem isSpace_of_isIdentifierChar {c : Char} (h : isIdentifierChar c = true) :
    isSpace c = false := by
  by_contra hspace
  rw [Bool.not_eq_false, isSpace, decide_eq_true_iff] at hspace
  fin_cases hspace <;> cases h

/-- Blanks after a word are cut off. -/
theorem trim_append_blanks {word blanks : List Char} (hword : ∀ c ∈ word, isSpace c = false)
    (hblanks : ∀ c ∈ blanks, isSpace c = true) :
    ((word ++ blanks).rdropWhile isSpace).dropWhile isSpace = word := by
  have hkeep : ∀ {l : List Char}, (∀ c ∈ l, isSpace c = false) → l.dropWhile isSpace = l := by
    intro l hl
    rcases l with - | ⟨c, l⟩
    · rfl
    · rw [List.dropWhile_cons_of_neg (by simp [hl c List.mem_cons_self])]
  rw [List.rdropWhile, List.reverse_append,
    List.dropWhile_append_of_pos fun c hc ↦ hblanks c (List.mem_reverse.1 hc),
    hkeep fun c hc ↦ hword c (List.mem_reverse.1 hc), List.reverse_reverse, hkeep hword]

theorem IsLuaName.ne_empty (h : IsLuaName name) : name ≠ "" := by
  rintro rfl
  obtain ⟨c, hc, -⟩ := h.start
  cases hc

/-- The name of a call is read. -/
theorem nameBefore_of_isLuaName (hname : IsLuaName name) {blanks after : List Char}
    (hblanks : ∀ c ∈ blanks, isSpace c = true) :
    nameBefore (name.toList ++ (blanks ++ '(' :: after)) = some name := by
  have hword : ∀ c ∈ name.toList ++ blanks, (c ≠ '(' : Bool) = true := by
    intro c hc
    rw [decide_eq_true_iff]
    rintro rfl
    rcases List.mem_append.1 hc with hc | hc
    · exact hname.not_mem (by decide) hc
    · exact absurd (hblanks _ hc) (by decide)
  rw [nameBefore, if_pos (by simp), ← List.append_assoc, List.takeWhile_append_of_pos hword,
    List.takeWhile_cons_of_neg (by decide), List.append_nil,
    trim_append_blanks (fun c hc ↦ isSpace_of_isIdentifierChar (hname.chars c hc)) hblanks,
    String.ofList_toList]

/-! ### What is registered -/

theorem ActionCallbacks.hasHandler_iff :
    callbacks.hasHandler name = true ↔ ∃ h, (name, h) ∈ callbacks.handlers := by
  rw [hasHandler, decide_eq_true_iff]
  simp

theorem ActionCallbacks.hasHandler_registerStub {n : String} :
    (callbacks.registerStub stub name).hasHandler n = true ↔
      n = name ∨ callbacks.hasHandler n = true := by
  simp only [hasHandler_iff, registerStub, mem_registerHandler, Prod.mk.injEq]
  rcases eq_or_ne n name with rfl | hne
  · simp
  · simp [hne]

/-- A name that is found has a handler afterwards, and no other name gets one. -/
theorem hasHandler_registerFound :
    (registerFound stub callbacks rest).hasHandler name = true ↔
      callbacks.hasHandler name = true ∨ name ≠ "" ∧ nameBefore rest = some name := by
  rw [registerFound]
  rcases nameBefore rest with - | n
  · simp
  dsimp only
  rw [Option.some_inj]
  split_ifs with h
  · rw [ActionCallbacks.hasHandler_registerStub]
    constructor
    · rintro (rfl | hname)
      · exact .inr ⟨h.1, rfl⟩
      · exact .inl hname
    · rintro (hname | ⟨-, rfl⟩)
      · exact .inr hname
      · exact .inl rfl
  · refine (or_iff_left_of_imp ?_).symm
    rintro ⟨hne, rfl⟩
    by_contra hnot
    exact h ⟨hne, Bool.not_eq_true _ ▸ hnot⟩

/-- A stub takes the place of no handler. -/
theorem mem_registerFound {e : String × H} (he : e ∈ callbacks.handlers) :
    e ∈ (registerFound stub callbacks rest).handlers := by
  rw [registerFound]
  split
  · split_ifs with h
    · refine ActionCallbacks.mem_registerHandler.2 (.inr ⟨he, ?_⟩)
      rintro rfl
      rw [ActionCallbacks.hasHandler_iff.2 ⟨e.2, he⟩] at h
      cases h.2
    · exact he
  · exact he

/-- The search in many texts goes through what follows each of their prefixes. -/
theorem foldl_discoverIn (actions : List String) :
    actions.foldl (discoverIn stub) callbacks =
      (actions.flatMap fun action ↦ scan callbacksPrefix (by decide) action.toList).foldl
        (registerFound stub) callbacks := by
  rw [List.foldl_flatMap]
  congr
  funext c action
  rw [discoverIn]
  split_ifs with h
  · rw [h, show "".toList = [] from rfl, scan_of_none _ rfl]
    rfl
  · rfl

theorem mem_foldl_registerFound {rests : List (List Char)} {e : String × H}
    (he : e ∈ callbacks.handlers) : e ∈ (rests.foldl (registerFound stub) callbacks).handlers := by
  induction rests generalizing callbacks with
  | nil => exact he
  | cons rest rests ih => exact ih (mem_registerFound he)

theorem hasHandler_foldl_registerFound {rests : List (List Char)} :
    (rests.foldl (registerFound stub) callbacks).hasHandler name = true ↔
      callbacks.hasHandler name = true ∨
        name ≠ "" ∧ ∃ rest ∈ rests, nameBefore rest = some name := by
  induction rests generalizing callbacks with
  | nil => simp
  | cons rest rests ih =>
    rw [List.foldl_cons, ih, hasHandler_registerFound, or_assoc, ← and_or_left]
    simp only [List.mem_cons, exists_eq_or_imp]

theorem unbordered_callbacksPrefix : Unbordered callbacksPrefix := by
  decide

section Discovery

variable (order : HashOrder (String × H)) (actions : List String) (s : ActionState H)

/-- A name has a handler if it had one, or is read after some prefix. -/
theorem hasHandler_discoverCallbacks :
    (s.discoverCallbacks stub order actions).callbacks.hasHandler name = true ↔
      s.callbacks.hasHandler name = true ∨ name ≠ "" ∧ ∃ action ∈ actions, ∃ before rest,
        action.toList = before ++ callbacksPrefix ++ rest ∧ nameBefore rest = some name := by
  rw [ActionState.discoverCallbacks, ActionState.step]
  dsimp only
  rw [foldl_discoverIn, hasHandler_foldl_registerFound]
  refine or_congr_right (and_congr_right fun _ ↦ ?_)
  simp only [List.mem_flatMap, mem_scan unbordered_callbacksPrefix]
  constructor
  · rintro ⟨rest, ⟨action, haction, before, heq⟩, hread⟩
    exact ⟨action, haction, before, rest, heq, hread⟩
  · rintro ⟨action, haction, before, rest, heq, hread⟩
    exact ⟨rest, ⟨action, haction, before, heq⟩, hread⟩

/-- Each callback that is called has a handler. -/
theorem discoverCallbacks_handled {action : String} (haction : action ∈ actions)
    (hcall : CallSite name action) :
    (s.discoverCallbacks stub order actions).callbacks.hasHandler name = true := by
  obtain ⟨before, blanks, after, heq, hblanks⟩ := hcall.called
  exact (hasHandler_discoverCallbacks order actions s).2 (.inr ⟨hcall.isName.ne_empty, action,
    haction, before, _, heq, nameBefore_of_isLuaName hcall.isName hblanks⟩)

/-- The handlers there were are there still. -/
theorem discoverCallbacks_unchanged {e : String × H} (he : e ∈ s.callbacks.handlers) :
    e ∈ (s.discoverCallbacks stub order actions).callbacks.handlers := by
  rw [ActionState.discoverCallbacks, ActionState.step]
  dsimp only
  rw [foldl_discoverIn]
  exact mem_foldl_registerFound he

end Discovery

/-- The discovery finds exactly the callbacks that are called if and only if nothing but names
stands before the parentheses. -/
theorem findsExactly_iff (stub : H) (order : HashOrder (String × H)) (actions : List String)
    (s : ActionState H) :
    FindsExactly actions s.callbacks (s.discoverCallbacks stub order actions).callbacks ↔
      OnlyNames actions s.callbacks := by
  constructor
  · intro h action haction before rest heq name hread
    by_cases hempty : name = ""
    · exact .inl hempty
    by_cases hhas : s.callbacks.hasHandler name = true
    · exact .inr (.inl hhas)
    · refine .inr (.inr (h.stubs name (Bool.not_eq_true _ ▸ hhas) ?_))
      exact (hasHandler_discoverCallbacks order actions s).2
        (.inr ⟨hempty, action, haction, before, rest, heq, hread⟩)
  · intro h
    refine ⟨fun action haction name ↦ discoverCallbacks_handled order actions s haction,
      fun e ↦ discoverCallbacks_unchanged order actions s, fun name hbefore hafter ↦ ?_⟩
    obtain hhas | ⟨hempty, action, haction, before, rest, heq, hread⟩ :=
      (hasHandler_discoverCallbacks order actions s).1 hafter
    · rw [hbefore] at hhas
      cases hhas
    · refine ((h action haction before rest heq name hread).resolve_left hempty).resolve_left ?_
      rw [hbefore]
      exact Bool.false_ne_true

/-- A field is read, and something else is called. -/
theorem fieldRead_not_findsExactly :
    ¬FindsExactly ["x = callbacks.count + print(1)"] ({} : ActionState ℕ).callbacks
      (({} : ActionState ℕ).discoverCallbacks 0 (.insertion _)
        ["x = callbacks.count + print(1)"]).callbacks := by
  intro h
  obtain ⟨action, -, hcall⟩ := h.stubs "count + print" rfl
    ((hasHandler_discoverCallbacks _ _ _).2 (.inr ⟨by decide, _, List.mem_singleton_self _,
      "x = ".toList, "count + print(1)".toList, by decide, by decide⟩))
  exact absurd (hcall.isName.chars ' ' (by decide)) (by decide)

/-! ### The callbacks of a workflow -/

mutual

theorem Rule.collectActions_eq :
    ∀ r : Rule, r.collectActions = (r.nodes.map fun q ↦ q.action).filter (· ≠ "")
  | ⟨fields, children⟩ => by
    rw [Rule.collectActions, Rule.nodes, List.map_cons, List.filter_cons,
      collectActions_eq children]
    by_cases h : fields.action = ""
    · simp [h]
    · simp [h]

/-- The texts are the actions in the tree of the rules. -/
theorem collectActions_eq :
    ∀ rules : List Rule,
      collectActions rules = ((nodesOf rules).map fun q ↦ q.action).filter (· ≠ "")
  | [] => rfl
  | r :: rules => by
    rw [collectActions, nodesOf, List.map_append, List.filter_append, r.collectActions_eq,
      collectActions_eq rules]

end

theorem Workflow.mem_getAllActions {w : Workflow} {r : Rule} (hr : r ∈ nodesOf w.rules)
    (haction : r.action ≠ "") : r.action ∈ w.getAllActions := by
  rw [getAllActions, collectActions_eq, List.mem_filter, decide_eq_true_iff]
  exact ⟨List.mem_map_of_mem hr, haction⟩

/-- After the actions of a workflow have been searched, the callbacks that its rules call have
handlers, also those of children. -/
theorem Workflow.hasHandler_of_callSite (w : Workflow) (order : HashOrder (String × H))
    (s : ActionState H) {r : Rule} (hr : r ∈ nodesOf w.rules) (hcall : CallSite name r.action) :
    (s.discoverCallbacks stub order w.getAllActions).callbacks.hasHandler name = true := by
  refine discoverCallbacks_handled order _ s (w.mem_getAllActions hr ?_) hcall
  intro hempty
  obtain ⟨before, blanks, after, heq, -⟩ := hcall.called
  have hmem : '(' ∈ r.action.toList := by
    rw [heq]
    simp
  rw [hempty] at hmem
  cases hmem

end FastRules
