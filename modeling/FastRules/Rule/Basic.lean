import Mathlib.Data.List.Basic
import Mathlib.Data.List.Nodup
import Mathlib.Data.List.Pairwise
import Mathlib.Data.List.Perm.Basic
import Mathlib.Data.List.TakeWhile

/-!
# Rules

The data of a `Rule`: its identity, its Lua source, its execution control and its place in the
hierarchy. A rule is a finite tree — `childRules` are executed before their parent — and every node
carries the address of the `shared_ptr` it was reached through, so that one object listed in two
places is recognisable as one object: caches and compiled references belong to the object, while
`id` and `name` are plain data that need not be unique.

Byte strings are `String`s whose characters are the bytes. The only operation on them that is not
a plain equality is `cStr`, the truncation at the first NUL byte that `std::string::c_str()` brings
about wherever the result is read as a C string.
-/

namespace FastRules

/-- What `std::string::c_str()` denotes to a reader of C strings: everything before the first
NUL. -/
def cStr (s : String) : String :=
  String.ofList (s.toList.takeWhile (· ≠ '\x00'))

/-- A string without NUL bytes. -/
def NulFree (s : String) : Prop :=
  '\x00' ∉ s.toList

instance (s : String) : Decidable (NulFree s) :=
  inferInstanceAs (Decidable ('\x00' ∉ s.toList))

/-- On strings without NUL bytes the C view is the whole string. -/
theorem cStr_eq_self {s : String} (h : NulFree s) : cStr s = s := by
  have hall : s.toList.takeWhile (· ≠ '\x00') = s.toList := by
    rw [List.takeWhile_eq_self_iff]
    intro c hc
    simpa using fun hnul : c = '\x00' ↦ h (hnul ▸ hc)
  rw [cStr, hall, String.ofList_toList]

/-- The C view of a string has no NUL bytes. -/
theorem nulFree_cStr (s : String) : NulFree (cStr s) := by
  intro h
  rw [cStr, String.toList_ofList] at h
  simpa using List.mem_takeWhile_imp h

theorem cStr_eq_self_iff {s : String} : cStr s = s ↔ NulFree s :=
  ⟨fun h ↦ h ▸ nulFree_cStr s, cStr_eq_self⟩

/-- The text of an integer has only digits and a sign. -/
theorem not_mem_toString {c : Char} (hdigit : c.isDigit = false) (hminus : c ≠ '-') (n : Int) :
    c ∉ (toString n).toList := by
  have hdigits (n : ℕ) : c ∉ n.repr.toList := by
    rw [Nat.toList_repr]
    intro h
    rw [Nat.isDigit_of_mem_toDigits (by decide) (by decide) h] at hdigit
    cases hdigit
  rw [Int.toString_eq_repr, Int.repr_eq_if]
  split_ifs
  · exact hdigits _
  · rw [String.toList_append, List.mem_append, not_or]
    exact ⟨by simpa using hminus, hdigits _⟩

theorem nulFree_toString (n : Int) : NulFree (toString n) :=
  not_mem_toString (by decide) (by decide) n

/-- `std::isspace` in the C locale. -/
def isSpace (c : Char) : Bool :=
  c ∈ [' ', '\t', '\n', '\x0b', '\x0c', '\r']

/-- An expression that `compileExpression` takes for no expression. -/
def isBlank (s : String) : Bool :=
  s.toList.all isSpace

/-- The iteration order of an `unordered_map`: an arbitrary rearrangement of its entries. Erasing
entries keeps the order of the others, so the order is chosen once, when the map has been filled. -/
structure HashOrder (α : Type) where
  visit : List α → List α
  perm : ∀ entries, (visit entries).Perm entries

/-- The iteration order in which entries were inserted. -/
def HashOrder.insertion (α : Type) : HashOrder α :=
  ⟨fun entries ↦ entries, fun _ ↦ List.Perm.refl _⟩

/-- Rule identifiers: `using Id = int`. -/
abbrev Id := Int

/-- The address of a rule object. -/
abbrev RulePtr := ℕ

/-- The address of a rate limiter object. -/
abbrev LimiterPtr := ℕ

/-- A rule without its children. -/
structure RuleFields where
  /-- The object this node is. -/
  ptr : RulePtr := 0
  id : Id := 0
  name : String := ""
  description : String := ""
  expression : String := ""
  action : String := ""
  priority : Int := 0
  isActive : Bool := true
  /-- Milliseconds. -/
  timeout : Option Int := none
  dependsOnRuleName : Option String := none
  /-- Milliseconds. -/
  cacheDuration : Option Int := none
  rateLimiter : Option LimiterPtr := none
  isValidated : Bool := false
  deriving DecidableEq, Repr

/-- A rule with the tree of its children. -/
structure Rule extends RuleFields where
  childRules : List Rule := []

namespace Rule

/-- Induction over rule trees: a property of a rule follows from the property of its children. -/
theorem induction_children {P : Rule → Prop} (h : ∀ r : Rule, (∀ c ∈ r.childRules, P c) → P r)
    (r : Rule) : P r :=
  @Rule.rec P (fun cs ↦ ∀ c ∈ cs, P c) (fun _ _ ih ↦ h _ ih) (fun _ hc ↦ absurd hc List.not_mem_nil)
    (fun _ _ hhead htail _ hc ↦ (List.mem_cons.1 hc).elim (fun e ↦ e ▸ hhead) (htail _)) r

end Rule

mutual

/-- A rule and all rules below it. -/
def Rule.nodes : Rule → List Rule
  | ⟨fields, children⟩ => ⟨fields, children⟩ :: nodesOf children

/-- The nodes of several rules. -/
def nodesOf : List Rule → List Rule
  | [] => []
  | child :: children => child.nodes ++ nodesOf children

end

theorem nodesOf_eq_flatMap (rules : List Rule) : nodesOf rules = rules.flatMap Rule.nodes := by
  induction rules with
  | nil => rfl
  | cons r rules ih => rw [nodesOf, ih, List.flatMap_cons]

namespace Rule

theorem nodes_eq (r : Rule) : r.nodes = r :: nodesOf r.childRules := by
  cases r
  rfl

theorem self_mem_nodes (r : Rule) : r ∈ r.nodes := by
  rw [nodes_eq]
  exact List.mem_cons_self

theorem mem_nodesOf {rules : List Rule} {q : Rule} :
    q ∈ nodesOf rules ↔ ∃ r ∈ rules, q ∈ r.nodes := by
  induction rules with
  | nil => simp [nodesOf]
  | cons r rules ih => simp [nodesOf, ih]

theorem mem_nodesOf_of_mem {rules : List Rule} {r : Rule} (h : r ∈ rules) : r ∈ nodesOf rules :=
  mem_nodesOf.2 ⟨r, h, r.self_mem_nodes⟩

theorem mem_nodes_of_mem_below {r q : Rule} (h : q ∈ nodesOf r.childRules) : q ∈ r.nodes := by
  rw [nodes_eq]
  exact List.mem_cons_of_mem r h

/-- What is below a node is below the rule. -/
theorem mem_nodes_trans {r q p : Rule} (hq : q ∈ r.nodes) (hp : p ∈ q.nodes) : p ∈ r.nodes := by
  induction r using induction_children with
  | h r ih =>
    rw [nodes_eq] at hq
    rcases List.mem_cons.1 hq with rfl | hq
    · exact hp
    · obtain ⟨child, hchild, hq⟩ := mem_nodesOf.1 hq
      exact mem_nodes_of_mem_below (mem_nodesOf.2 ⟨child, hchild, ih child hchild hq⟩)

theorem mem_nodesOf_trans {rules : List Rule} {q p : Rule} (hq : q ∈ nodesOf rules)
    (hp : p ∈ q.nodes) :
    p ∈ nodesOf rules := by
  obtain ⟨r, hr, hq⟩ := mem_nodesOf.1 hq
  exact mem_nodesOf.2 ⟨r, hr, mem_nodes_trans hq hp⟩

theorem sizeOf_child_lt {r child : Rule} (h : child ∈ r.childRules) : sizeOf child < sizeOf r := by
  have hlist := List.sizeOf_lt_of_mem h
  cases r
  rw [Rule.mk.sizeOf_spec]
  exact hlist.trans (Nat.lt_add_of_pos_left (by omega))

theorem sizeOf_le_of_mem_nodes (r : Rule) : ∀ q ∈ r.nodes, sizeOf q ≤ sizeOf r := by
  induction r using induction_children with
  | h r ih =>
    intro q hq
    rw [nodes_eq] at hq
    rcases List.mem_cons.1 hq with rfl | hq
    · exact Nat.le_refl _
    · obtain ⟨child, hchild, hq⟩ := mem_nodesOf.1 hq
      exact (ih child hchild q hq).trans (sizeOf_child_lt hchild).le

/-- A rule is not below itself. -/
theorem not_mem_nodesOf_childRules (r : Rule) : r ∉ nodesOf r.childRules := by
  intro h
  obtain ⟨child, hchild, hr⟩ := mem_nodesOf.1 h
  exact absurd (sizeOf_le_of_mem_nodes child r hr) (sizeOf_child_lt hchild).not_ge

/-- The key a rule's result is stored under in a context: its name, or `#<id>` without one. -/
def resultKey (r : Rule) : String :=
  if r.name = "" then "#" ++ toString r.id else r.name

theorem resultKey_of_named {r : Rule} (h : r.name ≠ "") : r.resultKey = r.name :=
  if_neg h

theorem resultKey_of_unnamed {r : Rule} (h : r.name = "") : r.resultKey = "#" ++ toString r.id :=
  if_pos h

/-- No rule stores anything under the empty key. -/
theorem resultKey_ne_empty (r : Rule) : r.resultKey ≠ "" := by
  by_cases h : r.name = ""
  · rw [resultKey_of_unnamed h]
    intro he
    simpa using congrArg String.length he
  · rwa [resultKey_of_named h]

/-- Where keys are distinct, a key leads to one tree. -/
theorem eq_of_key_mem_nodes {rules : List Rule} (h : ((nodesOf rules).map resultKey).Nodup)
    {r r' p q : Rule} (hr : r ∈ rules) (hr' : r' ∈ rules) (hp : p ∈ r.nodes) (hq : q ∈ r'.nodes)
    (hkey : p.resultKey = q.resultKey) : r = r' := by
  by_contra hne
  rw [nodesOf_eq_flatMap, List.map_flatMap, List.nodup_flatMap] at h
  have hsymm : Std.Symm fun r r' : Rule ↦
      List.Disjoint (r.nodes.map resultKey) (r'.nodes.map resultKey) :=
    ⟨fun _ _ hd key hkey hkey' ↦ hd hkey' hkey⟩
  have hdisjoint : rules.Pairwise fun r r' ↦
      List.Disjoint (r.nodes.map resultKey) (r'.nodes.map resultKey) := h.2
  exact hdisjoint.forall hr hr' hne (List.mem_map_of_mem hp) (hkey ▸ List.mem_map_of_mem hq)

end Rule

end FastRules
