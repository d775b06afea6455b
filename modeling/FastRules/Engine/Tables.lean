import FastRules.Engine.Globals
import FastRules.Foundations.KeyedList
import FastRules.Foundations.Loop

/-!
# Lua tables behind `LuaBridgeValue`

`length` and `keys` traverse a table with `lua_next`, which finds the next entry by the key that is
on the stack. `length` leaves the key alone, and counts the entries (`length_eq`). `keys` takes
the text of a number with `lua_tostring`, which makes a string of the number on the stack: the
traversal goes on behind the entry of that string, if there is one (`keys_returns_iff`).
-/

open KeyedList

namespace FastRules

/-- The conversions of floating-point numbers: `lua_tostring`, what a string of the form of a
numeral stands for, and `static_cast<int64_t>`. -/
structure LuaNumbers where
  text : BitVec 64 → String
  parse : String → Option (BitVec 64)
  truncate : BitVec 64 → BitVec 64

/-- A table without a metatable, in the order in which `lua_next` traverses it. -/
structure LuaTable where
  entries : List (LuaValue × LuaValue)
  distinct : DistinctKeys entries
  noNil : ∀ e ∈ entries, e.1 ≠ .nil
  bounded : entries.length < 2 ^ 63

/-! ### Values -/

namespace LuaValue

variable (numbers : LuaNumbers)

/-- `lua_type` gives a number. -/
def isNumeral : LuaValue → Bool
  | integer _ | number _ => true
  | _ => false

/-- `lua_isstring`, with what `lua_tostring` gives. -/
def text : LuaValue → Option String
  | string s => some s
  | integer n => some (toString n.toInt)
  | number word => some (numbers.text word)
  | _ => none

/-- `LuaBridgeValue::toString`. -/
def toString (v : LuaValue) : String :=
  (v.text numbers).elim "" cStr

/-- `LuaBridgeValue::toInteger`. -/
def toInteger : LuaValue → BitVec 64
  | integer n => n
  | number word => numbers.truncate word
  | string s => (numbers.parse s).elim 0 numbers.truncate
  | _ => 0

/-- What `lua_tostring` leaves on the stack. -/
def converted (v : LuaValue) : LuaValue :=
  (v.text numbers).elim v string

theorem converted_of_not_isNumeral {v : LuaValue} (h : v.isNumeral = false) :
    v.converted numbers = v := by
  cases v with
  | integer | number => cases h
  | _ => rfl

theorem converted_ne_nil {v : LuaValue} (h : v.isNumeral = true) : v.converted numbers ≠ .nil := by
  cases v with
  | integer | number => exact fun hnil ↦ by cases hnil
  | _ => cases h

end LuaValue

namespace LuaTable

variable (numbers : LuaNumbers)

/-- `lua_next`. -/
def next (t : LuaTable) (key : LuaValue) : Except String (Option (LuaValue × LuaValue)) :=
  if key = .nil then .ok t.entries.head?
  else
    match t.entries.dropWhile fun e ↦ e.1 ≠ key with
    | [] => .error "invalid key to 'next'"
    | _ :: rest => .ok rest.head?

/-- `lua_getfield`. -/
def get (t : LuaTable) (key : String) : LuaValue :=
  (t.entries.find? fun e ↦ e.1 = .string (cStr key)).elim .nil Prod.snd

/-- One pass of the loop of `LuaBridgeValue::length`, with the key on the stack. -/
def lengthStep (t : LuaTable) : LuaValue × ℕ → LuaValue × ℕ ⊕ Except String ℕ
  | (key, len) =>
    match t.next key with
    | .error e => .inr (.error e)
    | .ok none => .inr (.ok len)
    | .ok (some e) => .inl (e.1, len + 1)

/-- `LuaBridgeValue::length`, of a table. There are as many passes as entries, and a last one. -/
def length (t : LuaTable) : Except String ℕ :=
  (Loop.run t.lengthStep (t.entries.length + 1) (.nil, 0)).getD (.error "")

/-- The loop of `LuaBridgeValue::keys`: the table, the key on the stack and the texts so far. -/
structure KeysState where
  table : LuaTable
  key : LuaValue := .nil
  result : List String := []

/-- One pass of the loop of `LuaBridgeValue::keys`. -/
def keysStep (s : KeysState) : KeysState ⊕ LuaTable × Except String (List String) :=
  match s.table.next s.key with
  | .error e => .inr (s.table, .error e)
  | .ok none => .inr (s.table, .ok s.result)
  | .ok (some e) => .inl
    { s with
      key := e.1.converted numbers
      result := s.result ++ ((e.1.text numbers).map cStr).toList }

variable {numbers} {t : LuaTable} {key : LuaValue} {e : LuaValue × LuaValue}
  {rest : List (LuaValue × LuaValue)}

/-! ### Traversals -/

@[simp] theorem next_nil (t : LuaTable) : t.next .nil = .ok t.entries.head? := if_pos rfl

/-- Behind an entry comes the next one. -/
theorem next_of_suffix (h : e :: rest <:+ t.entries) : t.next e.1 = .ok rest.head? := by
  obtain ⟨before, hsplit⟩ := h
  have hmem : e ∈ t.entries := hsplit ▸ List.mem_append_right before List.mem_cons_self
  have hdistinct : ∀ x ∈ before, x.1 ≠ e.1 := by
    have hkeys := t.distinct
    rw [DistinctKeys, ← hsplit, List.map_append, List.nodup_append] at hkeys
    exact fun x hx ↦ hkeys.2.2 x.1 (List.mem_map_of_mem hx) e.1 List.mem_cons_self
  have hdrop : t.entries.dropWhile (fun x ↦ x.1 ≠ e.1) = e :: rest := by
    rw [← hsplit, List.dropWhile_append_of_pos fun x hx ↦ by simpa using hdistinct x hx]
    simp
  rw [next, if_neg (t.noNil e hmem), hdrop]

/-- What can be traversed from is nothing, or the key of an entry. -/
theorem exists_suffix_of_next {found : Option (LuaValue × LuaValue)} (hkey : key ≠ .nil)
    (h : t.next key = .ok found) :
    ∃ value rest, (key, value) :: rest <:+ t.entries ∧ found = rest.head? := by
  rw [next, if_neg hkey] at h
  rcases hdrop : t.entries.dropWhile (fun x ↦ x.1 ≠ key) with - | ⟨x, rest⟩ <;> rw [hdrop] at h
  · cases h
  · have hx : x.1 = key := by
      have hhead := List.head?_dropWhile_not (fun x : LuaValue × LuaValue ↦ decide (x.1 ≠ key))
        t.entries
      rw [hdrop] at hhead
      simpa using hhead
    obtain ⟨k, value⟩ := x
    obtain rfl : k = key := hx
    exact ⟨value, rest, hdrop ▸ List.dropWhile_suffix _, (Except.ok.inj h).symm⟩

theorem lengthStep_run (h : rest <:+ t.entries) {len : ℕ} (hkey : t.next key = .ok rest.head?) :
    Loop.run t.lengthStep (rest.length + 1) (key, len) = some (.ok (len + rest.length)) := by
  induction rest generalizing key len with
  | nil => exact Loop.run_succ_of_exit (by rw [lengthStep, hkey]; rfl) 0
  | cons e rest ih =>
    have hstep : t.lengthStep (key, len) = .inl (e.1, len + 1) := by
      rw [lengthStep, hkey]
      rfl
    rw [Loop.run_succ_of_continue hstep, List.length_cons,
      ih ((List.suffix_cons e rest).trans h) (next_of_suffix h), Nat.add_assoc, Nat.add_comm 1]

/-- **The loop of `length` ends, with the number of entries.** -/
theorem length_eq (t : LuaTable) : t.length = .ok t.entries.length := by
  rw [length, lengthStep_run (List.suffix_refl t.entries) t.next_nil, Nat.zero_add]
  rfl

/-- The keys that a traversal passes from the entries on that are left. A numeral leads to the
entries behind the one whose key is its text. -/
inductive Walk (numbers : LuaNumbers) (t : LuaTable) :
    List (LuaValue × LuaValue) → List LuaValue → Prop
  | done : Walk numbers t [] []
  | other {key value : LuaValue} {rest : List (LuaValue × LuaValue)} {keys : List LuaValue}
      (hkey : key.isNumeral = false) (h : Walk numbers t rest keys) :
      Walk numbers t ((key, value) :: rest) (key :: keys)
  | numeral {key value value' : LuaValue} {rest rest' : List (LuaValue × LuaValue)}
      {keys : List LuaValue} (hkey : key.isNumeral = true)
      (htext : (key.converted numbers, value') :: rest' <:+ t.entries)
      (h : Walk numbers t rest' keys) : Walk numbers t ((key, value) :: rest) (key :: keys)

/-- The texts of the keys that have one. -/
def keyTexts (numbers : LuaNumbers) (keys : List LuaValue) : List String :=
  keys.flatMap fun key ↦ ((key.text numbers).map cStr).toList

theorem keyTexts_cons (numbers : LuaNumbers) (k : LuaValue) (keys : List LuaValue)
    (result : List String) :
    result ++ ((k.text numbers).map cStr).toList ++ keyTexts numbers keys =
      result ++ keyTexts numbers (k :: keys) :=
  List.append_assoc ..

/-! What one turn of the loop does. -/

theorem keysStep_end {result : List String} (hkey : t.next key = .ok none) :
    keysStep numbers ⟨t, key, result⟩ = .inr (t, .ok result) := by
  rw [keysStep, hkey]

theorem keysStep_error {result : List String} {e : String} (hkey : t.next key = .error e) :
    keysStep numbers ⟨t, key, result⟩ = .inr (t, .error e) := by
  rw [keysStep, hkey]

theorem keysStep_next {result : List String} (hkey : t.next key = .ok (some e)) :
    keysStep numbers ⟨t, key, result⟩ =
      .inl ⟨t, e.1.converted numbers, result ++ ((e.1.text numbers).map cStr).toList⟩ := by
  rw [keysStep, hkey]

/-- A walk that comes to its end is a traversal that does. -/
theorem keysStep_returns {keys : List LuaValue} (h : Walk numbers t rest keys)
    (hrest : rest <:+ t.entries) (result : List String) (hkey : t.next key = .ok rest.head?) :
    Loop.Returns (keysStep numbers) ⟨t, key, result⟩
      (t, .ok (result ++ keyTexts numbers keys)) := by
  induction h generalizing key result with
  | done =>
    refine ⟨1, Loop.run_succ_of_exit ?_ 0⟩
    rw [keysStep_end hkey, keyTexts, List.flatMap_nil, List.append_nil]
  | @other k value rest keys hk h ih =>
    have hnext := next_of_suffix hrest
    rw [← LuaValue.converted_of_not_isNumeral numbers hk] at hnext
    have hreturns := ih ((List.suffix_cons _ rest).trans hrest)
      (result ++ ((k.text numbers).map cStr).toList) hnext
    rw [keyTexts_cons] at hreturns
    exact Loop.Reaches.returns (.single (keysStep_next hkey)) hreturns
  | @numeral k value value' rest rest' keys hk htext h ih =>
    have hreturns := ih ((List.suffix_cons _ rest').trans htext)
      (result ++ ((k.text numbers).map cStr).toList) (next_of_suffix htext)
    rw [keyTexts_cons] at hreturns
    exact Loop.Reaches.returns (.single (keysStep_next hkey)) hreturns

/-- And a traversal that comes to its end is such a walk. -/
theorem exists_walk {fuel : ℕ} {result texts : List String} {t' : LuaTable}
    (hkey : t.next key = .ok rest.head?) (hrest : rest <:+ t.entries)
    (h : Loop.run (keysStep numbers) fuel ⟨t, key, result⟩ = some (t', .ok texts)) :
    ∃ keys, Walk numbers t rest keys ∧ t' = t ∧ texts = result ++ keyTexts numbers keys := by
  induction fuel generalizing key result rest with
  | zero => cases h
  | succ fuel ih =>
    rcases rest with - | ⟨⟨k, value⟩, rest⟩
    · rw [Loop.run_succ_of_exit (keysStep_end hkey)] at h
      obtain ⟨rfl, htexts⟩ := Prod.mk.inj (Option.some.inj h)
      obtain rfl := Except.ok.inj htexts
      exact ⟨[], .done, rfl, (List.append_nil _).symm⟩
    · rw [Loop.run_succ_of_continue (keysStep_next hkey)] at h
      rcases hnumeral : k.isNumeral with - | -
      · have hnext := next_of_suffix hrest
        rw [← LuaValue.converted_of_not_isNumeral numbers hnumeral] at hnext
        obtain ⟨keys, hwalk, rfl, rfl⟩ := ih hnext ((List.suffix_cons _ rest).trans hrest) h
        exact ⟨k :: keys, .other hnumeral hwalk, rfl, keyTexts_cons numbers k keys result⟩
      · -- what is on the stack is a string now
        rcases hnext : t.next (k.converted numbers) with e | found
        · rcases fuel with - | fuel
          · cases h
          · rw [Loop.run_succ_of_exit (keysStep_error hnext)] at h
            cases h
        · obtain ⟨value', rest', htext, rfl⟩ :=
            exists_suffix_of_next (LuaValue.converted_ne_nil numbers hnumeral) hnext
          obtain ⟨keys, hwalk, rfl, rfl⟩ := ih hnext ((List.suffix_cons _ rest').trans htext) h
          exact ⟨k :: keys, .numeral hnumeral htext hwalk, rfl, keyTexts_cons numbers k keys result⟩

/-- **The loop of `keys` ends with texts exactly if the walk from the first entry comes to the end
of the table**, and leaves the table alone. -/
theorem keys_returns_iff {t t' : LuaTable} {texts : List String} :
    Loop.Returns (keysStep numbers) { table := t } (t', .ok texts) ↔
      ∃ keys, Walk numbers t t.entries keys ∧ t' = t ∧ texts = keyTexts numbers keys := by
  constructor
  · rintro ⟨fuel, hfuel⟩
    exact exists_walk t.next_nil (List.suffix_refl _) hfuel
  · rintro ⟨keys, hwalk, rfl, rfl⟩
    exact keysStep_returns hwalk (List.suffix_refl _) [] t'.next_nil

end LuaTable

end FastRules
