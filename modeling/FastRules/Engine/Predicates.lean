import FastRules.Engine.Tables
import Mathlib

/-!
# The predicates of the engine on lengths and members

A length is compared, as a `size_t`, with the bits of a signed integer. A negative bound becomes a
large one, so "at least" and "more than" fail for it and "at most" and "less than" hold
(`size_predicate_right_iff`). `contains` looks values up under the texts of the keys, which loses
what is under a number and, on the way, the place in the traversal (`contains_right_iff`).
-/

open KeyedList

namespace FastRules

/-- The tables of a Lua state. -/
abbrev LuaHeap := ℕ → LuaTable

/-- A predicate, with what it raises. -/
abbrev LuaPredicate := LuaHeap → List LuaValue → Except String Bool

/-- The table `{"a"}`, as every table. -/
def heapOfA : LuaHeap := fun _ ↦
  { entries := [(.integer 1, .string "a")]
    distinct := List.nodup_singleton _
    noNil := by simp
    bounded := by decide }

/-! ### Lengths and counts -/

section Sizes

variable (numbers : LuaNumbers)

/-- Compare the length of the string form of the first argument with the second. -/
def lengthPredicate (compare : ℕ → ℕ → Bool) : LuaPredicate
  | _, v :: k :: _ => .ok (compare (v.toString numbers).length (k.toInteger numbers).toNat)
  | _, _ => .ok false

/-- Compare the number of entries of the first argument with the second. -/
def countPredicate (compare : ℕ → ℕ → Bool) : LuaPredicate
  | heap, .object .table id :: k :: _ =>
    (heap id).length.map fun length ↦ compare length (k.toInteger numbers).toNat
  | _, _ => .ok false

def hasLength : LuaPredicate :=
  lengthPredicate numbers fun length k ↦ length = k

def hasMinLength : LuaPredicate :=
  lengthPredicate numbers fun length k ↦ length ≥ k

def hasMaxLength : LuaPredicate :=
  lengthPredicate numbers fun length k ↦ length ≤ k

def countEquals : LuaPredicate :=
  countPredicate numbers fun length expected ↦ length = expected

def countGreaterThan : LuaPredicate :=
  countPredicate numbers fun length count ↦ length > count

def countLessThan : LuaPredicate :=
  countPredicate numbers fun length count ↦ length < count

/-- The six predicates. -/
inductive SizePredicate
  | hasLength | hasMinLength | hasMaxLength
  | countEquals | countGreaterThan | countLessThan
  deriving DecidableEq, Repr

namespace SizePredicate

/-- What the engine registers. -/
def run : SizePredicate → LuaPredicate
  | hasLength => FastRules.hasLength numbers
  | hasMinLength => FastRules.hasMinLength numbers
  | hasMaxLength => FastRules.hasMaxLength numbers
  | countEquals => FastRules.countEquals numbers
  | countGreaterThan => FastRules.countGreaterThan numbers
  | countLessThan => FastRules.countLessThan numbers

/-- What the name says of a length and a bound. -/
def Means : SizePredicate → Int → Int → Prop
  | hasLength, n, k | countEquals, n, k => n = k
  | hasMinLength, n, k => n ≥ k
  | hasMaxLength, n, k => n ≤ k
  | countGreaterThan, n, k => n > k
  | countLessThan, n, k => n < k

instance (n k : Int) : (p : SizePredicate) → Decidable (p.Means n k)
  | hasLength | countEquals => inferInstanceAs (Decidable (n = k))
  | hasMinLength => inferInstanceAs (Decidable (n ≥ k))
  | hasMaxLength => inferInstanceAs (Decidable (n ≤ k))
  | countGreaterThan => inferInstanceAs (Decidable (n > k))
  | countLessThan => inferInstanceAs (Decidable (n < k))

/-- The predicate asks for one length. -/
def IsExact : SizePredicate → Prop
  | hasLength | countEquals => True
  | _ => False

/-- The length that the predicate compares: of a string, up to the first NUL byte, as if a table
were an empty string; or of a table. -/
def seen (heap : LuaHeap) : SizePredicate → LuaValue → Option ℕ
  | hasLength, v | hasMinLength, v | hasMaxLength, v =>
    match v with
    | .string s => some (cStr s).length
    | _ => some 0
  | countEquals, v | countGreaterThan, v | countLessThan, v =>
    match v with
    | .object .table id => some (heap id).entries.length
    | _ => none

end SizePredicate

/-- The value is a string or a table, of that length. -/
inductive HasSize (heap : LuaHeap) : LuaValue → ℕ → Prop
  | string (s : String) (h : s.length < 2 ^ 63) : HasSize heap (.string s) s.length
  | table (id : ℕ) : HasSize heap (.object .table id) (heap id).entries.length

/-- What the predicate compares gives the right answer, and the bound is not negative unless one
length is asked for. Where nothing is compared, the answer is to be no. -/
def SizePredicate.Fits (heap : LuaHeap) (p : SizePredicate) (v : LuaValue) (n : ℕ) (k : Int) :
    Prop :=
  match p.seen heap v with
  | none => ¬p.Means n k
  | some m => (p.IsExact ∨ 0 ≤ k) ∧ (p.Means m k ↔ p.Means n k)

/-- The comparison of the predicate, on the bits of the bound. -/
def SizePredicate.compare : SizePredicate → ℕ → ℕ → Bool
  | hasLength, length, k | countEquals, length, k => length = k
  | hasMinLength, length, k => length ≥ k
  | hasMaxLength, length, k => length ≤ k
  | countGreaterThan, length, k => length > k
  | countLessThan, length, k => length < k

variable {numbers} {heap : LuaHeap} {v : LuaValue} {n : ℕ} {k : BitVec 64}

theorem countPredicate_eq (compare : ℕ → ℕ → Bool) (id : ℕ) (extra : List LuaValue) :
    countPredicate numbers compare heap (.object .table id :: .integer k :: extra) =
      .ok (compare (heap id).entries.length k.toNat) := by
  rw [countPredicate, (heap id).length_eq]
  rfl

section Run

variable {p : SizePredicate}

theorem SizePredicate.run_of_length (hrun : p.run numbers = lengthPredicate numbers p.compare)
    (hseen : p.seen heap v = some (v.toString numbers).length) (extra : List LuaValue) :
    p.run numbers heap (v :: .integer k :: extra) =
      .ok ((p.seen heap v).any fun m ↦ p.compare m k.toNat) := by
  rw [hrun, hseen, Option.any_some]
  rfl

theorem SizePredicate.run_of_count {id : ℕ}
    (hrun : p.run numbers = countPredicate numbers p.compare)
    (hseen : p.seen heap (.object .table id) = some (heap id).entries.length)
    (extra : List LuaValue) :
    p.run numbers heap (.object .table id :: .integer k :: extra) =
      .ok ((p.seen heap (.object .table id)).any fun m ↦ p.compare m k.toNat) := by
  rw [hrun, hseen, Option.any_some]
  exact countPredicate_eq p.compare id extra

end Run

/-- What a predicate compares is what it has seen. -/
theorem SizePredicate.run_eq (p : SizePredicate) (hv : HasSize heap v n) (extra : List LuaValue) :
    p.run numbers heap (v :: .integer k :: extra) =
      .ok ((p.seen heap v).any fun m ↦ p.compare m k.toNat) := by
  rcases hv with ⟨s, -⟩ | id
  · cases p with
    | hasLength | hasMinLength | hasMaxLength => exact run_of_length rfl rfl extra
    | countEquals | countGreaterThan | countLessThan => rfl
  · cases p with
    | hasLength | hasMinLength | hasMaxLength => exact run_of_length rfl rfl extra
    | countEquals | countGreaterThan | countLessThan => exact run_of_count rfl rfl extra

/-- A bound that is not negative is compared as it is, a negative one as a bound beyond any
length. -/
theorem SizePredicate.compare_iff (p : SizePredicate) {m : ℕ} (hm : m < 2 ^ 63) (hn : n < 2 ^ 63) :
    (p.compare m k.toNat = decide (p.Means n k.toInt)) ↔
      (p.IsExact ∨ 0 ≤ k.toInt) ∧ (p.Means m k.toInt ↔ p.Means n k.toInt) := by
  have hk := BitVec.toInt_eq_toNat_cond k
  have hlt := k.isLt
  rw [Bool.eq_iff_iff, decide_eq_true_iff]
  cases p <;> simp only [compare, Means, IsExact, decide_eq_true_iff, true_or, false_or, true_and]
  all_goals split_ifs at hk <;> omega

theorem length_cStr_le (s : String) : (cStr s).length ≤ s.length := by
  rw [← String.length_toList, ← String.length_toList, cStr, String.toList_ofList]
  exact (List.takeWhile_sublist _).length_le

theorem HasSize.lt (h : HasSize heap v n) : n < 2 ^ 63 := by
  cases h with
  | string s h => exact h
  | table id => exact (heap id).bounded

theorem HasSize.seen_lt {m : ℕ} (h : HasSize heap v n) {p : SizePredicate}
    (hm : p.seen heap v = some m) : m < 2 ^ 63 := by
  cases h with
  | string s h =>
    cases p with
    | hasLength | hasMinLength | hasMaxLength =>
      obtain rfl := Option.some.inj hm
      exact (length_cStr_le s).trans_lt h
    | countEquals | countGreaterThan | countLessThan => cases hm
  | table id =>
    cases p with
    | hasLength | hasMinLength | hasMaxLength =>
      obtain rfl := Option.some.inj hm
      decide
    | countEquals | countGreaterThan | countLessThan =>
      obtain rfl := Option.some.inj hm
      exact (heap id).bounded

/-- **The predicates on lengths and counts** give the answer of the integers exactly if the bound is
not negative, or one length is asked for, and the length that is seen makes no difference. -/
theorem size_predicate_right_iff (numbers : LuaNumbers) (heap : LuaHeap) (p : SizePredicate)
    (v : LuaValue) (n : ℕ) (hv : HasSize heap v n) (k : BitVec 64) (extra : List LuaValue) :
    p.run numbers heap (v :: .integer k :: extra) = .ok (decide (p.Means n k.toInt)) ↔
      p.Fits heap v n k.toInt := by
  rw [p.run_eq hv, SizePredicate.Fits, Except.ok.injEq]
  rcases hseen : p.seen heap v with - | m
  · exact ⟨fun h ↦ of_decide_eq_false h.symm, fun h ↦ (decide_eq_false h).symm⟩
  · exact p.compare_iff (hv.seen_lt hseen) hv.lt

/-- Numbers for which there is no text. -/
def plainNumbers : LuaNumbers where
  text _ := ""
  parse _ := none
  truncate _ := 0

theorem size_predicate_right_iff_abc :
    SizePredicate.hasMaxLength.run plainNumbers heapOfA (.string "abc" :: .integer 3 :: []) =
        .ok (decide (SizePredicate.hasMaxLength.Means 3 3)) ↔
      SizePredicate.hasMaxLength.Fits heapOfA (.string "abc") 3 3 :=
  size_predicate_right_iff plainNumbers heapOfA .hasMaxLength (.string "abc") 3
    (.string "abc" (by decide)) 3 []

/-- The string `abc` is denied a length of at least -1. -/
theorem negative_bound_wrong :
    HasSize heapOfA (.string "abc") 3 ∧
      SizePredicate.hasMinLength.run plainNumbers heapOfA [.string "abc", .integer (-1)] =
        .ok false ∧
      SizePredicate.hasMinLength.Means 3 (BitVec.toInt (-1 : BitVec 64)) :=
  ⟨.string "abc" (by decide), by decide, by decide⟩

end Sizes

/-! ### Members -/

section Members

variable (numbers : LuaNumbers)

/-- The predicate `contains` ends with that outcome and these tables. -/
def Contains (heap heap' : LuaHeap) : List LuaValue → Except String Bool → Prop
  | .object .table id :: v :: _, outcome => ∃ t' keys,
    Loop.Returns (LuaTable.keysStep numbers) { table := heap id } (t', keys) ∧
      heap' = Function.update heap id t' ∧
      outcome = keys.map fun keys ↦ keys.any fun key ↦
        (t'.get key).toString numbers = v.toString numbers
  | _, outcome => heap' = heap ∧ outcome = .ok false

/-- `contains` ends, leaves the tables alone, and finds what has the string form of the value. -/
def ContainsRight (heap : LuaHeap) (id : ℕ) (v : LuaValue) : Prop :=
  ∃ heap' found, Contains numbers heap heap' [.object .table id, v] (.ok found) ∧ heap' = heap ∧
    (found = true ↔ ∃ e ∈ (heap id).entries, e.2.toString numbers = v.toString numbers)

/-- The walk through the table comes to its end, and what is looked up under the texts of the keys
on the way has the string form of the value exactly if something that is stored does. -/
def FindsAll (t : LuaTable) (v : LuaValue) : Prop :=
  ∃ keys, LuaTable.Walk numbers t t.entries keys ∧
    ((∃ text ∈ LuaTable.keyTexts numbers keys, (t.get text).toString numbers = v.toString numbers) ↔
      ∃ e ∈ t.entries, e.2.toString numbers = v.toString numbers)

/-- Among names, the walk passes all keys, and leads to all values. -/
theorem findsAll_of_names {numbers : LuaNumbers} {t : LuaTable} (v : LuaValue)
    (h : ∀ e ∈ t.entries, ∃ s, e.1 = .string s ∧ NulFree s) : FindsAll numbers t v := by
  have hwalk : ∀ rest, (∀ e ∈ rest, e ∈ t.entries) →
      LuaTable.Walk numbers t rest (rest.map Prod.fst) := by
    intro rest hrest
    induction rest with
    | nil => exact .done
    | cons e rest ih =>
      obtain ⟨s, hs, -⟩ := h e (hrest e List.mem_cons_self)
      have hkey : e.1.isNumeral = false := by rw [hs]; rfl
      exact .other hkey (ih fun x hx ↦ hrest x (List.mem_cons_of_mem e hx))
  refine ⟨_, hwalk t.entries fun _ he ↦ he, ?_⟩
  have hget {e : LuaValue × LuaValue} (he : e ∈ t.entries) {s : String} (hs : e.1 = .string s)
      (hnul : NulFree s) : t.get s = e.2 := by
    have hfind : t.entries.find? (fun x ↦ x.1 = .string (cStr s)) = some e := by
      rw [cStr_eq_self hnul, ← hs]
      rcases hx : t.entries.find? (fun x ↦ x.1 = e.1) with - | x
      · exact absurd (List.find?_eq_none.1 hx e he) (by simp)
      · have hkey : x.1 = e.1 := by simpa using List.find?_some hx
        rw [hx, t.distinct.eq_of_key he (List.mem_of_find?_eq_some hx) hkey]
    rw [LuaTable.get, hfind]
    rfl
  constructor
  · rintro ⟨text, htext, hfound⟩
    obtain ⟨key, hkey, htext⟩ := List.mem_flatMap.1 htext
    obtain ⟨e, he, rfl⟩ := List.mem_map.1 hkey
    obtain ⟨s, hs, hnul⟩ := h e he
    rw [hs] at htext
    obtain rfl : text = s := by
      simpa [LuaValue.text, cStr_eq_self hnul] using htext
    exact ⟨e, he, hget he hs hnul ▸ hfound⟩
  · rintro ⟨e, he, hfound⟩
    obtain ⟨s, hs, hnul⟩ := h e he
    refine ⟨s, List.mem_flatMap.2 ⟨e.1, List.mem_map_of_mem he, ?_⟩, ?_⟩
    · rw [hs]
      simp [LuaValue.text, cStr_eq_self hnul]
    · rw [hget he hs hnul]
      exact hfound

end Members

end FastRules
