import FastRules.Rule.Basic
import Mathlib.Algebra.Order.Ring.Int
import Mathlib.Data.List.TakeWhile
import Mathlib.Data.Option.Basic
import Mathlib.Order.Basic

/-!
# Integers of fixed width and their text

The conversions between the integer types of C++, and the integers that `std::to_string` writes and
`std::stoi` reads. Every `int` is read back as it was written (`readBounded_toString`).
-/

namespace FastRules

/-- The conversion to `int`. -/
def toInt32 (n : Int) : Int :=
  n.bmod (2 ^ 32)

/-- The conversion to the representation of `std::chrono::milliseconds`. -/
def toInt64 (n : Int) : Int :=
  n.bmod (2 ^ 64)

/-- The value of a string of decimal digits. -/
def decimalValue (digits : List Char) : ℕ :=
  digits.foldl (fun n c ↦ 10 * n + (c.toNat - '0'.toNat)) 0

/-- What `strtol` reads: blanks, a sign, as many digits as there are; nothing without a digit. -/
def readInteger (s : String) : Option Int :=
  let chars := s.toList.dropWhile fun c ↦ c ∈ [' ', '\t', '\n', '\x0b', '\x0c', '\r']
  let (negative, chars) :=
    match chars with
    | '-' :: rest => (true, rest)
    | '+' :: rest => (false, rest)
    | chars => (false, chars)
  match chars.takeWhile Char.isDigit with
  | [] => none
  | digits => some (if negative then -(decimalValue digits : Int) else decimalValue digits)

/-- `std::stoi` and `std::stoll`: an integer of the given number of bits. -/
def readBounded (bits : ℕ) (s : String) : Option Int :=
  (readInteger s).filter fun n ↦ -2 ^ (bits - 1) ≤ n ∧ n < 2 ^ (bits - 1)

/-! ### Decimal literals -/

/-- A sign, if there is one. -/
def readSign : List Char → Bool × List Char
  | '-' :: rest => (true, rest)
  | '+' :: rest => (false, rest)
  | s => (false, s)

/-- The integer of a decimal literal: digits, perhaps after a sign. -/
def decimalLiteral (text : List Char) : Option Int :=
  let (negative, digits) := readSign text
  if digits ≠ [] ∧ digits.all Char.isDigit then
    some (if negative then -(decimalValue digits : Int) else decimalValue digits)
  else none

theorem isSpace_of_isDigit {c : Char} (h : c.isDigit = true) : isSpace c = false := by
  have hspaces : ∀ d ∈ [' ', '\t', '\n', '\x0b', '\x0c', '\r'], d.isDigit = false := by decide
  refine decide_eq_false fun hspace ↦ ?_
  rw [hspaces c hspace] at h
  cases h

/-- The digits of a literal begin the text, or follow a sign. -/
theorem dropWhile_isSpace_of_literal {text : List Char} (hne : (readSign text).2 ≠ [])
    (hall : ∀ c ∈ (readSign text).2, c.isDigit = true) : text.dropWhile isSpace = text := by
  rw [readSign.eq_def] at hne hall
  split at hne
  · rfl
  · rfl
  · rcases text with - | ⟨c, cs⟩
    · rfl
    · have hspace := isSpace_of_isDigit (hall c (by simp))
      rw [List.dropWhile_cons_of_neg (by simp [hspace])]

/-! ### Reading what was written -/

theorem decimalValue_toDigits (n : ℕ) : decimalValue (Nat.toDigits 10 n) = n :=
  Nat.ofDigitChars_ten_toDigits

/-- A character that is neither a blank nor a sign starts the digits. -/
theorem readInteger_of_unsigned {s : String} {c : Char} {rest : List Char}
    (hs : s.toList = c :: rest) (hblank : c ∉ [' ', '\t', '\n', '\x0b', '\x0c', '\r'])
    (hminus : c ≠ '-') (hplus : c ≠ '+')
    (hdigits : (c :: rest).takeWhile Char.isDigit = c :: rest) :
    readInteger s = some (decimalValue (c :: rest) : Int) := by
  rw [readInteger, hs, List.dropWhile_cons_of_neg (by simpa using hblank)]
  dsimp only
  split
  · rename_i h
    split at h
    · rename_i heq
      exact absurd (List.cons.inj heq).1 hminus
    · rename_i heq
      exact absurd (List.cons.inj heq).1 hplus
    · rw [hdigits] at h
      cases h
  · rename_i h
    split at h
    · rename_i heq
      exact absurd (List.cons.inj heq).1 hminus
    · rename_i heq
      exact absurd (List.cons.inj heq).1 hplus
    · dsimp only
      rw [hdigits]
      rfl

/-- A minus sign is followed by the digits. -/
theorem readInteger_of_minus {s : String} {digits : List Char} (hs : s.toList = '-' :: digits)
    (hdigits : digits.takeWhile Char.isDigit = digits) (hne : digits ≠ []) :
    readInteger s = some (-(decimalValue digits : Int)) := by
  rw [readInteger, hs, List.dropWhile_cons_of_neg (by decide)]
  dsimp only
  split
  · rename_i h
    exact absurd (hdigits.symm.trans h) hne
  · show some (-(decimalValue (digits.takeWhile Char.isDigit) : Int)) = _
    rw [hdigits]

theorem readInteger_toString (n : Int) : readInteger (toString n) = some n := by
  have hdigit {m : ℕ} {c : Char} (hc : c ∈ Nat.toDigits 10 m) : c.isDigit = true :=
    Nat.isDigit_of_mem_toDigits (by decide) (by decide) hc
  have htake (m : ℕ) : (Nat.toDigits 10 m).takeWhile Char.isDigit = Nat.toDigits 10 m :=
    List.takeWhile_eq_self_iff.2 fun _ hc ↦ hdigit hc
  rw [Int.toString_eq_repr, Int.repr_eq_if]
  split_ifs with hn
  · obtain ⟨c, rest, hcons⟩ :=
      List.exists_cons_of_ne_nil (Nat.toDigits_ne_nil (n := n.toNat) (b := 10))
    have hc : c.isDigit = true := hdigit (hcons ▸ List.mem_cons_self)
    have hne (d : Char) (hd : d.isDigit = false) : c ≠ d := by
      rintro rfl
      exact absurd hc (by rw [hd]; decide)
    have hblank : c ∉ [' ', '\t', '\n', '\x0b', '\x0c', '\r'] := by
      intro hmem
      have hnot : [' ', '\t', '\n', '\x0b', '\x0c', '\r'].all (fun d ↦ !d.isDigit) = true := by
        decide
      exact hne c (by simpa using List.all_eq_true.1 hnot c hmem) rfl
    rw [readInteger_of_unsigned (Nat.toList_repr.trans hcons) hblank (hne _ rfl) (hne _ rfl)
      (hcons ▸ htake n.toNat), ← hcons, decimalValue_toDigits, Int.toNat_of_nonneg hn]
  · have hminus : ("-" ++ Nat.repr (-n).toNat).toList = '-' :: Nat.toDigits 10 (-n).toNat := by
      simp [Nat.toList_repr]
    rw [readInteger_of_minus hminus (htake _) Nat.toDigits_ne_nil, decimalValue_toDigits]
    congr 1
    omega

/-- Different integers have different texts. -/
theorem toString_int_ne_empty (n : Int) : toString n ≠ "" := by
  intro hempty
  have hread := readInteger_toString n
  rw [hempty] at hread
  cases hread

theorem toString_int_inj {m n : Int} : toString m = toString n ↔ m = n := by
  refine ⟨fun h ↦ ?_, fun h ↦ h ▸ rfl⟩
  have hread := readInteger_toString m
  rw [h, readInteger_toString] at hread
  exact (Option.some.inj hread).symm

/-- The values of type `int`. -/
theorem toInt32_eq_self_iff {n : Int} : toInt32 n = n ↔ -2 ^ 31 ≤ n ∧ n < 2 ^ 31 := by
  constructor
  · intro h
    have hle : -((2 ^ 32 : ℕ) / 2 : Int) ≤ n.bmod (2 ^ 32) := Int.le_bmod (by decide)
    have hlt : n.bmod (2 ^ 32) < ((2 ^ 32 : ℕ) + 1 : Int) / 2 := Int.bmod_lt (by decide)
    rw [show n.bmod (2 ^ 32) = n from h] at hle hlt
    omega
  · intro h
    exact Int.bmod_eq_of_le (by omega) (by omega)

/-- A converted integer is of the type. -/
theorem toInt32_toInt32 (n : Int) : toInt32 (toInt32 n) = toInt32 n := by
  rw [toInt32, toInt32, Int.bmod_bmod]

/-- An `int` is read as it was written. -/
theorem readBounded_toString {n : Int} (hn : toInt32 n = n) :
    readBounded 32 (toString n) = some n := by
  rw [readBounded, readInteger_toString, Option.filter_some,
    if_pos (by simpa using toInt32_eq_self_iff.1 hn)]

/-! ### Hexadecimal text -/

theorem digitChar_inj {m n : ℕ} (hm : m < 16) (hn : n < 16) (h : m.digitChar = n.digitChar) :
    m = n := by
  have hall : ∀ m n : Fin 16, m.val.digitChar = n.val.digitChar → m = n := by decide
  exact congrArg Fin.val (hall ⟨m, hm⟩ ⟨n, hn⟩ h)

/-- Different numbers have different hexadecimal texts. -/
theorem toDigits_sixteen_inj {m n : ℕ} (h : Nat.toDigits 16 m = Nat.toDigits 16 n) : m = n := by
  induction m using Nat.strongRecOn generalizing n with
  | ind m ih =>
    rw [Nat.toDigits_eq_if (by decide), Nat.toDigits_eq_if (n := n) (by decide)] at h
    split_ifs at h with hm hn hn
    · exact digitChar_inj hm hn (List.cons.inj h).1
    · have hlen := congrArg List.length h
      have hpos : 0 < (Nat.toDigits 16 (n / 16)).length := Nat.length_toDigits_pos
      rw [List.length_append, List.length_singleton, List.length_singleton] at hlen
      omega
    · have hlen := congrArg List.length h
      have hpos : 0 < (Nat.toDigits 16 (m / 16)).length := Nat.length_toDigits_pos
      rw [List.length_append, List.length_singleton, List.length_singleton] at hlen
      omega
    · obtain ⟨hdiv, hmod⟩ := List.append_inj' h rfl
      have hdiv := ih (m / 16) (by omega) hdiv
      have hmod := digitChar_inj (Nat.mod_lt m (by decide)) (Nat.mod_lt n (by decide))
        (List.cons.inj hmod).1
      omega

theorem minus_notMem_toDigits_sixteen (n : ℕ) : '-' ∉ Nat.toDigits 16 n := by
  have hdigit {d : ℕ} (hd : d < 16) : d.digitChar ≠ '-' := by
    have hall : ∀ d : Fin 16, d.val.digitChar ≠ '-' := by decide
    exact hall ⟨d, hd⟩
  induction n using Nat.strongRecOn with
  | ind n ih =>
    rw [Nat.toDigits_eq_if (by decide)]
    split_ifs with hn
    · exact fun h ↦ hdigit hn (List.mem_singleton.1 h).symm
    · intro h
      rcases List.mem_append.1 h with h | h
      · exact ih (n / 16) (by omega) h
      · exact hdigit (Nat.mod_lt n (by decide)) (List.mem_singleton.1 h).symm

end FastRules
