import FastRules.Foundations.LuaLexemes
import Mathlib.Algebra.Ring.Nat
import Mathlib.Data.List.TakeWhile
import Mathlib.Tactic.SplitIfs

/-!
# What literal strings of Lua denote

The text of a literal string in double quotes is read from the left: a character stands for itself,
an escape sequence for the bytes it denotes, and the first quote that is not part of an escape
sequence closes the literal. A literal never denotes more bytes than it has, and as many only if it
is what it denotes (`Denotes.content`).
-/

namespace Lua

/-! ### Escape sequences -/

/-- The escape sequences of one character. -/
def simpleEscape : Char → Option Char
  | 'a' => some '\x07'
  | 'b' => some '\x08'
  | 'f' => some '\x0c'
  | 'n' => some '\n'
  | 'r' => some '\r'
  | 't' => some '\t'
  | 'v' => some '\x0b'
  | '\\' => some '\\'
  | '"' => some '"'
  | '\'' => some '\''
  | _ => none

/-- The value of a hexadecimal digit. -/
def hexValue (c : Char) : ℕ :=
  let i := hexDigits.idxOf c
  if i < 16 then i else i - 6

def ofHex (text : List Char) : ℕ :=
  text.foldl (fun n c ↦ 16 * n + hexValue c) 0

/-- How many bytes follow the first one in UTF-8, as far as it goes on in Lua. -/
def continuations (x : ℕ) : ℕ :=
  if x < 2 ^ 7 then 0
  else if x < 2 ^ 11 then 1
  else if x < 2 ^ 16 then 2
  else if x < 2 ^ 21 then 3
  else if x < 2 ^ 26 then 4
  else 5

/-- The UTF-8 encoding of a code point. -/
def utf8 (x : ℕ) : List Char :=
  let k := continuations x
  if k = 0 then [Char.ofNat x]
  else
    Char.ofNat (256 - 2 ^ (7 - k) + x / 64 ^ k) ::
      (List.range k).reverse.map fun i ↦ Char.ofNat (128 + x / 64 ^ i % 64)

/-- What `\u` denotes with the text behind it, and what follows. -/
def unicodeEscape : List Char → Option (List Char × List Char)
  | '{' :: text =>
    let number := text.takeWhile (· ∈ hexDigits)
    match text.dropWhile (· ∈ hexDigits) with
    | '}' :: rest =>
      if number ≠ [] ∧ ofHex number < 2 ^ 31 then some (utf8 (ofHex number), rest) else none
    | _ => none
  | _ => none

/-- What `\x` denotes with the text behind it, and what follows. -/
def hexEscape : List Char → Option (List Char × List Char)
  | h :: l :: rest =>
    if h ∈ hexDigits ∧ l ∈ hexDigits then some ([Char.ofNat (ofHex [h, l])], rest) else none
  | _ => none

/-- What up to three digits denote, and what follows. -/
def decimalEscape (text : List Char) : Option (List Char × List Char) :=
  let number := (text.take 3).takeWhile (· ∈ digits)
  let value := Nat.ofDigitChars 10 number 0
  if value < 256 then some ([Char.ofNat value], text.drop number.length) else none

/-- What an escape sequence denotes, given the text behind its backslash, and what follows. -/
def escape : List Char → Option (List Char × List Char)
  | [] => none
  | c :: text =>
    if c = 'z' then some ([], text.dropWhile (· ∈ blanks))
    else if c = 'x' then hexEscape text
    else if c = 'u' then unicodeEscape text
    else if c ∈ newlines then
      -- two different line break characters are one line break
      some (['\n'], if text.head?.any fun d ↦ d ∈ newlines ∧ d ≠ c then text.tail else text)
    else if c ∈ digits then decimalEscape (c :: text)
    else (simpleEscape c).map fun d ↦ ([d], text)

/-! An escape sequence has at least as many characters behind its backslash as it denotes bytes. -/

theorem hexValue_lt {c : Char} (hc : c ∈ hexDigits) : hexValue c < 16 := by
  have hall : ∀ c ∈ hexDigits, hexValue c < 16 := by decide
  exact hall c hc

theorem length_utf8 (x : ℕ) : (utf8 x).length = continuations x + 1 := by
  rw [utf8]
  split_ifs with hk
  · rw [hk]
    rfl
  · simp

theorem length_utf8_le (x : ℕ) : (utf8 x).length ≤ 6 := by
  rw [length_utf8, continuations]
  split_ifs <;> omega

/-- Two hexadecimal digits denote two bytes at most. -/
theorem length_utf8_ofHex {number : List Char} (hdigits : ∀ c ∈ number, c ∈ hexDigits)
    (hne : number ≠ []) : (utf8 (ofHex number)).length ≤ number.length + 3 := by
  have hsix := length_utf8_le (ofHex number)
  match number with
  | [c] =>
    have hc := hexValue_lt (hdigits c (by simp))
    have hsmall : ofHex [c] < 2 ^ 7 := by
      simp only [ofHex, List.foldl_cons, List.foldl_nil]
      omega
    rw [length_utf8, continuations, if_pos hsmall]
    simp
  | [c, d] =>
    have hc := hexValue_lt (hdigits c (by simp))
    have hd := hexValue_lt (hdigits d (by simp))
    have hsmall : ofHex [c, d] < 2 ^ 11 := by
      simp only [ofHex, List.foldl_cons, List.foldl_nil]
      omega
    rw [length_utf8, continuations]
    split_ifs <;> simp
  | _ :: _ :: _ :: rest =>
    simp only [List.length_cons] at hsix ⊢
    omega

/-- The text is what is left behind at least as many characters as there are bytes. -/
def Shortens (text : List Char) (p : List Char × List Char) : Prop :=
  ∃ read, text = read ++ p.2 ∧ p.1.length ≤ read.length

theorem Shortens.cons {text : List Char} {p : List Char × List Char} (h : Shortens text p)
    (c : Char) : Shortens (c :: text) p := by
  obtain ⟨read, htext, hlen⟩ := h
  exact ⟨c :: read, by rw [htext, List.cons_append], Nat.le_succ_of_le hlen⟩

theorem shortens_of_unicodeEscape {text : List Char} {p : List Char × List Char}
    (h : unicodeEscape text = some p) : Shortens ('u' :: text) p := by
  rw [unicodeEscape.eq_def] at h
  split at h
  · rename_i body
    dsimp only at h
    split at h
    · rename_i rest hbehind
      split_ifs at h with hnumber
      obtain rfl := Option.some.inj h
      have hsplit := List.takeWhile_append_dropWhile (p := (· ∈ hexDigits)) (l := body)
      rw [hbehind] at hsplit
      refine ⟨'u' :: '{' :: (body.takeWhile (· ∈ hexDigits) ++ ['}']), ?_, ?_⟩
      · simp only [List.cons_append, List.append_assoc, List.nil_append, hsplit]
      · have hdigits : ∀ c ∈ body.takeWhile (· ∈ hexDigits), c ∈ hexDigits := by
          intro c hc
          simpa using List.mem_takeWhile_imp hc
        have hlen := length_utf8_ofHex hdigits hnumber.1
        simpa using hlen
    · cases h
  · cases h

theorem shortens_of_hexEscape {text : List Char} {p : List Char × List Char}
    (h : hexEscape text = some p) : Shortens text p := by
  rw [hexEscape.eq_def] at h
  split at h
  · split_ifs at h
    obtain rfl := Option.some.inj h
    exact ⟨[_, _], rfl, by simp⟩
  · cases h

theorem shortens_of_decimalEscape {c : Char} (hc : c ∈ digits) {text : List Char}
    {p : List Char × List Char} (h : decimalEscape (c :: text) = some p) :
    Shortens (c :: text) p := by
  rw [decimalEscape] at h
  split_ifs at h
  obtain rfl := Option.some.inj h
  refine ⟨((c :: text).take 3).takeWhile (· ∈ digits), ?_, ?_⟩
  · have hstart : ((c :: text).take 3).takeWhile (· ∈ digits) <+: c :: text :=
      (List.takeWhile_prefix _).trans (List.take_prefix 3 _)
    exact (List.prefix_iff_eq_append.1 hstart).symm
  · rw [List.take_succ_cons, List.takeWhile_cons, if_pos (decide_eq_true hc)]
    simp

theorem shortens_of_escape {text : List Char} {p : List Char × List Char}
    (h : escape text = some p) : Shortens text p := by
  cases text with
  | nil => cases h
  | cons c text =>
    rw [escape] at h
    split_ifs at h with hz hx hu hnewline hsecond hdigit
    · obtain rfl := Option.some.inj h
      refine Shortens.cons ⟨text.takeWhile (· ∈ blanks), ?_, Nat.zero_le _⟩ c
      exact List.takeWhile_append_dropWhile.symm
    · exact (shortens_of_hexEscape h).cons c
    · exact hu ▸ shortens_of_unicodeEscape h
    · obtain rfl := Option.some.inj h
      cases text with
      | nil => cases hsecond
      | cons d text => exact ⟨[c, d], rfl, by simp⟩
    · obtain rfl := Option.some.inj h
      exact ⟨[c], rfl, by simp⟩
    · exact shortens_of_decimalEscape hdigit h
    · obtain ⟨d, -, rfl⟩ := Option.map_eq_some_iff.1 h
      exact ⟨[c], rfl, by simp⟩

/-! ### Literals in double quotes -/

/-- The characters that do not stand for themselves between double quotes. -/
def unplain : List Char := '"' :: '\\' :: newlines

/-- The text behind an opening quote reads as a literal that denotes `value`, with `rest` behind it.
-/
inductive Denotes : List Char → List Char → List Char → Prop
  | close {rest} : Denotes ('"' :: rest) [] rest
  | plain {c text value rest} : c ∉ unplain → Denotes text value rest →
      Denotes (c :: text) (c :: value) rest
  | escape {text bytes behind value rest} : Lua.escape text = some (bytes, behind) →
      Denotes behind value rest → Denotes ('\\' :: text) (bytes ++ value) rest

/-- A literal denotes one text and ends at one place. -/
theorem Denotes.unique {text value value' rest rest' : List Char} (h : Denotes text value rest)
    (h' : Denotes text value' rest') : value = value' ∧ rest = rest' := by
  induction h generalizing value' with
  | close =>
    cases h' with
    | close => exact ⟨rfl, rfl⟩
    | plain hc => exact absurd (by decide) hc
  | plain hc h ih =>
    cases h' with
    | close => exact absurd (by decide) hc
    | plain _ h' => exact ⟨congrArg _ (ih h').1, (ih h').2⟩
    | escape => exact absurd (by decide) hc
  | escape hescape h ih =>
    cases h' with
    | plain hc => exact absurd (by decide) hc
    | escape hescape' h' =>
      rw [hescape, Option.some.injEq, Prod.mk.injEq] at hescape'
      obtain ⟨rfl, rfl⟩ := hescape'
      exact ⟨congrArg _ (ih h').1, (ih h').2⟩

theorem denotes_of_plain {content : List Char} (h : ∀ c ∈ content, c ∉ unplain)
    (rest : List Char) : Denotes (content ++ '"' :: rest) content rest := by
  induction content with
  | nil => exact .close
  | cons c content ih =>
    obtain ⟨hc, hcontent⟩ := List.forall_mem_cons.1 h
    exact .plain hc (ih hcontent)

/-- A literal denotes at most as many bytes as stand between its quotes, and only itself if it
denotes as many. -/
theorem Denotes.content {text value rest : List Char} (h : Denotes text value rest) :
    ∃ content, text = content ++ '"' :: rest ∧ value.length ≤ content.length ∧
      (content.length ≤ value.length → value = content ∧ ∀ c ∈ content, c ∉ unplain) := by
  induction h with
  | close => exact ⟨[], rfl, le_rfl, fun _ ↦ ⟨rfl, fun c hc ↦ by cases hc⟩⟩
  | @plain c text value rest hc h ih =>
    obtain ⟨content, rfl, hle, hsame⟩ := ih
    refine ⟨c :: content, rfl, Nat.succ_le_succ hle, fun hge ↦ ?_⟩
    obtain ⟨rfl, hplain⟩ := hsame (Nat.le_of_succ_le_succ hge)
    exact ⟨rfl, List.forall_mem_cons.2 ⟨hc, hplain⟩⟩
  | @escape text bytes behind value rest hescape h ih =>
    obtain ⟨content, rfl, hle, -⟩ := ih
    obtain ⟨read, rfl, hread⟩ := shortens_of_escape hescape
    refine ⟨'\\' :: (read ++ content), by simp, ?_, fun hge ↦ ?_⟩
    · simp only [List.length_append, List.length_cons] at hread ⊢
      omega
    · simp only [List.length_append, List.length_cons] at hread hge
      omega

end Lua
