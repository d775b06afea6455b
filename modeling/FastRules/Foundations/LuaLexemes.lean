import FastRules.Foundations.Members
import FastRules.Foundations.WordOccurrence
import Mathlib.Data.List.Infix
import Mathlib.Data.Nat.Notation

/-!
# The lexical elements of Lua

A text of Lua 5.4 as the sequence of its lexical elements: names, numerals, literal strings, the
symbols of the language, and the blanks and comments between them. Each element carries that it is
well formed, and `Munches` says that each of a sequence is followed by nothing it would go on into,
so that the sequence is how Lua reads the text. Texts are lists of bytes.

Keywords are names here, and what the digits of an escape sequence denote is not looked at.
-/

open WordOccurrence

namespace Lua

/-! ### Characters -/

/-- Can stand in a name. -/
def isNameChar (c : Char) : Bool :=
  c.isAlphanum || c = '_'

/-- Can begin a name. -/
def isNameStart (c : Char) : Bool :=
  c.isAlpha || c = '_'

def digits : List Char := ['0', '1', '2', '3', '4', '5', '6', '7', '8', '9']

def hexDigits : List Char :=
  digits ++ ['a', 'b', 'c', 'd', 'e', 'f', 'A', 'B', 'C', 'D', 'E', 'F']

def newlines : List Char := ['\n', '\r']

def blanks : List Char := newlines ++ [' ', '\t', '\x0b', '\x0c']

/-- The symbols of the language. -/
def symbols : List (List Char) :=
  [['+'], ['-'], ['*'], ['/'], ['%'], ['^'], ['#'], ['&'], ['~'], ['|'], ['<', '<'], ['>', '>'],
    ['/', '/'], ['=', '='], ['~', '='], ['<', '='], ['>', '='], ['<'], ['>'], ['='], ['('], [')'],
    ['{'], ['}'], ['['], [']'], [':', ':'], [';'], [':'], [','], ['.'], ['.', '.'],
    ['.', '.', '.']]

/-! ### Numerals -/

/-- A numeral: the mark of a hexadecimal one, the digits, and an exponent with its mark and sign. -/
structure Numeral where
  hex : Option Char
  whole : List Char
  fraction : Option (List Char)
  exponent : Option (Char × List Char × List Char)
  hex_mem : ∀ c ∈ hex, c ∈ ['x', 'X']
  whole_mem : ∀ c ∈ whole, c ∈ if hex.isSome then hexDigits else digits
  fraction_mem : ∀ f ∈ fraction, ∀ c ∈ f, c ∈ if hex.isSome then hexDigits else digits
  digits_ne_nil : whole = [] → ∃ f ∈ fraction, f ≠ []
  mark_mem : ∀ e ∈ exponent, e.1 ∈ if hex.isSome then ['p', 'P'] else ['e', 'E']
  sign_mem : ∀ e ∈ exponent, e.2.1 ∈ [[], ['+'], ['-']]
  exponent_mem : ∀ e ∈ exponent, e.2.2 ≠ [] ∧ ∀ c ∈ e.2.2, c ∈ digits

/-- The text of a numeral. -/
def Numeral.text (n : Numeral) : List Char :=
  (match n.hex with
    | none => []
    | some x => ['0', x]) ++
  n.whole ++
  (match n.fraction with
    | none => []
    | some f => '.' :: f) ++
  (match n.exponent with
    | none => []
    | some (mark, sign, e) => mark :: sign ++ e)

/-- The characters of numerals. -/
def numeralChars : List Char :=
  hexDigits ++ ['x', 'X', 'p', 'P', '.', '+', '-']

theorem Numeral.mem_numeralChars (n : Numeral) : ∀ c ∈ n.text, c ∈ numeralChars := by
  have hdigit (c : Char) (hc : c ∈ if n.hex.isSome then hexDigits else digits) :
      c ∈ numeralChars := by
    split_ifs at hc
    · exact List.mem_append_left _ hc
    · exact List.mem_append_left _ (List.mem_append_left _ hc)
  have hmark : ∀ c ∈ if n.hex.isSome then ['p', 'P'] else ['e', 'E'], c ∈ numeralChars := by
    split_ifs <;> decide
  have hdec : ∀ c ∈ digits, c ∈ numeralChars := by decide
  have hsign : ∀ s ∈ [[], ['+'], ['-']], ∀ c ∈ s, c ∈ numeralChars := by decide
  intro c hc
  rw [text, List.mem_append, List.mem_append, List.mem_append] at hc
  rcases hc with ((hc | hc) | hc) | hc
  · cases hhex : n.hex with
    | none => rw [hhex] at hc; cases hc
    | some x =>
      have hx := n.hex_mem x hhex
      rw [hhex] at hc
      rcases List.mem_cons.1 hc with rfl | hc
      · decide
      · rw [List.mem_singleton.1 hc]
        exact (by decide : ∀ x ∈ ['x', 'X'], x ∈ numeralChars) x hx
  · exact hdigit c (n.whole_mem c hc)
  · cases hfraction : n.fraction with
    | none => rw [hfraction] at hc; cases hc
    | some f =>
      rw [hfraction] at hc
      rcases List.mem_cons.1 hc with rfl | hc
      · decide
      · exact hdigit c (n.fraction_mem f hfraction c hc)
  · cases hexponent : n.exponent with
    | none => rw [hexponent] at hc; cases hc
    | some e =>
      rw [hexponent] at hc
      rcases List.mem_append.1 hc with hc | hc
      · rcases List.mem_cons.1 hc with rfl | hc
        · exact hmark _ (n.mark_mem e hexponent)
        · exact hsign _ (n.sign_mem e hexponent) c hc
      · exact hdec c ((n.exponent_mem e hexponent).2 c hc)

/-- A numeral begins with a digit, or with a dot that a digit follows. -/
theorem Numeral.text_starts (n : Numeral) :
    (∃ d ∈ digits, ∃ rest, n.text = d :: rest) ∨
      ∃ d ∈ digits, ∃ rest, n.text = '.' :: d :: rest := by
  cases hhex : n.hex with
  | some x => exact .inl ⟨'0', by decide, _, by rw [text, hhex]; rfl⟩
  | none =>
    have hwhole := n.whole_mem
    have hfraction := n.fraction_mem
    simp only [hhex, Option.isSome_none, Bool.false_eq_true, if_false] at hwhole hfraction
    cases hdigits : n.whole with
    | cons d whole =>
      exact .inl ⟨d, hwhole d (hdigits ▸ List.mem_cons_self), _, by rw [text, hhex, hdigits]; rfl⟩
    | nil =>
      obtain ⟨f, hf, hne⟩ := n.digits_ne_nil hdigits
      obtain ⟨d, rest, rfl⟩ := List.exists_cons_of_ne_nil hne
      exact .inr ⟨d, hfraction _ hf d List.mem_cons_self, _,
        by rw [text, hhex, hdigits, Option.mem_def.1 hf]; rfl⟩

/-! ### Strings and comments -/

/-- A part of a literal string: a character that stands for itself, an escape sequence of one
character, an escaped line break, or `\z` with the blanks it skips. -/
inductive StringItem
  | plain (c : Char)
  | escape (c : Char)
  | lineBreak (text : List Char)
  | skip (text : List Char)
  deriving DecidableEq

namespace StringItem

/-- The text of a part. -/
def text : StringItem → List Char
  | plain c => [c]
  | escape c => ['\\', c]
  | lineBreak text => '\\' :: text
  | skip text => '\\' :: 'z' :: text

/-- The characters that an escape sequence begins with, apart from `z` and line breaks. -/
def escapes : List Char :=
  digits ++ ['a', 'b', 'f', 'n', 'r', 't', 'v', 'x', 'u', '\\', '"', '\'']

/-- The part can stand between these quotes. -/
def Fits (quote : Char) : StringItem → Prop
  | plain c => c ∉ quote :: '\\' :: newlines
  | escape c => c ∈ escapes
  | lineBreak text => text ∈ [['\n'], ['\r'], ['\r', '\n'], ['\n', '\r']]
  | skip text => ∀ c ∈ text, c ∈ blanks

instance (quote : Char) : (i : StringItem) → Decidable (i.Fits quote)
  | plain c => inferInstanceAs (Decidable (c ∉ quote :: '\\' :: newlines))
  | escape c => inferInstanceAs (Decidable (c ∈ escapes))
  | lineBreak text =>
    inferInstanceAs (Decidable (text ∈ [['\n'], ['\r'], ['\r', '\n'], ['\n', '\r']]))
  | skip text => inferInstanceAs (Decidable (∀ c ∈ text, c ∈ blanks))

end StringItem

/-- The bracket that opens a long literal of this level. -/
def longOpen (level : ℕ) : List Char :=
  '[' :: (List.replicate level '=' ++ ['['])

/-- The bracket that closes it. -/
def longClose (level : ℕ) : List Char :=
  ']' :: (List.replicate level '=' ++ [']'])

/-- The first closing bracket of the level comes right after the text. -/
def ClosesAfter (level : ℕ) (text : List Char) : Prop :=
  ¬longClose level <:+: text ++ (longClose level).dropLast

/-- A long bracket opens here. -/
def opensLong : List Char → Bool
  | '[' :: s => (s.dropWhile (· = '=')).head? = some '['
  | _ => false

/-! ### Lexical elements -/

/-- A lexical element. -/
inductive Lexeme
  | blank (c : Char) (h : c ∈ blanks)
  | lineComment (text : List Char) (h : ∀ c ∈ text, c ∉ newlines) (hlong : opensLong text = false)
  | longComment (level : ℕ) (text : List Char) (h : ClosesAfter level text)
  | name (text : List Char) (hstart : ∃ c ∈ text.head?, isNameStart c)
      (h : ∀ c ∈ text, isNameChar c)
  | numeral (n : Numeral)
  | shortString (quote : Char) (items : List StringItem) (hquote : quote ∈ ['"', '\''])
      (h : ∀ i ∈ items, i.Fits quote)
  | longString (level : ℕ) (text : List Char) (h : ClosesAfter level text)
  | symbol (text : List Char) (h : text ∈ symbols)

namespace Lexeme

/-- The text of an element. -/
def text : Lexeme → List Char
  | blank c _ => [c]
  | lineComment text _ _ => '-' :: '-' :: text
  | longComment level text _ => '-' :: '-' :: (longOpen level ++ text ++ longClose level)
  | name text _ _ => text
  | numeral n => n.text
  | shortString quote items _ _ => quote :: (items.flatMap StringItem.text ++ [quote])
  | longString level text _ => longOpen level ++ text ++ longClose level
  | symbol text _ => text

/-- The symbol and the next character are the beginning of something longer. -/
def symbolGoesOn (text : List Char) (c : Char) : Bool :=
  text ++ [c] ∈ symbols || (text = ['-'] && c = '-') || (text = ['['] && (c = '[' || c = '=')) ||
    (text = ['.'] && c ∈ digits)

/-- The element does not go on into what follows. -/
def EndsBefore (rest : List Char) : Lexeme → Prop
  | blank _ _ => True
  | lineComment _ _ _ => ∀ c ∈ rest.head?, c ∈ newlines
  | longComment _ _ _ => True
  | name _ _ _ => ∀ c ∈ rest.head?, isNameChar c = false
  | numeral _ => ∀ c ∈ rest.head?, isNameChar c = false ∧ c ≠ '.'
  | shortString _ _ _ _ => True
  | longString _ _ _ => True
  | symbol text _ => ∀ c ∈ rest.head?, symbolGoesOn text c = false

/-- Literal strings and comments, whose text Lua does not read as names and symbols. -/
def isOpaque : Lexeme → Bool
  | lineComment _ _ _ => true
  | longComment _ _ _ => true
  | shortString _ _ _ _ => true
  | longString _ _ _ => true
  | _ => false

/-- Blanks and comments. -/
def isLayout : Lexeme → Bool
  | blank _ _ => true
  | lineComment _ _ _ => true
  | longComment _ _ _ => true
  | _ => false

end Lexeme

/-- The text of a sequence of lexical elements. -/
def textOf (xs : List Lexeme) : List Char :=
  xs.flatMap Lexeme.text

instance (rest : List Char) : (x : Lexeme) → Decidable (x.EndsBefore rest)
  | .blank _ _ => inferInstanceAs (Decidable True)
  | .lineComment _ _ _ => inferInstanceAs (Decidable (∀ c ∈ rest.head?, c ∈ newlines))
  | .longComment _ _ _ => inferInstanceAs (Decidable True)
  | .name _ _ _ => inferInstanceAs (Decidable (∀ c ∈ rest.head?, isNameChar c = false))
  | .numeral _ => inferInstanceAs (Decidable (∀ c ∈ rest.head?, isNameChar c = false ∧ c ≠ '.'))
  | .shortString _ _ _ _ => inferInstanceAs (Decidable True)
  | .longString _ _ _ => inferInstanceAs (Decidable True)
  | .symbol text _ =>
    inferInstanceAs (Decidable (∀ c ∈ rest.head?, Lexeme.symbolGoesOn text c = false))

/-- Each element ends where the next one begins. -/
def Munches : List Lexeme → Prop
  | [] => True
  | x :: xs => x.EndsBefore (textOf xs) ∧ Munches xs

instance : (xs : List Lexeme) → Decidable (Munches xs)
  | [] => inferInstanceAs (Decidable True)
  | x :: xs =>
    have : Decidable (Munches xs) := instDecidableMunches xs
    inferInstanceAs (Decidable (x.EndsBefore (textOf xs) ∧ Munches xs))

/-- The tokens of a text. -/
def tokens (xs : List Lexeme) : List Lexeme :=
  xs.filter fun x ↦ !x.isLayout

@[simp] theorem textOf_nil : textOf [] = [] := rfl

@[simp] theorem textOf_cons (x : Lexeme) (xs : List Lexeme) :
    textOf (x :: xs) = x.text ++ textOf xs := List.flatMap_cons

/-! ### What the texts of elements are made of -/

/-- Quotes and the backslash. -/
def quoting : List Char := ['"', '\'', '\\']

theorem symbols_ne_nil : ∀ t ∈ symbols, t ≠ [] := by decide

theorem isNameChar_of_symbol : ∀ t ∈ symbols, ∀ c ∈ t, isNameChar c = false := by decide

theorem not_quoting_of_symbol : ∀ t ∈ symbols, ∀ c ∈ t, c ∉ quoting := by decide

theorem isNameChar_of_blank : ∀ c ∈ blanks, isNameChar c = false := by decide

theorem not_quoting_of_blank : ∀ c ∈ blanks, c ∉ quoting := by decide

theorem not_quoting_of_numeral : ∀ c ∈ numeralChars, c ∉ quoting := by decide

theorem not_quoting_of_isNameChar {c : Char} (h : isNameChar c = true) : c ∉ quoting := by
  intro hc
  have hnone : ∀ c ∈ quoting, isNameChar c = false := by decide
  rw [hnone c hc] at h
  cases h

namespace Lexeme

variable {x : Lexeme} {rest : List Char}

theorem text_ne_nil (x : Lexeme) : x.text ≠ [] := by
  cases x with
  | blank c h => exact List.cons_ne_nil c []
  | lineComment text h hlong => exact List.cons_ne_nil _ _
  | longComment level text h => exact List.cons_ne_nil _ _
  | name text hstart h =>
    rintro rfl
    obtain ⟨c, hc, -⟩ := hstart
    cases hc
  | numeral n =>
    obtain ⟨d, -, rest, hd⟩ | ⟨d, -, rest, hd⟩ := n.text_starts
    · exact fun h ↦ List.cons_ne_nil d rest (hd.symm.trans h)
    · exact fun h ↦ List.cons_ne_nil '.' (d :: rest) (hd.symm.trans h)
  | shortString quote items hquote h => exact List.cons_ne_nil _ _
  | longString level text h => exact List.cons_ne_nil _ _
  | symbol text h => exact symbols_ne_nil text h

/-- The characters a string or a comment other than a line comment can end with. -/
def closers : List Char := ['"', '\'', ']']

/-- The text ends with a quote or a bracket. -/
def Closed (x : Lexeme) : Prop :=
  ∃ init, ∃ c ∈ closers, x.text = init ++ [c]

/-- A string or a comment closes, or it runs to the end of the line. -/
theorem closed_of_isOpaque (hinside : x.isOpaque = true) (h : x.EndsBefore rest) :
    x.Closed ∨ ∀ c ∈ rest.head?, c ∈ newlines := by
  have hlong (init : List Char) (level : ℕ) :
      ∃ init', init ++ longClose level = init' ++ [']'] :=
    ⟨init ++ ']' :: List.replicate level '=', by simp [longClose]⟩
  cases x with
  | lineComment text htext hlong => exact .inr h
  | longComment level text htext =>
    obtain ⟨init, hinit⟩ := hlong ('-' :: '-' :: (longOpen level ++ text)) level
    exact .inl ⟨init, ']', by decide, by rw [← hinit]; rfl⟩
  | shortString quote items hquote hitems =>
    have hclosers : ∀ c ∈ ['"', '\''], c ∈ closers := by decide
    exact .inl ⟨quote :: items.flatMap StringItem.text, quote, hclosers quote hquote, rfl⟩
  | longString level text htext =>
    obtain ⟨init, hinit⟩ := hlong (longOpen level ++ text) level
    exact .inl ⟨init, ']', by decide, hinit⟩
  | blank c hc => cases hinside
  | name text hstart htext => cases hinside
  | numeral n => cases hinside
  | symbol text htext => cases hinside

theorem startsOpen_of_newline (h : ∀ c ∈ rest.head?, c ∈ newlines) :
    StartsOpen isNameChar rest :=
  fun c hc ↦ isNameChar_of_blank c (List.mem_append_left _ (h c hc))

theorem Closed.endsOpen (h : x.Closed) : EndsOpen isNameChar x.text := by
  obtain ⟨init, c, hc, heq⟩ := h
  have hclosers : ∀ c ∈ closers, isNameChar c = false := by decide
  rw [heq, endsOpen_concat, hclosers c hc]

/-- No word goes over from an element to what follows. -/
theorem EndsBefore.apart (h : x.EndsBefore rest) : Apart isNameChar x.text rest := by
  cases hinside : x.isOpaque with
  | true => exact (closed_of_isOpaque hinside h).imp Closed.endsOpen startsOpen_of_newline
  | false =>
    cases x with
    | blank c hc =>
      exact .inl ((endsOpen_append (s := []) (List.cons_ne_nil c [])).2 fun d hd ↦
        Option.some.inj hd ▸ isNameChar_of_blank c hc)
    | name text hstart htext => exact .inr h
    | numeral n => exact .inr fun c hc ↦ (h c hc).1
    | symbol text htext =>
      refine .inl fun c hc ↦ isNameChar_of_symbol text htext c ?_
      exact List.mem_of_mem_getLast? hc
    | lineComment text htext hlong => cases hinside
    | longComment level text htext => cases hinside
    | shortString quote items hquote hitems => cases hinside
    | longString level text htext => cases hinside

/-! ### Names and accesses -/

/-- The element is the name that is mapped to this one. -/
def Names (g : Char → Char) (m : List Char) (x : Lexeme) : Prop :=
  ∃ a hstart h, x = name a hstart h ∧ a.map g = m

/-- The element is the dot. -/
def IsDot (x : Lexeme) : Prop :=
  ∃ h, x = symbol ['.'] h

end Lexeme

/-- A map of letters, such as that to lower case: it keeps name characters and changes no others. -/
structure KeepsWords (g : Char → Char) : Prop where
  word : ∀ c, isNameChar (g c) = isNameChar c
  other : ∀ c, isNameChar c = false → g c = c

/-- Two names with a dot right between them. -/
def HasAccess (g : Char → Char) (m f : List Char) (xs : List Lexeme) : Prop :=
  ∃ x y z, [x, y, z] <:+: xs ∧ x.Names g m ∧ y.IsDot ∧ z.Names g f

/-- A word that no numeral contains. -/
structure IsWord (g : Char → Char) (m : List Char) : Prop where
  ne_nil : m ≠ []
  word : ∀ c ∈ m, isNameChar c = true
  foreign : ∃ c ∈ m, c ∉ numeralChars.map g

section Search

variable {g : Char → Char} {m f p : List Char} {x : Lexeme} {xs : List Lexeme} {rest : List Char}

theorem IsWord.exists_word (hm : IsWord g m) : ∃ c ∈ m, isNameChar c = true :=
  ⟨m.head hm.ne_nil, List.head_mem hm.ne_nil, hm.word _ (List.head_mem hm.ne_nil)⟩

theorem KeepsWords.word_of_mem_map (hg : KeepsWords g) {s : List Char} {b : Bool}
    (hs : ∀ c ∈ s, isNameChar c = b) : ∀ c ∈ s.map g, isNameChar c = b := by
  intro c hc
  obtain ⟨d, hd, rfl⟩ := List.mem_map.1 hc
  rw [hg.word, hs d hd]

theorem KeepsWords.dot (hg : KeepsWords g) : g '.' = '.' := hg.other '.' rfl

/-- What a pattern with a foreign character and a word character cannot lie in. -/
theorem Lexeme.isOpaque_or_name (hg : KeepsWords g) (hword : ∃ c ∈ p, isNameChar c = true)
    (hforeign : ∃ c ∈ p, c ∉ numeralChars.map g) (hp : p ⊆ x.text.map g) :
    x.isOpaque = true ∨ ∃ a hstart h, x = .name a hstart h := by
  obtain ⟨c, hc, hcword⟩ := hword
  obtain ⟨d, hd, hdforeign⟩ := hforeign
  have hnone (hx : ∀ c ∈ x.text, isNameChar c = false) : False := by
    rw [hg.word_of_mem_map hx c (hp hc)] at hcword
    cases hcword
  cases x with
  | blank e he =>
    exact (hnone fun c hc ↦ List.mem_singleton.1 hc ▸ isNameChar_of_blank e he).elim
  | name a hstart h => exact .inr ⟨a, hstart, h, rfl⟩
  | numeral n =>
    obtain ⟨e, he, rfl⟩ := List.mem_map.1 (hp hd)
    exact absurd (List.mem_map_of_mem (n.mem_numeralChars e he)) hdforeign
  | symbol t ht => exact (hnone (isNameChar_of_symbol t ht)).elim
  | lineComment text h hlong => exact .inl rfl
  | longComment level text h => exact .inl rfl
  | shortString quote items hquote h => exact .inl rfl
  | longString level text h => exact .inl rfl

/-- In one element a pattern is a name, or it lies in a string or a comment. -/
theorem Lexeme.occurs_iff (hg : KeepsWords g) (hp : WordEnds isNameChar p)
    (hforeign : ∃ c ∈ p, c ∉ numeralChars.map g) :
    Occurs isNameChar p (x.text.map g) ↔
      x.Names g p ∨ (x.isOpaque = true ∧ Occurs isNameChar p (x.text.map g)) := by
  refine ⟨fun h ↦ ?_, ?_⟩
  · have hsub : p ⊆ x.text.map g := by
      obtain ⟨l, r, heq, -, -⟩ := h
      rw [heq]
      exact fun c hc ↦ List.mem_append_left r (List.mem_append_right l hc)
    have hword : ∃ c ∈ p, isNameChar c = true := by
      obtain ⟨c, rest, rfl, hc⟩ := hp.starts
      exact ⟨c, List.mem_cons_self, hc⟩
    obtain hinside | ⟨a, hstart, hname, rfl⟩ := isOpaque_or_name hg hword hforeign hsub
    · exact .inr ⟨hinside, h⟩
    · -- a name is one word, so that the pattern is all of it
      obtain ⟨l, r, heq, hl, hr⟩ := h
      have hall := hg.word_of_mem_map hname
      have heq' : a.map g = l ++ p ++ r := heq
      rw [heq'] at hall
      obtain rfl := eq_nil_of_endsOpen (fun c hc ↦ hall c
        (List.mem_append_left r (List.mem_append_left p hc))) hl
      obtain rfl := eq_nil_of_startsOpen (fun c hc ↦ hall c (List.mem_append_right _ hc)) hr
      exact .inl ⟨a, hstart, hname, rfl, by rw [heq', List.nil_append, List.append_nil]⟩
  · rintro (⟨a, hstart, hname, rfl, rfl⟩ | ⟨-, h⟩)
    · exact ⟨[], [], (List.append_nil _).symm, endsOpen_nil, startsOpen_nil⟩
    · exact h

/-- **A word occurs** where it is a name or lies in a string or a comment. -/
theorem occurs_textOf_of_word (hg : KeepsWords g) (hp : IsWord g p) (hxs : Munches xs) :
    Occurs isNameChar p ((textOf xs).map g) ↔
      (∃ x ∈ xs, x.Names g p) ∨
        ∃ x ∈ xs, x.isOpaque = true ∧ Occurs isNameChar p (x.text.map g) := by
  induction xs with
  | nil =>
    refine iff_of_false ?_ ?_
    · rintro ⟨l, r, heq, -, -⟩
      have hnil := List.append_eq_nil_iff.1 heq.symm
      exact hp.ne_nil (List.append_eq_nil_iff.1 hnil.1).2
    · rintro (⟨x, hx, -⟩ | ⟨x, hx, -⟩) <;> cases hx
  | cons x xs ih =>
    obtain ⟨hx, hxs⟩ := hxs
    have hapart : Apart isNameChar (x.text.map g) ((textOf xs).map g) :=
      hx.apart.imp (endsOpen_map hg.word).2 (startsOpen_map hg.word).2
    rw [textOf_cons, List.map_append, occurs_append_of_word hp.word hp.ne_nil hapart, ih hxs,
      Lexeme.occurs_iff hg (wordEnds_of_word hp.word hp.ne_nil) hp.foreign]
    simp only [List.mem_cons, exists_eq_or_imp]
    exact or_or_or_comm

/-- A name occurs, also where a numeral could contain it. -/
theorem occurs_textOf_of_names (hg : KeepsWords g) (hp : ∀ c ∈ p, isNameChar c = true)
    (hne : p ≠ []) (hxs : Munches xs) (hx : x ∈ xs) (hnames : x.Names g p) :
    Occurs isNameChar p ((textOf xs).map g) := by
  induction xs with
  | nil => exact absurd hx List.not_mem_nil
  | cons y xs ih =>
    obtain ⟨hy, hxs⟩ := hxs
    have hapart : Apart isNameChar (y.text.map g) ((textOf xs).map g) :=
      hy.apart.imp (endsOpen_map hg.word).2 (startsOpen_map hg.word).2
    rw [textOf_cons, List.map_append, occurs_append_of_word hp hne hapart]
    rcases List.mem_cons.1 hx with rfl | hx
    · obtain ⟨a, hstart, hname, rfl, rfl⟩ := hnames
      exact .inl ⟨[], [], (List.append_nil _).symm, endsOpen_nil, startsOpen_nil⟩
    · exact .inr (ih hxs hx)

/-! ### Dotted accesses -/

/-- What ends in a closing quote or bracket, or before a line break, ends in no word and no dot. -/
theorem Lexeme.not_endsIn_of_isOpaque (hg : KeepsWords g) (hinside : x.isOpaque = true)
    (hx : x.EndsBefore rest) {c d : Char} (hc : isNameChar c = true ∨ c = '.')
    (hd : isNameChar d = true ∨ d = '.') {q : List Char}
    (hends : EndsIn isNameChar (p ++ [c]) (x.text.map g))
    (hstarts : StartsWith isNameChar (d :: q) (rest.map g)) : False := by
  have hclosers : ∀ e ∈ closers, isNameChar e = false ∧ e ≠ '.' := by decide
  have hnewlines : ∀ e ∈ newlines, isNameChar e = false ∧ e ≠ '.' := by decide
  have hfixed (e : Char) (he : isNameChar e = false ∧ e ≠ '.') {c : Char}
      (hc : isNameChar c = true ∨ c = '.') : g e ≠ c := by
    rintro rfl
    rw [hg.other e he.1, he.1] at hc
    exact hc.elim Bool.noConfusion he.2
  obtain ⟨init, e, he, heq⟩ | hnewline := closed_of_isOpaque hinside hx
  · obtain ⟨l, hl, -⟩ := hends
    rw [heq, List.map_append, ← List.append_assoc] at hl
    have hlast := (List.append_inj_right' hl rfl)
    exact hfixed e (hclosers e he) hc (List.cons.inj hlast).1
  · obtain ⟨r, hr, -⟩ := hstarts
    cases rest with
    | nil => cases hr
    | cons e rest => exact hfixed e (hnewlines e (hnewline e rfl)) hd (List.cons.inj hr).1

/-- An element that a word ends, with a dot after it, is the word's name. -/
theorem Lexeme.names_of_endsIn (hg : KeepsWords g) (hm : IsWord g m) (hx : x.EndsBefore rest)
    (hends : EndsIn isNameChar m (x.text.map g))
    (hstarts : StartsWith isNameChar ('.' :: f) (rest.map g)) : x.Names g m := by
  have hsub : m ⊆ x.text.map g := by
    obtain ⟨l, heq, -⟩ := hends
    exact heq ▸ List.subset_append_right l m
  obtain hinside | ⟨a, hstart, hname, rfl⟩ := isOpaque_or_name hg hm.exists_word hm.foreign hsub
  · rw [← List.dropLast_append_getLast hm.ne_nil] at hends
    exact (not_endsIn_of_isOpaque hg hinside hx
      (.inl (hm.word _ (List.getLast_mem hm.ne_nil))) (.inr rfl) hends hstarts).elim
  · obtain ⟨l, heq, hl⟩ := hends
    have heq' : a.map g = l ++ m := heq
    have hall := hg.word_of_mem_map hname
    rw [heq'] at hall
    obtain rfl := eq_nil_of_endsOpen (fun c hc ↦ hall c (List.mem_append_left m hc)) hl
    exact ⟨a, hstart, hname, rfl, heq'⟩

/-- No element ends with a word and a dot where a word follows. -/
theorem Lexeme.not_endsIn_dot (hg : KeepsWords g) (hm : IsWord g m) (hf : IsWord g f)
    (hx : x.EndsBefore rest) (hends : EndsIn isNameChar (m ++ ['.']) (x.text.map g))
    (hstarts : StartsWith isNameChar f (rest.map g)) : False := by
  have hsub : m ++ ['.'] ⊆ x.text.map g := by
    obtain ⟨l, heq, -⟩ := hends
    exact heq ▸ List.subset_append_right l _
  obtain hinside | ⟨a, hstart, hname, rfl⟩ := isOpaque_or_name hg hm.exists_word hm.foreign
    fun c hc ↦ hsub (List.mem_append_left _ hc)
  · obtain ⟨d, q, rfl⟩ := List.exists_cons_of_ne_nil hf.ne_nil
    exact not_endsIn_of_isOpaque hg hinside hx (.inr rfl)
      (.inl (hf.word d List.mem_cons_self)) hends hstarts
  · have hdot := hg.word_of_mem_map hname '.'
      (hsub (List.mem_append_right m (List.mem_singleton_self _)))
    cases hdot

/-- What begins with a name character other than a digit is a name. -/
theorem Lexeme.name_of_head {c : Char} {s : List Char} (h : x.text = c :: s)
    (hc : isNameChar c = true) (hdigit : c ∉ digits) : ∃ a hstart h, x = .name a hstart h := by
  have hnot (e : Char) (he : isNameChar e = false) (heq : e = c) : False := by
    rw [heq, hc] at he
    cases he
  cases x with
  | name a hstart hname => exact ⟨a, hstart, hname, rfl⟩
  | blank e he => exact (hnot e (isNameChar_of_blank e he) (List.cons.inj h).1).elim
  | lineComment text ht hlong => exact (hnot '-' rfl (List.cons.inj h).1).elim
  | longComment level text ht => exact (hnot '-' rfl (List.cons.inj h).1).elim
  | longString level text ht => exact (hnot '[' rfl (List.cons.inj h).1).elim
  | shortString quote items hquote hitems =>
    have hquotes : ∀ e ∈ ['"', '\''], isNameChar e = false := by decide
    exact (hnot quote (hquotes quote hquote) (List.cons.inj h).1).elim
  | numeral n =>
    obtain ⟨d, hd, rest, heq⟩ | ⟨d, hd, rest, heq⟩ := n.text_starts
    · exact absurd ((List.cons.inj (heq.symm.trans h)).1 ▸ hd) hdigit
    · exact (hnot '.' rfl (List.cons.inj (heq.symm.trans h)).1).elim
  | symbol t ht =>
    have ht' : t = c :: s := h
    exact (hnot c (isNameChar_of_symbol t ht c (ht' ▸ List.mem_cons_self)) rfl).elim

/-- What begins with a dot is the dot, or a digit or another dot comes next. -/
theorem Lexeme.dot_of_head {s : List Char} (h : x.text = '.' :: s) :
    x.IsDot ∨ ∃ d rest, s = d :: rest ∧ (d ∈ digits ∨ d = '.') := by
  cases x with
  | name a hstart hname =>
    have ha : a = '.' :: s := h
    have hdot := hname '.' (ha ▸ List.mem_cons_self)
    cases hdot
  | blank e he =>
    have hblank : ∀ e ∈ blanks, e ≠ '.' := by decide
    exact (hblank e he (List.cons.inj h).1).elim
  | lineComment text ht hlong => exact absurd (List.cons.inj h).1 (by decide)
  | longComment level text ht => exact absurd (List.cons.inj h).1 (by decide)
  | longString level text ht => exact absurd (List.cons.inj h).1 (by decide)
  | shortString quote items hquote hitems =>
    have hquotes : ∀ e ∈ ['"', '\''], e ≠ '.' := by decide
    exact (hquotes quote hquote (List.cons.inj h).1).elim
  | numeral n =>
    obtain ⟨d, hd, rest, heq⟩ | ⟨d, hd, rest, heq⟩ := n.text_starts
    · have hdigits : ∀ e ∈ digits, e ≠ '.' := by decide
      exact (hdigits d hd (List.cons.inj (heq.symm.trans h)).1).elim
    · exact .inr ⟨d, rest, (List.cons.inj (heq.symm.trans h)).2.symm, .inl hd⟩
  | symbol t ht =>
    have hsymbols : ∀ t ∈ symbols, t.head? = some '.' → t = ['.'] ∨ t.tail.head? = some '.' := by
      decide
    have ht' : t = '.' :: s := h
    obtain rfl | hsecond := hsymbols t ht (by rw [ht']; rfl)
    · exact .inl ⟨ht, rfl⟩
    · obtain ⟨rest, hs⟩ := List.head?_eq_some_iff.1 (show s.head? = some '.' by
        rw [ht'] at hsecond
        exact hsecond)
      exact .inr ⟨'.', rest, hs, .inr rfl⟩

/-- A word that begins no numeral stands at the beginning of a text as a name. -/
theorem names_of_startsWith (hg : KeepsWords g) (hf : IsWord g f)
    (hletter : ∀ c ∈ f.head?, c ∉ digits.map g) (hxs : Munches xs)
    (h : StartsWith isNameChar f ((textOf xs).map g)) :
    ∃ x ys, xs = x :: ys ∧ x.Names g f := by
  obtain ⟨r, heq, hr⟩ := h
  obtain ⟨d, q, hd⟩ := List.exists_cons_of_ne_nil hf.ne_nil
  cases xs with
  | nil =>
    rw [hd] at heq
    cases heq
  | cons x ys =>
    obtain ⟨c, s, hc⟩ := List.exists_cons_of_ne_nil x.text_ne_nil
    have hgc : g c = d := by
      rw [textOf_cons, hc, hd] at heq
      exact (List.cons.inj heq).1
    have hword : isNameChar c = true := by
      rw [← hg.word, hgc]
      exact hf.word d (hd ▸ List.mem_cons_self)
    have hdigit : c ∉ digits := fun hmem ↦
      hletter d (by rw [hd]; rfl) (hgc ▸ List.mem_map_of_mem hmem)
    obtain ⟨a, hstart, hname, rfl⟩ := Lexeme.name_of_head hc hword hdigit
    refine ⟨_, ys, rfl, a, hstart, hname, rfl, ?_⟩
    rw [textOf_cons, List.map_append] at heq
    exact eq_of_word_append (hg.word_of_mem_map hname) hf.word
      ((startsOpen_map hg.word).2 hxs.1) hr heq

/-- A dot and a word stand at the beginning of a text as the dot and a name. -/
theorem dot_of_startsWith (hg : KeepsWords g) (hf : IsWord g f)
    (hletter : ∀ c ∈ f.head?, c ∉ digits.map g) (hxs : Munches xs)
    (h : StartsWith isNameChar ('.' :: f) ((textOf xs).map g)) :
    ∃ y z zs, xs = y :: z :: zs ∧ y.IsDot ∧ z.Names g f := by
  obtain ⟨r, heq, hr⟩ := h
  obtain ⟨d, q, hd⟩ := List.exists_cons_of_ne_nil hf.ne_nil
  have hdword := hf.word d (hd ▸ List.mem_cons_self)
  cases xs with
  | nil => cases heq
  | cons x ys =>
    obtain ⟨c, s, hc⟩ := List.exists_cons_of_ne_nil x.text_ne_nil
    have htext := heq
    rw [textOf_cons, hc] at htext
    have hgc : g c = '.' := (List.cons.inj htext).1
    have hcdot : c = '.' := by
      have hcword : isNameChar c = false := by
        rw [← hg.word, hgc]
        rfl
      rw [← hg.other c hcword, hgc]
    subst hcdot
    obtain hdot | ⟨e, rest, rfl, he⟩ := Lexeme.dot_of_head hc
    · obtain ⟨hsymbol, rfl⟩ := hdot
      obtain ⟨z, zs, rfl, hz⟩ := names_of_startsWith hg hf hletter hxs.2
        ⟨r, (List.cons.inj heq).2, hr⟩
      exact ⟨_, z, zs, rfl, ⟨hsymbol, rfl⟩, hz⟩
    · -- a digit or a dot is no beginning of the word
      exfalso
      have hge : g e = d := by
        rw [hd] at htext
        exact (List.cons.inj (List.cons.inj htext).2).1
      obtain he | rfl := he
      · exact hletter d (by rw [hd]; rfl) (hge ▸ List.mem_map_of_mem he)
      · rw [← hge, hg.dot] at hdword
        cases hdword

/-- Where a text begins with the dot and a name, it begins with the dot and the word. -/
theorem startsWith_of_dot (hg : KeepsWords g) {y z : Lexeme} {zs : List Lexeme}
    (hxs : Munches (y :: z :: zs)) (hy : y.IsDot) (hz : z.Names g f) :
    StartsWith isNameChar ('.' :: f) ((textOf (y :: z :: zs)).map g) := by
  obtain ⟨hsymbol, rfl⟩ := hy
  obtain ⟨b, hstart, hname, rfl, rfl⟩ := hz
  refine ⟨(textOf zs).map g, ?_, (startsOpen_map hg.word).2 hxs.2.1⟩
  rw [textOf_cons, textOf_cons, List.map_append, List.map_append]
  exact congrArg (· :: _) hg.dot

theorem hasAccess_cons :
    HasAccess g m f (x :: xs) ↔
      (x.Names g m ∧ ∃ y z zs, xs = y :: z :: zs ∧ y.IsDot ∧ z.Names g f) ∨
        HasAccess g m f xs := by
  constructor
  · rintro ⟨x', y, z, hinfix, hx, hy, hz⟩
    obtain hprefix | hinfix := List.infix_cons_iff.1 hinfix
    · obtain ⟨zs, heq⟩ := hprefix
      obtain ⟨rfl, rfl⟩ := List.cons.inj heq
      exact .inl ⟨hx, y, z, zs, rfl, hy, hz⟩
    · exact .inr ⟨x', y, z, hinfix, hx, hy, hz⟩
  · rintro (⟨hx, y, z, zs, rfl, hy, hz⟩ | ⟨x', y, z, hinfix, hx, hy, hz⟩)
    · exact ⟨x, y, z, (List.prefix_append [x, y, z] zs).isInfix, hx, hy, hz⟩
    · exact ⟨x', y, z, hinfix.trans (List.suffix_cons x xs).isInfix, hx, hy, hz⟩

/-- No name is two words with a dot between them. -/
theorem Lexeme.not_names_dotted (hg : KeepsWords g) : ¬x.Names g (m ++ '.' :: f) := by
  rintro ⟨a, hstart, hname, rfl, heq⟩
  have hdot := hg.word_of_mem_map hname '.'
    (heq ▸ List.mem_append_right m List.mem_cons_self)
  cases hdot

/-- Where a lexeme ends in the middle of a dotted access, it is the first of its two names. -/
theorem Lexeme.cut_iff (hg : KeepsWords g) (hm : IsWord g m) (hf : IsWord g f)
    (hletter : ∀ c ∈ f.head?, c ∉ digits.map g) (hxs : Munches (x :: xs)) :
    (EndsIn isNameChar m (x.text.map g) ∧
        StartsWith isNameChar ('.' :: f) ((textOf xs).map g)) ∨
      (EndsIn isNameChar (m ++ ['.']) (x.text.map g) ∧
        StartsWith isNameChar f ((textOf xs).map g)) ↔
      x.Names g m ∧ ∃ y z zs, xs = y :: z :: zs ∧ y.IsDot ∧ z.Names g f := by
  obtain ⟨hx, hxs⟩ := hxs
  constructor
  · rintro (⟨hm', hdot⟩ | ⟨hm', hf'⟩)
    · exact ⟨Lexeme.names_of_endsIn hg hm hx hm' hdot,
        dot_of_startsWith hg hf hletter hxs hdot⟩
    · exact (Lexeme.not_endsIn_dot hg hm hf hx hm' hf').elim
  · rintro ⟨⟨a, hstart, hname, rfl, rfl⟩, y, z, zs, rfl, hy, hz⟩
    exact .inl ⟨⟨[], rfl, endsOpen_nil⟩, startsWith_of_dot hg hxs hy hz⟩

/-- **A dotted access occurs** where it is two names with a dot right between them, or lies in a
string or a comment. -/
theorem occurs_textOf_of_dotted (hg : KeepsWords g) (hm : IsWord g m) (hf : IsWord g f)
    (hletter : ∀ c ∈ f.head?, c ∉ digits.map g) (hxs : Munches xs) :
    Occurs isNameChar (m ++ '.' :: f) ((textOf xs).map g) ↔
      HasAccess g m f xs ∨
        ∃ x ∈ xs, x.isOpaque = true ∧ Occurs isNameChar (m ++ '.' :: f) (x.text.map g) := by
  induction xs with
  | nil =>
    refine iff_of_false ?_ ?_
    · rintro ⟨l, r, heq, -, -⟩
      have hnil := List.append_eq_nil_iff.1 heq.symm
      exact hm.ne_nil (List.append_eq_nil_iff.1 (List.append_eq_nil_iff.1 hnil.1).2).1
    · rintro (⟨x, y, z, hinfix, -⟩ | ⟨x, hx, -⟩)
      · cases List.infix_nil.1 hinfix
      · cases hx
  | cons x xs ih =>
    have hcut := Lexeme.cut_iff hg hm hf hletter hxs
    obtain ⟨hx, hxs⟩ := hxs
    have hapart : Apart isNameChar (x.text.map g) ((textOf xs).map g) :=
      hx.apart.imp (endsOpen_map hg.word).2 (startsOpen_map hg.word).2
    have hends := wordEnds_of_dotted (x := '.') hm.word hm.ne_nil hf.word hf.ne_nil
    have hforeign : ∃ c ∈ m ++ '.' :: f, c ∉ numeralChars.map g :=
      hm.foreign.imp fun c hc ↦ ⟨List.mem_append_left _ hc.1, hc.2⟩
    rw [textOf_cons, List.map_append,
      occurs_append_of_dotted hm.word hm.ne_nil hf.word hf.ne_nil hapart, ih hxs, hcut,
      hasAccess_cons, Lexeme.occurs_iff hg hends hforeign,
      or_iff_right (Lexeme.not_names_dotted hg)]
    simp only [List.mem_cons, exists_eq_or_imp]
    have hor (a b c n : Prop) : a ∨ (b ∨ c) ∨ n ↔ (n ∨ b) ∨ a ∨ c := by
      rw [@or_comm (b ∨ c), or_left_comm, @or_left_comm a b, or_assoc]
    exact hor _ _ _ _

end Search

end Lua
