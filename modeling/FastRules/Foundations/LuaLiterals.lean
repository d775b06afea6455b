import FastRules.Foundations.LuaLexemes

/-!
# Literal strings among other elements

In a text of Lua without comments and long strings, quotes and backslashes stand in the short
strings only. So do the brackets that are not symbols: where the symbols are well nested, as many
brackets are opened as are closed outside of the strings (`Nested.count_add`).
-/

namespace Lua

/-- The brackets that open and the ones that close them. -/
def brackets : List (Char × Char) := [('(', ')'), ('[', ']'), ('{', '}')]

/-- The brackets, opening or closing. -/
def bracketChars : List Char := brackets.map Prod.fst ++ brackets.map Prod.snd

namespace Lexeme

/-- Short literal strings. -/
def isLiteral : Lexeme → Bool
  | shortString _ _ _ _ => true
  | _ => false

/-- The element is a bracket of the language. -/
def IsBracket (x : Lexeme) : Prop :=
  ∃ c ∈ bracketChars, ∃ h, x = symbol [c] h

end Lexeme

/-- There are no comments and no long strings. -/
def OnlyLiterals (xs : List Lexeme) : Prop :=
  ∀ x ∈ xs, x.isOpaque = true → x.isLiteral = true

/-- The text of the short strings alone. -/
def literals (xs : List Lexeme) : List Char :=
  textOf (xs.filter Lexeme.isLiteral)

/-- The brackets of the language are well nested. -/
inductive Nested : List Lexeme → Prop
  | nil : Nested []
  | other {x : Lexeme} {xs : List Lexeme} (hx : ¬x.IsBracket) (hxs : Nested xs) : Nested (x :: xs)
  | group {o c : Char} {xs ys : List Lexeme} (hmem : (o, c) ∈ brackets) (ho : [o] ∈ symbols)
      (hc : [c] ∈ symbols) (hxs : Nested xs) (hys : Nested ys) :
      Nested (.symbol [o] ho :: (xs ++ .symbol [c] hc :: ys))

variable {x : Lexeme} {xs ys : List Lexeme}

theorem textOf_append : textOf (xs ++ ys) = textOf xs ++ textOf ys := List.flatMap_append

theorem literals_append : literals (xs ++ ys) = literals xs ++ literals ys := by
  rw [literals, List.filter_append, textOf_append, literals, literals]

theorem literals_cons_of_isLiteral (h : x.isLiteral = true) :
    literals (x :: xs) = x.text ++ literals xs := by
  rw [literals, List.filter_cons_of_pos h, textOf_cons, literals]

theorem literals_cons_of_not (h : x.isLiteral = false) : literals (x :: xs) = literals xs := by
  rw [literals, List.filter_cons_of_neg (Bool.eq_false_iff.1 h), literals]

theorem OnlyLiterals.head (h : OnlyLiterals (x :: xs)) (hx : x.isLiteral = false) :
    x.isOpaque = false := by
  rw [← Bool.not_eq_true]
  intro hinside
  rw [h x List.mem_cons_self hinside] at hx
  cases hx

theorem OnlyLiterals.tail (h : OnlyLiterals (x :: xs)) : OnlyLiterals xs :=
  fun y hy ↦ h y (List.mem_cons_of_mem x hy)

/-! ### Outside of the strings -/

namespace Lexeme

/-- What is no string and no comment is a symbol, or made of characters of the other kinds. -/
theorem symbol_or_mem (hx : x.isOpaque = false) :
    (∃ t h, x = symbol t h) ∨
      ∀ c ∈ x.text, c ∈ blanks ∨ isNameChar c = true ∨ c ∈ numeralChars := by
  cases x with
  | blank c h => exact .inr fun d hd ↦ .inl (List.mem_singleton.1 hd ▸ h)
  | name text hstart h => exact .inr fun d hd ↦ .inr (.inl (h d hd))
  | numeral n => exact .inr fun d hd ↦ .inr (.inr (n.mem_numeralChars d hd))
  | symbol text h => exact .inl ⟨text, h, rfl⟩
  | lineComment text h hlong => cases hx
  | longComment level text h => cases hx
  | shortString quote items hquote h => cases hx
  | longString level text h => cases hx

theorem not_quoting_of_mem (hx : x.isOpaque = false) : ∀ c ∈ x.text, c ∉ quoting := by
  obtain ⟨t, h, rfl⟩ | hmem := symbol_or_mem hx
  · exact not_quoting_of_symbol t h
  · intro c hc
    obtain hblank | hname | hnumeral := hmem c hc
    · exact not_quoting_of_blank c hblank
    · exact not_quoting_of_isNameChar hname
    · exact not_quoting_of_numeral c hnumeral

/-- A short string stands between quotes. -/
theorem text_of_isLiteral (hx : x.isLiteral = true) :
    ∃ q ∈ ['"', '\''], ∃ u, x.text = q :: (u ++ [q]) := by
  cases x with
  | shortString quote items hquote h => exact ⟨quote, hquote, _, rfl⟩
  | blank c h => cases hx
  | name text hstart h => cases hx
  | numeral n => cases hx
  | symbol text h => cases hx
  | lineComment text h hlong => cases hx
  | longComment level text h => cases hx
  | longString level text h => cases hx

theorem not_bracket_of_mem (hx : x.isOpaque = false) (hbracket : ¬x.IsBracket) :
    ∀ c ∈ x.text, c ∉ bracketChars := by
  intro c hc hmem
  obtain ⟨t, h, rfl⟩ | hchars := symbol_or_mem hx
  · have hsymbols : ∀ t ∈ symbols, ∀ c ∈ t, c ∈ bracketChars → t = [c] := by decide
    obtain rfl := hsymbols t h c hc hmem
    exact hbracket ⟨c, hmem, h, rfl⟩
  · have hnone : ∀ c ∈ bracketChars, c ∉ blanks ∧ isNameChar c = false ∧ c ∉ numeralChars := by
      decide
    obtain ⟨hblank, hname, hnumeral⟩ := hnone c hmem
    obtain h | h | h := hchars c hc
    · exact hblank h
    · rw [hname] at h
      cases h
    · exact hnumeral h

end Lexeme

/-- **Nested brackets are balanced** outside of the strings. -/
theorem Nested.count_add (h : Nested xs) (hxs : OnlyLiterals xs) {o c : Char}
    (hoc : (o, c) ∈ brackets) :
    (textOf xs).count o + (literals xs).count c = (textOf xs).count c + (literals xs).count o := by
  have hpair : ∀ b ∈ brackets, ∀ d ∈ brackets,
      [d.1].count b.1 + [d.2].count b.1 = [d.1].count b.2 + [d.2].count b.2 := by
    decide
  have hmem : ∀ b ∈ brackets, b.1 ∈ bracketChars ∧ b.2 ∈ bracketChars := by decide
  induction h with
  | nil => rfl
  | @other x xs hx h ih =>
    have ih := ih hxs.tail
    cases hliteral : x.isLiteral with
    | true =>
      rw [literals_cons_of_isLiteral hliteral, textOf_cons]
      simp only [List.count_append]
      omega
    | false =>
      have hnone := x.not_bracket_of_mem (hxs.head hliteral) hx
      rw [literals_cons_of_not hliteral, textOf_cons, List.count_append, List.count_append,
        List.count_eq_zero_of_not_mem fun ho ↦ hnone o ho (hmem _ hoc).1,
        List.count_eq_zero_of_not_mem fun hc ↦ hnone c hc (hmem _ hoc).2]
      omega
  | @group o' c' xs ys hmem' ho hc h h' ih ih' =>
    have ih := ih fun y hy ↦ hxs y (List.mem_cons_of_mem _ (List.mem_append_left _ hy))
    have ih' := ih' fun y hy ↦
      hxs y (List.mem_cons_of_mem _ (List.mem_append_right _ (List.mem_cons_of_mem _ hy)))
    have hpair : [o'].count o + [c'].count o = [o'].count c + [c'].count c :=
      hpair _ hoc _ hmem'
    rw [literals_cons_of_not rfl, literals_append, literals_cons_of_not rfl, textOf_cons,
      textOf_append, textOf_cons]
    simp only [List.count_append, Lexeme.text]
    omega

end Lua
