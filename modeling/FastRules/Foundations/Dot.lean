import FastRules.Foundations.Scanning
import Mathlib.Data.List.Basic
import Mathlib.Data.Nat.Notation
import Mathlib.Tactic.SplitIfs

/-!
# The DOT language

The tokens of a DOT text, and the tokens of a digraph. `ReadsIf` says under which condition a piece
of a text reads as some tokens, whatever stands behind it, so that the condition of a text is put
together from those of its pieces. Texts are lists of bytes. Lines for a preprocessor and the
concatenation of strings are not part of what is read.
-/

open Scanning

namespace Dot

/-! ### Quoted strings -/

/-- Between quotes the text is one string: it has no unescaped quote and does not end in an escape.
The flag tells that a backslash stands before the text. -/
def Quotable : Bool → List Char → Prop
  | escaped, [] => escaped = false
  | escaped, c :: text => (escaped = true ∨ c ≠ '"') ∧ Quotable (!escaped && c == '\\') text

instance Quotable.decide : (escaped : Bool) → (text : List Char) → Decidable (Quotable escaped text)
  | escaped, [] => inferInstanceAs (Decidable (escaped = false))
  | escaped, c :: text =>
    @instDecidableAnd _ _ inferInstance (Quotable.decide (!escaped && c == '\\') text)

/-- What stands before the quote that closes a string, and what stands behind it. -/
def quoted : Bool → List Char → Option (List Char × List Char)
  | _, [] => none
  | escaped, c :: text =>
    if escaped = false ∧ c = '"' then some ([], text)
    else (quoted (!escaped && c == '\\') text).map fun p ↦ (c :: p.1, p.2)

theorem quoted_eq_some_iff {escaped : Bool} {text content rest : List Char} :
    quoted escaped text = some (content, rest) ↔
      text = content ++ '"' :: rest ∧ Quotable escaped content := by
  induction text generalizing escaped content with
  | nil => simp [quoted]
  | cons c text ih =>
    rw [quoted]
    split_ifs with hclose
    · obtain ⟨rfl, rfl⟩ := hclose
      cases content with
      | nil => simp [Quotable, eq_comm]
      | cons d content =>
        refine iff_of_false (by simp) ?_
        rintro ⟨heq, hopen, -⟩
        obtain ⟨rfl, -⟩ := List.cons.inj heq
        exact hopen.elim (fun h ↦ by cases h) fun h ↦ h rfl
    · cases content with
      | nil =>
        refine iff_of_false (by simp [Option.map_eq_some_iff]) ?_
        rintro ⟨heq, hescaped⟩
        exact hclose ⟨hescaped, (List.cons.inj heq).1⟩
      | cons d content =>
        have hc : escaped = true ∨ c ≠ '"' := by
          rcases Bool.eq_false_or_eq_true escaped with h | h
          · exact .inl h
          · exact .inr fun hq ↦ hclose ⟨h, hq⟩
        rw [List.cons_append, List.cons.injEq, Quotable]
        constructor
        · intro h
          obtain ⟨⟨content', rest'⟩, hp, heq⟩ := Option.map_eq_some_iff.1 h
          obtain ⟨hcons, rfl⟩ := Prod.mk.inj heq
          obtain ⟨rfl, rfl⟩ := List.cons.inj hcons
          obtain ⟨htext, hcontent⟩ := ih.1 hp
          exact ⟨⟨rfl, htext⟩, hc, hcontent⟩
        · rintro ⟨⟨rfl, htext⟩, -, hcontent⟩
          rw [ih.2 ⟨htext, hcontent⟩]
          rfl

theorem Quotable.append_iff {escaped : Bool} {a b : List Char} (ha : Quotable escaped a) :
    Quotable escaped (a ++ b) ↔ Quotable false b := by
  induction a generalizing escaped with
  | nil => rw [List.nil_append, (ha : escaped = false)]
  | cons c a ih => exact (and_iff_right ha.1).trans (ih ha.2)

theorem quotable_of_plain {text : List Char} (h : ∀ c ∈ text, c ≠ '"' ∧ c ≠ '\\') :
    Quotable false text := by
  induction text with
  | nil => rfl
  | cons c text ih =>
    obtain ⟨⟨hquote, hescape⟩, htext⟩ := List.forall_mem_cons.1 h
    refine ⟨.inr hquote, ?_⟩
    rw [Bool.not_false, Bool.true_and, beq_false_of_ne hescape]
    exact ih htext

/-- A quote that no backslash stands before cannot be between quotes. -/
theorem not_quotable {c : Char} (hc : c ≠ '\\') (a b : List Char) (escaped : Bool) :
    ¬ Quotable escaped (a ++ c :: '"' :: b) := by
  induction a generalizing escaped with
  | nil =>
    rintro ⟨-, hquote, -⟩
    rw [beq_false_of_ne hc, Bool.and_false] at hquote
    exact hquote.elim (fun h ↦ by cases h) fun h ↦ h rfl
  | cons d a ih => exact fun h ↦ ih _ h.2

/-! ### Tokens -/

/-- An identifier of the language: a name or a numeral, a string, or a string of HTML. -/
inductive Ident where
  | atom (text : List Char)
  | quoted (content : List Char)
  | html (content : List Char)
  deriving DecidableEq, Repr

/-- A token. `edge` is `->` if it is directed and `--` if it is not. -/
inductive Token where
  | ident (name : Ident)
  | symbol (c : Char)
  | edge (directed : Bool)
  deriving DecidableEq, Repr

def blanks : List Char := [' ', '\t', '\r', '\n']

def symbols : List Char := ['{', '}', '[', ']', ';', ',', '=', ':']

/-- Can begin a name: also each byte of a character that is not ASCII. -/
def isNameStart (c : Char) : Bool :=
  c.isAlpha || c = '_' || 128 ≤ c.toNat

def isNameChar (c : Char) : Bool :=
  isNameStart c || c.isDigit

/-- The text up to the bracket that closes a string of HTML, and what stands behind it. -/
def html : ℕ → List Char → Option (List Char × List Char)
  | _, [] => none
  | depth, c :: text =>
    if c = '>' ∧ depth = 0 then some ([], text)
    else
      (html (if c = '<' then depth + 1 else if c = '>' then depth - 1 else depth) text).map
        fun p ↦ (c :: p.1, p.2)

/-- A numeral without a sign, and what stands behind it. -/
def unsigned (text : List Char) : Option (List Char × List Char) :=
  let whole := text.takeWhile Char.isDigit
  let rest := text.dropWhile Char.isDigit
  if rest.head? = some '.' then
    let fraction := rest.tail.takeWhile Char.isDigit
    if whole = [] ∧ fraction = [] then none
    else some (whole ++ '.' :: fraction, rest.tail.dropWhile Char.isDigit)
  else if whole = [] then none
  else some (whole, rest)

/-- The token that a minus begins, and what stands behind it: an edge or a numeral. -/
def behindMinus : List Char → Option (Token × List Char)
  | [] => none
  | c :: text =>
    if c = '>' then some (.edge true, text)
    else if c = '-' then some (.edge false, text)
    else (unsigned (c :: text)).map fun p ↦ (.ident (.atom ('-' :: p.1)), p.2)

/-- The token at the beginning of a text, and what stands behind it. -/
def nextToken : List Char → Option (Token × List Char)
  | [] => none
  | c :: text =>
    if c = '"' then (quoted false text).map fun p ↦ (.ident (.quoted p.1), p.2)
    else if c = '<' then (html 0 text).map fun p ↦ (.ident (.html p.1), p.2)
    else if c ∈ symbols then some (.symbol c, text)
    else if isNameStart c then
      some (.ident (.atom (c :: text.takeWhile isNameChar)), text.dropWhile isNameChar)
    else if c = '-' then behindMinus text
    else (unsigned (c :: text)).map fun p ↦ (.ident (.atom p.1), p.2)

/-- What stands behind a comment at the beginning of a text. -/
def afterComment (text : List Char) : Option (List Char) :=
  if ['/', '/'] <+: text then some (text.dropWhile fun c ↦ c ≠ '\n')
  else if ['/', '*'] <+: text then after ['*', '/'] (text.drop 2)
  else none

/-- A text reads as a sequence of tokens, with blanks and comments between them. -/
inductive Lexes : List Char → List Token → Prop
  | done : Lexes [] []
  | blank {c text tokens} : c ∈ blanks → Lexes text tokens → Lexes (c :: text) tokens
  | comment {text rest tokens} : afterComment text = some rest → Lexes rest tokens →
      Lexes text tokens
  | token {text t rest tokens} : nextToken text = some (t, rest) → Lexes rest tokens →
      Lexes text (t :: tokens)

theorem nextToken_of_blank {c : Char} (hc : c ∈ blanks) (text : List Char) :
    nextToken (c :: text) = none := by
  simp only [blanks, List.mem_cons, List.not_mem_nil, or_false] at hc
  rcases hc with rfl | rfl | rfl | rfl <;> rfl

theorem exists_of_afterComment {text rest : List Char} (h : afterComment text = some rest) :
    ∃ r, text = '/' :: r := by
  rw [afterComment] at h
  split_ifs at h with hline hblock
  · obtain ⟨r, rfl⟩ := hline
    exact ⟨_, rfl⟩
  · obtain ⟨r, rfl⟩ := hblock
    exact ⟨_, rfl⟩

/-! ### Reading from left to right -/

theorem lexes_blank_iff {c : Char} (hc : c ∈ blanks) {text : List Char} {tokens : List Token} :
    Lexes (c :: text) tokens ↔ Lexes text tokens := by
  refine ⟨fun h ↦ ?_, Lexes.blank hc⟩
  cases h with
  | blank _ h => exact h
  | comment hcomment =>
    obtain ⟨r, hr⟩ := exists_of_afterComment hcomment
    rw [(List.cons.inj hr).1] at hc
    exact absurd hc (by decide)
  | token ht =>
    rw [nextToken_of_blank hc] at ht
    cases ht

/-- What a text reads as begins with its first token. -/
theorem lexes_token_iff {text rest : List Char} {t : Token} (ht : nextToken text = some (t, rest))
    {tokens : List Token} :
    Lexes text tokens ↔ ∃ tail, tokens = t :: tail ∧ Lexes rest tail := by
  constructor
  · intro h
    cases h with
    | done => cases ht
    | blank hc =>
      rw [nextToken_of_blank hc] at ht
      cases ht
    | comment hcomment =>
      obtain ⟨r, rfl⟩ := exists_of_afterComment hcomment
      cases ht
    | token ht' h =>
      rw [ht, Option.some.injEq, Prod.mk.injEq] at ht'
      obtain ⟨rfl, rfl⟩ := ht'
      exact ⟨_, rfl, h⟩
  · rintro ⟨tail, rfl, h⟩
    exact .token ht h

theorem nextToken_quote (text : List Char) : nextToken ('"' :: text) =
    (quoted false text).map fun p ↦ (.ident (.quoted p.1), p.2) :=
  rfl

/-- Where a text begins with a quote, the first token stands there. -/
theorem exists_of_lexes_quote {text : List Char} {t : Token} {tokens : List Token}
    (h : Lexes ('"' :: text) (t :: tokens)) :
    ∃ p, quoted false text = some p ∧ t = .ident (.quoted p.1) ∧ Lexes p.2 tokens := by
  cases h with
  | blank hc => exact absurd hc (by decide)
  | comment hcomment =>
    obtain ⟨r, hr⟩ := exists_of_afterComment hcomment
    cases hr
  | token hnext h =>
    rw [nextToken_quote] at hnext
    obtain ⟨p, hp, heq⟩ := Option.map_eq_some_iff.1 hnext
    obtain ⟨rfl, rfl⟩ := Prod.mk.inj heq
    exact ⟨p, hp, rfl, h⟩

/-- A text that begins with a quote reads as nothing that does not begin with a string. -/
theorem not_lexes_of_quote {text : List Char} {t : Token} {tokens : List Token}
    (ht : ∀ content, t ≠ .ident (.quoted content)) : ¬ Lexes ('"' :: text) (t :: tokens) := by
  intro h
  obtain ⟨p, -, hp, -⟩ := exists_of_lexes_quote h
  exact ht p.1 hp

/-- A string reads as what stands between its quotes if that can be between quotes. -/
theorem lexes_quoted_iff {content rest : List Char} {tokens : List Token} :
    Lexes ('"' :: (content ++ '"' :: rest)) (.ident (.quoted content) :: tokens) ↔
      Quotable false content ∧ Lexes rest tokens := by
  constructor
  · intro h
    obtain ⟨⟨content', rest'⟩, hp, hcontent, hrest⟩ := exists_of_lexes_quote h
    cases hcontent
    obtain ⟨htext, hquotable⟩ := quoted_eq_some_iff.1 hp
    rw [List.append_cancel_left_eq, List.cons.injEq] at htext
    exact ⟨hquotable, htext.2 ▸ hrest⟩
  · rintro ⟨hquotable, h⟩
    refine .token ?_ h
    rw [nextToken_quote, quoted_eq_some_iff.2 ⟨rfl, hquotable⟩]
    rfl

/-! ### Pieces of a text -/

/-- On condition `P` the piece reads as the tokens, whatever stands behind it, and otherwise no text
that begins with it reads as anything that begins with them. -/
def ReadsIf (text : List Char) (tokens : List Token) (P : Prop) : Prop :=
  ∀ rest tail, Lexes (text ++ rest) (tokens ++ tail) ↔ P ∧ Lexes rest tail

theorem ReadsIf.lexes_iff {text : List Char} {tokens : List Token} {P : Prop}
    (h : ReadsIf text tokens P) : Lexes text tokens ↔ P := by
  have hnil := h [] []
  rw [List.append_nil, List.append_nil] at hnil
  exact hnil.trans (and_iff_left Lexes.done)

theorem ReadsIf.nil : ReadsIf [] [] True := fun _ _ ↦ (true_and _).symm.to_iff

theorem ReadsIf.append {a b : List Char} {ts us : List Token} {P Q : Prop} (ha : ReadsIf a ts P)
    (hb : ReadsIf b us Q) : ReadsIf (a ++ b) (ts ++ us) (P ∧ Q) := by
  intro rest tail
  rw [List.append_assoc, List.append_assoc, ha, hb, and_assoc]

theorem ReadsIf.congr {text : List Char} {tokens : List Token} {P Q : Prop}
    (h : ReadsIf text tokens P) (hPQ : P ↔ Q) : ReadsIf text tokens Q :=
  fun rest tail ↦ (h rest tail).trans (and_congr_left' hPQ)

theorem ReadsIf.flatMap {α : Type*} {f : α → List Char} {g : α → List Token} {P : α → Prop}
    {l : List α} (h : ∀ a ∈ l, ReadsIf (f a) (g a) (P a)) :
    ReadsIf (l.flatMap f) (l.flatMap g) (∀ a ∈ l, P a) := by
  induction l with
  | nil => exact ReadsIf.nil.congr (by simp)
  | cons a l ih =>
    obtain ⟨ha, hl⟩ := List.forall_mem_cons.1 h
    rw [List.flatMap_cons, List.flatMap_cons]
    exact (ha.append (ih hl)).congr List.forall_mem_cons.symm

theorem readsIf_quoted (content : List Char) :
    ReadsIf ('"' :: (content ++ ['"'])) [.ident (.quoted content)] (Quotable false content) := by
  intro rest tail
  rw [List.cons_append, List.append_assoc]
  exact lexes_quoted_iff

/-! A piece that ends in a blank, a symbol or a string can be read on its own. -/

/-- The token ends where it ends, whatever stands behind it. -/
def Token.Closed : Token → Prop
  | .ident (.atom _) => False
  | _ => True

instance (t : Token) : Decidable t.Closed :=
  match t with
  | .ident (.atom _) => .isFalse id
  | .ident (.quoted _) => .isTrue trivial
  | .ident (.html _) => .isTrue trivial
  | .symbol _ => .isTrue trivial
  | .edge _ => .isTrue trivial

theorem quoted_append {escaped : Bool} {text content rest : List Char}
    (h : quoted escaped text = some (content, rest)) (tail : List Char) :
    quoted escaped (text ++ tail) = some (content, rest ++ tail) := by
  obtain ⟨rfl, hcontent⟩ := quoted_eq_some_iff.1 h
  exact quoted_eq_some_iff.2 ⟨by rw [List.append_assoc, List.cons_append], hcontent⟩

theorem html_append {depth : ℕ} {text content rest : List Char}
    (h : html depth text = some (content, rest)) (tail : List Char) :
    html depth (text ++ tail) = some (content, rest ++ tail) := by
  induction text generalizing depth content with
  | nil => cases h
  | cons c text ih =>
    rw [html] at h
    rw [List.cons_append, html]
    split_ifs at h ⊢ with hclose
    · cases h
      rfl
    all_goals
      obtain ⟨⟨content', rest'⟩, hp, heq⟩ := Option.map_eq_some_iff.1 h
      obtain ⟨rfl, rfl⟩ := Prod.mk.inj heq
      rw [ih hp]
      rfl

/-- A run of characters that something ends does not go on into what follows. -/
theorem span_append {p : Char → Bool} {text : List Char} (h : text.dropWhile p ≠ [])
    (tail : List Char) :
    (text ++ tail).takeWhile p = text.takeWhile p ∧
      (text ++ tail).dropWhile p = text.dropWhile p ++ tail := by
  induction text with
  | nil => exact absurd rfl h
  | cons c text ih =>
    rw [List.dropWhile_cons] at h
    rw [List.cons_append, List.takeWhile_cons, List.takeWhile_cons, List.dropWhile_cons,
      List.dropWhile_cons]
    split_ifs at h ⊢
    · exact ⟨congrArg (c :: ·) (ih h).1, (ih h).2⟩
    · exact ⟨rfl, rfl⟩

theorem unsigned_append {text number rest : List Char} (h : unsigned text = some (number, rest))
    (hrest : rest ≠ []) (tail : List Char) :
    unsigned (text ++ tail) = some (number, rest ++ tail) := by
  have hdigits : text.dropWhile Char.isDigit ≠ [] := by
    intro hnil
    simp only [unsigned, hnil, List.head?_nil, reduceCtorEq, if_false] at h
    split_ifs at h
    cases h
    exact hrest rfl
  obtain ⟨htake, hdrop⟩ := span_append hdigits tail
  obtain ⟨d, text', hd⟩ := List.exists_cons_of_ne_nil hdigits
  simp only [unsigned, htake, hdrop, hd, List.cons_append, List.head?_cons, List.tail_cons] at h ⊢
  by_cases hdot : some d = some '.'
  · rw [if_pos hdot] at h ⊢
    split_ifs at h
    cases h
    obtain ⟨hfraction, hbehind⟩ := span_append hrest tail
    rwa [hfraction, hbehind, if_neg]
  · rw [if_neg hdot] at h ⊢
    split_ifs at h ⊢
    cases h
    rfl

theorem behindMinus_append {text rest : List Char} {t : Token}
    (h : behindMinus text = some (t, rest)) (hend : rest ≠ [] ∨ t.Closed) (tail : List Char) :
    behindMinus (text ++ tail) = some (t, rest ++ tail) := by
  cases text with
  | nil => cases h
  | cons c text =>
    rw [behindMinus] at h
    rw [List.cons_append, behindMinus]
    split_ifs at h ⊢
    · cases h
      rfl
    · cases h
      rfl
    · obtain ⟨p, hp, heq⟩ := Option.map_eq_some_iff.1 h
      cases heq
      rw [← List.cons_append, unsigned_append hp (hend.resolve_right id)]
      rfl

theorem nextToken_append {text rest : List Char} {t : Token} (h : nextToken text = some (t, rest))
    (hend : rest ≠ [] ∨ t.Closed) (tail : List Char) :
    nextToken (text ++ tail) = some (t, rest ++ tail) := by
  cases text with
  | nil => cases h
  | cons c text =>
    rw [nextToken] at h
    rw [List.cons_append, nextToken]
    split_ifs at h ⊢ with hquote hangle hsymbol hname hminus
    · obtain ⟨p, hp, heq⟩ := Option.map_eq_some_iff.1 h
      cases heq
      rw [quoted_append hp]
      rfl
    · obtain ⟨p, hp, heq⟩ := Option.map_eq_some_iff.1 h
      cases heq
      rw [html_append hp]
      rfl
    · cases h
      rfl
    · cases h
      obtain ⟨htake, hdrop⟩ := span_append (hend.resolve_right id) tail
      rw [htake, hdrop]
    · exact behindMinus_append h hend tail
    · obtain ⟨p, hp, heq⟩ := Option.map_eq_some_iff.1 h
      cases heq
      rw [← List.cons_append, unsigned_append hp (hend.resolve_right id)]
      rfl

/-- The tokens of a piece that has no comments and whose last token is closed. -/
def scan : ℕ → List Char → Option (List Token)
  | 0, _ => none
  | _ + 1, [] => some []
  | fuel + 1, c :: text =>
    if c ∈ blanks then scan fuel text
    else
      match nextToken (c :: text) with
      | none => none
      | some (t, rest) => if rest ≠ [] ∨ t.Closed then (scan fuel rest).map (t :: ·) else none

theorem readsIf_of_scan {fuel : ℕ} {text : List Char} {tokens : List Token}
    (h : scan fuel text = some tokens) : ReadsIf text tokens True := by
  induction fuel generalizing text tokens with
  | zero => cases h
  | succ fuel ih =>
    cases text with
    | nil =>
      cases h
      exact ReadsIf.nil
    | cons c text =>
      rw [scan] at h
      split_ifs at h with hblank
      · intro rest tail
        rw [List.cons_append, lexes_blank_iff hblank]
        exact ih h rest tail
      · split at h
        · cases h
        · rename_i t text' hnext
          split_ifs at h with hend
          obtain ⟨tokens', htokens, rfl⟩ := Option.map_eq_some_iff.1 h
          intro rest tail
          rw [lexes_token_iff (nextToken_append hnext hend rest), ← ih htokens rest tail]
          constructor
          · rintro ⟨tail', heq, hlexes⟩
            rw [List.cons_append] at heq
            exact (List.cons.inj heq).2 ▸ hlexes
          · exact fun hlexes ↦ ⟨_, rfl, hlexes⟩

/-- Reading the text comes to a place that no token begins at. -/
def stuck : ℕ → List Char → Bool
  | 0, _ => false
  | _ + 1, [] => false
  | fuel + 1, c :: text =>
    if c ∈ blanks then stuck fuel text
    else
      match nextToken (c :: text) with
      | none => c ≠ '/'
      | some (_, rest) => stuck fuel rest

theorem not_lexes_of_stuck {fuel : ℕ} {text : List Char} {tokens : List Token}
    (h : stuck fuel text = true) : ¬ Lexes text tokens := by
  induction fuel generalizing text tokens with
  | zero => cases h
  | succ fuel ih =>
    cases text with
    | nil => cases h
    | cons c text =>
      rw [stuck] at h
      split_ifs at h with hblank
      · rw [lexes_blank_iff hblank]
        exact ih h
      · split at h
        · rename_i hnone
          intro hlexes
          cases hlexes with
          | blank hc => exact hblank hc
          | comment hcomment =>
            obtain ⟨r, hr⟩ := exists_of_afterComment hcomment
            exact of_decide_eq_true h (List.cons.inj hr).1
          | token hnext =>
            rw [hnone] at hnext
            cases hnext
        · rename_i hnext
          rw [lexes_token_iff hnext]
          rintro ⟨tail, -, hlexes⟩
          exact ih h hlexes

/-! ### Brackets -/

/-- The brackets that are to be closed behind the tokens, the innermost first. -/
def brackets : List Char → List Token → Option (List Char)
  | opened, [] => some opened
  | opened, .symbol c :: tokens =>
    if c = '{' then brackets ('}' :: opened) tokens
    else if c = '[' then brackets (']' :: opened) tokens
    else if c = '}' ∨ c = ']' then
      if opened.head? = some c then brackets opened.tail tokens else none
    else brackets opened tokens
  | opened, _ :: tokens => brackets opened tokens

/-- What the tokens open they close, and they close nothing else. -/
def Balanced (tokens : List Token) : Prop :=
  ∀ opened, brackets opened tokens = some opened

theorem brackets_append (opened : List Char) (ts us : List Token) :
    brackets opened (ts ++ us) = (brackets opened ts).bind fun opened ↦ brackets opened us := by
  induction ts generalizing opened with
  | nil => rfl
  | cons t ts ih =>
    rw [List.cons_append]
    cases t with
    | ident name => exact ih opened
    | edge directed => exact ih opened
    | symbol c =>
      rw [brackets, brackets]
      split_ifs
      · exact ih _
      · exact ih _
      · exact ih _
      · rfl
      · exact ih _

theorem Balanced.append {ts us : List Token} (ht : Balanced ts) (hu : Balanced us) :
    Balanced (ts ++ us) := by
  intro opened
  rw [brackets_append, ht, Option.bind_some, hu]

theorem Balanced.flatMap {α : Type*} {f : α → List Token} {l : List α}
    (h : ∀ a ∈ l, Balanced (f a)) : Balanced (l.flatMap f) := by
  induction l with
  | nil => exact fun _ ↦ rfl
  | cons a l ih =>
    obtain ⟨ha, hl⟩ := List.forall_mem_cons.1 h
    exact ha.append (ih hl)

/-- A list of attributes between its brackets. -/
theorem Balanced.bracketed {ts : List Token} (h : Balanced ts) :
    Balanced (.symbol '[' :: ts ++ [.symbol ']']) := by
  intro opened
  have hopen : brackets opened (.symbol '[' :: ts) = some (']' :: opened) := h _
  rw [brackets_append, hopen]
  rfl

/-- A list of statements between its braces. -/
theorem Balanced.braced {ts : List Token} (h : Balanced ts) :
    Balanced (.symbol '{' :: ts ++ [.symbol '}']) := by
  intro opened
  have hopen : brackets opened (.symbol '{' :: ts) = some ('}' :: opened) := h _
  rw [brackets_append, hopen]
  rfl

/-! ### Digraphs -/

/-- An attribute and its value. -/
abbrev Attribute := Ident × Ident

/-- A statement of a digraph. -/
inductive Statement where
  | assign (name value : Ident)
  /-- The attributes of all elements of a kind. -/
  | defaults (kind : Ident) (attributes : List Attribute)
  | node (name : Ident) (attributes : List Attribute)
  | edge (source target : Ident) (attributes : List Attribute)
  /-- Edges to all nodes of a group. -/
  | edges (source : Ident) (targets : List Ident) (attributes : List Attribute)
  deriving DecidableEq, Repr

structure Digraph where
  name : Ident
  statements : List Statement
  deriving DecidableEq, Repr

def Attribute.tokens (a : Attribute) : List Token :=
  [.ident a.1, .symbol '=', .ident a.2]

/-- The tokens between the brackets of an attribute list. -/
def listTokens : List Attribute → List Token
  | [] => []
  | a :: attributes => a.tokens ++ attributes.flatMap fun b ↦ .symbol ',' :: b.tokens

def attributeTokens (attributes : List Attribute) : List Token :=
  .symbol '[' :: listTokens attributes ++ [.symbol ']']

def Statement.tokens : Statement → List Token
  | assign name value => [.ident name, .symbol '=', .ident value, .symbol ';']
  | defaults kind attributes => .ident kind :: attributeTokens attributes ++ [.symbol ';']
  | node name attributes => .ident name :: attributeTokens attributes ++ [.symbol ';']
  | edge source target attributes =>
    [.ident source, .edge true, .ident target] ++ attributeTokens attributes ++ [.symbol ';']
  | edges source targets attributes =>
    [.ident source, .edge true] ++ (.symbol '{' :: targets.map .ident ++ [.symbol '}']) ++
      attributeTokens attributes ++ [.symbol ';']

def Digraph.tokens (g : Digraph) : List Token :=
  [.ident (.atom "digraph".toList), .ident g.name] ++
    (.symbol '{' :: g.statements.flatMap Statement.tokens ++ [.symbol '}'])

/-- The node of a node statement, with its attributes. -/
def Statement.node? : Statement → Option (Ident × List Attribute)
  | node name attributes => some (name, attributes)
  | _ => none

/-- The nodes of a digraph, one for each node statement. -/
def Digraph.nodes (g : Digraph) : List (Ident × List Attribute) :=
  g.statements.filterMap Statement.node?

theorem balanced_attributeTokens (attributes : List Attribute) :
    Balanced (attributeTokens attributes) := by
  refine Balanced.bracketed ?_
  cases attributes with
  | nil => exact fun _ ↦ rfl
  | cons a attributes =>
    exact Balanced.append (fun _ ↦ rfl) (Balanced.flatMap fun _ _ _ ↦ rfl)

theorem balanced_statement (s : Statement) : Balanced s.tokens := by
  cases s with
  | assign name value => exact fun _ ↦ rfl
  | defaults kind attributes =>
    exact (balanced_attributeTokens attributes).append fun _ ↦ rfl
  | node name attributes =>
    exact (balanced_attributeTokens attributes).append fun _ ↦ rfl
  | edge source target attributes =>
    exact (balanced_attributeTokens attributes).append fun _ ↦ rfl
  | edges source targets attributes =>
    have htargets : Balanced (targets.map .ident) := by
      rw [List.map_eq_flatMap]
      exact Balanced.flatMap fun _ _ _ ↦ rfl
    exact (htargets.braced.append (balanced_attributeTokens attributes)).append fun _ ↦ rfl

theorem Digraph.balanced (g : Digraph) : Balanced g.tokens :=
  (Balanced.flatMap fun s _ ↦ balanced_statement s).braced

end Dot
