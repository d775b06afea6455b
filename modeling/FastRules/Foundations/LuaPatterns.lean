import FastRules.Foundations.LuaLexemes
import Mathlib.Algebra.Ring.Nat
import Mathlib.Data.List.Forall2
import Mathlib.Data.List.Infix
import Mathlib.Tactic.SplitIfs

/-!
# Patterns of Lua

The patterns of `string.find`: classes of characters with their repetitions, balanced pairs,
frontiers, captures and what refers to them. `Found` says that a pattern is found in a text.

A pattern without frontiers and references to captures has a match that is no longer than its own
text, and shorter if any of it is magic other than dots. So it finds exactly the texts that contain
a given text only if it is that text and nothing of it is magic (`finds_exactly_iff`).
-/

open Lua

namespace LuaPattern

/-! ### Classes of characters -/

inductive CharClass
  | any
  | char (c : Char)
  /-- The class `%c`. -/
  | letter (c : Char)
  | set (complement : Bool) (body : List Char)
  deriving DecidableEq, Repr

/-- The classes that letters stand for, by the letter in lower case. -/
def letterClass (c x : Char) : Bool :=
  match c with
  | 'a' => x.isAlpha
  | 'c' => x.toNat < 32 || x.toNat = 127
  | 'd' => x.isDigit
  | 'g' => 32 < x.toNat && x.toNat < 127
  | 'l' => x.isLower
  | 'p' => 32 < x.toNat && x.toNat < 127 && !x.isAlphanum
  | 's' => x = ' ' || (9 ≤ x.toNat && x.toNat ≤ 13)
  | 'u' => x.isUpper
  | 'w' => x.isAlphanum
  | 'x' => x ∈ hexDigits
  | _ => false

/-- `%c` accepts the character. An upper case letter stands for the complement, and what is no
letter of a class stands for itself. -/
def letterAccepts (c x : Char) : Bool :=
  if c.toLower ∈ ['a', 'c', 'd', 'g', 'l', 'p', 's', 'u', 'w', 'x'] then
    letterClass c.toLower x != c.isUpper
  else x = c

/-- What stands between the brackets of a set accepts the character. -/
def bodyAccepts : List Char → Char → Bool
  | '%' :: c :: body, x => letterAccepts c x || bodyAccepts body x
  | a :: '-' :: b :: body, x => (a ≤ x && x ≤ b) || bodyAccepts body x
  | c :: body, x => x = c || bodyAccepts body x
  | [], _ => false

def CharClass.accepts : CharClass → Char → Bool
  | any, _ => true
  | char c, x => x = c
  | letter c, x => letterAccepts c x
  | set complement body, x => bodyAccepts body x != complement

/-! ### Items -/

inductive Item
  | single (cls : CharClass)
  | star (cls : CharClass)
  | plus (cls : CharClass)
  | minus (cls : CharClass)
  | option (cls : CharClass)
  | balance (x y : Char)
  | frontier (cls : CharClass)
  | openCapture
  | closeCapture
  | reference (digit : Char)
  | atEnd
  deriving DecidableEq, Repr

/-- The text of a set up to its closing bracket, which is never the first character, and what stands
behind it. -/
def setBody : List Char → Option (List Char × List Char)
  | [] => none
  | [_] => none
  | c :: d :: text =>
    if c = '%' then
      if text.head? = some ']' then some ([c, d], text.tail)
      else (setBody text).map fun p ↦ (c :: d :: p.1, p.2)
    else if d = ']' then some ([c], text)
    else (setBody (d :: text)).map fun p ↦ (c :: p.1, p.2)

/-- The class at the beginning of a pattern, and what stands behind it. -/
def charClass : List Char → Option (CharClass × List Char)
  | [] => none
  | c :: text =>
    if c = '.' then some (.any, text)
    else if c = '%' then text.head?.map fun d ↦ (.letter d, text.tail)
    else if c = '[' then
      if text.head? = some '^' then (setBody text.tail).map fun p ↦ (.set true p.1, p.2)
      else (setBody text).map fun p ↦ (.set false p.1, p.2)
    else some (.char c, text)

def repetitions : List Char := ['*', '+', '-', '?']

/-- A class with the repetition that stands behind it, if there is one. -/
def repeated (cls : CharClass) : List Char → Item × List Char
  | [] => (.single cls, [])
  | c :: text =>
    if c = '*' then (.star cls, text)
    else if c = '+' then (.plus cls, text)
    else if c = '-' then (.minus cls, text)
    else if c = '?' then (.option cls, text)
    else (.single cls, c :: text)

/-- The item that a `%` with this character behind it begins, if it is no class. -/
def percentItem (d : Char) (text : List Char) : Option (Item × List Char) :=
  if d = 'b' then
    match text with
    | x :: y :: rest => some (.balance x y, rest)
    | _ => none
  else if d = 'f' then
    if text.head? = some '[' then (charClass text).map fun p ↦ (.frontier p.1, p.2) else none
  else if d ∈ digits then some (.reference d, text)
  else some (repeated (.letter d) text)

/-- The item at the beginning of a pattern, and what stands behind it. -/
def nextItem : List Char → Option (Item × List Char)
  | [] => none
  | c :: text =>
    if c = '(' then some (.openCapture, text)
    else if c = ')' then some (.closeCapture, text)
    else if c = '$' ∧ text = [] then some (.atEnd, [])
    else if c = '%' then
      match text with
      | [] => none
      | d :: rest => percentItem d rest
    else (charClass (c :: text)).map fun p ↦ repeated p.1 p.2

def items : ℕ → List Char → Option (List Item)
  | _, [] => some []
  | 0, _ :: _ => none
  | fuel + 1, c :: text =>
    (nextItem (c :: text)).bind fun p ↦ (items fuel p.2).map (p.1 :: ·)

/-- Each capture that is opened is closed, and no other. -/
def capturesClose : ℕ → List Item → Bool
  | depth, [] => depth = 0
  | depth, .openCapture :: is => capturesClose (depth + 1) is
  | depth, .closeCapture :: is => 0 < depth && capturesClose (depth - 1) is
  | depth, _ :: is => capturesClose depth is

structure Pattern where
  anchored : Bool
  items : List Item
  deriving DecidableEq, Repr

/-- A pattern as its items, if it is well formed. -/
def parse (text : List Char) : Option Pattern :=
  let anchored : Bool := text.head? = some '^'
  let body := if anchored then text.tail else text
  match items body.length body with
  | none => none
  | some is =>
    if capturesClose 0 is ∧ is.count .openCapture ≤ 32 then some ⟨anchored, is⟩ else none

/-! ### Matches -/

/-- A capture, and whether it is still open. -/
structure Capture where
  isOpen : Bool
  text : List Char

/-- The capture that was opened last and is still open is closed. -/
def closeLast : List Capture → List Capture
  | [] => []
  | k :: captures =>
    if k.isOpen && captures.all fun j ↦ !j.isOpen then { k with isOpen := false } :: captures
    else k :: closeLast captures

/-- The captures when an item has matched a piece. -/
def Item.record (captures : List Capture) : Item → List Char → List Capture
  | openCapture, _ => captures ++ [⟨true, []⟩]
  | closeCapture, _ => closeLast captures
  | _, piece =>
    captures.map fun k ↦ if k.isOpen then { k with text := k.text ++ piece } else k

/-- With `depth` pairs open, the text closes them all, and not before its end. -/
def ClosesPairs (x y : Char) : ℕ → List Char → Prop
  | depth, [] => depth = 0
  | depth, c :: text =>
    depth ≠ 0 ∧
      ClosesPairs x y (if c = y then depth - 1 else if c = x then depth + 1 else depth) text

/-- The item matches a piece of a text, with `before` before it and `behind` behind it. -/
def Item.Matches (captures : List Capture) (before : List Char) :
    Item → List Char → List Char → Prop
  | single cls, piece, _ => ∃ c, piece = [c] ∧ cls.accepts c = true
  | star cls, piece, _ | minus cls, piece, _ => ∀ c ∈ piece, cls.accepts c = true
  | plus cls, piece, _ => piece ≠ [] ∧ ∀ c ∈ piece, cls.accepts c = true
  | option cls, piece, _ => piece.length ≤ 1 ∧ ∀ c ∈ piece, cls.accepts c = true
  | balance x y, piece, _ => ∃ rest, piece = x :: rest ∧ ClosesPairs x y 1 rest
  | frontier cls, piece, behind =>
    piece = [] ∧ cls.accepts (before.getLast?.getD '\x00') = false ∧
      cls.accepts (behind.head?.getD '\x00') = true
  | openCapture, piece, _ | closeCapture, piece, _ => piece = []
  | reference digit, piece, _ =>
    digit ≠ '0' ∧ captures[digit.toNat - '1'.toNat]? = some ⟨false, piece⟩
  | atEnd, piece, behind => piece = [] ∧ behind = []

/-- The items match the pieces of a piece one after the other. -/
def MatchesAll : List Capture → List Char → List Item → List Char → List Char → Prop
  | _, _, [], piece, _ => piece = []
  | captures, before, i :: is, piece, behind =>
    ∃ a b, piece = a ++ b ∧ i.Matches captures before a (b ++ behind) ∧
      MatchesAll (i.record captures a) (before ++ a) is b behind

/-- The pattern is found in the text. -/
def Found (p : Pattern) (text : List Char) : Prop :=
  ∃ l piece r, text = l ++ piece ++ r ∧ (p.anchored = true → l = []) ∧
    MatchesAll [] l p.items piece r

/-! ### Short matches -/

def Item.isRegular : Item → Bool
  | frontier _ => false
  | reference _ => false
  | _ => true

/-- The item looks at nothing but the piece that it matches. -/
def Item.Regular (i : Item) : Prop :=
  i.isRegular = true

instance (i : Item) : Decidable i.Regular :=
  inferInstanceAs (Decidable (_ = _))

/-- The least number of characters that an item matches. -/
def Item.least : Item → ℕ
  | single _ => 1
  | plus _ => 1
  | balance _ _ => 2
  | _ => 0

theorem ClosesPairs.ne_nil {x y : Char} {text : List Char} (h : ClosesPairs x y 1 text) :
    text ≠ [] := by
  rintro rfl
  cases h

/-- What a regular item matches, a piece of least length matches as well, with anything around it.
-/
theorem Item.Matches.exists_least {captures : List Capture} {before piece behind : List Char}
    {i : Item} (h : i.Matches captures before piece behind) (hi : i.Regular) :
    ∃ m, m.length ≤ piece.length ∧ m.length ≤ i.least ∧
      ∀ captures before behind', (behind = [] → behind' = []) →
        i.Matches captures before m behind' := by
  cases i with
  | single cls =>
    obtain ⟨c, rfl, hc⟩ := h
    exact ⟨[c], le_rfl, le_rfl, fun _ _ _ _ ↦ ⟨c, rfl, hc⟩⟩
  | star cls => exact ⟨[], Nat.zero_le _, le_rfl, fun _ _ _ _ c hc ↦ by cases hc⟩
  | plus cls =>
    obtain ⟨hne, hall⟩ := h
    obtain ⟨c, rest, rfl⟩ := List.exists_cons_of_ne_nil hne
    refine ⟨[c], by simp, le_rfl, fun _ _ _ _ ↦ ⟨by simp, fun d hd ↦ ?_⟩⟩
    rw [List.mem_singleton.1 hd]
    exact hall c List.mem_cons_self
  | minus cls => exact ⟨[], Nat.zero_le _, le_rfl, fun _ _ _ _ c hc ↦ by cases hc⟩
  | option cls =>
    exact ⟨[], Nat.zero_le _, le_rfl, fun _ _ _ _ ↦ ⟨Nat.zero_le 1, fun c hc ↦ by cases hc⟩⟩
  | balance x y =>
    obtain ⟨rest, rfl, hrest⟩ := h
    have hpos := List.length_pos_of_ne_nil hrest.ne_nil
    refine ⟨[x, y], ?_, le_rfl, fun _ _ _ _ ↦ ⟨[y], rfl, by decide, ?_⟩⟩
    · simp only [List.length_cons, List.length_nil]
      omega
    · rw [if_pos rfl]
      rfl
  | frontier cls => cases hi
  | openCapture => exact ⟨[], Nat.zero_le _, le_rfl, fun _ _ _ _ ↦ rfl⟩
  | closeCapture => exact ⟨[], Nat.zero_le _, le_rfl, fun _ _ _ _ ↦ rfl⟩
  | reference digit => cases hi
  | atEnd => exact ⟨[], Nat.zero_le _, le_rfl, fun _ _ _ hend ↦ ⟨rfl, hend h.2⟩⟩

/-- What regular items match, a text of least length matches as well. -/
theorem exists_least {is : List Item} (his : ∀ i ∈ is, i.Regular) {captures : List Capture}
    {before piece behind : List Char} (h : MatchesAll captures before is piece behind) :
    ∃ m, m.length ≤ piece.length ∧ m.length ≤ (is.map Item.least).sum ∧
      ∀ captures before, MatchesAll captures before is m [] := by
  induction is generalizing captures before piece with
  | nil => exact ⟨[], Nat.zero_le _, le_rfl, fun _ _ ↦ rfl⟩
  | cons i is ih =>
    obtain ⟨hi, his⟩ := List.forall_mem_cons.1 his
    obtain ⟨a, b, rfl, ha, hb⟩ := h
    obtain ⟨m, hmpiece, hmleast, hm⟩ := ha.exists_least hi
    obtain ⟨n, hnpiece, hnleast, hn⟩ := ih his hb
    refine ⟨m ++ n, ?_, ?_, fun captures before ↦
      ⟨m, n, rfl, hm captures before _ fun hnil ↦ ?_, hn _ _⟩⟩
    · rw [List.length_append, List.length_append]
      omega
    · rw [List.length_append, List.map_cons, List.sum_cons]
      omega
    · -- behind the end of a text nothing is left to match
      obtain ⟨rfl, -⟩ := List.append_eq_nil_iff.1 hnil
      rw [List.append_nil]
      exact List.length_eq_zero_iff.1 (Nat.le_zero.1 hnpiece)

/-! ### Patterns without magic -/

/-- Nothing in the text is magic but dots. -/
def Flat : List Char → Prop
  | [] => True
  | c :: text =>
    c ∉ ['%', '[', '(', ')'] ∧ (text = [] → c ≠ '$') ∧ (∀ d ∈ text.head?, d ∉ repetitions) ∧
      Flat text

instance Flat.decide : (text : List Char) → Decidable (Flat text)
  | [] => .isTrue trivial
  | c :: text =>
    have := Flat.decide text
    inferInstanceAs (Decidable (c ∉ ['%', '[', '(', ')'] ∧ (text = [] → c ≠ '$') ∧
      (∀ d ∈ text.head?, d ∉ repetitions) ∧ Flat text))

/-- Nothing in the text is magic: as a pattern it stands for itself. -/
def IsLiteral (text : List Char) : Prop :=
  text.head? ≠ some '^' ∧ '.' ∉ text ∧ Flat text

instance (text : List Char) : Decidable (IsLiteral text) :=
  inferInstanceAs (Decidable (_ ∧ _ ∧ _))

/-- The item of a character that is not magic, or a dot. -/
def flatItem (c : Char) : Item :=
  if c = '.' then .single .any else .single (.char c)

theorem length_setBody {text : List Char} {p : List Char × List Char} (h : setBody text = some p) :
    p.2.length + 2 ≤ text.length := by
  fun_induction setBody text generalizing p with
  | case1 => cases h
  | case2 => cases h
  | case3 d text hclose =>
    obtain rfl := Option.some.inj h
    rw [List.length_tail, List.length_cons, List.length_cons]
    omega
  | case4 d text hopen ih =>
    obtain ⟨q, hq, rfl⟩ := Option.map_eq_some_iff.1 h
    exact (ih hq).trans (Nat.le_add_right _ 2)
  | case5 c text hc =>
    obtain rfl := Option.some.inj h
    exact le_rfl
  | case6 c d text hc hd ih =>
    obtain ⟨q, hq, rfl⟩ := Option.map_eq_some_iff.1 h
    exact (ih hq).trans (Nat.le_succ _)

/-- A class has at least one character, and only a dot or a character that is not magic has one. -/
theorem length_charClass {text : List Char} {p : CharClass × List Char}
    (h : charClass text = some p) :
    p.2.length + 1 ≤ text.length ∧
      (text.length = p.2.length + 1 → ∃ c, text = c :: p.2 ∧ c ∉ ['%', '['] ∧
        Item.single p.1 = flatItem c) := by
  cases text with
  | nil => cases h
  | cons c text =>
    rw [charClass] at h
    rw [List.length_cons]
    split_ifs at h with hdot hpercent hset hcomplement
    · obtain rfl := Option.some.inj h
      exact ⟨le_rfl, fun _ ↦ ⟨c, rfl, by rw [hdot]; decide, (if_pos hdot).symm⟩⟩
    · obtain ⟨d, hd, rfl⟩ := Option.map_eq_some_iff.1 h
      cases text with
      | nil => cases hd
      | cons e text => exact ⟨by simp, fun heq ↦ by simp at heq⟩
    · obtain ⟨q, hq, rfl⟩ := Option.map_eq_some_iff.1 h
      have hlen := length_setBody hq
      rw [List.length_tail] at hlen
      dsimp only
      exact ⟨by omega, fun heq ↦ by omega⟩
    · obtain ⟨q, hq, rfl⟩ := Option.map_eq_some_iff.1 h
      have hlen := length_setBody hq
      dsimp only
      exact ⟨by omega, fun heq ↦ by omega⟩
    · obtain rfl := Option.some.inj h
      exact ⟨le_rfl, fun _ ↦ ⟨c, rfl, by simp [hpercent, hset], (if_neg hdot).symm⟩⟩

/-- A repetition only makes an item longer. -/
theorem length_repeated (cls : CharClass) (text : List Char) :
    (repeated cls text).1.least + (repeated cls text).2.length ≤ text.length + 1 ∧
      ((repeated cls text).1.least + (repeated cls text).2.length = text.length + 1 →
        repeated cls text = (.single cls, text) ∧ ∀ d ∈ text.head?, d ∉ repetitions) := by
  cases text with
  | nil => exact ⟨le_rfl, fun _ ↦ ⟨rfl, fun d hd ↦ by cases hd⟩⟩
  | cons c text =>
    rw [repeated]
    split_ifs with hstar hplus hminus hoption
    · exact ⟨by simp [Item.least]; omega, fun heq ↦ by simp [Item.least] at heq; omega⟩
    · exact ⟨by simp [Item.least]; omega, fun heq ↦ by simp [Item.least] at heq; omega⟩
    · exact ⟨by simp [Item.least]; omega, fun heq ↦ by simp [Item.least] at heq; omega⟩
    · exact ⟨by simp [Item.least]; omega, fun heq ↦ by simp [Item.least] at heq; omega⟩
    · refine ⟨(Nat.add_comm _ _).le, fun _ ↦ ⟨rfl, fun d hd ↦ ?_⟩⟩
      obtain rfl := Option.some.inj hd
      simp [repetitions, hstar, hplus, hminus, hoption]

/-- A class with its repetition is as long as its text at most, and at least only if it is a
character without one. -/
theorem length_classItem {text : List Char} {p : CharClass × List Char}
    (h : charClass text = some p) :
    (repeated p.1 p.2).1.least + (repeated p.1 p.2).2.length ≤ text.length ∧
      (text.length ≤ (repeated p.1 p.2).1.least + (repeated p.1 p.2).2.length →
        ∃ c, text = c :: (repeated p.1 p.2).2 ∧ (repeated p.1 p.2).1 = flatItem c ∧
          c ∉ ['%', '['] ∧ ∀ d ∈ (repeated p.1 p.2).2.head?, d ∉ repetitions) := by
  obtain ⟨hclass, hshort⟩ := length_charClass h
  obtain ⟨hrepeated, hsingle⟩ := length_repeated p.1 p.2
  refine ⟨by omega, fun hge ↦ ?_⟩
  obtain ⟨heq, hhead⟩ := hsingle (by omega)
  obtain ⟨c, htext, hmagic, hflat⟩ := hshort (by omega)
  rw [heq]
  exact ⟨c, htext, hflat, hmagic, hhead⟩

theorem length_percentItem {d : Char} {text : List Char} {p : Item × List Char}
    (h : percentItem d text = some p) : p.1.least + p.2.length ≤ text.length + 1 := by
  rw [percentItem.eq_def] at h
  split_ifs at h with hbalance hfrontier hset hdigit
  · split at h
    · obtain rfl := Option.some.inj h
      simp only [Item.least, List.length_cons]
      omega
    · cases h
  · obtain ⟨q, hq, rfl⟩ := Option.map_eq_some_iff.1 h
    have hlen := (length_charClass hq).1
    simp only [Item.least]
    omega
  · obtain rfl := Option.some.inj h
    simp only [Item.least]
    omega
  · obtain rfl := Option.some.inj h
    exact (length_repeated _ _).1

/-- An item matches no more than its own text at least, and as much only if it is a character that
is not magic, or a dot. -/
theorem length_nextItem {text : List Char} {p : Item × List Char} (h : nextItem text = some p) :
    p.1.least + p.2.length ≤ text.length ∧
      (text.length ≤ p.1.least + p.2.length → ∃ c, text = c :: p.2 ∧ p.1 = flatItem c ∧
        c ∉ ['%', '[', '(', ')'] ∧ (p.2 = [] → c ≠ '$') ∧ ∀ d ∈ p.2.head?, d ∉ repetitions) := by
  cases text with
  | nil => cases h
  | cons c text =>
    rw [nextItem.eq_def] at h
    dsimp only at h
    rw [List.length_cons]
    split_ifs at h with hopen hclose hend hpercent
    · obtain rfl := Option.some.inj h
      simp only [Item.least]
      exact ⟨by omega, fun heq ↦ by omega⟩
    · obtain rfl := Option.some.inj h
      simp only [Item.least]
      exact ⟨by omega, fun heq ↦ by omega⟩
    · obtain rfl := Option.some.inj h
      simp [Item.least]
    · cases text with
      | nil => cases h
      | cons d text =>
        have hlen := length_percentItem h
        rw [List.length_cons]
        exact ⟨by omega, fun heq ↦ by omega⟩
    · obtain ⟨q, hq, rfl⟩ := Option.map_eq_some_iff.1 h
      obtain ⟨hle, hshort⟩ := length_classItem hq
      rw [List.length_cons] at hle hshort
      refine ⟨hle, fun hge ↦ ?_⟩
      obtain ⟨e, htext, hflat, hmagic, hhead⟩ := hshort hge
      obtain ⟨rfl, htail⟩ := List.cons.inj htext
      rw [List.mem_cons, List.mem_singleton, not_or] at hmagic
      refine ⟨c, htext, hflat, ?_, fun hnil hdollar ↦ hend ⟨hdollar, htail.trans hnil⟩, hhead⟩
      simp [hopen, hclose, hmagic.1, hmagic.2]

theorem nextItem_of_flat {c : Char} {text : List Char} (h : Flat (c :: text)) :
    nextItem (c :: text) = some (flatItem c, text) := by
  obtain ⟨hmagic, hend, hhead, -⟩ := h
  simp only [List.mem_cons, List.not_mem_nil, or_false, not_or] at hmagic
  obtain ⟨hpercent, hset, hopen, hclose⟩ := hmagic
  have hrepeated (cls : CharClass) : repeated cls text = (.single cls, text) := by
    cases text with
    | nil => rfl
    | cons d text =>
      have hd := hhead d rfl
      simp only [repetitions, List.mem_cons, List.not_mem_nil, or_false, not_or] at hd
      rw [repeated, if_neg hd.1, if_neg hd.2.1, if_neg hd.2.2.1, if_neg hd.2.2.2]
  have hdollar : ¬ (c = '$' ∧ text = []) := fun h ↦ hend h.2 h.1
  rw [nextItem.eq_def]
  dsimp only
  rw [if_neg hopen, if_neg hclose, if_neg hdollar, if_neg hpercent, charClass, flatItem]
  split_ifs with hdot
  · exact congrArg some (hrepeated _)
  · exact congrArg some (hrepeated _)

theorem length_items {fuel : ℕ} {text : List Char} {is : List Item}
    (h : items fuel text = some is) :
    (is.map Item.least).sum ≤ text.length ∧
      (text.length ≤ (is.map Item.least).sum → Flat text ∧ is = text.map flatItem) := by
  induction fuel generalizing text is with
  | zero =>
    cases text with
    | nil =>
      cases h
      exact ⟨le_rfl, fun _ ↦ ⟨trivial, rfl⟩⟩
    | cons c text => cases h
  | succ fuel ih =>
    cases text with
    | nil =>
      cases h
      exact ⟨le_rfl, fun _ ↦ ⟨trivial, rfl⟩⟩
    | cons c text =>
      obtain ⟨p, hp, hmap⟩ := Option.bind_eq_some_iff.1 h
      obtain ⟨rest, hrest, rfl⟩ := Option.map_eq_some_iff.1 hmap
      obtain ⟨hitem, hsame⟩ := length_nextItem hp
      obtain ⟨hall, hflat⟩ := ih hrest
      rw [List.map_cons, List.sum_cons]
      refine ⟨by omega, fun hge ↦ ?_⟩
      obtain ⟨d, htext, hd, hmagic, hend, hhead⟩ := hsame (by omega)
      obtain ⟨rfl, rfl⟩ := List.cons.inj htext
      obtain ⟨htail, rfl⟩ := hflat (by omega)
      exact ⟨⟨hmagic, hend, hhead, htail⟩, by rw [hd, List.map_cons]⟩

theorem items_of_flat {text : List Char} (h : Flat text) {fuel : ℕ} (hfuel : text.length ≤ fuel) :
    items fuel text = some (text.map flatItem) := by
  induction text generalizing fuel with
  | nil => cases fuel <;> rfl
  | cons c text ih =>
    cases fuel with
    | zero => cases hfuel
    | succ fuel =>
      rw [items, nextItem_of_flat h, Option.bind_some,
        ih h.2.2.2 (Nat.le_of_succ_le_succ hfuel)]
      rfl

/-! ### Exact patterns -/

/-- A pattern without magic but dots matches what has the same characters, dots aside. -/
theorem matchesAll_flat {text piece : List Char}
    (h : List.Forall₂ (fun c d ↦ c = '.' ∨ d = c) text piece) (captures : List Capture)
    (before behind : List Char) :
    MatchesAll captures before (text.map flatItem) piece behind := by
  induction h generalizing captures before with
  | nil => rfl
  | @cons c d text piece hc hrest ih =>
    refine ⟨[d], piece, rfl, ?_, ih _ _⟩
    rw [flatItem]
    split_ifs with hdot
    · exact ⟨d, rfl, rfl⟩
    · exact ⟨d, rfl, decide_eq_true (hc.resolve_left hdot)⟩

/-- A pattern without magic matches itself only. -/
theorem matchesAll_literal_iff {text piece behind : List Char} (h : '.' ∉ text)
    {captures : List Capture} {before : List Char} :
    MatchesAll captures before (text.map flatItem) piece behind ↔ piece = text := by
  constructor
  · intro hmatches
    induction text generalizing captures before piece with
    | nil => exact hmatches
    | cons c text ih =>
      rw [List.mem_cons, not_or] at h
      obtain ⟨a, b, rfl, ha, hb⟩ := hmatches
      rw [flatItem, if_neg (Ne.symm h.1)] at ha
      obtain ⟨d, rfl, hd⟩ := ha
      rw [ih h.2 hb, of_decide_eq_true hd]
      rfl
  · rintro rfl
    exact matchesAll_flat (List.forall₂_same.2 fun c _ ↦ .inr rfl) captures before behind

theorem capturesClose_flat (text : List Char) : capturesClose 0 (text.map flatItem) = true := by
  induction text with
  | nil => rfl
  | cons c text ih =>
    rw [List.map_cons, flatItem]
    split_ifs <;> exact ih

theorem count_flat (text : List Char) : (text.map flatItem).count .openCapture = 0 := by
  refine List.count_eq_zero.2 fun hmem ↦ ?_
  obtain ⟨c, -, hc⟩ := List.mem_map.1 hmem
  rw [flatItem] at hc
  split_ifs at hc

theorem parse_of_literal {text : List Char} (h : IsLiteral text) :
    parse text = some ⟨false, text.map flatItem⟩ := by
  have hanchor : decide (text.head? = some '^') = false := decide_eq_false h.1
  rw [parse]
  simp only [hanchor, Bool.false_eq_true, if_false, items_of_flat h.2.2 le_rfl,
    capturesClose_flat, count_flat, Nat.zero_le, and_self, if_true]

theorem parse_eq_some {text : List Char} {p : Pattern} (h : parse text = some p) :
    (∃ body, text = '^' :: body ∧ items body.length body = some p.items) ∨
      (text.head? ≠ some '^' ∧ p.anchored = false ∧
        items text.length text = some p.items) := by
  rw [parse] at h
  by_cases hanchor : text.head? = some '^'
  · obtain ⟨body, rfl⟩ : ∃ body, text = '^' :: body := by
      cases text with
      | nil => cases hanchor
      | cons c body => exact ⟨body, by rw [Option.some.inj hanchor]⟩
    simp only [List.head?_cons, decide_true, if_true, List.tail_cons] at h
    split at h
    · cases h
    · rename_i is hitems
      split_ifs at h
      obtain rfl := Option.some.inj h
      exact .inl ⟨body, rfl, hitems⟩
  · simp only [hanchor, decide_false, Bool.false_eq_true, if_false] at h
    split at h
    · cases h
    · rename_i is hitems
      split_ifs at h
      obtain rfl := Option.some.inj h
      exact .inr ⟨hanchor, rfl, hitems⟩

/-- A pattern without magic is found in the texts that contain it. -/
theorem found_literal_iff {text : List Char} (h : IsLiteral text) (t : List Char) :
    Found ⟨false, text.map flatItem⟩ t ↔ text <:+: t := by
  constructor
  · rintro ⟨l, piece, r, rfl, -, hmatches⟩
    rw [(matchesAll_literal_iff h.2.1).1 hmatches]
    exact ⟨l, r, rfl⟩
  · rintro ⟨l, r, rfl⟩
    refine ⟨l, text, r, rfl, ?_, (matchesAll_literal_iff h.2.1).2 rfl⟩
    intro hanchored
    cases hanchored

/-- Nothing in the pattern is a frontier or refers to a capture. -/
def Pattern.Regular (p : Pattern) : Prop :=
  ∀ i ∈ p.items, i.Regular

/-- The pattern finds the texts that contain `s`, and no others. -/
def FindsExactly (pattern s : List Char) : Prop :=
  ∃ p, parse pattern = some p ∧ ∀ text, Found p text ↔ s <:+: text

theorem IsLiteral.findsExactly {s : List Char} (h : IsLiteral s) : FindsExactly s s :=
  ⟨_, parse_of_literal h, found_literal_iff h⟩

/-- A regular pattern is found in a text as short as its items allow. -/
theorem Found.exists_least {p : Pattern} (hp : p.Regular) {text : List Char} (h : Found p text) :
    ∃ m, m.length ≤ (p.items.map Item.least).sum ∧ Found p m := by
  obtain ⟨l, piece, r, -, -, hmatches⟩ := h
  obtain ⟨m, -, hleast, hm⟩ := LuaPattern.exists_least hp hmatches
  exact ⟨m, hleast, [], m, [], (List.append_nil m).symm, fun _ ↦ rfl, hm [] []⟩

/-- A regular pattern that is no longer than a text finds exactly the texts that contain it only if
it is that text, without magic. -/
theorem FindsExactly.literal {pattern s : List Char} (h : FindsExactly pattern s)
    (hlen : pattern.length ≤ s.length) (hregular : ∀ p, parse pattern = some p → p.Regular) :
    pattern = s ∧ IsLiteral s := by
  obtain ⟨p, hp, hfinds⟩ := h
  obtain ⟨m, hleast, hm⟩ := ((hfinds s).2 List.infix_rfl).exists_least (hregular p hp)
  have hs := ((hfinds m).1 hm).length_le
  obtain ⟨body, rfl, hitems⟩ | ⟨hanchor, hanchored, hitems⟩ := parse_eq_some hp
  · have hsum := (length_items hitems).1
    rw [List.length_cons] at hlen
    omega
  · obtain ⟨hsum, hsame⟩ := length_items hitems
    obtain ⟨hflat, heq⟩ := hsame (by omega)
    -- a dot matches other characters as well
    have hfill (x : Char) : s = pattern.map fun c ↦ if c = '.' then x else c := by
      have hfound : Found p (pattern.map fun c ↦ if c = '.' then x else c) := by
        refine ⟨[], _, [], (List.append_nil _).symm, fun _ ↦ rfl, ?_⟩
        rw [heq]
        refine matchesAll_flat (List.forall₂_map_right_iff.2 (List.forall₂_same.2 fun c _ ↦ ?_))
          _ _ _
        split_ifs with hdot
        · exact .inl hdot
        · exact .inr rfl
      refine ((hfinds _).1 hfound).eq_of_length ?_
      rw [List.length_map]
      omega
    have hdot : '.' ∉ pattern := by
      intro hmem
      have hxy := List.map_inj_left.1 ((hfill 'x').symm.trans (hfill 'y')) '.' hmem
      exact absurd hxy (by decide)
    have hpattern : pattern = s := by
      have hid : (pattern.map fun c ↦ if c = '.' then 'x' else c) = pattern.map id :=
        List.map_congr_left fun c hc ↦ if_neg (ne_of_mem_of_not_mem hc hdot)
      rw [hfill 'x', hid, List.map_id]
    exact ⟨hpattern, hpattern ▸ ⟨hanchor, hdot, hflat⟩⟩

/-- A pattern that is no longer than `s` finds exactly the texts that contain `s` if and only if it
is `s` and nothing of it is magic. -/
theorem finds_exactly_iff {pattern s : List Char} (hlen : pattern.length ≤ s.length)
    (hregular : ∀ p, parse pattern = some p → p.Regular) :
    FindsExactly pattern s ↔ pattern = s ∧ IsLiteral s := by
  refine ⟨fun h ↦ h.literal hlen hregular, ?_⟩
  rintro ⟨rfl, hliteral⟩
  exact hliteral.findsExactly

end LuaPattern
