import Mathlib.Data.List.Basic
import Mathlib.Logic.Function.Basic

/-!
# Logs of writes

Values under keys, and the writes that change them. Each write is marked with who made it, so that a
log tells not only what is under a key in the end (`written`) but who put it there (`lastWrite`).
-/

/-- A write of a value under a key. -/
structure Write (Key Mark Value : Type) where
  key : Key
  mark : Mark
  value : Value
  deriving DecidableEq

namespace WriteLog

variable {Key Mark Value : Type} [DecidableEq Key]

/-- What is under the keys after the writes. -/
def written (start : Key → Value) (log : List (Write Key Mark Value)) : Key → Value :=
  log.foldl (fun values w ↦ Function.update values w.key w.value) start

/-- The last write under a key. -/
def lastWrite : List (Write Key Mark Value) → Key → Option (Write Key Mark Value)
  | [], _ => none
  | w :: log, key => (lastWrite log key).or (if w.key = key then some w else none)

variable {log log' : List (Write Key Mark Value)} {key : Key} {w : Write Key Mark Value}

@[simp] theorem lastWrite_nil (key : Key) :
    lastWrite ([] : List (Write Key Mark Value)) key = none := rfl

@[simp] theorem lastWrite_append (log log' : List (Write Key Mark Value)) (key : Key) :
    lastWrite (log ++ log') key = (lastWrite log' key).or (lastWrite log key) := by
  induction log with
  | nil => simp
  | cons w log ih => rw [List.cons_append, lastWrite, ih, lastWrite, Option.or_assoc]

theorem mem_of_lastWrite (h : lastWrite log key = some w) : w ∈ log ∧ w.key = key := by
  induction log with
  | nil => exact absurd h (by simp)
  | cons w' log ih =>
    rw [lastWrite, Option.or_eq_some_iff] at h
    rcases h with hlater | ⟨-, hfirst⟩
    · exact ⟨List.mem_cons_of_mem w' (ih hlater).1, (ih hlater).2⟩
    · split_ifs at hfirst with hkey
      obtain rfl := Option.some.inj hfirst
      exact ⟨List.mem_cons_self, hkey⟩

theorem lastWrite_eq_none_iff : lastWrite log key = none ↔ ∀ w ∈ log, w.key ≠ key := by
  induction log with
  | nil => simp
  | cons w log ih => simp [lastWrite, ih, and_comm]

/-- Writes of one value. -/
theorem lastWrite_map_const {α : Type} (l : List α) (f : α → Key) (mark : Mark) (value : Value)
    (key : Key) :
    lastWrite (l.map fun a ↦ ⟨f a, mark, value⟩) key =
      if key ∈ l.map f then some ⟨key, mark, value⟩ else none := by
  induction l with
  | nil => rfl
  | cons a l ih =>
    rw [List.map_cons, lastWrite, ih, List.map_cons]
    by_cases hlater : key ∈ l.map f
    · rw [if_pos hlater, if_pos (List.mem_cons_of_mem _ hlater)]
      rfl
    · rw [if_neg hlater]
      by_cases hkey : f a = key
      · subst hkey
        rw [if_pos rfl, if_pos List.mem_cons_self]
        rfl
      · rw [if_neg hkey, if_neg fun h ↦ (List.mem_cons.1 h).elim (fun h ↦ hkey h.symm) hlater]
        rfl

/-- A key holds what was last written under it. -/
theorem written_eq (start : Key → Value) (log : List (Write Key Mark Value)) (key : Key) :
    written start log key = (lastWrite log key).elim (start key) fun w ↦ w.value := by
  induction log generalizing start with
  | nil => rfl
  | cons w log ih =>
    show written (Function.update start w.key w.value) log key = _
    rw [ih, lastWrite]
    rcases lastWrite log key with - | w'
    · by_cases hkey : w.key = key
      · subst hkey
        simp
      · simp [hkey, Function.update_of_ne (Ne.symm hkey)]
    · rfl

theorem written_of_some {start : Key → Value} (h : lastWrite log key = some w) :
    written start log key = w.value := by
  rw [written_eq, h]
  rfl

end WriteLog
