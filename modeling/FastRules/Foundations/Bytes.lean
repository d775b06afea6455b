import Mathlib.Data.List.GetD
import Mathlib.Data.Nat.Digits.Lemmas
import Mathlib.Logic.Function.Basic

/-!
# Bytes in memory

Numbers as sequences of bytes in either byte order, and a memory that is loaded from and stored to.
A store is seen by a load from the same place, and by nothing outside it.
-/

namespace Bytes

/-! ### Numbers -/

/-- The lowest `w` bytes of a number, the least significant first. -/
def digits : ℕ → ℕ → List UInt8
  | 0, _ => []
  | w + 1, n => UInt8.ofNat n :: digits w (n / 256)

/-- The number of which these are the bytes, the least significant first. -/
def value (bytes : List UInt8) : ℕ :=
  Nat.ofDigits 256 (bytes.map UInt8.toNat)

@[simp] theorem length_digits (w n : ℕ) : (digits w n).length = w := by
  induction w generalizing n with
  | zero => rfl
  | succ w ih => rw [digits, List.length_cons, ih]

theorem value_digits (w n : ℕ) : value (digits w n) = n % 256 ^ w := by
  induction w generalizing n with
  | zero => rw [pow_zero, Nat.mod_one]; rfl
  | succ w ih =>
    show Nat.ofDigits 256 ((UInt8.ofNat n).toNat :: (digits w (n / 256)).map UInt8.toNat) = _
    rw [Nat.ofDigits_cons, ← value, ih, UInt8.toNat_ofNat']
    exact (pow_succ' 256 w ▸ Nat.mod_mul).symm

/-- Which byte of a number comes first. -/
inductive Endian
  | little
  | big
  deriving DecidableEq, Repr

namespace Endian

variable (e : Endian) (w n : ℕ)

def encode : List UInt8 :=
  match e with
  | little => digits w n
  | big => (digits w n).reverse

def decode (bytes : List UInt8) : ℕ :=
  match e with
  | little => value bytes
  | big => value bytes.reverse

@[simp] theorem length_encode : (e.encode w n).length = w := by
  cases e with
  | little => exact length_digits w n
  | big => exact List.length_reverse.trans (length_digits w n)

theorem decode_encode : e.decode (e.encode w n) = n % 256 ^ w := by
  cases e with
  | little => exact value_digits w n
  | big =>
    show value (digits w n).reverse.reverse = _
    rw [List.reverse_reverse, value_digits]

end Endian

/-! ### Memory -/

abbrev Memory := ℕ → UInt8

namespace Memory

variable (m : Memory) (a w : ℕ) (bytes : List UInt8)

def load : List UInt8 :=
  (List.range w).map fun i ↦ m (a + i)

def store : Memory :=
  fun x ↦ if a ≤ x then bytes.getD (x - a) (m x) else m x

@[simp] theorem length_load : (m.load a w).length = w := by
  rw [load, List.length_map, List.length_range]

variable {m a w bytes}

theorem load_congr {m' : Memory} (h : ∀ x, a ≤ x → x < a + w → m x = m' x) :
    m.load a w = m'.load a w :=
  List.map_congr_left fun i hi ↦ h (a + i) (Nat.le_add_right a i)
    (Nat.add_lt_add_left (List.mem_range.1 hi) a)

theorem load_store : (m.store a bytes).load a bytes.length = bytes := by
  refine List.ext_getElem (length_load _ _ _) fun i hi hi' ↦ ?_
  show (Memory.load _ a bytes.length)[i] = _
  simp only [load, List.getElem_map, List.getElem_range]
  rw [store, if_pos (Nat.le_add_right a i), Nat.add_sub_cancel_left, List.getD_eq_getElem _ _ hi']

theorem load_store_of_length (h : bytes.length = w) : (m.store a bytes).load a w = bytes :=
  h ▸ load_store

/-- A store leaves everything outside its bytes as it is. -/
theorem store_outside {x : ℕ} (h : ¬(a ≤ x ∧ x < a + bytes.length)) : m.store a bytes x = m x := by
  rw [store]
  split_ifs with ha
  · exact List.getD_eq_default _ _ (by omega)
  · rfl

/-- What is stored does not depend on what was there. -/
theorem store_inside (m' : Memory) {x : ℕ} (h : a ≤ x ∧ x < a + bytes.length) :
    m.store a bytes x = m'.store a bytes x := by
  rw [store, store, if_pos h.1, if_pos h.1, List.getD_eq_getElem _ _ (by omega),
    List.getD_eq_getElem _ _ (by omega)]

/-- A store writes to each of its bytes: one that had another value before is changed. -/
theorem exists_store_ne (m : Memory) {x : ℕ} (h : a ≤ x ∧ x < a + bytes.length) :
    ∃ b, store (Function.update m x b) a bytes x ≠ Function.update m x b x := by
  obtain ⟨b, hb⟩ : ∃ b, m.store a bytes x ≠ b := by
    by_cases hzero : m.store a bytes x = 0
    · exact ⟨1, hzero ▸ by decide⟩
    · exact ⟨0, hzero⟩
  refine ⟨b, ?_⟩
  rwa [store_inside m h, Function.update_self]

end Memory

end Bytes
