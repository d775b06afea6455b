import FastRules.Types.Registry

/-!
# Access to fields

The handlers know of a field only its offset and one of the tags `int`, `double` and `bool`, and
read and write the four, eight or one bytes of a C++ `int`, `double` or `bool`. So access is right
for fields of these types, and of a `long` of four bytes, and for no others
(`accessStaysInside_iff`), provided that the handlers find the field under its name at all
(`findsField_iff`).
-/

namespace FastRules.Types

open Bytes

/-! ### What is to hold of access -/

section Definitions

variable (p : Platform) (lua : LuaApi)

/-- The value of a field of an object. -/
def storedValue (t : Scalar) (ptr : ℕ) (mem : Memory) : FieldValue MetaEntry :=
  t.decode p (mem.load ptr (t.size p))

/-- The bytes of the field represent a value. -/
def HoldsValue (t : Scalar) (ptr : ℕ) (mem : Memory) : Prop :=
  t.IsValid (mem.load ptr (t.size p))

/-- A value of Lua that a field of the type can have. -/
structure Representable (t : Scalar) (value : FieldValue MetaEntry) : Prop where
  exists_bytes : ∃ bytes : List UInt8,
    bytes.length = t.size p ∧ t.IsValid bytes ∧ t.decode p bytes = value
  isLuaInteger : ∀ n, value = .integer n → toInt64 n = n

/-- Reading the field of an object gives its value. Writing a value makes later reads give it, and
changes no byte outside the field. -/
structure AccessStaysInside (mt : Option Metatable) (name : String) (offset : ℕ) (t : Scalar) :
    Prop where
  reads : ∀ base mem, HoldsValue p t (base + offset) mem →
    index p lua mt (some base) name mem = storedValue p t (base + offset) mem
  writes : ∀ base mem value, HoldsValue p t (base + offset) mem → Representable p t value →
    index p lua mt (some base) name (newindex p lua mt (some base) name value mem) = value
  frame : ∀ base mem value, HoldsValue p t (base + offset) mem → Representable p t value →
    ∀ x, ¬(base + offset ≤ x ∧ x < base + offset + t.size p) →
      newindex p lua mt (some base) name value mem x = mem x

/-- The types whose values the handlers read and write. -/
def Scalar.IsExact (t : Scalar) : Prop :=
  t = .int ∨ t = .double ∨ t = .bool ∨ t = .long ∧ p.longBytes = 4

instance (t : Scalar) : Decidable (t.IsExact p) :=
  inferInstanceAs (Decidable (_ ∨ _))

end Definitions

/-- The number of bytes that a tag stands for. -/
def tagSize (luaType : String) : ℕ :=
  if luaType = "int" then 4 else if luaType = "double" then 8 else 1

/-- The tag of a scalar type. -/
abbrev Scalar.tag (t : Scalar) : String :=
  getLuaType (.scalar t)

/-- The tag of the values that are read under a tag. -/
def kindOf : FieldValue MetaEntry → String
  | .integer _ => "int"
  | .number _ => "double"
  | .boolean _ => "bool"
  | .nil | .string _ | .entry _ => ""

section Access

variable {p : Platform} {lua : LuaApi} {mt : Option Metatable} {name : String} {offset base ptr : ℕ}
  {t : Scalar} {mem : Memory} {value : FieldValue MetaEntry}

theorem kindOf_storedValue : kindOf (storedValue p t ptr mem) = t.tag := by
  cases t <;> rfl

/-- What is read under no tag of a scalar type has none. -/
theorem kindOf_readField (luaType : String) : kindOf (readField p lua mem ptr luaType) =
    if luaType = "int" ∨ luaType = "double" ∨ luaType = "bool" then luaType else "" := by
  rw [readField]
  split_ifs <;> simp_all [kindOf]

theorem tag_cases (t : Scalar) : t.tag = "int" ∨ t.tag = "double" ∨ t.tag = "bool" := by
  cases t <;> decide

theorem tagSize_pos (luaType : String) : 0 < tagSize luaType := by
  rw [tagSize]
  split_ifs <;> omega

/-- The bytes that are written for a value under the tag of a type. -/
def writtenBytes (p : Platform) (lua : LuaApi) (t : Scalar) (value : FieldValue MetaEntry) :
    List UInt8 :=
  if t.tag = "int" then p.endian.encode 4 ((toInt32 (lua.toInteger value)) % 2 ^ 32).toNat
  else if t.tag = "double" then p.endian.encode 8 (lua.toNumber value).toNat
  else [if toBoolean value then 1 else 0]

theorem length_writtenBytes : (writtenBytes p lua t value).length = tagSize t.tag := by
  rw [writtenBytes, tagSize]
  split_ifs <;> simp

theorem writeField_tag :
    writeField p lua mem ptr t.tag value = mem.store ptr (writtenBytes p lua t value) := by
  rw [writeField, writtenBytes]
  rcases tag_cases t with h | h | h <;> rw [h] <;> rfl

/-- The handlers find this offset and this tag for the name. -/
structure Finds (mt : Option Metatable) (name : String) (offset : ℕ) (luaType : String) : Prop where
  noEntry : (mt.bind fun mt ↦ mt (cStr name)) = none
  field : findField mt name = some ⟨offset, luaType⟩

theorem Finds.index_eq {luaType : String} (h : Finds mt name offset luaType) :
    index p lua mt (some base) name mem = readField p lua mem (base + offset) luaType := by
  simp only [index, h.noEntry, h.field]

theorem Finds.newindex_eq (h : Finds mt name offset t.tag) :
    newindex p lua mt (some base) name value mem =
      mem.store (base + offset) (writtenBytes p lua t value) := by
  simp only [newindex, h.field]
  exact writeField_tag

/-! ### Types that are read and written -/

theorem Scalar.IsExact.size_eq (ht : t.IsExact p) : t.size p = tagSize t.tag := by
  rcases ht with rfl | rfl | rfl | ⟨rfl, h⟩
  · rfl
  · rfl
  · rfl
  · exact h

/-- A `long` of four bytes is an `int`. -/
theorem decode_long (h : p.longBytes = 4) (bytes : List UInt8) :
    (Scalar.long.decode p bytes : FieldValue MetaEntry) = Scalar.int.decode p bytes := by
  show FieldValue.integer (Int.bmod _ (2 ^ (8 * p.longBytes))) = FieldValue.integer (toInt32 _)
  rw [h]
  rfl

theorem Scalar.IsExact.readField_eq (ht : t.IsExact p) :
    readField p lua mem ptr t.tag = storedValue p t ptr mem := by
  rcases ht with rfl | rfl | rfl | ⟨rfl, h⟩
  · rfl
  · rfl
  · rfl
  · rw [storedValue, decode_long h, Scalar.size, h]
    rfl

section Convert

variable (hlua : lua.Converts)
include hlua

/-- The bytes written for an `int` are read as it. -/
theorem decode_written_int {n : Int} (hn : toInt32 n = n) (hn' : toInt64 n = n) :
    (Scalar.int.decode p (writtenBytes p lua .int (.integer n)) : FieldValue MetaEntry) =
      .integer n := by
  have hcast : (((n % 2 ^ 32).toNat % 256 ^ 4 : ℕ) : Int) = n % 2 ^ 32 := by omega
  rw [writtenBytes, if_pos (by decide), Scalar.decode, hlua.toInteger_integer n hn', hn,
    Endian.decode_encode, hcast]
  exact congrArg FieldValue.integer ((Int.emod_bmod n (2 ^ 32)).trans hn)

/-- The bytes written for a `double` are read as it. -/
theorem decode_written_double (word : BitVec 64) :
    (Scalar.double.decode p (writtenBytes p lua .double (.number word)) : FieldValue MetaEntry) =
      .number word := by
  have hlt : word.toNat < 256 ^ 8 := word.isLt
  rw [writtenBytes, if_neg (by decide), if_pos (by decide), Scalar.decode, hlua.toNumber_number,
    Endian.decode_encode, Nat.mod_eq_of_lt hlt, BitVec.ofNat_toNat, BitVec.setWidth_eq]

omit hlua in
/-- The bytes written for a `bool` are read as it. -/
theorem decode_written_bool (b : Bool) :
    (Scalar.bool.decode p (writtenBytes p lua .bool (.boolean b)) : FieldValue MetaEntry) =
      .boolean b := by
  show FieldValue.boolean _ = _
  rcases p.endian <;> cases b <;> rfl

/-- A value that the type can represent is what its bytes are read as. -/
theorem Scalar.IsExact.decode_writtenBytes (ht : t.IsExact p) (hvalue : Representable p t value) :
    t.decode p (writtenBytes p lua t value) = value := by
  obtain ⟨⟨bytes, -, -, rfl⟩, hinteger⟩ := hvalue
  rcases ht with rfl | rfl | rfl | ⟨rfl, h⟩
  · exact decode_written_int hlua Int.bmod_bmod (hinteger _ rfl)
  · exact decode_written_double hlua _
  · exact decode_written_bool _
  · rw [decode_long h] at hinteger ⊢
    rw [decode_long h]
    exact decode_written_int hlua Int.bmod_bmod (hinteger _ rfl)

theorem Finds.accessStaysInside (h : Finds mt name offset t.tag) (ht : t.IsExact p) :
    AccessStaysInside p lua mt name offset t where
  reads base mem _ := h.index_eq.trans ht.readField_eq
  writes base mem value _ hvalue := by
    have hlength : (writtenBytes p lua t value).length = t.size p :=
      length_writtenBytes.trans ht.size_eq.symm
    rw [h.newindex_eq, h.index_eq, ht.readField_eq, storedValue,
      Memory.load_store_of_length hlength, ht.decode_writtenBytes hlua hvalue]
  frame base mem value _ _ x hx := by
    rw [h.newindex_eq]
    refine Memory.store_outside ?_
    rwa [length_writtenBytes, ← ht.size_eq]

end Convert

/-! ### Other types -/

/-- Memory that is zero holds a value of every type. -/
theorem holdsValue_zero : HoldsValue p t ptr fun _ ↦ 0 := by
  rintro rfl
  exact .inl rfl

/-- What is read under the name has the tag of the type, so the handlers find a field with it. -/
theorem AccessStaysInside.finds (h : AccessStaysInside p lua mt name offset t) :
    ∃ found, Finds mt name found t.tag := by
  have hkind : kindOf (index p lua mt (some 0) name fun _ ↦ 0) = t.tag := by
    rw [h.reads 0 _ holdsValue_zero, kindOf_storedValue]
  have htag : t.tag ≠ "" := by rcases tag_cases t with h | h | h <;> rw [h] <;> decide
  simp only [index] at hkind
  split at hkind
  · exact absurd hkind.symm htag
  · rename_i hentry
    split at hkind
    · exact absurd hkind.symm htag
    · rename_i info hfield
      rw [kindOf_readField] at hkind
      split_ifs at hkind
      · exact ⟨info.offset, hentry, by rw [hfield, ← hkind]⟩
      · exact absurd hkind.symm htag

/-- The value of zero bytes can be represented. -/
theorem exists_representable (p : Platform) (t : Scalar) : ∃ value, Representable p t value := by
  refine ⟨t.decode p (p.endian.encode (t.size p) 0), ⟨_, Endian.length_encode _ _ _, ?_, rfl⟩, ?_⟩
  · rintro rfl
    refine .inl ?_
    rcases p.endian <;> rfl
  · intro n hn
    have hzero : p.endian.decode (p.endian.encode (t.size p) 0) = 0 :=
      (Endian.decode_encode _ _ _).trans (Nat.zero_mod _)
    obtain rfl : 0 = n := by
      rcases t <;> simp [Scalar.decode, hzero, toInt32, toInt64] at hn <;> exact hn
    rfl

/-- Writing stays inside the field, so the bytes that are written do. -/
theorem AccessStaysInside.range {found : ℕ} (h : AccessStaysInside p lua mt name offset t)
    (hfinds : Finds mt name found t.tag) {x : ℕ} (hx : found ≤ x ∧ x < found + tagSize t.tag) :
    offset ≤ x ∧ x < offset + t.size p := by
  by_contra hout
  obtain ⟨value, hvalue⟩ := exists_representable p t
  have hinside : 0 + found ≤ x ∧ x < 0 + found + (writtenBytes p lua t value).length := by
    rw [length_writtenBytes]
    omega
  obtain ⟨b, hb⟩ := Memory.exists_store_ne (fun _ ↦ 0) hinside
  refine hb ?_
  rw [← hfinds.newindex_eq]
  refine h.frame 0 _ value ?_ hvalue x (by omega)
  have hsame : Memory.load (Function.update (fun _ ↦ 0) x b) (0 + offset) (t.size p) =
      Memory.load (fun _ ↦ 0) (0 + offset) (t.size p) :=
    Memory.load_congr fun y hy hy' ↦ by rw [Function.update_of_ne (by omega)]
  rw [HoldsValue, hsame]
  exact holdsValue_zero

/-- Values of `2 ^ 31` are not read. -/
theorem toInt32_ne (n : Int) : toInt32 n ≠ 2 ^ 31 :=
  (Int.bmod_lt (by decide)).ne

theorem AccessStaysInside.stored_ne {found : ℕ} (h : AccessStaysInside p lua mt name offset t)
    (hfinds : Finds mt name found t.tag) (htag : t.tag = "int") :
    t.decode p (p.endian.encode (t.size p) (2 ^ 31)) ≠
      (.integer (2 ^ 31) : FieldValue MetaEntry) := by
  intro hdecode
  have hread := h.reads 0 (Memory.store (fun _ ↦ 0) (0 + offset)
    (p.endian.encode (t.size p) (2 ^ 31))) (by rintro rfl; exact absurd htag (by decide))
  rw [hfinds.index_eq, storedValue, Memory.load_store_of_length (Endian.length_encode _ _ _),
    hdecode,
    readField, if_pos htag] at hread
  exact toInt32_ne _ (FieldValue.integer.inj hread)

/-- Types that are smaller than their tag says, that are unsigned or that are larger are not read
and written as they should be. -/
theorem AccessStaysInside.isExact {found : ℕ} (h : AccessStaysInside p lua mt name offset t)
    (hfinds : Finds mt name found t.tag) : t.IsExact p := by
  have hpos := tagSize_pos t.tag
  have hfirst := h.range hfinds (x := found) (by omega)
  have hlast := h.range hfinds (x := found + tagSize t.tag - 1) (by omega)
  have hle : tagSize t.tag ≤ t.size p := by omega
  have hstored := h.stored_ne hfinds
  have hdecode (w : ℕ) : p.endian.decode (p.endian.encode w (2 ^ 31)) = 2 ^ 31 % 256 ^ w :=
    Endian.decode_encode _ _ _
  cases t with
  | bool => exact .inr (.inr (.inl rfl))
  | double => exact .inr (.inl rfl)
  | int => exact .inl rfl
  | char => exact absurd hle (show ¬tagSize "int" ≤ 1 by decide)
  | short | unsignedShort => exact absurd hle (show ¬tagSize "int" ≤ 2 by decide)
  | float => exact absurd hle (show ¬tagSize "double" ≤ 4 by decide)
  | long =>
    rcases p.longBytes_eq with h4 | h8
    · exact .inr (.inr (.inr ⟨rfl, h4⟩))
    · refine absurd ?_ (hstored rfl)
      rw [Scalar.decode, Scalar.size, hdecode, h8]
      rfl
  | unsignedLong =>
    refine absurd ?_ (hstored rfl)
    rw [Scalar.decode, Scalar.size, hdecode]
    rcases p.longBytes_eq with h4 | h8
    · rw [h4]
      rfl
    · rw [h8]
      rfl
  | unsignedInt | longLong | unsignedLongLong =>
    refine absurd ?_ (hstored rfl)
    rw [Scalar.decode, Scalar.size, hdecode]
    rfl

/-- Access is right exactly for the types `int`, `double`, `bool` and `long` of four bytes, where
the handlers find the field. -/
theorem accessStaysInside_iff (hlua : lua.Converts) : AccessStaysInside p lua mt name offset t ↔
    Finds mt name offset t.tag ∧ t.IsExact p := by
  constructor
  · intro h
    obtain ⟨found, hfinds⟩ := h.finds
    have hexact := h.isExact hfinds
    have hpos := tagSize_pos t.tag
    have hfirst := h.range hfinds (x := found) (by omega)
    have hlast := h.range hfinds (x := found + tagSize t.tag - 1) (by omega)
    -- The bytes that are written are as many as those of the field.
    obtain rfl : found = offset := by
      rw [hexact.size_eq] at hlast
      omega
    exact ⟨hfinds, hexact⟩
  · exact fun ⟨hfinds, hexact⟩ ↦ hfinds.accessStaysInside hlua hexact

end Access

end FastRules.Types
