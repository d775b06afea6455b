import Mathlib.Algebra.Order.Ring.Int
import Mathlib.Data.List.TakeWhile
import Mathlib.Data.Nat.Find

/-!
# Civil time

Times of day on days of the proleptic Gregorian calendar (`CivilTime`), the number of seconds from
the beginning of 1970 to such a time, and the time after a number of seconds: the one is the inverse
of the other (`toSeconds_ofSeconds`).

Civil times are written and read by a list of directives. Each directive reads what it has written,
since the fields have a fixed number of digits, and so a format reads back the fields that it writes
(`getTime_putTime`).
-/

/-- A time on a day of the calendar. Months and days count from 1. -/
structure CivilTime where
  year : Int
  month : ℕ
  day : ℕ
  hour : ℕ
  minute : ℕ
  second : ℕ
  deriving DecidableEq, Repr

namespace CivilTime

/-! ### The calendar -/

/-- A year is a leap year; the calendar repeats itself after 400 years. -/
def isLeap (year : ℕ) : Bool :=
  year % 4 = 0 ∧ (year % 100 ≠ 0 ∨ year % 400 = 0)

/-- The number of days in the years before the given one. -/
def daysBeforeYear (year : ℕ) : ℕ :=
  365 * year + (year + 3) / 4 - (year + 99) / 100 + (year + 399) / 400

/-- The number of days in the months before the given one. -/
def daysBeforeMonth (leap : Bool) (month : ℕ) : ℕ :=
  [0, 0, 31, 59, 90, 120, 151, 181, 212, 243, 273, 304, 334].getD month 365 +
    if leap ∧ 2 < month then 1 else 0

/-- The number of days from the beginning of the year 0 to the beginning of 1970. -/
def epochDays : Int :=
  719528

/-- The number of days in 400 years. -/
def cycleDays : Int :=
  146097

/-- The number of days from the beginning of 1970 to the given day. -/
def days (t : CivilTime) : Int :=
  cycleDays * (t.year / 400) + daysBeforeYear (t.year % 400).toNat +
    daysBeforeMonth (isLeap (t.year % 400).toNat) t.month + t.day - 1 - epochDays

/-- The number of seconds from the beginning of 1970 to the given time. -/
def toSeconds (t : CivilTime) : Int :=
  86400 * t.days + 3600 * t.hour + 60 * t.minute + t.second

/-- The year, in its cycle of 400 years, of a day of the cycle. -/
def yearOfDay (day : ℕ) : ℕ :=
  Nat.findGreatest (fun year ↦ daysBeforeYear year ≤ day) 399

/-- The month of a day of a year. -/
def monthOfDay (leap : Bool) (day : ℕ) : ℕ :=
  Nat.findGreatest (fun month ↦ daysBeforeMonth leap month ≤ day) 12

/-- The time so many seconds after the beginning of 1970. -/
def ofSeconds (seconds : Int) : CivilTime :=
  let days := seconds / 86400 + epochDays
  let dayOfCycle := (days % cycleDays).toNat
  let year := yearOfDay dayOfCycle
  let dayOfYear := dayOfCycle - daysBeforeYear year
  let month := monthOfDay (isLeap year) dayOfYear
  let rest := (seconds % 86400).toNat
  { year := 400 * (days / cycleDays) + year
    month
    day := dayOfYear - daysBeforeMonth (isLeap year) month + 1
    hour := rest / 3600
    minute := rest / 60 % 60
    second := rest % 60 }

theorem daysBeforeYear_succ (year : ℕ) :
    daysBeforeYear (year + 1) = daysBeforeYear year + 365 + if isLeap year then 1 else 0 := by
  have hstep (k : ℕ) (hk : 0 < k) : (year + 1 + (k - 1)) / k =
      (year + (k - 1)) / k + if year % k = 0 then 1 else 0 := by
    rw [show year + 1 + (k - 1) = year + (k - 1) + 1 by omega, Nat.succ_div]
    refine congrArg _ (if_congr ?_ rfl rfl)
    rw [show year + (k - 1) + 1 = year + k by omega, Nat.dvd_add_self_right,
      Nat.dvd_iff_mod_eq_zero]
  have h4 := hstep 4 (by decide)
  have h100 := hstep 100 (by decide)
  have h400 := hstep 400 (by decide)
  have hle : (year + 99) / 100 ≤ 365 * year := by omega
  simp only [daysBeforeYear, isLeap, decide_eq_true_eq]
  simp only [Nat.add_one_sub_one] at h4 h100 h400
  rw [h4, h100, h400]
  generalize (year + 3) / 4 = a at *
  generalize (year + 99) / 100 = b at *
  generalize (year + 399) / 400 = c at *
  split_ifs <;> omega

theorem daysBeforeYear_yearOfDay_le (day : ℕ) : daysBeforeYear (yearOfDay day) ≤ day := by
  have hzero : daysBeforeYear 0 ≤ day := Nat.zero_le day
  rw [yearOfDay]
  exact Nat.findGreatest_spec (P := fun year ↦ daysBeforeYear year ≤ day) (Nat.zero_le 399) hzero

theorem yearOfDay_le (day : ℕ) : yearOfDay day ≤ 399 :=
  Nat.findGreatest_le 399

theorem lt_daysBeforeYear_succ {day : ℕ} (h : day < 146097) :
    day < daysBeforeYear (yearOfDay day + 1) := by
  rcases (yearOfDay_le day).lt_or_eq with hlt | heq
  · exact not_le.1 (Nat.findGreatest_is_greatest
      (P := fun year ↦ daysBeforeYear year ≤ day) (Nat.lt_succ_self _) hlt)
  · rw [heq]
    exact h

theorem daysBeforeMonth_monthOfDay_le (leap : Bool) (day : ℕ) :
    daysBeforeMonth leap (monthOfDay leap day) ≤ day := by
  have hzero : daysBeforeMonth leap 0 ≤ day := by cases leap <;> exact Nat.zero_le day
  rw [monthOfDay]
  exact Nat.findGreatest_spec (P := fun month ↦ daysBeforeMonth leap month ≤ day) (Nat.zero_le 12)
    hzero

theorem monthOfDay_bounds (leap : Bool) (day : ℕ) :
    1 ≤ monthOfDay leap day ∧ monthOfDay leap day ≤ 12 :=
  ⟨Nat.le_findGreatest (by decide) (by cases leap <;> exact Nat.zero_le day),
    Nat.findGreatest_le 12⟩

/-- A month is over after 31 days at most. -/
theorem lt_daysBeforeMonth_add {leap : Bool} {day : ℕ} (h : day < if leap then 366 else 365) :
    day < daysBeforeMonth leap (monthOfDay leap day) + 31 := by
  obtain ⟨hle, hge⟩ := monthOfDay_bounds leap day
  have hlength : ∀ leap : Bool, ∀ month ∈ List.range 13, 1 ≤ month →
      (if month = 12 then if leap then 366 else 365 else daysBeforeMonth leap (month + 1)) ≤
        daysBeforeMonth leap month + 31 := by
    decide
  refine lt_of_lt_of_le ?_ (hlength leap _ (List.mem_range.2 (by omega)) hle)
  by_cases hlast : monthOfDay leap day = 12
  · rwa [if_pos hlast]
  · rw [if_neg hlast]
    have hlt : monthOfDay leap day + 1 ≤ 12 := by omega
    exact not_le.1 (Nat.findGreatest_is_greatest
      (P := fun month ↦ daysBeforeMonth leap month ≤ day) (Nat.lt_succ_self _) hlt)

/-- The number of seconds determines the time. -/
theorem toSeconds_ofSeconds (seconds : Int) : (ofSeconds seconds).toSeconds = seconds := by
  have hyear := daysBeforeYear_yearOfDay_le ((seconds / 86400 + epochDays) % cycleDays).toNat
  have hbound := yearOfDay_le ((seconds / 86400 + epochDays) % cycleDays).toNat
  simp only [toSeconds, days, ofSeconds]
  generalize yearOfDay ((seconds / 86400 + epochDays) % cycleDays).toNat = year at *
  have hcycle : (400 * ((seconds / 86400 + epochDays) / cycleDays) + (year : Int)) / 400 =
      (seconds / 86400 + epochDays) / cycleDays := by
    omega
  have hrest : ((400 * ((seconds / 86400 + epochDays) / cycleDays) + (year : Int)) % 400).toNat =
      year := by
    omega
  rw [hcycle, hrest]
  generalize hday : ((seconds / 86400 + epochDays) % cycleDays).toNat - daysBeforeYear year =
    dayOfYear
  have hmonth := daysBeforeMonth_monthOfDay_le (isLeap year) dayOfYear
  simp only [epochDays, cycleDays] at *
  omega

/-- The fields of a time that a clock shows, with a year of four digits. -/
structure Shown (t : CivilTime) : Prop where
  year : 1000 ≤ t.year ∧ t.year ≤ 9999
  month : 1 ≤ t.month ∧ t.month ≤ 12
  day : 1 ≤ t.day ∧ t.day ≤ 31
  hour : t.hour ≤ 23
  minute : t.minute ≤ 59
  second : t.second ≤ 59

/-- The number of seconds from the beginning of 1970 to the end of 9999. -/
def endSeconds : Int :=
  253402300800

/-- Times from 1970 to 9999 are shown. -/
theorem shown_ofSeconds {seconds : Int} (hlow : 0 ≤ seconds) (hhigh : seconds < endSeconds) :
    (ofSeconds seconds).Shown := by
  have hcycle : ((seconds / 86400 + epochDays) % cycleDays).toNat < 146097 := by
    simp only [epochDays, cycleDays]
    omega
  have hle := daysBeforeYear_yearOfDay_le ((seconds / 86400 + epochDays) % cycleDays).toNat
  have hbound := yearOfDay_le ((seconds / 86400 + epochDays) % cycleDays).toNat
  have hlt := lt_daysBeforeYear_succ hcycle
  rw [daysBeforeYear_succ] at hlt
  simp only [endSeconds] at hhigh
  simp only [ofSeconds]
  generalize ((seconds / 86400 + epochDays) % cycleDays).toNat = dayOfCycle at *
  generalize yearOfDay dayOfCycle = year at *
  have hdays : dayOfCycle - daysBeforeYear year < if isLeap year then 366 else 365 := by
    split_ifs at hlt ⊢ <;> omega
  generalize dayOfCycle - daysBeforeYear year = dayOfYear at *
  have hmonth := daysBeforeMonth_monthOfDay_le (isLeap year) dayOfYear
  have hday := lt_daysBeforeMonth_add hdays
  refine ⟨?_, monthOfDay_bounds _ _, ?_, ?_, ?_, ?_⟩
  · simp only [epochDays, cycleDays]
    omega
  · dsimp only
    omega
  · dsimp only
    omega
  · dsimp only
    omega
  · dsimp only
    omega

/-! ### Formats -/

/-- A field of a civil time. -/
inductive Field
  | year | month | day | hour | minute | second
  deriving DecidableEq, Repr

namespace Field

def value (t : CivilTime) : Field → ℕ
  | year => t.year.toNat
  | month => t.month
  | day => t.day
  | hour => t.hour
  | minute => t.minute
  | second => t.second

def assign (n : ℕ) (t : CivilTime) : Field → CivilTime
  | year => { t with year := n }
  | month => { t with month := n }
  | day => { t with day := n }
  | hour => { t with hour := n }
  | minute => { t with minute := n }
  | second => { t with second := n }

/-- How many digits are read at most. -/
def width : Field → ℕ
  | year => 4
  | month | day | hour | minute | second => 2

/-- The values that are accepted. A minute may have a leap second. -/
def accepts (n : ℕ) : Field → Bool
  | year => n ≤ 9999
  | month => 1 ≤ n ∧ n ≤ 12
  | day => 1 ≤ n ∧ n ≤ 31
  | hour => n ≤ 23
  | minute => n ≤ 59
  | second => n ≤ 60

/-- The text of a field. Only a year is written without leading zeros. -/
def put (t : CivilTime) : Field → List Char
  | year => (toString t.year).toList
  | field =>
    let digits := Nat.toDigits 10 (field.value t)
    List.replicate (2 - digits.length) '0' ++ digits

end Field

/-- A field, or a character that stands for itself. -/
inductive Directive
  | field (field : Field)
  | literal (c : Char)
  deriving DecidableEq, Repr

/-- A number of at least one and at most so many digits. -/
def readNumber (width : ℕ) (text : List Char) : Option (ℕ × List Char) :=
  match (text.take width).takeWhile Char.isDigit with
  | [] => none
  | digits => some (Nat.ofDigitChars 10 digits 0, text.drop digits.length)

namespace Directive

def put (t : CivilTime) : Directive → List Char
  | field f => f.put t
  | literal c => [c]

/-- Read a text into a time; the rest of the text is left over. -/
def get (text : List Char) (t : CivilTime) : Directive → Option (CivilTime × List Char)
  | field f =>
    match readNumber f.width text with
    | some (n, rest) => if f.accepts n then some (f.assign n t, rest) else none
    | none => none
  | literal c =>
    match text with
    | [] => none
    | d :: rest => if c = d then some (t, rest) else none

/-- Copy what the directive is about. -/
def copy (source t : CivilTime) : Directive → CivilTime
  | field f => f.assign (f.value source) t
  | literal _ => t

end Directive

/-- Write a time, directive by directive. -/
def putTime (format : List Directive) (t : CivilTime) : List Char :=
  format.flatMap (Directive.put t)

/-- Read a text into a time, up to the first directive that fails. Tells whether none has. -/
def getTime : List Directive → List Char → CivilTime → CivilTime × Bool
  | [], _, t => (t, true)
  | d :: format, text, t =>
    match d.get text t with
    | some (t', rest) => getTime format rest t'
    | none => (t, false)

theorem readNumber_append {digits rest : List Char} (hdigits : ∀ c ∈ digits, c.isDigit = true)
    (hne : digits ≠ []) :
    readNumber digits.length (digits ++ rest) = some (Nat.ofDigitChars 10 digits 0, rest) := by
  have htake : ((digits ++ rest).take digits.length).takeWhile Char.isDigit = digits := by
    rw [List.take_left, List.takeWhile_eq_self_iff]
    exact hdigits
  rw [readNumber, htake]
  rcases digits with - | ⟨c, digits⟩
  · exact absurd rfl hne
  · dsimp only
    rw [List.drop_left]

/-- The digits of a number, behind zeros up to the width. -/
theorem padded_spec {width n : ℕ} (hpos : 0 < width) (h : n < 10 ^ width) :
    let text := List.replicate (width - (Nat.toDigits 10 n).length) '0' ++ Nat.toDigits 10 n
    text.length = width ∧ (∀ c ∈ text, c.isDigit = true) ∧ Nat.ofDigitChars 10 text 0 = n := by
  intro text
  have hlength := (Nat.length_toDigits_le_iff (n := n) (b := 10) (by decide) hpos).2 h
  refine ⟨?_, fun c hc ↦ ?_, ?_⟩
  · rw [List.length_append, List.length_replicate]
    omega
  · rcases List.mem_append.1 hc with hc | hc
    · rw [List.eq_of_mem_replicate hc]
      rfl
    · exact Nat.isDigit_of_mem_toDigits (by decide) (by decide) hc
  · rw [Nat.ofDigitChars_append, Nat.ofDigitChars_replicate_zero, Nat.mul_zero,
      Nat.ofDigitChars_toDigits (by decide) (by decide)]

/-- A field that is shown has the text of a number with the width of the field. -/
theorem Field.put_eq (f : Field) {t : CivilTime} (h : t.Shown) :
    f.put t = List.replicate (f.width - (Nat.toDigits 10 (f.value t)).length) '0' ++
        Nat.toDigits 10 (f.value t) ∧
      f.value t < 10 ^ f.width ∧ f.accepts (f.value t) = true := by
  obtain ⟨⟨hyear, hyear'⟩, ⟨hmonth, hmonth'⟩, ⟨hday, hday'⟩, hhour, hminute, hsecond⟩ := h
  have hyears : 1000 ≤ t.year.toNat ∧ t.year.toNat ≤ 9999 := ⟨by omega, by omega⟩
  cases f with
  | year =>
    have hlength : 4 ≤ (Nat.toDigits 10 t.year.toNat).length := by
      by_contra hlt
      have hbound := (Nat.length_toDigits_le_iff (n := t.year.toNat) (b := 10) (k := 3)
        (by decide) (by decide)).1 (by omega)
      omega
    have htext : (toString t.year).toList = Nat.toDigits 10 t.year.toNat := by
      rw [Int.toString_eq_repr, Int.repr_eq_if, if_pos (by omega), Nat.toList_repr]
    refine ⟨?_, ?_, ?_⟩
    · show (toString t.year).toList = List.replicate (4 - (Nat.toDigits 10 t.year.toNat).length)
        '0' ++ Nat.toDigits 10 t.year.toNat
      rw [Nat.sub_eq_zero_of_le hlength, htext]
      rfl
    · show t.year.toNat < 10 ^ 4
      omega
    · exact decide_eq_true hyears.2
  | month => exact ⟨rfl, by show t.month < 10 ^ 2; omega, decide_eq_true ⟨hmonth, hmonth'⟩⟩
  | day => exact ⟨rfl, by show t.day < 10 ^ 2; omega, decide_eq_true ⟨hday, hday'⟩⟩
  | hour => exact ⟨rfl, by show t.hour < 10 ^ 2; omega, decide_eq_true hhour⟩
  | minute => exact ⟨rfl, by show t.minute < 10 ^ 2; omega, decide_eq_true hminute⟩
  | second =>
    exact ⟨rfl, by show t.second < 10 ^ 2; omega, decide_eq_true (by show t.second ≤ 60; omega)⟩

theorem Field.width_pos (f : Field) : 0 < f.width := by
  cases f <;> decide

/-- The text of a field that is shown: as many digits as the field is wide, of its value. -/
theorem Field.put_spec (f : Field) {t : CivilTime} (h : t.Shown) :
    (f.put t).length = f.width ∧ (∀ c ∈ f.put t, c.isDigit = true) ∧
      Nat.ofDigitChars 10 (f.put t) 0 = f.value t := by
  obtain ⟨hput, hlt, -⟩ := f.put_eq h
  rw [hput]
  exact padded_spec f.width_pos hlt

/-- Such a text begins with a digit. -/
theorem Field.exists_put_eq_cons (f : Field) {t : CivilTime} (h : t.Shown) :
    ∃ c rest, f.put t = c :: rest ∧ c.isDigit = true := by
  obtain ⟨hlength, hdigits, -⟩ := f.put_spec h
  obtain ⟨c, rest, hcons⟩ := List.exists_cons_of_ne_nil
    (List.ne_nil_of_length_pos (hlength.symm ▸ f.width_pos))
  exact ⟨c, rest, hcons, hdigits c (hcons ▸ List.mem_cons_self)⟩

/-- A directive reads what it has written. -/
theorem Directive.get_put {t : CivilTime} (h : t.Shown) (d : Directive) (rest : List Char)
    (u : CivilTime) : d.get (d.put t ++ rest) u = some (d.copy t u, rest) := by
  cases d with
  | literal c => exact if_pos rfl
  | field f =>
    obtain ⟨hlength, hdigits, hvalue⟩ := f.put_spec h
    have hread : readNumber f.width (f.put t ++ rest) = some (f.value t, rest) := by
      have hne := List.ne_nil_of_length_pos (hlength.symm ▸ f.width_pos)
      have happend := @readNumber_append _ rest hdigits hne
      rwa [hlength, hvalue] at happend
    show (match readNumber f.width (f.put t ++ rest) with
      | some (n, rest) => if f.accepts n then some (f.assign n u, rest) else none
      | none => none) = _
    rw [hread]
    exact if_pos (f.put_eq h).2.2

/-- What is written consists of digits and the characters that stand for themselves. -/
theorem isDigit_of_mem_putTime {t : CivilTime} (h : t.Shown) {format : List Directive} {c : Char}
    (hc : c ∈ putTime format t) : c.isDigit = true ∨ .literal c ∈ format := by
  obtain ⟨d, hd, hcd⟩ := List.mem_flatMap.1 hc
  cases d with
  | field f => exact .inl ((f.put_spec h).2.1 c hcd)
  | literal e =>
    obtain rfl := List.mem_singleton.1 hcd
    exact .inr hd

/-- **A format reads what it has written.** -/
theorem getTime_putTime {t : CivilTime} (h : t.Shown) (format : List Directive) (u : CivilTime) :
    getTime format (putTime format t) u = (format.foldl (fun u d ↦ d.copy t u) u, true) := by
  induction format generalizing u with
  | nil => rfl
  | cons d format ih =>
    rw [putTime, List.flatMap_cons, getTime, Directive.get_put h]
    exact ih _

end CivilTime
