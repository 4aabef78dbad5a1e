import EventSourcery.JsonText

/-!
# Texts of UUIDs and datetimes

`str(uuid)` and `UUID(hex=...)`, `datetime.isoformat()` and `datetime.fromisoformat(...)`
of Python's library, over numbers written with a fixed number of digits. A datetime is a
number of microseconds from the start of 1970, and has no time zone. Of the texts that the
two readers accept, only those are read here that the writers write. Reading inverts
writing, for all UUIDs and for the datetimes between `datetime.min` and `datetime.max`.
-/
namespace EventSourcery.Texts
open JsonText

/-- The digits of a number in a base, from the first one on, with zeros in front. -/
def digits (base : ℕ) : ℕ → ℕ → List ℕ
  | 0, _ => []
  | width + 1, n => digits base width (n / base) ++ [n % base]

def value (base : ℕ) (ds : List ℕ) : ℕ := ds.foldl (fun n d => n * base + d) 0

section Digits
variable {base : ℕ}

@[simp] theorem digits_length (base width n : ℕ) : (digits base width n).length = width := by
  induction width generalizing n with
  | zero => rfl
  | succ width ih => simp [digits, ih]

theorem digits_lt (hbase : 0 < base) (width n : ℕ) : ∀ d ∈ digits base width n, d < base := by
  induction width generalizing n with
  | zero => simp [digits]
  | succ width ih =>
    intro d hd
    rcases List.mem_append.1 hd with hd | hd
    · exact ih (n / base) d hd
    · rw [List.mem_singleton.1 hd]
      exact Nat.mod_lt _ hbase

theorem value_digits {width n : ℕ} (h : n < base ^ width) :
    value base (digits base width n) = n := by
  induction width generalizing n with
  | zero =>
    have hn : n = 0 := by simpa using h
    rw [hn]
    rfl
  | succ width ih =>
    have hrest := ih (Nat.div_lt_of_lt_mul (by rwa [pow_succ, mul_comm] at h))
    unfold value at hrest ⊢
    rw [digits, List.foldl_append, hrest, List.foldl_cons, List.foldl_nil]
    exact Nat.div_add_mod' n base

end Digits

/-! ## UUIDs -/

def hexText (u : BitVec 128) : List Char := (digits 16 32 u.toNat).map hexChar

/-- `uuid.hex` -/
def uuidHex (u : BitVec 128) : String := String.ofList (hexText u)

/-- `str(uuid)` -/
def uuidText (u : BitVec 128) : String :=
  let hex := hexText u
  String.ofList (hex.take 8 ++ '-' :: (hex.drop 8).take 4 ++ '-' :: (hex.drop 12).take 4 ++
    '-' :: (hex.drop 16).take 4 ++ '-' :: hex.drop 20)

/-- `UUID(hex=text)`, or nothing where it raises. -/
def uuidOfHex (text : String) : Option (BitVec 128) :=
  let hex := text.toList.filter (· ≠ '-')
  if hex.length = 32 then (hex.mapM hexVal).map fun ds => BitVec.ofNat 128 (value 16 ds) else none

theorem hexChar_ne_dash : ∀ d < 16, hexChar d ≠ '-' := by decide

theorem hexChar_isAlphanum : ∀ d < 16, (hexChar d).isAlphanum = true := by decide

theorem mapM_hexVal {ds : List ℕ} (h : ∀ d ∈ ds, d < 16) :
    (ds.map hexChar).mapM hexVal = some ds := by
  induction ds with
  | nil => rfl
  | cons d ds ih =>
    rw [List.map_cons, List.mapM_cons, hexVal_hexChar d (h d List.mem_cons_self),
      ih fun e he => h e (List.mem_cons_of_mem _ he)]
    rfl

/-- Dashes between parts of a text without dashes. -/
theorem filter_dashes {hex : List Char} (h : ∀ c ∈ hex, c ≠ '-') :
    (hex.take 8 ++ '-' :: (hex.drop 8).take 4 ++ '-' :: (hex.drop 12).take 4 ++
      '-' :: (hex.drop 16).take 4 ++ '-' :: hex.drop 20).filter (· ≠ '-') = hex := by
  have hpart : ∀ part : List Char, part ⊆ hex → part.filter (· ≠ '-') = part := by
    intro part hsub
    exact List.filter_eq_self.2 fun c hc => by simpa using h c (hsub hc)
  have htake : ∀ n k, (hex.drop n).take k ⊆ hex := fun n k =>
    fun _ hc => List.drop_subset n hex (List.take_subset k _ hc)
  have hjoin : ∀ n k, (hex.drop n).take k ++ hex.drop (n + k) = hex.drop n := by
    intro n k
    rw [← List.drop_drop, List.take_append_drop]
  simp only [List.filter_append, List.filter_cons, ne_eq, not_true_eq_false, decide_false,
    Bool.false_eq_true, if_false, hpart _ (List.take_subset 8 hex), hpart _ (htake _ _),
    hpart _ (List.drop_subset 20 hex), List.append_assoc]
  rw [hjoin 16 4, hjoin 12 4, hjoin 8 4, List.take_append_drop]

@[simp] theorem hexText_length (u : BitVec 128) : (hexText u).length = 32 := by simp [hexText]

theorem hexText_ne_dash (u : BitVec 128) : ∀ c ∈ hexText u, c ≠ '-' := by
  intro c hc
  obtain ⟨d, hd, rfl⟩ := List.mem_map.1 hc
  exact hexChar_ne_dash d (digits_lt (show 0 < 16 by decide) 32 u.toNat d hd)

/-- A text whose characters besides dashes are the hex digits of a UUID. -/
theorem uuidOfHex_of_filter {text : String} {u : BitVec 128}
    (h : text.toList.filter (· ≠ '-') = hexText u) : uuidOfHex text = some u := by
  have hlt := digits_lt (show 0 < 16 by decide) 32 u.toNat
  have hvalue : value 16 (digits 16 32 u.toNat) = u.toNat := value_digits u.isLt
  simp only [uuidOfHex, h, hexText_length, if_true]
  simp only [hexText, mapM_hexVal hlt, Option.map_some, hvalue, BitVec.ofNat_toNat,
    BitVec.setWidth_eq]

theorem uuidOfHex_uuidText (u : BitVec 128) : uuidOfHex (uuidText u) = some u := by
  apply uuidOfHex_of_filter
  rw [uuidText, String.toList_ofList]
  exact filter_dashes (hexText_ne_dash u)

theorem uuidOfHex_uuidHex (u : BitVec 128) : uuidOfHex (uuidHex u) = some u := by
  apply uuidOfHex_of_filter
  rw [uuidHex, String.toList_ofList]
  exact List.filter_eq_self.2 fun c hc => by simpa using hexText_ne_dash u c hc

/-! ## Datetimes -/

/-- A date of the Gregorian calendar, and a time of the day. -/
structure DateTime where
  year : ℤ
  month : ℤ
  day : ℤ
  hour : ℤ
  minute : ℤ
  second : ℤ
  microsecond : ℤ
  deriving DecidableEq

/-- The year of a cycle of 400 years, and the day of that year, from the day of the cycle.
Years begin in March here, so that a leap day is the last day of its year. -/
def yearOf (dayOfCycle : ℤ) : ℤ × ℤ :=
  let century := min (dayOfCycle / 36524) 3
  let dayOfCentury := dayOfCycle - century * 36524
  let dayOfFour := dayOfCentury % 1461
  let year := min (dayOfFour / 365) 3
  (century * 100 + dayOfCentury / 1461 * 4 + year, dayOfFour - year * 365)

/-- The date of a day, counted from the start of 1970. -/
def dateOf (days : ℤ) : ℤ × ℤ × ℤ :=
  let cycle := (days + 719468) / 146097
  let year := yearOf ((days + 719468) % 146097)
  let month := (5 * year.2 + 2) / 153
  let day := year.2 - (153 * month + 2) / 5 + 1
  if month < 10 then (cycle * 400 + year.1, month + 3, day)
  else (cycle * 400 + year.1 + 1, month - 9, day)

def daysOf (year month day : ℤ) : ℤ :=
  let shifted := if month ≤ 2 then (year - 1, month + 9) else (year, month - 3)
  let cycle := shifted.1 / 400
  let yearOfCycle := shifted.1 % 400
  let dayOfYear := (153 * shifted.2 + 2) / 5 + day - 1
  cycle * 146097 + yearOfCycle * 365 + yearOfCycle / 4 - yearOfCycle / 100 + dayOfYear - 719468

def DateTime.ofMicroseconds (t : ℤ) : DateTime :=
  let date := dateOf (t / 86400000000)
  let time := t % 86400000000
  { year := date.1, month := date.2.1, day := date.2.2
    hour := time / 3600000000, minute := time / 60000000 % 60, second := time / 1000000 % 60
    microsecond := time % 1000000 }

def DateTime.microseconds (d : DateTime) : ℤ :=
  daysOf d.year d.month d.day * 86400000000 +
    ((d.hour * 60 + d.minute) * 60 + d.second) * 1000000 + d.microsecond

def padded (width : ℕ) (n : ℤ) : List Char := (digits 10 width n.toNat).map digitChar

def DateTime.text (d : DateTime) : String :=
  String.ofList (padded 4 d.year ++ '-' :: padded 2 d.month ++ '-' :: padded 2 d.day ++
    'T' :: padded 2 d.hour ++ ':' :: padded 2 d.minute ++ ':' :: padded 2 d.second ++
    if d.microsecond = 0 then [] else '.' :: padded 6 d.microsecond)

/-- `datetime.isoformat()` -/
def isoformat (t : ℤ) : String := (DateTime.ofMicroseconds t).text

def scanPadded (width : ℕ) (cs : List Char) : Option (ℤ × List Char) :=
  if (cs.take width).length = width ∧ (cs.take width).all Char.isDigit then
    some (natOf (cs.take width), cs.drop width)
  else none

def scanMark (mark : Char) : List Char → Option (List Char)
  | c :: cs => if c = mark then some cs else none
  | [] => none

def scanMicrosecond : List Char → Option ℤ
  | [] => some 0
  | c :: cs => do
    let cs ← scanMark '.' (c :: cs)
    let (microsecond, cs) ← scanPadded 6 cs
    if cs = [] then some microsecond else none

/-- `datetime.fromisoformat(text)`, or nothing where it raises. -/
def fromisoformat (text : String) : Option ℤ := do
  let (year, cs) ← scanPadded 4 text.toList
  let cs ← scanMark '-' cs
  let (month, cs) ← scanPadded 2 cs
  let cs ← scanMark '-' cs
  let (day, cs) ← scanPadded 2 cs
  let cs ← scanMark 'T' cs
  let (hour, cs) ← scanPadded 2 cs
  let cs ← scanMark ':' cs
  let (minute, cs) ← scanPadded 2 cs
  let cs ← scanMark ':' cs
  let (second, cs) ← scanPadded 2 cs
  let microsecond ← scanMicrosecond cs
  return DateTime.microseconds ⟨year, month, day, hour, minute, second, microsecond⟩

/-- Between `datetime.min` and `datetime.max`. -/
def InRange (t : ℤ) : Prop := -62135596800000000 ≤ t ∧ t ≤ 253402300799999999

instance (t : ℤ) : Decidable (InRange t) := inferInstanceAs (Decidable (_ ∧ _))

theorem yearOf_spec {dayOfCycle : ℤ} (h0 : 0 ≤ dayOfCycle) (h1 : dayOfCycle < 146097) :
    let year := (yearOf dayOfCycle).1
    let day := (yearOf dayOfCycle).2
    0 ≤ year ∧ year < 400 ∧ 0 ≤ day ∧ day < 366 ∧
      year * 365 + year / 4 - year / 100 + day = dayOfCycle := by
  simp only [yearOf]
  set century := min (dayOfCycle / 36524) 3 with hcentury
  have hcenturies : 0 ≤ century ∧ century ≤ 3 ∧ 0 ≤ dayOfCycle - century * 36524 ∧
      dayOfCycle - century * 36524 < 36525 := by omega
  clear_value century
  set dayOfCentury := dayOfCycle - century * 36524 with hdayOfCentury
  set four := dayOfCentury / 1461 with hfour
  set dayOfFour := dayOfCentury % 1461 with hdayOfFour
  have hfours : 0 ≤ four ∧ four ≤ 24 ∧ 0 ≤ dayOfFour ∧ dayOfFour < 1461 ∧
      dayOfCentury = four * 1461 + dayOfFour := by omega
  clear_value dayOfCentury four dayOfFour
  set year := min (dayOfFour / 365) 3 with hyear
  have hyears : 0 ≤ year ∧ year ≤ 3 ∧ 0 ≤ dayOfFour - year * 365 ∧
      dayOfFour - year * 365 < 366 := by omega
  clear_value year
  have hquarter : (century * 100 + four * 4 + year) / 4 = century * 25 + four := by omega
  have hhundredth : (century * 100 + four * 4 + year) / 100 = century := by omega
  rw [hquarter, hhundredth]
  omega

theorem dateOf_spec (days : ℤ) :
    let date := dateOf days
    daysOf date.1 date.2.1 date.2.2 = days ∧ 1 ≤ date.2.1 ∧ date.2.1 ≤ 12 ∧ 1 ≤ date.2.2 ∧
      date.2.2 ≤ 31 := by
  have hspec := yearOf_spec (Int.emod_nonneg (days + 719468) (by decide))
    (Int.emod_lt_of_pos (days + 719468) (by decide : (0 : ℤ) < 146097))
  revert hspec
  simp only [dateOf]
  generalize yearOf ((days + 719468) % 146097) = year
  rintro ⟨hyear, hyear', hday, hday', hdays⟩
  set month := (5 * year.2 + 2) / 153 with hmonth
  have hmonths : 0 ≤ month ∧ month ≤ 11 ∧ 1 ≤ year.2 - (153 * month + 2) / 5 + 1 ∧
      year.2 - (153 * month + 2) / 5 + 1 ≤ 31 := by omega
  clear_value month
  have hcycle : ((days + 719468) / 146097 * 400 + year.1) / 400 = (days + 719468) / 146097 ∧
      ((days + 719468) / 146097 * 400 + year.1) % 400 = year.1 := by omega
  split
  · have hlate : ¬ month + 3 ≤ 2 := by omega
    simp only [daysOf, hlate, if_false, hcycle.1, hcycle.2]
    omega
  · have hearly : month - 9 ≤ 2 := by omega
    simp only [daysOf, hearly, if_true, add_sub_cancel_right, hcycle.1, hcycle.2]
    omega

theorem microseconds_ofMicroseconds (t : ℤ) : (DateTime.ofMicroseconds t).microseconds = t := by
  obtain ⟨hdays, -⟩ := dateOf_spec (t / 86400000000)
  simp only [DateTime.microseconds, DateTime.ofMicroseconds, hdays]
  omega

example : DateTime.ofMicroseconds 951782400000001 = ⟨2000, 2, 29, 0, 0, 0, 1⟩ := by decide

theorem year_bounds {t : ℤ} (h : InRange t) :
    0 ≤ (DateTime.ofMicroseconds t).year ∧ (DateTime.ofMicroseconds t).year < 10000 := by
  obtain ⟨hmin, hmax⟩ := h
  have hdays : -719162 ≤ t / 86400000000 ∧ t / 86400000000 ≤ 2932896 := by omega
  simp only [DateTime.ofMicroseconds]
  revert hdays
  generalize t / 86400000000 = days
  intro hdays
  have hspec := yearOf_spec (Int.emod_nonneg (days + 719468) (by decide))
    (Int.emod_lt_of_pos (days + 719468) (by decide : (0 : ℤ) < 146097))
  have hcycle : 0 ≤ (days + 719468) / 146097 ∧ (days + 719468) / 146097 ≤ 24 ∧
      ((days + 719468) / 146097 = 24 → (days + 719468) % 146097 ≤ 146036) := by omega
  revert hspec hcycle
  simp only [dateOf]
  generalize (days + 719468) / 146097 = cycle
  generalize (days + 719468) % 146097 = dayOfCycle
  generalize yearOf dayOfCycle = year
  rintro ⟨hyear, hyear', hday, -, hsum⟩ ⟨hcycle, hcycle', hlast⟩
  split
  · omega
  · -- the last year of the last cycle ends before its March
    have hnot : ¬ (cycle = 24 ∧ year.1 = 399) := by
      rintro ⟨hcycle24, hyear399⟩
      have hbound := hlast hcycle24
      rw [hyear399] at hsum
      omega
    simp only
    omega

theorem natOf_digitChar {ds : List ℕ} (h : ∀ d ∈ ds, d < 10) :
    natOf (ds.map digitChar) = value 10 ds := by
  unfold natOf value
  rw [List.foldl_map]
  refine List.foldl_ext _ _ 0 fun n d hd => ?_
  rw [digitVal_digitChar d (h d hd)]

theorem scanPadded_padded {width : ℕ} {n : ℤ} (h0 : 0 ≤ n) (h : n < 10 ^ width)
    (rest : List Char) : scanPadded width (padded width n ++ rest) = some (n, rest) := by
  have hlt := digits_lt (show 0 < 10 by decide) width n.toNat
  have hlength : (padded width n).length = width := by simp [padded]
  have htake : (padded width n ++ rest).take width = padded width n := by
    rw [List.take_append_of_le_length hlength.ge, List.take_of_length_le hlength.le]
  have hdrop : (padded width n ++ rest).drop width = rest := by
    rw [List.drop_append_of_le_length hlength.ge, List.drop_of_length_le hlength.le,
      List.nil_append]
  have hdigits : (padded width n).all Char.isDigit := by
    rw [List.all_eq_true]
    intro c hc
    obtain ⟨d, hd, rfl⟩ := List.mem_map.1 hc
    exact isDigit_digitChar d (hlt d hd)
  have hn : n.toNat < 10 ^ width := by
    zify
    rwa [Int.toNat_of_nonneg h0]
  have hvalue : (natOf (padded width n) : ℤ) = n := by
    rw [padded, natOf_digitChar hlt, value_digits hn, Int.toNat_of_nonneg h0]
  unfold scanPadded
  rw [htake, hdrop, if_pos ⟨hlength, hdigits⟩, hvalue]

@[simp] theorem scanMark_cons (mark : Char) (rest : List Char) :
    scanMark mark (mark :: rest) = some rest := if_pos rfl

theorem scanMicrosecond_padded {n : ℤ} (h0 : 0 ≤ n) (h : n < 1000000) :
    scanMicrosecond (if n = 0 then [] else '.' :: padded 6 n) = some n := by
  split
  · rename_i hn
    rw [hn]
    rfl
  · have hscan := scanPadded_padded h0 (show n < 10 ^ 6 from h) []
    rw [List.append_nil] at hscan
    simp [scanMicrosecond, hscan]

/-- Every field fits its place in the text. -/
structure DateTime.Fits (d : DateTime) : Prop where
  year : 0 ≤ d.year ∧ d.year < 10 ^ 4
  month : 0 ≤ d.month ∧ d.month < 10 ^ 2
  day : 0 ≤ d.day ∧ d.day < 10 ^ 2
  hour : 0 ≤ d.hour ∧ d.hour < 10 ^ 2
  minute : 0 ≤ d.minute ∧ d.minute < 10 ^ 2
  second : 0 ≤ d.second ∧ d.second < 10 ^ 2
  microsecond : 0 ≤ d.microsecond ∧ d.microsecond < 1000000

theorem fits_ofMicroseconds {t : ℤ} (h : InRange t) : (DateTime.ofMicroseconds t).Fits := by
  obtain ⟨-, hmonth, hmonth', hday, hday'⟩ := dateOf_spec (t / 86400000000)
  refine ⟨year_bounds h, ⟨?_, ?_⟩, ⟨?_, ?_⟩, ⟨?_, ?_⟩, ⟨?_, ?_⟩, ⟨?_, ?_⟩, ⟨?_, ?_⟩⟩ <;>
    (simp only [DateTime.ofMicroseconds]; omega)

theorem scanField_bind {A : Type} {width : ℕ} {n : ℤ} (h : 0 ≤ n ∧ n < 10 ^ width)
    (rest : List Char) (next : ℤ × List Char → Option A) :
    (scanPadded width (padded width n ++ rest) >>= next) = next (n, rest) := by
  rw [scanPadded_padded h.1 h.2, Option.bind_eq_bind, Option.bind_some]

/-- A field behind its mark. -/
theorem scanMarked_bind {A : Type} {width : ℕ} {n : ℤ} (mark : Char) (h : 0 ≤ n ∧ n < 10 ^ width)
    (rest : List Char) (next : ℤ × List Char → Option A) :
    (scanMark mark (mark :: (padded width n ++ rest)) >>= fun cs =>
      scanPadded width cs >>= next) = next (n, rest) := by
  rw [scanMark_cons, Option.bind_eq_bind, Option.bind_some, scanField_bind h]

theorem fromisoformat_text {d : DateTime} (h : d.Fits) :
    fromisoformat d.text = some d.microseconds := by
  unfold fromisoformat DateTime.text
  simp only [String.toList_ofList, List.append_assoc, List.cons_append]
  refine (scanField_bind h.year _ _).trans ?_
  refine (scanMarked_bind '-' h.month _ _).trans ?_
  refine (scanMarked_bind '-' h.day _ _).trans ?_
  refine (scanMarked_bind 'T' h.hour _ _).trans ?_
  refine (scanMarked_bind ':' h.minute _ _).trans ?_
  refine (scanMarked_bind ':' h.second _ _).trans ?_
  dsimp only
  rw [scanMicrosecond_padded h.microsecond.1 h.microsecond.2]
  rfl

theorem fromisoformat_isoformat {t : ℤ} (h : InRange t) : fromisoformat (isoformat t) = some t := by
  rw [isoformat, fromisoformat_text (fits_ofMicroseconds h), microseconds_ofMicroseconds]

end EventSourcery.Texts
