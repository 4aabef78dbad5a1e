import EventSourcery.DictEntries
import Mathlib.Data.Nat.Digits.Defs
import Mathlib.Data.Nat.Digits.Lemmas
import Mathlib.Data.List.TakeWhile
import Mathlib.Tactic.Ring

/-!
# JSON values and their text

The value type, the writer and the reader of a JSON text over lists of
characters. The writer is the default one of Python's `json.dumps` (separators
`", "` and `": "`, everything outside printable ASCII escaped). The reader is
`json.loads`: it skips blanks, takes the last of two members with one key, reads
`NaN` and the infinities, and joins surrogate pairs. A lone surrogate, which no
`Char` is, reads as U+FFFD. A float is kept as the text that denotes it; its
rounding is not modelled, and no statement compares two floats.

The main result is that reading inverts writing on well-formed values, and that
no text reads as the string that it itself is.
-/
namespace EventSourcery.JsonText
open DictEntries

inductive Json where
  | null
  | bool (b : Bool)
  | int (n : ℤ)
  | float (text : String)
  | str (s : String)
  | arr (items : List Json)
  | obj (fields : List (String × Json))
  deriving Inhabited

namespace Json

mutual
def beq : Json → Json → Bool
  | null, null => true
  | bool a, bool b => a == b
  | int a, int b => a == b
  | float a, float b => a == b
  | str a, str b => a == b
  | arr a, arr b => beqItems a b
  | obj a, obj b => beqFields a b
  | _, _ => false
def beqItems : List Json → List Json → Bool
  | [], [] => true
  | a :: as, b :: bs => beq a b && beqItems as bs
  | _, _ => false
def beqFields : List (String × Json) → List (String × Json) → Bool
  | [], [] => true
  | (k, a) :: as, (l, b) :: bs => k == l && beq a b && beqFields as bs
  | _, _ => false
end

mutual
theorem beq_iff : ∀ a b : Json, beq a b = true ↔ a = b
  | null, b => by cases b <;> simp [beq]
  | bool a, b => by cases b <;> simp [beq]
  | int a, b => by cases b <;> simp [beq]
  | float a, b => by cases b <;> simp [beq]
  | str a, b => by cases b <;> simp [beq]
  | arr as, b => by cases b <;> simp [beq, beqItems_iff as]
  | obj as, b => by cases b <;> simp [beq, beqFields_iff as]
theorem beqItems_iff : ∀ as bs : List Json, beqItems as bs = true ↔ as = bs
  | [], bs => by cases bs <;> simp [beqItems]
  | a :: as, bs => by cases bs <;> simp [beqItems, beq_iff a, beqItems_iff as]
theorem beqFields_iff : ∀ as bs : List (String × Json), beqFields as bs = true ↔ as = bs
  | [], bs => by cases bs <;> simp [beqFields]
  | (k, a) :: as, bs => by
    rcases bs with _ | ⟨⟨l, b⟩, bs⟩
    · simp [beqFields]
    · simp [beqFields, beq_iff a, beqFields_iff as]
end

instance : DecidableEq Json := fun a b => decidable_of_iff _ (beq_iff a b)

end Json

/-- The value stored under a key, as a Python dict has it. -/
def lookup (key : String) : List (String × Json) → Option Json
  | [] => none
  | (k, v) :: fields => if k = key then some v else lookup key fields

/-- Storing under a key keeps the key's place, or adds it at the end. -/
def store (key : String) (value : Json) : List (String × Json) → List (String × Json)
  | [] => [(key, value)]
  | (k, v) :: fields => if k = key then (k, value) :: fields else (k, v) :: store key value fields

theorem lookup_eq_findEntry (key : String) (fields : List (String × Json)) :
    lookup key fields = findEntry key fields := by
  induction fields with
  | nil => rfl
  | cons f fields ih => rw [lookup, findEntry, ih]

theorem store_eq_putEntry (key : String) (value : Json) (fields : List (String × Json)) :
    store key value fields = putEntry key value fields := by
  induction fields with
  | nil => rfl
  | cons f fields ih => rw [store, putEntry, ih]

@[simp] theorem lookup_store (key k : String) (value : Json) (fields : List (String × Json)) :
    lookup k (store key value fields) = if k = key then some value else lookup k fields := by
  rw [store_eq_putEntry, lookup_eq_findEntry, lookup_eq_findEntry, findEntry_putEntry]

theorem store_lookup {key : String} {value : Json} {fields : List (String × Json)}
    (h : lookup key fields = some value) : store key value fields = fields := by
  rw [lookup_eq_findEntry] at h
  rw [store_eq_putEntry, putEntry_findEntry h]

@[simp] theorem store_store (key : String) (v w : Json) (fields : List (String × Json)) :
    store key v (store key w fields) = store key v fields := by
  simp only [store_eq_putEntry, putEntry_putEntry]

/-- The dict that a list of members builds, one store after the other. -/
def dictOf (members : List (String × Json)) : List (String × Json) :=
  members.foldl (fun fields m => store m.1 m.2 fields) []

theorem store_new {key : String} {value : Json} {fields : List (String × Json)}
    (h : key ∉ fields.map Prod.fst) : store key value fields = fields ++ [(key, value)] := by
  rw [store_eq_putEntry, putEntry_new h]

theorem dictOf_of_nodup {members : List (String × Json)} (h : (members.map Prod.fst).Nodup) :
    dictOf members = members := by
  have general : ∀ fields : List (String × Json),
      ((fields ++ members).map Prod.fst).Nodup →
        members.foldl (fun fields m => store m.1 m.2 fields) fields = fields ++ members := by
    clear h
    induction members with
    | nil => simp
    | cons m members ih =>
      intro fields hnd
      have hm : m.1 ∉ fields.map Prod.fst := by
        intro hmem
        rw [List.map_append, List.nodup_append] at hnd
        exact hnd.2.2 m.1 hmem m.1 (by simp) rfl
      rw [List.foldl_cons, store_new hm, ih (fields ++ [(m.1, m.2)]) (by simpa using hnd)]
      simp
  simpa [dictOf] using general [] (by simpa using h)

def digitChar (d : ℕ) : Char := Char.ofNat (48 + d)

def digitVal (c : Char) : ℕ := c.toNat - 48

def dumpsNat (n : ℕ) : List Char :=
  if n = 0 then ['0'] else (Nat.digits 10 n).reverse.map digitChar

def dumpsInt (n : ℤ) : List Char :=
  if n < 0 then '-' :: dumpsNat n.natAbs else dumpsNat n.natAbs

def hexChar (d : ℕ) : Char := if d < 10 then Char.ofNat (48 + d) else Char.ofNat (87 + d)

def hexVal (c : Char) : Option ℕ :=
  if '0' ≤ c ∧ c ≤ '9' then some (c.toNat - 48)
  else if 'a' ≤ c ∧ c ≤ 'f' then some (c.toNat - 87)
  else if 'A' ≤ c ∧ c ≤ 'F' then some (c.toNat - 55)
  else none

/-- `\uXXXX` for one 16-bit code unit. -/
def dumpsUnit (n : ℕ) : List Char :=
  ['\\', 'u', hexChar (n / 4096), hexChar (n / 256 % 16), hexChar (n / 16 % 16), hexChar (n % 16)]

/-- One character of a string, escaped as `ensure_ascii` has it. -/
def dumpsChar (c : Char) : List Char :=
  if c = '"' then ['\\', '"']
  else if c = '\\' then ['\\', '\\']
  else if c = '\n' then ['\\', 'n']
  else if c = '\r' then ['\\', 'r']
  else if c = '\t' then ['\\', 't']
  else if c = '\x08' then ['\\', 'b']
  else if c = '\x0c' then ['\\', 'f']
  else if 32 ≤ c.toNat ∧ c.toNat ≤ 126 then [c]
  else if c.toNat < 65536 then dumpsUnit c.toNat
  else dumpsUnit (55296 + (c.toNat - 65536) / 1024) ++ dumpsUnit (56320 + (c.toNat - 65536) % 1024)

def dumpsString (s : List Char) : List Char := '"' :: (s.flatMap dumpsChar ++ ['"'])

mutual
/-- The text `json.dumps` writes. -/
def dumps : Json → List Char
  | .null => ['n', 'u', 'l', 'l']
  | .bool true => ['t', 'r', 'u', 'e']
  | .bool false => ['f', 'a', 'l', 's', 'e']
  | .int n => dumpsInt n
  | .float text => text.toList
  | .str s => dumpsString s.toList
  | .arr items => '[' :: (dumpsItems items ++ [']'])
  | .obj fields => '{' :: (dumpsFields fields ++ ['}'])
def dumpsItems : List Json → List Char
  | [] => []
  | [v] => dumps v
  | v :: w :: items => dumps v ++ ',' :: ' ' :: dumpsItems (w :: items)
def dumpsFields : List (String × Json) → List Char
  | [] => []
  | [(k, v)] => dumpsString k.toList ++ ':' :: ' ' :: dumps v
  | (k, v) :: f :: fields =>
      dumpsString k.toList ++ ':' :: ' ' :: (dumps v ++ ',' :: ' ' :: dumpsFields (f :: fields))
end

/-- The text behind the literal `lit`, when the text begins with it. -/
def strip : List Char → List Char → Option (List Char)
  | [], cs => some cs
  | l :: lit, c :: cs => if l = c then strip lit cs else none
  | _ :: _, [] => none

def isBlank (c : Char) : Bool := c == ' ' || c == '\t' || c == '\n' || c == '\r'

def skipBlanks (cs : List Char) : List Char := cs.dropWhile isBlank

/-- The two-character escapes, as the letter behind the backslash and what it stands for. -/
def escapes : List (Char × Char) :=
  [('"', '"'), ('\\', '\\'), ('/', '/'), ('b', '\x08'), ('f', '\x0c'), ('n', '\n'),
    ('r', '\r'), ('t', '\t')]

def unescape (c : Char) : Option Char := (escapes.find? fun e => e.1 == c).map Prod.snd

/-- The four hex digits of a `\uXXXX` escape. -/
def scanUnit : List Char → Option (ℕ × List Char)
  | a :: b :: c :: d :: cs => do
      let a ← hexVal a
      let b ← hexVal b
      let c ← hexVal c
      let d ← hexVal d
      return (a * 4096 + b * 256 + c * 16 + d, cs)
  | _ => none

def replacement : Char := Char.ofNat 65533

/-- The character that the code unit `n` opens; a high surrogate takes the low
one behind it along. -/
def scanUnicode (n : ℕ) (cs : List Char) : Option (Char × List Char) :=
  if 55296 ≤ n ∧ n < 56320 then
    match strip ['\\', 'u'] cs with
    | none => some (replacement, cs)
    | some rest => (scanUnit rest).map fun m =>
        if 56320 ≤ m.1 ∧ m.1 < 57344 then
          (Char.ofNat (65536 + (n - 55296) * 1024 + (m.1 - 56320)), m.2)
        else (replacement, cs)
  else if 56320 ≤ n ∧ n < 57344 then some (replacement, cs)
  else some (Char.ofNat n, cs)

/-- What a backslash escapes. -/
def scanEscape : List Char → Option (Char × List Char)
  | [] => none
  | e :: cs => if e = 'u' then (scanUnit cs).bind fun u => scanUnicode u.1 u.2
      else (unescape e).map fun c => (c, cs)

/-- One character of a string literal, escapes decoded. -/
def scanChar : List Char → Option (Char × List Char)
  | [] => none
  | c :: cs => if c = '\\' then scanEscape cs else if c.toNat < 32 then none else some (c, cs)

/-- A string literal up to its closing quote. -/
def scanString : ℕ → List Char → Option (List Char × List Char)
  | 0, _ => none
  | n + 1, cs =>
    match strip ['"'] cs with
    | some rest => some ([], rest)
    | none => (scanChar cs).bind fun c => (scanString n c.2).map fun s => (c.1 :: s.1, s.2)

def scanDigits (cs : List Char) : List Char × List Char :=
  (cs.takeWhile Char.isDigit, cs.dropWhile Char.isDigit)

/-- The integer part: an optional sign, then `0` or digits that do not begin with `0`. -/
def scanWhole : List Char → Option (List Char × List Char)
  | [] => none
  | c :: cs => if c = '0' then some (['0'], cs)
      else if c.isDigit then some (scanDigits (c :: cs)) else none

/-- The sign, when its character is one of `signs`. -/
def scanSign (signs : List Char) : List Char → List Char × List Char
  | [] => ([], [])
  | c :: cs => if c ∈ signs then ([c], cs) else ([], c :: cs)

def scanInt (cs : List Char) : Option (List Char × List Char) :=
  (scanWhole (scanSign ['-'] cs).2).map fun r => ((scanSign ['-'] cs).1 ++ r.1, r.2)

def scanFraction : List Char → List Char × List Char
  | [] => ([], [])
  | c :: cs => if c = '.' ∧ (scanDigits cs).1 ≠ [] then
        (c :: (scanDigits cs).1, (scanDigits cs).2)
      else ([], c :: cs)

def scanExponent : List Char → List Char × List Char
  | [] => ([], [])
  | c :: cs =>
      let sign := scanSign ['+', '-'] cs
      let digits := scanDigits sign.2
      if c ∈ ['e', 'E'] ∧ digits.1 ≠ [] then (c :: (sign.1 ++ digits.1), digits.2)
      else ([], c :: cs)

def natOf (digits : List Char) : ℕ := digits.foldl (fun n c => n * 10 + digitVal c) 0

def intOf (text : List Char) : ℤ :=
  if text.head? = some '-' then -(natOf text.tail) else natOf text

def scanNumber (cs : List Char) : Option (Json × List Char) :=
  (scanInt cs).map fun whole =>
    let fraction := scanFraction whole.2
    let exponent := scanExponent fraction.2
    if fraction.1 = [] ∧ exponent.1 = [] then (.int (intOf whole.1), exponent.2)
    else (.float (String.ofList (whole.1 ++ fraction.1 ++ exponent.1)), exponent.2)

/-- The constants, longest text first where one could hide another, else a number. -/
def scanConstant (cs : List Char) : Option (Json × List Char) :=
  ((strip ['n', 'u', 'l', 'l'] cs).map fun r => (.null, r)) <|>
  ((strip ['t', 'r', 'u', 'e'] cs).map fun r => (.bool true, r)) <|>
  ((strip ['f', 'a', 'l', 's', 'e'] cs).map fun r => (.bool false, r)) <|>
  ((strip ['N', 'a', 'N'] cs).map fun r => (.float "NaN", r)) <|>
  ((strip "Infinity".toList cs).map fun r => (.float "Infinity", r)) <|>
  ((strip "-Infinity".toList cs).map fun r => (.float "-Infinity", r)) <|>
  scanNumber cs

mutual
def scanValue : ℕ → List Char → Option (Json × List Char)
  | 0, _ => none
  | _ + 1, [] => none
  | n + 1, c :: r =>
    if c = '"' then (scanString (r.length + 1) r).map fun s => (.str (String.ofList s.1), s.2)
    else if c = '[' then
      match strip [']'] (skipBlanks r) with
      | some r' => some (.arr [], r')
      | none => (scanItems n (skipBlanks r)).map fun s => (.arr s.1, s.2)
    else if c = '{' then
      match strip ['}'] (skipBlanks r) with
      | some r' => some (.obj [], r')
      | none => (scanFields n (skipBlanks r)).map fun s => (.obj (dictOf s.1), s.2)
    else scanConstant (c :: r)
def scanItems : ℕ → List Char → Option (List Json × List Char)
  | 0, _ => none
  | n + 1, cs =>
    (scanValue n cs).bind fun v =>
      match skipBlanks v.2 with
      | [] => none
      | c :: r =>
        if c = ',' then (scanItems n (skipBlanks r)).map fun s => (v.1 :: s.1, s.2)
        else if c = ']' then some ([v.1], r)
        else none
def scanFields : ℕ → List Char → Option (List (String × Json) × List Char)
  | 0, _ => none
  | n + 1, cs =>
    (strip ['"'] cs).bind fun r =>
    (scanString (r.length + 1) r).bind fun k =>
    (strip [':'] (skipBlanks k.2)).bind fun r' =>
    (scanValue n (skipBlanks r')).bind fun v =>
      match skipBlanks v.2 with
      | [] => none
      | c :: r'' =>
        if c = ',' then
          (scanFields n (skipBlanks r'')).map fun s => ((String.ofList k.1, v.1) :: s.1, s.2)
        else if c = '}' then some ([(String.ofList k.1, v.1)], r'')
        else none
end

/-- `json.loads`: one value, blanks around it, nothing else; `none` is the decode error. -/
def loads (text : List Char) : Option Json :=
  if text.head? = some '\uFEFF' then none
  else (scanValue (text.length + 1) (skipBlanks text)).bind fun v =>
    if skipBlanks v.2 = [] then some v.1 else none

/-! ## Numbers -/

theorem digitVal_digitChar : ∀ d < 10, digitVal (digitChar d) = d := by decide

theorem isDigit_digitChar : ∀ d < 10, (digitChar d).isDigit = true := by decide

theorem digitChar_ne_zero : ∀ d < 10, d ≠ 0 → digitChar d ≠ '0' := by decide

theorem dumpsNat_isDigit (n : ℕ) : ∀ c ∈ dumpsNat n, c.isDigit = true := by
  unfold dumpsNat
  split_ifs with h
  · intro c hc
    rw [List.mem_singleton.mp hc]
    decide
  · intro c hc
    obtain ⟨d, hd, rfl⟩ := List.mem_map.mp hc
    exact isDigit_digitChar d (Nat.digits_lt_base (by decide) (List.mem_reverse.mp hd))

theorem natOf_map_digitChar (ds : List ℕ) (h : ∀ d ∈ ds, d < 10) :
    natOf (ds.reverse.map digitChar) = Nat.ofDigits 10 ds := by
  induction ds with
  | nil => rfl
  | cons d ds ih =>
    have hd := digitVal_digitChar d (h d (by simp))
    have hds := ih fun e he => h e (by simp [he])
    simp only [natOf, List.reverse_cons, List.map_append, List.map_cons, List.map_nil,
      List.foldl_append, List.foldl_cons, List.foldl_nil, Nat.ofDigits_cons] at hds ⊢
    rw [hds, hd]
    ring

@[simp] theorem natOf_dumpsNat (n : ℕ) : natOf (dumpsNat n) = n := by
  unfold dumpsNat
  split_ifs with h
  · simp [natOf, digitVal, h]
  · rw [natOf_map_digitChar _ fun d hd => Nat.digits_lt_base (by decide) hd, Nat.ofDigits_digits]

/-- The digits of a number are `0` alone, or begin with another digit. -/
theorem dumpsNat_head (n : ℕ) :
    dumpsNat n = ['0'] ∨ ∃ c cs, dumpsNat n = c :: cs ∧ c ≠ '0' ∧ c.isDigit = true := by
  by_cases h : n = 0
  · exact Or.inl (by simp [dumpsNat, h])
  · have hne : Nat.digits 10 n ≠ [] := Nat.digits_ne_nil_iff_ne_zero.mpr h
    have hlast := Nat.getLast_digit_ne_zero 10 h
    have hlt := Nat.digits_lt_base (b := 10) (by decide) (List.getLast_mem hne)
    refine Or.inr ⟨digitChar ((Nat.digits 10 n).getLast hne),
      ((Nat.digits 10 n).dropLast.reverse.map digitChar), ?_, digitChar_ne_zero _ hlt hlast,
      isDigit_digitChar _ hlt⟩
    have hsplit := List.dropLast_append_getLast hne
    rw [dumpsNat, if_neg h]
    conv_lhs => rw [← hsplit]
    simp

/-- The text behind a number does not go on with one of its characters. -/
def NumberEnds (rest : List Char) : Prop :=
  ∀ c ∈ rest.head?, c.isDigit = false ∧ c ∉ ['+', '-', '.', 'e', 'E']

theorem numberEnds_nil : NumberEnds [] := by simp [NumberEnds]

theorem numberEnds_cons {c : Char} {rest : List Char}
    (h : c.isDigit = false ∧ c ∉ ['+', '-', '.', 'e', 'E']) : NumberEnds (c :: rest) := by
  intro d hd
  simp only [List.head?_cons, Option.mem_some_iff] at hd
  exact hd ▸ h

section Append
variable {rest : List Char} (hr : NumberEnds rest)
include hr

theorem scanDigits_append (x : List Char) :
    scanDigits (x ++ rest) = ((scanDigits x).1, (scanDigits x).2 ++ rest) := by
  induction x with
  | nil =>
    cases rest with
    | nil => rfl
    | cons c rest => simp [scanDigits, (hr c (by simp)).1]
  | cons c x ih =>
    simp only [scanDigits, Prod.mk.injEq] at ih
    cases hc : c.isDigit <;> simp [scanDigits, hc, ih]

theorem scanSign_append {l : List Char} (hs : ∀ c ∈ l, c ∈ ['+', '-']) (x : List Char) :
    scanSign l (x ++ rest) = ((scanSign l x).1, (scanSign l x).2 ++ rest) := by
  cases x with
  | nil =>
    cases rest with
    | nil => rfl
    | cons c rest =>
      have hc : c ∉ l := fun h => (hr c (by simp)).2 (by
        have := hs c h
        simp only [List.mem_cons, List.not_mem_nil, or_false] at this ⊢
        tauto)
      simp [scanSign, hc]
  | cons c x => by_cases hc : c ∈ l <;> simp [scanSign, hc]

theorem scanWhole_append {x : List Char} {w : List Char × List Char}
    (h : scanWhole x = some w) : scanWhole (x ++ rest) = some (w.1, w.2 ++ rest) := by
  cases x with
  | nil => simp [scanWhole] at h
  | cons c x =>
    simp only [List.cons_append, scanWhole] at h ⊢
    split_ifs at h ⊢ with h0 hd
    · simp only [Option.some.injEq] at h
      simp [← h]
    · have := scanDigits_append hr (c :: x)
      simp only [Option.some.injEq] at h
      rw [← List.cons_append, this, ← h]

theorem scanInt_append {x : List Char} {w : List Char × List Char}
    (h : scanInt x = some w) : scanInt (x ++ rest) = some (w.1, w.2 ++ rest) := by
  simp only [scanInt, Option.map_eq_some_iff] at h ⊢
  obtain ⟨v, hv, rfl⟩ := h
  have hs := scanSign_append hr (l := ['-']) (by simp) x
  exact ⟨(v.1, v.2 ++ rest), by rw [hs]; exact scanWhole_append hr hv, by rw [hs]⟩

theorem scanFraction_append (x : List Char) :
    scanFraction (x ++ rest) = ((scanFraction x).1, (scanFraction x).2 ++ rest) := by
  cases x with
  | nil =>
    cases rest with
    | nil => rfl
    | cons c rest =>
      have hc : c ≠ '.' := fun h => (hr c (by simp)).2 (by simp [h])
      simp [scanFraction, hc]
  | cons c x =>
    have := scanDigits_append hr x
    simp only [List.cons_append, scanFraction, this]
    split_ifs <;> rfl

theorem scanExponent_append (x : List Char) :
    scanExponent (x ++ rest) = ((scanExponent x).1, (scanExponent x).2 ++ rest) := by
  cases x with
  | nil =>
    cases rest with
    | nil => rfl
    | cons c rest =>
      have hc : c ∉ ['e', 'E'] := fun h => (hr c (by simp)).2 (by
        simp only [List.mem_cons, List.not_mem_nil, or_false] at h ⊢
        tauto)
      simp [scanExponent, hc]
  | cons c x =>
    have hs := scanSign_append hr (l := ['+', '-']) (by simp) x
    have hd := scanDigits_append hr (scanSign ['+', '-'] x).2
    simp only [List.cons_append, scanExponent, hs, hd]
    split_ifs <;> rfl

/-- A number reads the same with any text behind it that ends the number. -/
theorem scanNumber_append {x : List Char} {v : Json × List Char}
    (h : scanNumber x = some v) : scanNumber (x ++ rest) = some (v.1, v.2 ++ rest) := by
  simp only [scanNumber, Option.map_eq_some_iff] at h ⊢
  obtain ⟨w, hw, rfl⟩ := h
  refine ⟨_, scanInt_append hr hw, ?_⟩
  simp only [scanFraction_append hr, scanExponent_append hr]
  split_ifs <;> rfl

end Append

theorem scanDigits_of_all {ds : List Char} (h : ∀ c ∈ ds, c.isDigit = true) :
    scanDigits ds = (ds, []) := by
  simp only [scanDigits, Prod.mk.injEq]
  exact ⟨List.takeWhile_eq_self_iff.mpr h, List.dropWhile_eq_nil_iff.mpr h⟩

theorem scanWhole_dumpsNat (n : ℕ) : scanWhole (dumpsNat n) = some (dumpsNat n, []) := by
  have hall := dumpsNat_isDigit n
  rcases dumpsNat_head n with h | ⟨c, cs, h, h0, hd⟩
  · rw [h]
    rfl
  · rw [h] at hall ⊢
    simp [scanWhole, h0, hd, scanDigits_of_all hall]

/-- No digit is a sign. -/
theorem scanSign_dumpsNat (n : ℕ) : scanSign ['-'] (dumpsNat n) = ([], dumpsNat n) := by
  rcases dumpsNat_head n with h | ⟨c, cs, h, _, hd⟩
  · rw [h]
    rfl
  · have hc : c ≠ '-' := by
      rintro rfl
      exact absurd hd (by decide)
    simp [h, scanSign, hc]

theorem dumpsNat_head_ne (n : ℕ) : (dumpsNat n).head? ≠ some '-' := by
  intro h
  have hmem := List.mem_of_mem_head? (Option.mem_def.mpr h)
  exact absurd (dumpsNat_isDigit n _ hmem) (by decide)

theorem scanNumber_dumpsInt (n : ℤ) : scanNumber (dumpsInt n) = some (.int n, []) := by
  unfold dumpsInt
  split_ifs with h
  · simp only [scanNumber, scanInt, scanSign, List.mem_singleton, ↓reduceIte, scanWhole_dumpsNat,
      Option.map_some, scanFraction, scanExponent, List.singleton_append, and_self, intOf,
      List.head?_cons, List.tail_cons, natOf_dumpsNat]
    congr
    omega
  · simp only [scanNumber, scanInt, scanSign_dumpsNat, scanWhole_dumpsNat, Option.map_some,
      scanFraction, scanExponent, List.nil_append, and_self, ↓reduceIte, intOf, natOf_dumpsNat,
      if_neg (dumpsNat_head_ne _)]
    congr
    omega

theorem strip_eq_append {lit x r : List Char} (h : strip lit x = some r) : x = lit ++ r := by
  induction lit generalizing x with
  | nil => simp_all [strip]
  | cons l lit ih =>
    cases x with
    | nil => simp [strip] at h
    | cons c x =>
      simp only [strip] at h
      split_ifs at h with hc
      simp [hc, ih h]

/-- What a number begins with: a digit, or a minus and a digit. -/
theorem scanNumber_head {x : List Char} {v : Json × List Char} (h : scanNumber x = some v) :
    ∃ c cs, c.isDigit = true ∧ (x = c :: cs ∨ x = '-' :: c :: cs) := by
  simp only [scanNumber, scanInt, Option.map_eq_some_iff] at h
  obtain ⟨w, ⟨u, hu, -⟩, -⟩ := h
  have hwhole : ∃ c cs, c.isDigit = true ∧ (scanSign ['-'] x).2 = c :: cs := by
    revert hu
    cases (scanSign ['-'] x).2 with
    | nil => simp [scanWhole]
    | cons c cs =>
      intro hu
      simp only [scanWhole] at hu
      split_ifs at hu with h0 hd
      · exact ⟨c, cs, by rw [h0]; decide, rfl⟩
      · exact ⟨c, cs, hd, rfl⟩
  obtain ⟨c, cs, hc, hs⟩ := hwhole
  cases x with
  | nil => simp [scanSign] at hs
  | cons d x =>
    refine ⟨c, cs, hc, ?_⟩
    simp only [scanSign] at hs
    split_ifs at hs with hd
    · simp only [List.mem_singleton] at hd
      dsimp only at hs
      exact Or.inr (by rw [hd, hs])
    · exact Or.inl hs

/-- A text that begins as a number does is none of the constants. -/
theorem scanConstant_of_number {x : List Char} {v : Json × List Char}
    (h : scanNumber x = some v) : scanConstant x = some v := by
  obtain ⟨c, cs, hc, hx⟩ := scanNumber_head h
  have hne : ∀ l : Char, l.isDigit = false → l ≠ c := by
    rintro l hl rfl
    simp [hl] at hc
  rcases hx with rfl | rfl
  · simp [scanConstant, strip, hne _ (show Char.isDigit 'n' = false by decide),
      hne _ (show Char.isDigit 't' = false by decide),
      hne _ (show Char.isDigit 'f' = false by decide),
      hne _ (show Char.isDigit 'N' = false by decide),
      hne _ (show Char.isDigit 'I' = false by decide),
      hne _ (show Char.isDigit '-' = false by decide), h]
  · simp [scanConstant, strip, hne _ (show Char.isDigit 'I' = false by decide), h]

/-- The texts a float may be kept as: the three special values, or a number that
reads as that float. -/
def IsFloatText (text : String) : Prop :=
  text ∈ ["NaN", "Infinity", "-Infinity"] ∨ scanNumber text.toList = some (.float text, [])

instance (text : String) : Decidable (IsFloatText text) := inferInstanceAs (Decidable (_ ∨ _))

theorem scanConstant_float {text : String} (h : IsFloatText text) {rest : List Char}
    (hr : NumberEnds rest) : scanConstant (text.toList ++ rest) = some (.float text, rest) := by
  rcases h with h | h
  · simp only [List.mem_cons, List.not_mem_nil, or_false] at h
    rcases h with rfl | rfl | rfl <;> simp [scanConstant, strip]
  · simpa using scanConstant_of_number (scanNumber_append hr h)

/-! ## Strings -/

theorem hexVal_hexChar : ∀ d < 16, hexVal (hexChar d) = some d := by decide

theorem strip_unit {n : ℕ} (rest : List Char) :
    strip ['\\', 'u'] (dumpsUnit n ++ rest) =
      some ([hexChar (n / 4096), hexChar (n / 256 % 16), hexChar (n / 16 % 16), hexChar (n % 16)] ++
        rest) := by
  simp [dumpsUnit, strip]

theorem scanUnit_hex {n : ℕ} (h : n < 65536) (rest : List Char) :
    scanUnit ([hexChar (n / 4096), hexChar (n / 256 % 16), hexChar (n / 16 % 16),
      hexChar (n % 16)] ++ rest) = some (n, rest) := by
  have h1 := hexVal_hexChar (n / 4096) (by omega)
  have h2 := hexVal_hexChar (n / 256 % 16) (by omega)
  have h3 := hexVal_hexChar (n / 16 % 16) (by omega)
  have h4 := hexVal_hexChar (n % 16) (by omega)
  simp only [List.cons_append, List.nil_append, scanUnit, h1, h2, h3, h4, Option.bind_eq_bind,
    Option.bind_some]
  congr
  omega

theorem scanChar_unit {n : ℕ} (h : n < 65536) (rest : List Char) :
    scanChar (dumpsUnit n ++ rest) = scanUnicode n rest := by
  have hu := scanUnit_hex h rest
  simp only [List.cons_append, List.nil_append] at hu
  simp [dumpsUnit, scanChar, scanEscape, hu]

/-- A character is no surrogate, and below the end of the code space. -/
theorem toNat_range (c : Char) : c.toNat < 55296 ∨ 57343 < c.toNat ∧ c.toNat < 1114112 := c.valid

/-- A character is written as an escape, as itself, or as one or two units. -/
theorem dumpsChar_cases (c : Char) :
    (∃ e, e ≠ 'u' ∧ unescape e = some c ∧ dumpsChar c = ['\\', e]) ∨
    (c ≠ '"' ∧ c ≠ '\\' ∧ 32 ≤ c.toNat ∧ dumpsChar c = [c]) ∨
    (c.toNat < 65536 ∧ dumpsChar c = dumpsUnit c.toNat) ∨
    (65536 ≤ c.toNat ∧ dumpsChar c =
      dumpsUnit (55296 + (c.toNat - 65536) / 1024) ++
        dumpsUnit (56320 + (c.toNat - 65536) % 1024)) := by
  unfold dumpsChar
  by_cases h1 : c = '"'
  · exact .inl ⟨'"', by decide, by rw [h1]; rfl, if_pos h1⟩
  rw [if_neg h1]
  by_cases h2 : c = '\\'
  · exact .inl ⟨'\\', by decide, by rw [h2]; rfl, if_pos h2⟩
  rw [if_neg h2]
  by_cases h3 : c = '\n'
  · exact .inl ⟨'n', by decide, by rw [h3]; rfl, if_pos h3⟩
  rw [if_neg h3]
  by_cases h4 : c = '\r'
  · exact .inl ⟨'r', by decide, by rw [h4]; rfl, if_pos h4⟩
  rw [if_neg h4]
  by_cases h5 : c = '\t'
  · exact .inl ⟨'t', by decide, by rw [h5]; rfl, if_pos h5⟩
  rw [if_neg h5]
  by_cases h6 : c = '\x08'
  · exact .inl ⟨'b', by decide, by rw [h6]; rfl, if_pos h6⟩
  rw [if_neg h6]
  by_cases h7 : c = '\x0c'
  · exact .inl ⟨'f', by decide, by rw [h7]; rfl, if_pos h7⟩
  rw [if_neg h7]
  by_cases h8 : 32 ≤ c.toNat ∧ c.toNat ≤ 126
  · exact .inr (.inl ⟨h1, h2, h8.1, if_pos h8⟩)
  rw [if_neg h8]
  by_cases h9 : c.toNat < 65536
  · exact .inr (.inr (.inl ⟨h9, if_pos h9⟩))
  · exact .inr (.inr (.inr ⟨not_lt.1 h9, if_neg h9⟩))

theorem scanChar_dumpsChar (c : Char) (rest : List Char) :
    scanChar (dumpsChar c ++ rest) = some (c, rest) := by
  have hrange := toNat_range c
  obtain ⟨e, hu, he, hc⟩ | ⟨-, h2, hprint, hc⟩ | ⟨hunit, hc⟩ | ⟨hpair, hc⟩ := dumpsChar_cases c
  · rw [hc]
    simp [scanChar, scanEscape, hu, he]
  · have hcontrol : ¬ c.toNat < 32 := by omega
    rw [hc]
    simp [scanChar, h2, hcontrol]
  · rw [hc, scanChar_unit hunit, scanUnicode, if_neg (by omega), if_neg (by omega),
      Char.ofNat_toNat]
  · rw [hc, List.append_assoc, scanChar_unit (by omega), scanUnicode, if_pos (by omega),
      strip_unit]
    simp only [scanUnit_hex (show 56320 + (c.toNat - 65536) % 1024 < 65536 by omega),
      Option.map_some]
    rw [if_pos (by omega)]
    have hc : 65536 + (55296 + (c.toNat - 65536) / 1024 - 55296) * 1024 +
        (56320 + (c.toNat - 65536) % 1024 - 56320) = c.toNat := by omega
    rw [hc, Char.ofNat_toNat]

/-- An escaped character never begins with the closing quote. -/
theorem strip_quote_dumpsChar (c : Char) (rest : List Char) :
    strip ['"'] (dumpsChar c ++ rest) = none := by
  obtain ⟨e, -, -, hc⟩ | ⟨h1, -, -, hc⟩ | ⟨-, hc⟩ | ⟨-, hc⟩ := dumpsChar_cases c
  · simp [hc, strip]
  · simp [hc, strip, Ne.symm h1]
  · simp [hc, strip, dumpsUnit]
  · simp [hc, strip, dumpsUnit]

theorem scanString_dumps (s : List Char) (rest : List Char) {n : ℕ} (h : s.length < n) :
    scanString n (s.flatMap dumpsChar ++ '"' :: rest) = some (s, rest) := by
  induction s generalizing n with
  | nil =>
    obtain ⟨m, rfl⟩ := Nat.exists_eq_add_of_lt h
    simp [scanString, strip]
  | cons c s ih =>
    obtain ⟨m, rfl⟩ : ∃ m, n = m + 1 := ⟨n - 1, by omega⟩
    have hlen : s.length < m := by simpa using h
    simp only [List.flatMap_cons, List.append_assoc, scanString, strip_quote_dumpsChar,
      scanChar_dumpsChar, Option.bind_some, ih hlen, Option.map_some]

theorem length_le_flatMap_dumpsChar (s : List Char) : s.length ≤ (s.flatMap dumpsChar).length := by
  induction s with
  | nil => simp
  | cons c s ih =>
    have hc : 1 ≤ (dumpsChar c).length := by
      obtain ⟨e, -, -, hc⟩ | ⟨-, -, -, hc⟩ | ⟨-, hc⟩ | ⟨-, hc⟩ := dumpsChar_cases c
      all_goals simp [hc, dumpsUnit]
    simp only [List.length_cons, List.flatMap_cons, List.length_append]
    omega

/-- The reader of a literal, given the length of what is left, gives the string back. -/
theorem scanString_literal (s rest : List Char) :
    scanString ((s.flatMap dumpsChar ++ '"' :: rest).length + 1)
      (s.flatMap dumpsChar ++ '"' :: rest) = some (s, rest) := by
  have h := length_le_flatMap_dumpsChar s
  apply scanString_dumps
  simp only [List.length_append, List.length_cons]
  omega

/-! ## Round trip -/

mutual
/-- Keys of an object are distinct, and every float is kept as a text that denotes it. -/
def WellFormed : Json → Prop
  | .float text => IsFloatText text
  | .arr items => WellFormedItems items
  | .obj fields => (fields.map Prod.fst).Nodup ∧ WellFormedFields fields
  | _ => True
def WellFormedItems : List Json → Prop
  | [] => True
  | v :: items => WellFormed v ∧ WellFormedItems items
def WellFormedFields : List (String × Json) → Prop
  | [] => True
  | (_, v) :: fields => WellFormed v ∧ WellFormedFields fields
end

/-- No text of a value begins with a blank, a closing bracket or a byte order mark. -/
def Opens (cs : List Char) : Prop :=
  ∃ c r, cs = c :: r ∧ isBlank c = false ∧ c ∉ [']', '}', '\uFEFF']

theorem opens_cons {c : Char} {r : List Char} (h : isBlank c = false ∧ c ∉ [']', '}', '\uFEFF']) :
    Opens (c :: r) := ⟨c, r, rfl, h⟩

theorem Opens.append {cs : List Char} (h : Opens cs) (rest : List Char) : Opens (cs ++ rest) := by
  obtain ⟨c, r, rfl, hc⟩ := h
  exact ⟨c, r ++ rest, rfl, hc⟩

theorem Opens.skipBlanks {cs : List Char} (h : Opens cs) : skipBlanks cs = cs := by
  obtain ⟨c, r, rfl, hc, -⟩ := h
  simp [JsonText.skipBlanks, hc]

theorem Opens.strip {cs : List Char} (h : Opens cs) {l : Char} (hl : l ∈ [']', '}']) :
    strip [l] cs = none := by
  obtain ⟨c, r, rfl, -, hc⟩ := h
  have hne : l ≠ c := by
    rintro rfl
    simp only [List.mem_cons, List.not_mem_nil, or_false] at hl hc
    tauto
  simp [JsonText.strip, hne]

theorem opens_of_digit {c : Char} (h : c.isDigit = true) (r : List Char) : Opens (c :: r) := by
  refine opens_cons ⟨?_, ?_⟩
  · by_contra hb
    simp only [isBlank, Bool.not_eq_false, Bool.or_eq_true, beq_iff_eq] at hb
    rcases hb with ((rfl | rfl) | rfl) | rfl <;> exact absurd h (by decide)
  · simp only [List.mem_cons, List.not_mem_nil, or_false]
    rintro (rfl | rfl | rfl) <;> exact absurd h (by decide)

theorem opens_number {x : List Char} {v : Json × List Char} (h : scanNumber x = some v) :
    Opens x := by
  obtain ⟨c, cs, hc, rfl | rfl⟩ := scanNumber_head h
  · exact opens_of_digit hc cs
  · exact opens_cons (by decide)

theorem opens_dumps {v : Json} (h : WellFormed v) : Opens (dumps v) := by
  cases v with
  | null => exact opens_cons (by decide)
  | bool b => cases b <;> exact opens_cons (by decide)
  | int n => exact opens_number (scanNumber_dumpsInt n)
  | float text =>
    rcases h with h | h
    · simp only [List.mem_cons, List.not_mem_nil, or_false] at h
      rcases h with rfl | rfl | rfl <;> exact opens_cons (by decide)
    · exact opens_number h
  | str s => exact opens_cons (by decide)
  | arr items => exact opens_cons (by decide)
  | obj fields => exact opens_cons (by decide)

theorem opens_dumpsItems {v : Json} (h : WellFormed v) (items : List Json) :
    Opens (dumpsItems (v :: items)) := by
  cases items with
  | nil => exact opens_dumps h
  | cons w items => exact (opens_dumps h).append _

theorem opens_dumpsFields (f : String × Json) (fields : List (String × Json)) :
    Opens (dumpsFields (f :: fields)) := by
  cases fields with
  | nil => exact opens_cons (by decide)
  | cons g fields => exact opens_cons (by decide)

theorem numberEnds_comma (rest : List Char) : NumberEnds (',' :: rest) :=
  numberEnds_cons (by decide)

/-- A value that no quote or bracket opens is read by the constant scanner. -/
theorem scanValue_constant {n : ℕ} {cs : List Char} {v : Json × List Char}
    (h : scanConstant cs = some v) (hq : ∀ c ∈ ['"', '[', '{'], cs.head? ≠ some c) :
    scanValue (n + 1) cs = some v := by
  cases cs with
  | nil => simp [scanConstant, strip, scanNumber, scanInt, scanSign, scanWhole] at h
  | cons c r =>
    have h1 : c ≠ '"' := fun he => hq '"' (by simp) (by simp [he])
    have h2 : c ≠ '[' := fun he => hq '[' (by simp) (by simp [he])
    have h3 : c ≠ '{' := fun he => hq '{' (by simp) (by simp [he])
    simp only [scanValue, if_neg h1, if_neg h2, if_neg h3, h]

theorem scanNumber_head_ne {x : List Char} {v : Json × List Char} (h : scanNumber x = some v) :
    ∀ c ∈ ['"', '[', '{'], x.head? ≠ some c := by
  obtain ⟨d, cs, hd, rfl | rfl⟩ := scanNumber_head h <;> intro c hc he <;>
    simp only [List.head?_cons, Option.some.injEq] at he <;> subst he
  · simp only [List.mem_cons, List.not_mem_nil, or_false] at hc
    rcases hc with rfl | rfl | rfl <;> exact absurd hd (by decide)
  · exact absurd hc (by decide)

theorem scanValue_number {n : ℕ} {x rest : List Char} {v : Json} (h : scanNumber x = some (v, []))
    (hr : NumberEnds rest) : scanValue (n + 1) (x ++ rest) = some (v, rest) := by
  have ha := scanNumber_append hr h
  exact scanValue_constant (scanConstant_of_number ha) (scanNumber_head_ne ha)

theorem scanValue_float {n : ℕ} {text : String} (h : IsFloatText text) {rest : List Char}
    (hr : NumberEnds rest) :
    scanValue (n + 1) (text.toList ++ rest) = some (.float text, rest) := by
  refine scanValue_constant (scanConstant_float h hr) ?_
  rcases h with h | h
  · simp only [List.mem_cons, List.not_mem_nil, or_false] at h
    rcases h with rfl | rfl | rfl <;> simp
  · exact scanNumber_head_ne (scanNumber_append hr h)

theorem exists_succ {n k : ℕ} (h : k < n) : ∃ m, n = m + 1 ∧ k ≤ m := ⟨n - 1, by omega, by omega⟩

mutual
/-- Reading what was written gives the value back and stops behind it, whenever
the fuel is at least the length of the text. -/
theorem scanValue_dumps : ∀ (v : Json) {n : ℕ} {r : List Char}, WellFormed v →
    (dumps v).length ≤ n → NumberEnds r → scanValue n (dumps v ++ r) = some (v, r)
  | .null, n, rest, _, hn, _ => by
    obtain ⟨m, rfl, -⟩ := exists_succ (show 0 < n by simp [dumps] at hn; omega)
    exact scanValue_constant (by simp [dumps, scanConstant, strip]) (by simp [dumps])
  | .bool b, n, rest, _, hn, _ => by
    obtain ⟨m, rfl, -⟩ := exists_succ (show 0 < n by cases b <;> simp [dumps] at hn <;> omega)
    cases b <;> exact scanValue_constant (by simp [dumps, scanConstant, strip]) (by simp [dumps])
  | .int i, n, rest, _, hn, hr => by
    obtain ⟨c, r, hc, -⟩ := opens_number (scanNumber_dumpsInt i)
    simp only [dumps] at hn ⊢
    obtain ⟨m, rfl, -⟩ := exists_succ (show 0 < n by rw [hc, List.length_cons] at hn; omega)
    exact scanValue_number (scanNumber_dumpsInt i) hr
  | .float text, n, rest, h, hn, hr => by
    obtain ⟨c, r, hc, -⟩ := opens_dumps h
    rw [hc, List.length_cons] at hn
    obtain ⟨m, rfl, -⟩ := exists_succ (show 0 < n by omega)
    exact scanValue_float h hr
  | .str s, n, rest, _, hn, _ => by
    simp only [dumps, dumpsString, List.length_cons] at hn
    obtain ⟨m, rfl, -⟩ := exists_succ (show 0 < n by omega)
    simp only [dumps, dumpsString, List.cons_append, List.append_assoc, List.nil_append,
      scanValue, ↓reduceIte, scanString_literal, Option.map_some, String.ofList_toList]
  | .arr [], n, rest, _, hn, _ => by
    obtain ⟨m, rfl, -⟩ := exists_succ (show 0 < n by simp [dumps] at hn; omega)
    simp [dumps, dumpsItems, scanValue, skipBlanks, isBlank, strip]
  | .arr (v :: items), n, rest, h, hn, _ => by
    simp only [dumps, List.length_cons, List.length_append, List.length_nil] at hn
    obtain ⟨m, rfl, hm⟩ := exists_succ (show (dumpsItems (v :: items)).length + 1 < n by omega)
    have ho : Opens (dumpsItems (v :: items) ++ ']' :: rest) :=
      (opens_dumpsItems h.1 items).append _
    have hitems := scanItems_dumps v items (r := rest) h hm
    simp only [dumps, List.cons_append, List.append_assoc, List.nil_append, scanValue,
      Char.reduceEq, ↓reduceIte, ho.skipBlanks, ho.strip (l := ']') (by simp), hitems,
      Option.map_some]
  | .obj [], n, rest, _, hn, _ => by
    obtain ⟨m, rfl, -⟩ := exists_succ (show 0 < n by simp [dumps] at hn; omega)
    simp [dumps, dumpsFields, scanValue, skipBlanks, isBlank, strip]
  | .obj (f :: fields), n, rest, h, hn, _ => by
    simp only [dumps, List.length_cons, List.length_append, List.length_nil] at hn
    obtain ⟨m, rfl, hm⟩ := exists_succ (show (dumpsFields (f :: fields)).length + 1 < n by omega)
    have ho : Opens (dumpsFields (f :: fields) ++ '}' :: rest) :=
      (opens_dumpsFields f fields).append _
    have hfields := scanFields_dumps f fields (r := rest) h.2 hm
    simp only [dumps, List.cons_append, List.append_assoc, List.nil_append, scanValue,
      Char.reduceEq, ↓reduceIte, ho.skipBlanks, ho.strip (l := '}') (by simp), hfields,
      Option.map_some, dictOf_of_nodup h.1]
termination_by v => sizeOf v
theorem scanItems_dumps : ∀ (v : Json) (items : List Json) {n : ℕ} {r : List Char},
    WellFormedItems (v :: items) → (dumpsItems (v :: items)).length + 1 ≤ n →
    scanItems n (dumpsItems (v :: items) ++ ']' :: r) = some (v :: items, r)
  | v, [], n, rest, h, hn => by
    obtain ⟨m, rfl, hm⟩ := exists_succ (show (dumpsItems [v]).length < n by omega)
    have hv := scanValue_dumps v (r := ']' :: rest) h.1 hm (numberEnds_cons (by decide))
    simp [dumpsItems, scanItems, hv, skipBlanks, isBlank]
  | v, w :: items, n, rest, h, hn => by
    obtain ⟨m, rfl, hm⟩ := exists_succ (show (dumpsItems (v :: w :: items)).length < n by omega)
    simp only [dumpsItems, List.length_append, List.length_cons] at hm
    have ho : Opens (dumpsItems (w :: items) ++ ']' :: rest) :=
      (opens_dumpsItems h.2.1 items).append _
    have hv := scanValue_dumps v (n := m)
      (r := ',' :: ' ' :: (dumpsItems (w :: items) ++ ']' :: rest)) h.1 (by omega)
      (numberEnds_comma _)
    have hitems := scanItems_dumps w items (n := m) (r := rest) h.2 (by omega)
    have hskip : skipBlanks (' ' :: (dumpsItems (w :: items) ++ ']' :: rest)) =
        dumpsItems (w :: items) ++ ']' :: rest := ho.skipBlanks
    have hcomma : ∀ r, skipBlanks (',' :: r) = ',' :: r := fun r => rfl
    simp only [dumpsItems, List.append_assoc, List.cons_append, scanItems, hv, Option.bind_some,
      hcomma, ↓reduceIte, hskip, hitems, Option.map_some]
termination_by v items => sizeOf (v :: items)
theorem scanFields_dumps : ∀ (f : String × Json) (fields : List (String × Json)) {n : ℕ}
    {r : List Char}, WellFormedFields (f :: fields) →
    (dumpsFields (f :: fields)).length + 1 ≤ n →
    scanFields n (dumpsFields (f :: fields) ++ '}' :: r) = some (f :: fields, r)
  | (k, v), [], n, rest, h, hn => by
    obtain ⟨m, rfl, hm⟩ := exists_succ (show (dumpsFields [(k, v)]).length < n by omega)
    simp only [dumpsFields, dumpsString, List.length_append, List.length_cons] at hm
    have hv := scanValue_dumps v (n := m) (r := '}' :: rest) h.1 (by omega)
      (numberEnds_cons (by decide))
    have ho : Opens (dumps v ++ '}' :: rest) := (opens_dumps h.1).append _
    have hskip : skipBlanks (' ' :: (dumps v ++ '}' :: rest)) = dumps v ++ '}' :: rest :=
      ho.skipBlanks
    have hcolon : ∀ r, skipBlanks (':' :: r) = ':' :: r := fun r => rfl
    have hbrace : ∀ r, skipBlanks ('}' :: r) = '}' :: r := fun r => rfl
    simp only [dumpsFields, dumpsString, List.append_assoc, List.cons_append, List.nil_append,
      scanFields, strip, ↓reduceIte, Option.bind_some, scanString_literal, hcolon, hskip, hv,
      hbrace, Char.reduceEq, String.ofList_toList]
  | (k, v), g :: fields, n, rest, h, hn => by
    obtain ⟨m, rfl, hm⟩ :=
      exists_succ (show (dumpsFields ((k, v) :: g :: fields)).length < n by omega)
    simp only [dumpsFields, dumpsString, List.length_append, List.length_cons] at hm
    have hv := scanValue_dumps v (n := m)
      (r := ',' :: ' ' :: (dumpsFields (g :: fields) ++ '}' :: rest)) h.1 (by omega)
      (numberEnds_comma _)
    have hfields := scanFields_dumps g fields (n := m) (r := rest) h.2 (by omega)
    have ho : Opens (dumps v ++ ',' :: ' ' :: (dumpsFields (g :: fields) ++ '}' :: rest)) :=
      (opens_dumps h.1).append _
    have hskip : ∀ x, Opens x → skipBlanks (' ' :: x) = x := fun x hx => hx.skipBlanks
    have hcolon : ∀ r, skipBlanks (':' :: r) = ':' :: r := fun r => rfl
    have hcomma : ∀ r, skipBlanks (',' :: r) = ',' :: r := fun r => rfl
    simp only [dumpsFields, dumpsString, List.append_assoc, List.cons_append, List.nil_append,
      scanFields, strip, ↓reduceIte, Option.bind_some, scanString_literal, hcolon,
      hskip _ ho, hv, hcomma, hskip _ ((opens_dumpsFields g fields).append _), hfields,
      Option.map_some, String.ofList_toList]
termination_by f fields => sizeOf (f :: fields)
end

/-- Reading inverts writing. -/
theorem loads_dumps {v : Json} (h : WellFormed v) : loads (dumps v) = some v := by
  have ho := opens_dumps h
  have hv := scanValue_dumps v (n := (dumps v).length + 1) (r := []) h (by omega) numberEnds_nil
  rw [List.append_nil] at hv
  have hbom : (dumps v).head? ≠ some '\uFEFF' := by
    obtain ⟨c, r, hc, -, hmem⟩ := ho
    rw [hc, List.head?_cons]
    rintro ⟨rfl⟩
    simp at hmem
  simp only [loads, if_neg hbom, ho.skipBlanks, hv, Option.bind_some]
  rfl

theorem scanUnit_length {cs r : List Char} {n : ℕ} (h : scanUnit cs = some (n, r)) :
    r.length + 4 = cs.length := by
  unfold scanUnit at h
  split at h
  · simp only [Option.bind_eq_bind, Option.bind_eq_some_iff, Option.pure_def, Option.some.injEq,
      Prod.mk.injEq] at h
    obtain ⟨_, -, _, -, _, -, _, -, -, rfl⟩ := h
    rfl
  · simp at h

theorem strip_length {lit cs r : List Char} (h : strip lit cs = some r) :
    r.length + lit.length = cs.length := by
  rw [strip_eq_append h, List.length_append]
  omega

theorem scanUnicode_length {n : ℕ} {cs r : List Char} {c : Char}
    (h : scanUnicode n cs = some (c, r)) : r.length ≤ cs.length := by
  unfold scanUnicode at h
  split_ifs at h
  · split at h
    · simp only [Option.some.injEq, Prod.mk.injEq] at h
      simp [h.2]
    · rename_i rest hs
      obtain ⟨m, hm, he⟩ := Option.map_eq_some_iff.mp h
      have h1 := strip_length hs
      have h2 := scanUnit_length hm
      split_ifs at he
      · simp only [Prod.mk.injEq] at he
        rw [← he.2]
        omega
      · simp only [Prod.mk.injEq] at he
        simp [he.2]
  · simp only [Option.some.injEq, Prod.mk.injEq] at h
    simp [h.2]
  · simp only [Option.some.injEq, Prod.mk.injEq] at h
    simp [h.2]

theorem scanChar_length {cs r : List Char} {c : Char} (h : scanChar cs = some (c, r)) :
    r.length < cs.length := by
  cases cs with
  | nil => simp [scanChar] at h
  | cons d cs =>
    simp only [scanChar] at h
    split_ifs at h
    · cases cs with
      | nil => simp [scanEscape] at h
      | cons e cs =>
        simp only [scanEscape] at h
        split_ifs at h
        · obtain ⟨u, hu, hc⟩ := Option.bind_eq_some_iff.mp h
          have h1 := scanUnit_length hu
          have h2 := scanUnicode_length hc
          simp only [List.length_cons]
          omega
        · obtain ⟨_, -, he⟩ := Option.map_eq_some_iff.mp h
          simp only [Prod.mk.injEq] at he
          simp [← he.2]
    · simp only [Option.some.injEq, Prod.mk.injEq] at h
      simp [h.2]

/-- A literal takes at least its own characters and the closing quote. -/
theorem scanString_length {n : ℕ} {cs s r : List Char} (h : scanString n cs = some (s, r)) :
    s.length + r.length < cs.length := by
  induction n generalizing cs s r with
  | zero => simp [scanString] at h
  | succ n ih =>
    simp only [scanString] at h
    split at h
    · rename_i rest hq
      have := strip_length hq
      simp only [Option.some.injEq, Prod.mk.injEq] at h
      obtain ⟨rfl, rfl⟩ := h
      simp at this ⊢
      omega
    · obtain ⟨c, hc, hm⟩ := Option.bind_eq_some_iff.mp h
      obtain ⟨t, ht, he⟩ := Option.map_eq_some_iff.mp hm
      have h1 := scanChar_length hc
      have h2 := ih ht
      simp only [Prod.mk.injEq] at he
      rw [← he.1, List.length_cons, ← he.2]
      omega

theorem scanNumber_ne_str {cs r : List Char} {t : String} : scanNumber cs ≠ some (.str t, r) := by
  intro h
  obtain ⟨w, -, he⟩ := Option.map_eq_some_iff.mp h
  dsimp only at he
  split_ifs at he <;> simp at he

theorem scanConstant_ne_str {cs r : List Char} {t : String} :
    scanConstant cs ≠ some (.str t, r) := by
  have hlit : ∀ (lit : List Char) (v : Json), v ≠ .str t →
      ∀ {o : Option (Json × List Char)}, o ≠ some (.str t, r) →
        (((strip lit cs).map fun r => (v, r)) <|> o) ≠ some (.str t, r) := by
    intro lit v hv o ho
    cases hs : strip lit cs with
    | none => simpa using ho
    | some x => simp [hv]
  exact hlit _ _ (by simp) (hlit _ _ (by simp) (hlit _ _ (by simp) (hlit _ _ (by simp)
    (hlit _ _ (by simp) (hlit _ _ (by simp) scanNumber_ne_str)))))

theorem scanValue_str_length {n : ℕ} {cs r : List Char} {t : String}
    (h : scanValue n cs = some (.str t, r)) : t.toList.length + 2 ≤ cs.length := by
  cases n with
  | zero => simp [scanValue] at h
  | succ n =>
    cases cs with
    | nil => simp [scanValue] at h
    | cons c cs =>
      simp only [scanValue] at h
      split_ifs at h
      · obtain ⟨s, hs, he⟩ := Option.map_eq_some_iff.mp h
        have := scanString_length hs
        simp only [Prod.mk.injEq, Json.str.injEq] at he
        rw [← he.1, String.toList_ofList, List.length_cons]
        omega
      · split at h <;> simp at h
      · split at h <;> simp at h
      · exact absurd h scanConstant_ne_str

theorem skipBlanks_length (cs : List Char) : (skipBlanks cs).length ≤ cs.length :=
  List.length_dropWhile_le _ _

/-- A text that reads as a string is longer than that string: a quoted string is
never mistaken for itself. -/
theorem loads_ne_str (s : String) : loads s.toList ≠ some (.str s) := by
  intro h
  unfold loads at h
  split_ifs at h
  obtain ⟨v, hv, he⟩ := Option.bind_eq_some_iff.mp h
  split_ifs at he
  simp only [Option.some.injEq] at he
  have h1 := scanValue_str_length (t := s) (r := v.2) (by rw [hv, ← he])
  have h2 := skipBlanks_length s.toList
  omega

end EventSourcery.JsonText
