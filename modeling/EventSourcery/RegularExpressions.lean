import Mathlib.Algebra.GroupWithZero.Nat
import Mathlib.Computability.Language
import Mathlib.Data.Finset.Max

/-!
# Regular expressions

The classic notation: most characters stand for themselves, `.` for any character but a newline,
and `[...]` and `[^...]` for one of some characters and for one of the others. Parentheses, `|`,
`*`, `+` and `?` build larger expressions from these. A pattern that uses anything else, such as a
counted repetition, an anchor or a range of characters, is not read.
-/
namespace EventSourcery.RegularExpressions
open scoped Computability

inductive Regex where
  | fail
  | empty
  | char (c : Char)
  | any
  | word
  | oneOf (cs : List Char)
  | noneOf (cs : List Char)
  | seq (r s : Regex)
  | alt (r s : Regex)
  | star (r : Regex)
  | plus (r : Regex)

/-- The words of one character of a kind. -/
def ofKind (kind : Char → Prop) : Language Char := {w | ∃ c, kind c ∧ w = [c]}

namespace Regex

/-- The words that an expression matches as a whole; which characters `\w` stands for is left
open. -/
def language (isWord : Char → Prop) : Regex → Language Char
  | fail => 0
  | empty => 1
  | char c => {[c]}
  | any => ofKind (· ≠ '\n')
  | word => ofKind isWord
  | oneOf cs => ofKind (· ∈ cs)
  | noneOf cs => ofKind (· ∉ cs)
  | seq r s => language isWord r * language isWord s
  | alt r s => language isWord r + language isWord s
  | star r => (language isWord r)∗
  | plus r => language isWord r * (language isWord r)∗

/-- How many characters an expression names. -/
def width : Regex → ℕ
  | fail => 0
  | empty => 0
  | char _ => 1
  | any => 1
  | word => 1
  | oneOf _ => 1
  | noneOf _ => 1
  | seq r s => width r + width s
  | alt r s => width r + width s
  | star r => width r
  | plus r => width r

end Regex

/-! ## How a pattern is read -/

/-- The characters that do not stand for themselves. -/
def special : List Char := "\\.^$*+?()[\x7b|".toList

/-- One level of parentheses: the choices before the last `|`, what comes after it, and the last
part of that where it can still be repeated. -/
structure Frame where
  choices : Regex := .fail
  done : Regex := .empty
  last : Option Regex := none

namespace Frame

def whole (f : Frame) : Regex := f.last.elim f.done (.seq f.done)

def close (f : Frame) : Regex := .alt f.choices f.whole

def push (r : Regex) (f : Frame) : Frame := { f with done := f.whole, last := some r }

def repeated (quantifier : Regex → Regex) (f : Frame) : Option Frame :=
  f.last.map fun r => { f with done := .seq f.done (quantifier r), last := none }

def alternate (f : Frame) : Frame := { choices := f.close }

def width (f : Frame) : ℕ := f.choices.width + f.whole.width

end Frame

/-- Where the next character stands. -/
inductive Mode where
  | text
  | escape
  | opened
  | listed (negated : Bool) (cs : List Char)
  deriving DecidableEq

structure State where
  outer : List Frame := []
  frame : Frame := {}
  mode : Mode := .text

namespace State

def push (r : Regex) (s : State) : State := { s with frame := s.frame.push r, mode := .text }

def repeated (quantifier : Regex → Regex) (s : State) : Option State :=
  (s.frame.repeated quantifier).map fun frame => { s with frame }

def closeGroup (s : State) : Option State :=
  match s.outer with
  | [] => none
  | frame :: outer => some { s with outer, frame := frame.push s.frame.close }

def readSpecial (s : State) : Char → Option State
  | '\\' => some { s with mode := .escape }
  | '[' => some { s with mode := .opened }
  | '.' => some (s.push .any)
  | '*' => s.repeated .star
  | '+' => s.repeated .plus
  | '?' => s.repeated (.alt .empty)
  | '(' => some { s with outer := s.frame :: s.outer, frame := {} }
  | ')' => s.closeGroup
  | '|' => some { s with frame := s.frame.alternate }
  | _ => none

/-- A dash stands for itself at the beginning of a list only. -/
def readListed (negated : Bool) (cs : List Char) (s : State) (c : Char) : Option State :=
  if c = ']' then
    if cs = [] then none else some (s.push (if negated then .noneOf cs else .oneOf cs))
  else if c = '[' ∨ c = '\\' ∨ c = '-' ∧ cs ≠ [] then none
  else some { s with mode := .listed negated (c :: cs) }

def read (s : State) (c : Char) : Option State :=
  match s.mode with
  | .text => if c ∈ special then s.readSpecial c else some (s.push (.char c))
  | .escape =>
      if c ∈ special then some (s.push (.char c)) else if c = 'w' then some (s.push .word) else none
  | .opened =>
      if c = '^' then some { s with mode := .listed true [] } else s.readListed false [] c
  | .listed negated cs => s.readListed negated cs c

def finish (s : State) : Option Regex :=
  if s.outer = [] ∧ s.mode = .text then some s.frame.close else none

/-- How many characters are named in all that was read. -/
def weight (s : State) : ℕ := (s.outer.map Frame.width).sum + s.frame.width

end State

/-- The expression that a pattern stands for, if it can be read. -/
def parse (pattern : List Char) : Option Regex :=
  (pattern.foldlM State.read {}).bind State.finish

/-- Repeated characters of one kind. -/
theorem mem_kstar_of_kind {kind : Char → Prop} {w : List Char} :
    w ∈ (ofKind kind)∗ ↔ ∀ x ∈ w, kind x := by
  constructor
  · rintro ⟨ws, rfl, hws⟩ x hx
    obtain ⟨v, hv, hx⟩ := List.mem_flatten.1 hx
    obtain ⟨c, hc, rfl⟩ := hws v hv
    rwa [List.mem_singleton.1 hx]
  · intro hw
    refine ⟨w.map fun x => [x], (List.flatMap_singleton' w).symm, fun v hv => ?_⟩
    obtain ⟨x, hx, rfl⟩ := List.mem_map.1 hv
    exact ⟨x, hw x hx, rfl⟩

/-- One or more characters of one kind. -/
theorem mem_plus_of_kind {kind : Char → Prop} {w : List Char} :
    w ∈ ofKind kind * (ofKind kind)∗ ↔ w ≠ [] ∧ ∀ x ∈ w, kind x := by
  rw [Language.mem_mul]
  constructor
  · rintro ⟨_, ⟨c, hc, rfl⟩, b, hb, rfl⟩
    refine ⟨List.cons_ne_nil c b, fun x hx => ?_⟩
    rcases List.mem_cons.1 hx with rfl | hx
    · exact hc
    · exact mem_kstar_of_kind.1 hb x hx
  · rintro ⟨hne, hw⟩
    obtain ⟨c, b, rfl⟩ := List.exists_cons_of_ne_nil hne
    exact ⟨[c], ⟨c, hw c List.mem_cons_self, rfl⟩, b,
      mem_kstar_of_kind.2 fun x hx => hw x (List.mem_cons_of_mem c hx), rfl⟩

/-! ## Long words -/

section Words
variable {isWord : Char → Prop} {r : Regex} {w : List Char}

/-- A word that an expression matches has a short part that it matches as well. -/
theorem exists_short (h : w ∈ r.language isWord) :
    ∃ v ∈ r.language isWord, v.Sublist w ∧ v.length ≤ r.width := by
  induction r generalizing w with
  | fail => cases h
  | empty =>
    obtain rfl := (Language.mem_one w).1 h
    exact ⟨[], h, List.Sublist.refl _, le_rfl⟩
  | char c =>
    obtain rfl : w = [c] := h
    exact ⟨[c], rfl, List.Sublist.refl _, le_rfl⟩
  | any | word | oneOf cs | noneOf cs =>
    obtain ⟨c, -, rfl⟩ := id h
    exact ⟨[c], h, List.Sublist.refl _, le_rfl⟩
  | seq r s ihr ihs =>
    obtain ⟨a, ha, b, hb, rfl⟩ := Language.mem_mul.1 h
    obtain ⟨v, hv, hva, hvwidth⟩ := ihr ha
    obtain ⟨u, hu, hub, huwidth⟩ := ihs hb
    refine ⟨v ++ u, Language.append_mem_mul hv hu, hva.append hub, ?_⟩
    rw [List.length_append]
    exact Nat.add_le_add hvwidth huwidth
  | alt r s ihr ihs =>
    rcases (Language.mem_add _ _ w).1 h with h | h
    · obtain ⟨v, hv, hvw, hvwidth⟩ := ihr h
      exact ⟨v, .inl hv, hvw, hvwidth.trans (Nat.le_add_right _ _)⟩
    · obtain ⟨v, hv, hvw, hvwidth⟩ := ihs h
      exact ⟨v, .inr hv, hvw, hvwidth.trans (Nat.le_add_left _ _)⟩
  | star r _ => exact ⟨[], Language.nil_mem_kstar _, List.nil_sublist w, Nat.zero_le _⟩
  | plus r ih =>
    obtain ⟨a, ha, b, -, rfl⟩ := Language.mem_mul.1 h
    obtain ⟨v, hv, hva, hvwidth⟩ := ih ha
    refine ⟨v, ?_, hva.trans (List.sublist_append_left a b), hvwidth⟩
    exact Language.mem_mul.2 ⟨v, hv, [], Language.nil_mem_kstar _, List.append_nil v⟩

/-- A word that can be repeated is part of words of any length. -/
theorem long_of_repeated {l : Language Char} (h : w ∈ l) (hne : w ≠ []) (n : ℕ) :
    ∃ v ∈ l∗, n ≤ v.length := by
  refine ⟨(List.replicate n w).flatten, Language.join_mem_kstar fun v hv => ?_, ?_⟩
  · rwa [(List.mem_replicate.1 hv).2]
  · rw [List.length_flatten, List.map_replicate, List.sum_replicate_nat]
    exact Nat.le_mul_of_pos_right n (List.length_pos_iff.2 hne)

theorem exists_ne_nil {ws : List (List Char)} (h : 0 < ws.flatten.length) :
    ∃ v ∈ ws, v ≠ [] := by
  by_contra hall
  rw [List.flatten_eq_nil_iff.2 fun v hv => not_not.1 fun hne => hall ⟨v, hv, hne⟩] at h
  exact absurd h (lt_irrefl 0)

/-- An expression with a word that is longer than what it names has words of any length. -/
theorem exists_long (h : w ∈ r.language isWord) (hlong : r.width < w.length) (n : ℕ) :
    ∃ v ∈ r.language isWord, n ≤ v.length := by
  induction r generalizing w with
  | fail => cases h
  | empty =>
    rw [(Language.mem_one w).1 h] at hlong
    exact absurd hlong (lt_irrefl 0)
  | char c =>
    obtain rfl : w = [c] := h
    exact absurd hlong (lt_irrefl 1)
  | any | word | oneOf cs | noneOf cs =>
    obtain ⟨c, -, rfl⟩ := h
    exact absurd hlong (lt_irrefl 1)
  | seq r s ihr ihs =>
    obtain ⟨a, ha, b, hb, rfl⟩ := Language.mem_mul.1 h
    rw [Regex.width, List.length_append] at hlong
    rcases lt_or_ge r.width a.length with hlt | hge
    · obtain ⟨v, hv, hn⟩ := ihr ha hlt
      refine ⟨v ++ b, Language.append_mem_mul hv hb, ?_⟩
      rw [List.length_append]
      omega
    · obtain ⟨v, hv, hn⟩ := ihs hb (by omega)
      refine ⟨a ++ v, Language.append_mem_mul ha hv, ?_⟩
      rw [List.length_append]
      omega
  | alt r s ihr ihs =>
    rw [Regex.width] at hlong
    rcases (Language.mem_add _ _ w).1 h with h | h
    · obtain ⟨v, hv, hn⟩ := ihr h (by omega)
      exact ⟨v, .inl hv, hn⟩
    · obtain ⟨v, hv, hn⟩ := ihs h (by omega)
      exact ⟨v, .inr hv, hn⟩
  | star r _ =>
    obtain ⟨ws, rfl, hws⟩ := Language.mem_kstar.1 h
    obtain ⟨x, hx, hne⟩ := exists_ne_nil (Nat.zero_lt_of_lt hlong)
    exact long_of_repeated (hws x hx) hne n
  | plus r _ =>
    obtain ⟨a, ha, b, hb, rfl⟩ := Language.mem_mul.1 h
    obtain ⟨x, hx, hne⟩ : ∃ x ∈ r.language isWord, x ≠ [] := by
      by_cases hempty : a = []
      · obtain ⟨ws, rfl, hws⟩ := Language.mem_kstar.1 hb
        rw [hempty, List.nil_append] at hlong
        obtain ⟨x, hx, hne⟩ := exists_ne_nil (Nat.zero_lt_of_lt hlong)
        exact ⟨x, hws x hx, hne⟩
      · exact ⟨a, ha, hempty⟩
    obtain ⟨v, hv, hn⟩ := long_of_repeated hx hne n
    refine ⟨x ++ v, Language.append_mem_mul hx hv, ?_⟩
    rw [List.length_append]
    omega

end Words

/-! ## What reading a pattern does -/

section Reading
variable {isWord : Char → Prop} {s s' : State} {c : Char} {p : List Char}

theorem read_of_plain (hmode : s.mode = .text) (hc : c ∉ special) :
    s.read c = some (s.push (.char c)) := by
  rw [State.read, hmode]
  exact if_neg hc

theorem read_of_special (hmode : s.mode = .text) (hc : c ∈ special) :
    s.read c = s.readSpecial c := by
  rw [State.read, hmode]
  exact if_pos hc

theorem read_dot (hmode : s.mode = .text) : s.read '.' = some (s.push .any) :=
  read_of_special hmode (by decide)

/-- What one character names, alone or at the end of an escape or a list. -/
def Named (s : State) (c : Char) (r : Regex) : Prop :=
  r = .char c ∨ r = .any ∨ r = .word ∨ ∃ negated cs, s.mode = .listed negated cs ∧ cs ≠ [] ∧
    r = if negated then .noneOf cs else .oneOf cs

theorem Named.width {r : Regex} (h : Named s c r) : r.width = 1 := by
  rcases h with rfl | rfl | rfl | ⟨negated, cs, -, -, rfl⟩
  · rfl
  · rfl
  · rfl
  · cases negated <;> rfl

/-- How a character waits for others: an escape, or a list of characters. -/
def Waits (s : State) (c : Char) (mode : Mode) : Prop :=
  mode = .escape ∨ mode = .opened ∨ c = '^' ∧ mode = .listed true [] ∨
    ∃ negated cs, (negated = false ∨ s.mode = .listed negated cs) ∧
      (cs = [] ∨ s.mode = .listed negated cs) ∧ mode = .listed negated (c :: cs)

/-- The quantifiers keep what is named. -/
theorem width_quantifier {quantifier : Regex → Regex}
    (h : quantifier ∈ [Regex.star, Regex.plus, Regex.alt .empty]) (r : Regex) :
    (quantifier r).width = r.width := by
  simp only [List.mem_cons, List.not_mem_nil, or_false] at h
  rcases h with rfl | rfl | rfl
  · rfl
  · rfl
  · exact Nat.zero_add _

theorem readListed_cases {negated : Bool} {cs : List Char}
    (h : s.readListed negated cs c = some s') :
    cs ≠ [] ∧ s' = s.push (if negated then .noneOf cs else .oneOf cs) ∨
      s' = { s with mode := .listed negated (c :: cs) } := by
  unfold State.readListed at h
  split at h
  · split at h
    · cases h
    · rename_i hne
      cases h
      exact .inl ⟨hne, rfl⟩
  · split at h
    · cases h
    · cases h
      exact .inr rfl

/-- A character names one more, waits for others, repeats the last part, or opens, closes or
divides a group. -/
theorem read_cases (h : s.read c = some s') :
    (∃ r, s' = s.push r ∧ Named s c r ∧ (s.mode = .text → c ∈ special → c = '.')) ∨
    (∃ mode, s' = { s with mode } ∧ Waits s c mode) ∨
    (∃ quantifier ∈ [Regex.star, Regex.plus, Regex.alt .empty],
      s.repeated quantifier = some s') ∨
    s' = { s with outer := s.frame :: s.outer, frame := {} } ∨
    s.closeGroup = some s' ∨
    c = '|' ∧ s' = { s with frame := s.frame.alternate } := by
  unfold State.read at h
  split at h
  · split at h
    · unfold State.readSpecial at h
      split at h
      · cases h
        exact .inr (.inl ⟨_, rfl, .inl rfl⟩)
      · cases h
        exact .inr (.inl ⟨_, rfl, .inr (.inl rfl)⟩)
      · cases h
        exact .inl ⟨_, rfl, .inr (.inl rfl), fun _ _ => rfl⟩
      · exact .inr (.inr (.inl ⟨.star, by simp, h⟩))
      · exact .inr (.inr (.inl ⟨.plus, by simp, h⟩))
      · exact .inr (.inr (.inl ⟨.alt .empty, by simp, h⟩))
      · cases h
        exact .inr (.inr (.inr (.inl rfl)))
      · exact .inr (.inr (.inr (.inr (.inl h))))
      · cases h
        exact .inr (.inr (.inr (.inr (.inr ⟨rfl, rfl⟩))))
      · cases h
    · rename_i hc
      cases h
      exact .inl ⟨_, rfl, .inl rfl, fun _ hspecial => absurd hspecial hc⟩
  · rename_i hmode
    split at h
    · cases h
      refine .inl ⟨_, rfl, .inl rfl, fun htext => ?_⟩
      rw [htext] at hmode
      cases hmode
    · split at h
      · cases h
        refine .inl ⟨_, rfl, .inr (.inr (.inl rfl)), fun htext => ?_⟩
        rw [htext] at hmode
        cases hmode
      · cases h
  · split at h
    · rename_i hc
      cases h
      exact .inr (.inl ⟨_, rfl, .inr (.inr (.inl ⟨hc, rfl⟩))⟩)
    · rcases readListed_cases h with ⟨hne, -⟩ | rfl
      · exact absurd rfl hne
      · exact .inr (.inl ⟨_, rfl, .inr (.inr (.inr ⟨false, [], .inl rfl, .inl rfl, rfl⟩))⟩)
  · rename_i negated cs hmode
    rcases readListed_cases h with ⟨hne, rfl⟩ | rfl
    · refine .inl ⟨_, rfl, .inr (.inr (.inr ⟨negated, cs, hmode, hne, rfl⟩)), fun htext => ?_⟩
      rw [htext] at hmode
      cases hmode
    · exact .inr (.inl ⟨_, rfl, .inr (.inr (.inr ⟨negated, cs, .inr hmode, .inr hmode, rfl⟩))⟩)

theorem weight_push (r : Regex) (s : State) : (s.push r).weight = s.weight + r.width := by
  change (s.outer.map Frame.width).sum + (s.frame.choices.width + (s.frame.whole.width + r.width)) =
    (s.outer.map Frame.width).sum + (s.frame.choices.width + s.frame.whole.width) + r.width
  rw [Nat.add_assoc, Nat.add_assoc]

theorem weight_repeated {quantifier : Regex → Regex}
    (hwidth : ∀ r : Regex, (quantifier r).width = r.width)
    (h : s.repeated quantifier = some s') : s'.weight = s.weight := by
  obtain ⟨frame, hframe, rfl⟩ := Option.map_eq_some_iff.1 h
  obtain ⟨r, hr, rfl⟩ := Option.map_eq_some_iff.1 hframe
  have hwhole : s.frame.whole = .seq s.frame.done r := by
    rw [Frame.whole, hr]
    rfl
  simp only [State.weight, Frame.width, hwhole]
  simp only [Frame.whole, Option.elim_none, Regex.width, hwidth]

theorem weight_closeGroup (h : s.closeGroup = some s') : s'.weight = s.weight := by
  unfold State.closeGroup at h
  split at h
  · cases h
  · rename_i frame outer houter
    cases h
    simp only [State.weight, houter, List.map_cons, List.sum_cons, Frame.width, Frame.push,
      Frame.whole, Frame.close, Option.elim_some, Regex.width]
    omega

/-- No character names more than one, and of the special ones only the dot does. -/
theorem weight_read (h : s.read c = some s') : s'.weight ≤ s.weight + 1 ∧
    (s.mode = .text → c ∈ special → c ≠ '.' → s'.weight ≤ s.weight) := by
  rcases read_cases h with ⟨r, rfl, hr, hdot⟩ | ⟨mode, rfl, -⟩ | ⟨quantifier, hquantifier,
    hrepeated⟩ | rfl | hclosed | ⟨-, rfl⟩
  · rw [weight_push, hr.width]
    exact ⟨le_rfl, fun hmode hc hne => absurd (hdot hmode hc) hne⟩
  · exact ⟨Nat.le_succ _, fun _ _ _ => le_rfl⟩
  · rw [weight_repeated (width_quantifier hquantifier) hrepeated]
    exact ⟨Nat.le_succ _, fun _ _ _ => le_rfl⟩
  · have hsame : State.weight { s with outer := s.frame :: s.outer, frame := {} } = s.weight := by
      change s.frame.width + (s.outer.map Frame.width).sum + 0 =
        (s.outer.map Frame.width).sum + s.frame.width
      rw [Nat.add_zero, Nat.add_comm]
    rw [hsame]
    exact ⟨Nat.le_succ _, fun _ _ _ => le_rfl⟩
  · rw [weight_closeGroup hclosed]
    exact ⟨Nat.le_succ _, fun _ _ _ => le_rfl⟩
  · exact ⟨Nat.le_succ _, fun _ _ _ => le_rfl⟩

theorem foldlM_cons_eq_some : (c :: p).foldlM State.read s = some s' ↔
    ∃ t, s.read c = some t ∧ p.foldlM State.read t = some s' := by
  rw [List.foldlM_cons]
  exact Option.bind_eq_some_iff

theorem weight_le (h : p.foldlM State.read s = some s') : s'.weight ≤ s.weight + p.length := by
  induction p generalizing s with
  | nil =>
    cases h
    exact le_rfl
  | cons c p ih =>
    obtain ⟨t, ht, h⟩ := foldlM_cons_eq_some.1 h
    have hfirst := (weight_read ht).1
    have hrest := ih h
    rw [List.length_cons]
    omega

/-- Every special character stands for any character. -/
def Simple (p : List Char) : Prop := ∀ c ∈ p, c ∈ special → c = '.'

/-- Every character stands for itself. -/
def Plain (p : List Char) : Prop := ∀ c ∈ p, c ∉ special

instance : DecidablePred Simple := fun p => List.decidableBAll (fun c => c ∈ special → c = '.') p

instance : DecidablePred Plain := fun p => List.decidableBAll (fun c => c ∉ special) p

theorem Plain.simple (h : Plain p) : Simple p := fun c hc hspecial => absurd hspecial (h c hc)

theorem simple_cons : Simple (c :: p) ↔ (c ∈ special → c = '.') ∧ Simple p := List.forall_mem_cons

theorem read_of_simple (hmode : s.mode = .text) (hc : c ∈ special → c = '.') :
    s.read c = some (s.push (if c = '.' then .any else .char c)) := by
  split
  · rename_i hdot
    rw [hdot]
    exact read_dot hmode
  · rename_i hdot
    exact read_of_plain hmode fun hspecial => hdot (hc hspecial)

/-- A pattern with other special characters names fewer characters than it has. -/
theorem weight_lt (hmode : s.mode = .text) (hp : ¬ Simple p)
    (h : p.foldlM State.read s = some s') : s'.weight < s.weight + p.length := by
  induction p generalizing s with
  | nil => exact absurd (fun c hc => absurd hc List.not_mem_nil) hp
  | cons c p ih =>
    obtain ⟨t, ht, h⟩ := foldlM_cons_eq_some.1 h
    obtain ⟨hle, hspecial⟩ := weight_read ht
    rw [List.length_cons]
    by_cases hc : c ∈ special → c = '.'
    · have hmode' : t.mode = .text := by
        rw [read_of_simple hmode hc] at ht
        cases ht
        rfl
      have hrest := ih hmode' (fun hsimple => hp (simple_cons.2 ⟨hc, hsimple⟩)) h
      omega
    · rw [Classical.not_imp] at hc
      have hfirst := hspecial hmode hc.1 hc.2
      have hrest := weight_le h
      omega

/-- A character of a simple pattern and one that it stands for. -/
def Fits (x y : Char) : Prop := if x = '.' then y ≠ '\n' else y = x

instance (x y : Char) : Decidable (Fits x y) :=
  inferInstanceAs (Decidable (if x = '.' then y ≠ '\n' else y = x))

theorem mem_language_of_simple {w : List Char} :
    w ∈ (if c = '.' then Regex.any else .char c).language isWord ↔ ∃ y, Fits c y ∧ w = [y] := by
  unfold Fits
  split
  · exact Iff.rfl
  · exact ⟨fun hw => ⟨c, rfl, hw⟩, fun ⟨y, hy, hw⟩ => hy ▸ hw⟩

/-- What a simple pattern adds. -/
theorem foldlM_simple (isWord : Char → Prop) (hmode : s.mode = .text) (hp : Simple p) :
    ∃ s', p.foldlM State.read s = some s' ∧ s'.mode = .text ∧ s'.outer = s.outer ∧
      s'.frame.choices = s.frame.choices ∧
      ∀ w, w ∈ s'.frame.whole.language isWord ↔
        ∃ v ∈ s.frame.whole.language isWord, ∃ u, List.Forall₂ Fits p u ∧ v ++ u = w := by
  induction p generalizing s with
  | nil =>
    refine ⟨s, rfl, hmode, rfl, rfl, fun w => ⟨fun hw => ⟨w, hw, [], .nil, List.append_nil w⟩, ?_⟩⟩
    rintro ⟨v, hv, u, hu, rfl⟩
    cases hu
    rwa [List.append_nil]
  | cons c p ih =>
    obtain ⟨hc, hp⟩ := simple_cons.1 hp
    obtain ⟨s', hs', hmode', houter, hchoices, hlanguage⟩ :=
      @ih (s.push (if c = '.' then .any else .char c)) rfl hp
    refine ⟨s', foldlM_cons_eq_some.2 ⟨_, read_of_simple hmode hc, hs'⟩, hmode', houter, hchoices,
      fun w => (hlanguage w).trans ?_⟩
    constructor
    · rintro ⟨v, hv, u, hu, rfl⟩
      obtain ⟨a, ha, b, hb, rfl⟩ := Language.mem_mul.1 hv
      obtain ⟨y, hy, rfl⟩ := mem_language_of_simple.1 hb
      exact ⟨a, ha, y :: u, .cons hy hu, (List.append_assoc a [y] u).symm⟩
    · rintro ⟨a, ha, b, hb, rfl⟩
      obtain ⟨y, u, hy, hu, rfl⟩ := List.forall₂_cons_left_iff.1 hb
      exact ⟨a ++ [y], Language.append_mem_mul ha (mem_language_of_simple.2 ⟨y, hy, rfl⟩), u, hu,
        List.append_assoc a [y] u⟩

theorem parse_eq_some {r : Regex} : parse p = some r ↔
    ∃ s, p.foldlM State.read {} = some s ∧ s.outer = [] ∧ s.mode = .text ∧ s.frame.close = r := by
  rw [parse, Option.bind_eq_some_iff]
  refine exists_congr fun s => and_congr_right fun _ => ?_
  unfold State.finish
  split
  · rename_i hfinished
    simp [hfinished]
  · rename_i hfinished
    rw [← and_assoc]
    simp [hfinished]

/-- A pattern does not name more characters than it has. -/
theorem width_of_parse {r : Regex} (h : parse p = some r) :
    r.width ≤ p.length ∧ (¬ Simple p → r.width < p.length) := by
  obtain ⟨s, hs, houter, -, rfl⟩ := parse_eq_some.1 h
  have hweight : s.weight = s.frame.close.width := by
    rw [State.weight, houter]
    exact Nat.zero_add _
  have hle := weight_le hs
  have hlt := fun hp => @weight_lt {} _ _ rfl hp hs
  have hnone : State.weight {} = 0 := rfl
  rw [hweight, hnone, Nat.zero_add] at hle
  simp only [hweight, hnone, Nat.zero_add] at hlt
  exact ⟨hle, hlt⟩

/-- A simple pattern can be read, and each of its characters matches what it stands for. -/
theorem parse_simple (isWord : Char → Prop) (hp : Simple p) :
    ∃ r, parse p = some r ∧ ∀ w, w ∈ r.language isWord ↔ List.Forall₂ Fits p w := by
  obtain ⟨s, hs, hmode, houter, hchoices, hlanguage⟩ := @foldlM_simple {} p isWord rfl hp
  refine ⟨s.frame.close, parse_eq_some.2 ⟨s, hs, houter, hmode, rfl⟩, fun w => ?_⟩
  have hclose : w ∈ s.frame.close.language isWord ↔ w ∈ s.frame.whole.language isWord := by
    change w ∈ s.frame.choices.language isWord + s.frame.whole.language isWord ↔ _
    rw [hchoices]
    exact iff_of_eq (congrArg (w ∈ ·) (zero_add _))
  rw [hclose, hlanguage]
  constructor
  · rintro ⟨v, hv, u, hu, rfl⟩
    obtain rfl := (Language.mem_one v).1 hv
    exact hu
  · exact fun hw => ⟨[], rfl, w, hw, rfl⟩

/-- A parenthesis that is not closed cannot be read. -/
theorem parse_opened {q : List Char} (hp : Simple p) (hq : Simple q) :
    parse (p ++ '(' :: q) = none := by
  obtain ⟨s, hs, hmode, -⟩ := @foldlM_simple {} p (fun _ => True) rfl hp
  have hopened : s.read '(' = some { s with outer := s.frame :: s.outer, frame := {} } :=
    read_of_special hmode (by decide)
  obtain ⟨t, ht, -, houter, -⟩ := @foldlM_simple { s with outer := s.frame :: s.outer, frame := {} }
    q (fun _ => True) hmode hq
  have hread : (p ++ '(' :: q).foldlM State.read {} = some t := by
    rw [List.foldlM_append, hs]
    exact foldlM_cons_eq_some.2 ⟨_, hopened, ht⟩
  rw [parse, hread, Option.bind_some, State.finish, if_neg fun h => ?_]
  rw [houter] at h
  cases h.1

theorem fits_of_plain (hp : Plain p) {w : List Char} : List.Forall₂ Fits p w ↔ w = p := by
  induction p generalizing w with
  | nil => exact List.forall₂_nil_left_iff
  | cons c p ih =>
    have hc : c ≠ '.' := fun hdot => hp c List.mem_cons_self (hdot ▸ by decide)
    rw [List.forall₂_cons_left_iff]
    simp only [Fits, if_neg hc, ih fun x hx => hp x (List.mem_cons_of_mem c hx)]
    constructor
    · rintro ⟨_, _, rfl, rfl, rfl⟩
      rfl
    · rintro rfl
      exact ⟨c, p, rfl, rfl, rfl⟩

theorem fits_refl (p : List Char) : List.Forall₂ Fits p p := by
  refine List.forall₂_same.2 fun c _ => ?_
  unfold Fits
  split
  · rename_i hdot
    rw [hdot]
    decide
  · rfl

/-- A simple pattern that is not plain also matches what it is with another character for a
dot. -/
theorem exists_fits (hp : Simple p) (hplain : ¬ Plain p) : ∃ a b, p = a ++ '.' :: b ∧
    ∀ y ≠ '\n', List.Forall₂ Fits p (a ++ y :: b) := by
  unfold Plain at hplain
  push Not at hplain
  obtain ⟨c, hc, hspecial⟩ := hplain
  obtain rfl := hp c hc hspecial
  obtain ⟨a, b, rfl⟩ := List.append_of_mem hc
  exact ⟨a, b, rfl, fun y hy => List.rel_append (fits_refl a) (.cons hy (fits_refl b))⟩

/-- No group of a pattern is divided without a bar. -/
theorem undivided (hp : '|' ∉ p) (h : p.foldlM State.read s = some s')
    (hs : ∀ f ∈ s.frame :: s.outer, f.choices = .fail) :
    ∀ f ∈ s'.frame :: s'.outer, f.choices = .fail := by
  induction p generalizing s with
  | nil =>
    cases h
    exact hs
  | cons c p ih =>
    obtain ⟨t, ht, h⟩ := foldlM_cons_eq_some.1 h
    rw [List.mem_cons, not_or] at hp
    refine ih hp.2 h fun f hf => ?_
    obtain ⟨hframe, houter⟩ := List.forall_mem_cons.1 hs
    rcases read_cases ht with ⟨r, rfl, -⟩ | ⟨mode, rfl, -⟩ | ⟨quantifier, -, hrepeated⟩ | rfl |
      hclosed | ⟨hbar, -⟩
    · rcases List.mem_cons.1 hf with rfl | hf
      · exact hframe
      · exact houter f hf
    · exact hs f hf
    · obtain ⟨frame, hlast, rfl⟩ := Option.map_eq_some_iff.1 hrepeated
      obtain ⟨r, -, rfl⟩ := Option.map_eq_some_iff.1 hlast
      rcases List.mem_cons.1 hf with rfl | hf
      · exact hframe
      · exact houter f hf
    · rcases List.mem_cons.1 hf with rfl | hf
      · rfl
      · exact hs f hf
    · unfold State.closeGroup at hclosed
      split at hclosed
      · cases hclosed
      · rename_i frame outer hstack
        cases hclosed
        rw [hstack] at houter
        rcases List.mem_cons.1 hf with rfl | hf
        · exact houter frame List.mem_cons_self
        · exact houter f (List.mem_cons_of_mem _ hf)
    · exact absurd hbar.symm hp.1

/-- A finite list of patterns that together match the patterns themselves, and nothing else, has
no special characters. -/
theorem plain_of_matches_only {ps : List (List Char)} (hread : ∀ p ∈ ps, ∃ r, parse p = some r)
    (honly : ∀ w ≠ [], (∃ p ∈ ps, ∃ r, parse p = some r ∧ w ∈ r.language isWord) ↔ w ∈ ps) :
    ∀ p ∈ ps, Plain p := by
  by_contra hplain
  -- Of the patterns with special characters, the longest is matched by another such pattern.
  obtain ⟨m, hm, hmax⟩ : ∃ m ∈ ps.toFinset.filter (¬ Plain ·),
      ∀ p ∈ ps.toFinset.filter (¬ Plain ·), p.length ≤ m.length := by
    refine Finset.exists_max_image _ _ ?_
    push Not at hplain
    obtain ⟨p, hp, hnot⟩ := hplain
    exact ⟨p, Finset.mem_filter.2 ⟨List.mem_toFinset.2 hp, hnot⟩⟩
  obtain ⟨hmem, hnot⟩ := Finset.mem_filter.1 hm
  have hne : m ≠ [] := by
    rintro rfl
    exact hnot fun c hc => absurd hc List.not_mem_nil
  obtain ⟨p, hp, r, hr, hmatched⟩ := (honly m hne).2 (List.mem_toFinset.1 hmem)
  have hspecial : ¬ Plain p := by
    intro hplain
    obtain ⟨r', hr', hlanguage⟩ := parse_simple isWord hplain.simple
    obtain rfl : r = r' := Option.some.inj (hr.symm.trans hr')
    obtain rfl := (fits_of_plain hplain).1 ((hlanguage m).1 hmatched)
    exact hnot hplain
  have hshorter := hmax p (Finset.mem_filter.2 ⟨List.mem_toFinset.2 hp, hspecial⟩)
  -- It is not longer than what that pattern names, as there are only so many words.
  have hwidth : m.length ≤ r.width := by
    by_contra hlong
    obtain ⟨longest, -, hlongest⟩ :=
      Finset.exists_max_image ps.toFinset List.length ⟨p, List.mem_toFinset.2 hp⟩
    obtain ⟨w, hw, hlength⟩ := exists_long hmatched (not_le.1 hlong) (longest.length + 1)
    have hmem' : w ∈ ps := by
      refine (honly w ?_).1 ⟨p, hp, r, hr, hw⟩
      rintro rfl
      exact absurd hlength (Nat.not_succ_le_zero _)
    exact absurd (hlongest w (List.mem_toFinset.2 hmem')) (not_le.2 hlength)
  -- So that pattern is simple, and matches itself with a parenthesis for a dot.
  obtain ⟨hle, hlt⟩ := width_of_parse hr
  have hsimple : Simple p := by
    by_contra hsimple
    have := hlt hsimple
    omega
  obtain ⟨a, b, rfl, hfits⟩ := exists_fits hsimple hspecial
  obtain ⟨r', hr', hlanguage⟩ := parse_simple isWord hsimple
  obtain rfl : r = r' := Option.some.inj (hr.symm.trans hr')
  have hopened : a ++ '(' :: b ∈ ps :=
    (honly _ (by simp)).1 ⟨_, hp, r, hr, (hlanguage _).2 (hfits '(' (by decide))⟩
  obtain ⟨r', hr'⟩ := hread _ hopened
  rw [parse_opened (fun c hc => hsimple c (List.mem_append_left _ hc)) fun c hc =>
    hsimple c (List.mem_append_right _ (List.mem_cons_of_mem _ hc))] at hr'
  cases hr'

end Reading

/-! ## Words without a character -/

section Avoiding
variable (isWord : Char → Prop) (x : Char)

/-- There is a short word without the character. -/
def Avoids (r : Regex) : Prop :=
  ∃ w ∈ r.language isWord, x ∉ w ∧ w.length ≤ r.width

/-- So for every part, and lists of characters do not have it. -/
structure AllAvoid (s : State) : Prop where
  done : ∀ f ∈ s.frame :: s.outer, Avoids isWord x f.done
  last : ∀ f ∈ s.frame :: s.outer, ∀ r ∈ f.last, Avoids isWord x r
  listed : ∀ negated cs, s.mode = .listed negated cs → negated = false ∧ x ∉ cs

variable {isWord x} {s s' : State} {c : Char} {p : List Char} {r : Regex}

theorem Avoids.seq {q : Regex} (h : Avoids isWord x r) (h' : Avoids isWord x q) :
    Avoids isWord x (.seq r q) := by
  obtain ⟨w, hw, hx, hwidth⟩ := h
  obtain ⟨v, hv, hx', hwidth'⟩ := h'
  refine ⟨w ++ v, Language.append_mem_mul hw hv, ?_, ?_⟩
  · rw [List.mem_append]
    exact not_or.2 ⟨hx, hx'⟩
  · rw [List.length_append]
    exact Nat.add_le_add hwidth hwidth'

theorem Avoids.quantified (h : Avoids isWord x r) {quantifier : Regex → Regex}
    (hquantifier : quantifier ∈ [Regex.star, Regex.plus, Regex.alt .empty]) :
    Avoids isWord x (quantifier r) := by
  simp only [List.mem_cons, List.not_mem_nil, or_false] at hquantifier
  rcases hquantifier with rfl | rfl | rfl
  · exact ⟨[], Language.nil_mem_kstar _, List.not_mem_nil, Nat.zero_le _⟩
  · obtain ⟨w, hw, hx, hwidth⟩ := h
    exact ⟨w, Language.mem_mul.2 ⟨w, hw, [], Language.nil_mem_kstar _, List.append_nil w⟩, hx,
      hwidth⟩
  · exact ⟨[], .inl rfl, List.not_mem_nil, Nat.zero_le _⟩

theorem Avoids.of_one {y : Char} (hy : [y] ∈ r.language isWord) (hx : x ≠ y)
    (hwidth : r.width = 1) : Avoids isWord x r :=
  ⟨[y], hy, by simpa using hx, hwidth.ge⟩

theorem AllAvoid.whole (h : AllAvoid isWord x s) {f : Frame} (hf : f ∈ s.frame :: s.outer) :
    Avoids isWord x f.whole := by
  unfold Frame.whole
  cases hlast : f.last with
  | none => exact h.done f hf
  | some r => exact (h.done f hf).seq (h.last f hf r hlast)

/-- What a character names can be matched without another one. -/
theorem Named.avoids (h : Named s c r) (hall : AllAvoid isWord x s) (hc : c ≠ x) (hx : x ≠ 'a')
    (hword : isWord 'a') : Avoids isWord x r := by
  have hwidth := h.width
  rcases h with rfl | rfl | rfl | ⟨negated, cs, hmode, hne, rfl⟩
  · exact .of_one rfl hc.symm hwidth
  · exact .of_one ⟨'a', by decide, rfl⟩ hx hwidth
  · exact .of_one ⟨'a', hword, rfl⟩ hx hwidth
  · obtain ⟨rfl, hcs⟩ := hall.listed negated cs hmode
    obtain ⟨y, cs, rfl⟩ := List.exists_cons_of_ne_nil hne
    exact .of_one ⟨y, List.mem_cons_self, rfl⟩ (fun hxy => hcs (hxy ▸ List.mem_cons_self)) hwidth

theorem AllAvoid.push (h : AllAvoid isWord x s) (hr : Avoids isWord x r) :
    AllAvoid isWord x (s.push r) := by
  refine ⟨fun f hf => ?_, fun f hf q hq => ?_, fun _ _ hmode => by cases hmode⟩
  · rcases List.mem_cons.1 hf with rfl | hf
    · exact h.whole List.mem_cons_self
    · exact h.done f (List.mem_cons_of_mem _ hf)
  · rcases List.mem_cons.1 hf with rfl | hf
    · cases hq
      exact hr
    · exact h.last f (List.mem_cons_of_mem _ hf) q hq

theorem AllAvoid.read (h : AllAvoid isWord x s) (hread : s.read c = some s') (hc : c ≠ x)
    (hcaret : c ≠ '^') (hx : x ≠ 'a') (hword : isWord 'a') : AllAvoid isWord x s' := by
  have hempty : Avoids isWord x .empty := ⟨[], rfl, List.not_mem_nil, le_rfl⟩
  rcases read_cases hread with ⟨r, rfl, hr, -⟩ | ⟨mode, rfl, hwaits⟩ | ⟨quantifier, hquantifier,
    hrepeated⟩ | rfl | hclosed | ⟨-, rfl⟩
  · exact h.push (hr.avoids h hc hx hword)
  · refine ⟨h.done, h.last, fun negated cs hmode => ?_⟩
    change mode = _ at hmode
    subst hmode
    rcases hwaits with hmode | hmode | ⟨rfl, -⟩ | ⟨negated', cs', hnegated, hcs, hmode⟩
    · cases hmode
    · cases hmode
    · exact absurd rfl hcaret
    · cases hmode
      refine ⟨?_, ?_⟩
      · rcases hnegated with hnegated | hlisted
        · exact hnegated
        · exact (h.listed _ _ hlisted).1
      · rw [List.mem_cons]
        refine not_or.2 ⟨hc.symm, ?_⟩
        rcases hcs with rfl | hlisted
        · exact List.not_mem_nil
        · exact (h.listed _ _ hlisted).2
  · obtain ⟨frame, hframe, rfl⟩ := Option.map_eq_some_iff.1 hrepeated
    obtain ⟨r, hr, rfl⟩ := Option.map_eq_some_iff.1 hframe
    refine ⟨fun f hf => ?_, fun f hf q hq => ?_, h.listed⟩
    · rcases List.mem_cons.1 hf with rfl | hf
      · exact (h.done _ List.mem_cons_self).seq
          ((h.last _ List.mem_cons_self r hr).quantified hquantifier)
      · exact h.done f (List.mem_cons_of_mem _ hf)
    · rcases List.mem_cons.1 hf with rfl | hf
      · cases hq
      · exact h.last f (List.mem_cons_of_mem _ hf) q hq
  · refine ⟨fun f hf => ?_, fun f hf q hq => ?_, h.listed⟩
    · rcases List.mem_cons.1 hf with rfl | hf
      · exact hempty
      · exact h.done f hf
    · rcases List.mem_cons.1 hf with rfl | hf
      · cases hq
      · exact h.last f hf q hq
  · unfold State.closeGroup at hclosed
    split at hclosed
    · cases hclosed
    · rename_i frame outer houter
      cases hclosed
      obtain ⟨w, hw, hxw, hwidth⟩ := h.whole List.mem_cons_self
      have hclose : Avoids isWord x s.frame.close :=
        ⟨w, .inr hw, hxw, hwidth.trans (Nat.le_add_left _ _)⟩
      have hmem : ∀ f ∈ frame :: outer, f ∈ s.frame :: s.outer := fun f hf =>
        List.mem_cons_of_mem _ (houter ▸ hf)
      refine ⟨fun f hf => ?_, fun f hf q hq => ?_, h.listed⟩
      · rcases List.mem_cons.1 hf with rfl | hf
        · exact h.whole (hmem frame List.mem_cons_self)
        · exact h.done f (hmem f (List.mem_cons_of_mem _ hf))
      · rcases List.mem_cons.1 hf with rfl | hf
        · cases hq
          exact hclose
        · exact h.last f (hmem f (List.mem_cons_of_mem _ hf)) q hq
  · refine ⟨fun f hf => ?_, fun f hf q hq => ?_, h.listed⟩
    · rcases List.mem_cons.1 hf with rfl | hf
      · exact hempty
      · exact h.done f (List.mem_cons_of_mem _ hf)
    · rcases List.mem_cons.1 hf with rfl | hf
      · cases hq
      · exact h.last f (List.mem_cons_of_mem _ hf) q hq

theorem AllAvoid.foldlM (h : AllAvoid isWord x s) (hread : p.foldlM State.read s = some s')
    (hp : x ∉ p) (hcaret : '^' ∉ p) (hx : x ≠ 'a') (hword : isWord 'a') :
    AllAvoid isWord x s' := by
  induction p generalizing s with
  | nil =>
    cases hread
    exact h
  | cons c p ih =>
    obtain ⟨t, ht, hread⟩ := foldlM_cons_eq_some.1 hread
    rw [List.mem_cons, not_or] at hp hcaret
    exact ih (h.read ht (Ne.symm hp.1) (Ne.symm hcaret.1) hx hword) hread hp.2 hcaret.2

/-- A sequence with special characters matches a word that it is not. -/
theorem exists_other_word (h : p.foldlM State.read {} = some s) (houter : s.outer = [])
    (hplain : ¬ Plain p) (hp : x ∉ p) (hx : x ≠ 'a')
    (havoids : Avoids isWord x s.frame.whole) :
    ∃ w ∈ s.frame.whole.language isWord, w ≠ p ∧ x ∉ w := by
  by_cases hsimple : Simple p
  · obtain ⟨a, b, rfl, hfits⟩ := exists_fits hsimple hplain
    obtain ⟨t, ht, -, -, -, hlanguage⟩ := @foldlM_simple {} _ isWord rfl hsimple
    obtain rfl : s = t := Option.some.inj (h.symm.trans ht)
    refine ⟨a ++ 'a' :: b, (hlanguage _).2 ⟨[], rfl, _, hfits 'a' (by decide), rfl⟩, ?_, ?_⟩
    · intro hsame
      cases List.append_cancel_left hsame
    · rw [List.mem_append, List.mem_cons] at hp ⊢
      rintro (hmem | hsame | hmem)
      · exact hp (.inl hmem)
      · exact hx hsame
      · exact hp (.inr (.inr hmem))
  · obtain ⟨w, hw, hxw, hwidth⟩ := havoids
    refine ⟨w, hw, ?_, hxw⟩
    rintro rfl
    have hlt := @weight_lt {} _ _ rfl hsimple h
    have hweight : s.weight = s.frame.choices.width + s.frame.whole.width := by
      rw [State.weight, houter]
      exact Nat.zero_add _
    have hnone : State.weight {} = 0 := rfl
    omega

/-- A sequence that matches itself has a short word of its own characters. -/
theorem avoids_of_self (hself : p ∈ r.language isWord) (hp : x ∉ p) : Avoids isWord x r := by
  obtain ⟨w, hw, hsublist, hwidth⟩ := exists_short hself
  exact ⟨w, hw, fun hmem => hp (hsublist.subset hmem), hwidth⟩

end Avoiding

end EventSourcery.RegularExpressions
