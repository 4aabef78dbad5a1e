import EventSourcery.KurrentNames
import EventSourcery.RegularExpressions

/-!
# Filters of the KurrentDB subscriptions

A subscription to a category or to some events sends patterns, which the server matches with
whole stream names or whole event types. The category and the types stand in the patterns as they
are: a character that does not stand for itself in a pattern lets others through.
-/
namespace EventSourcery.Kurrent.KurrentFilters
open RegularExpressions Texts
open scoped Computability

/-- `filter_include` of `subscribe_to_category` -/
def subscribeToCategory (category : String) : List String := [category ++ "-[^-]*-\\w+"]

/-- `filter_include` of `subscribe_to_events` -/
def subscribeToEvents (events : List String) : List String := events

/-- How the server matches: as the classic notation says where a pattern is in it. Letters and
digits are word characters, and the dash is not. -/
structure Engine where
  isWord : Char → Prop
  fullmatch : String → String → Prop
  alphanum : ∀ c : Char, c.isAlphanum = true → isWord c
  dash : ¬ isWord '-'
  reads : ∀ pattern r, parse pattern.toList = some r →
    ∀ text, fullmatch pattern text ↔ text.toList ∈ r.language isWord

section Property
variable (engine : Engine)

def Accepts (filterInclude : List String) (text : String) : Prop :=
  ∃ pattern ∈ filterInclude, engine.fullmatch pattern text

/-- The names of the streams of the category are accepted, and no other names. -/
def ExactCategory (category : String) : Prop :=
  ∀ name : Name,
    (Accepts engine (subscribeToCategory category) name.text ↔
      name.uuid.categoryText = category) ∧
    ¬ Accepts engine (subscribeToCategory category) name.snapshot

/-- The listed types are accepted, and no others. No event has the empty type. -/
def ExactEvents (events : List String) : Prop :=
  ∀ eventType ≠ "", Accepts engine (subscribeToEvents events) eventType ↔ eventType ∈ events

end Property

/-- The patterns of a category and of some events are in the classic notation, and the category
has not both bars and carets. -/
structure Classic (category : String) (events : List String) : Prop where
  categoryRead : ∀ pattern ∈ subscribeToCategory category, ∃ r, parse pattern.toList = some r
  marks : '|' ∉ category.toList ∨ '^' ∉ category.toList
  eventsRead : ∀ pattern ∈ subscribeToEvents events, ∃ r, parse pattern.toList = some r

/-- All characters stand for themselves. -/
structure Literal (category : String) (events : List String) : Prop where
  categoryPlain : Plain category.toList
  eventsPlain : ∀ event ∈ events, Plain event.toList

section Tail
variable {isWord : Char → Prop} {s s' : State} {w : List Char}

/-- What follows the category. -/
def tail : List Char := "-[^-]*-\\w+".toList

/-- The expression of a category that is followed by a tenant and a uuid. -/
def withTail (r : Regex) : Regex :=
  .seq (.seq (.seq (.seq r (.char '-')) (.star (.noneOf ['-']))) (.char '-')) (.plus .word)

theorem read_tail (hmode : s.mode = .text) : tail.foldlM State.read s =
    some { s with frame := { s.frame with done := withTail s.frame.whole, last := none } } := by
  obtain ⟨outer, frame, mode⟩ := s
  subst hmode
  rfl

/-- The tail is read only where the category is not within a list or an escape. -/
theorem mode_of_tail (h : tail.foldlM State.read s = some s') : s.mode = .text := by
  obtain ⟨outer, frame, mode⟩ := s
  cases mode with
  | text => rfl
  | escape => cases h
  | opened => cases h
  | listed negated cs => cases cs <;> cases h

theorem mem_withTail {r : Regex} : w ∈ (withTail r).language isWord ↔
    ∃ a ∈ r.language isWord, ∃ t u, '-' ∉ t ∧ (u ≠ [] ∧ ∀ x ∈ u, isWord x) ∧
      w = a ++ '-' :: (t ++ '-' :: u) := by
  constructor
  · intro h
    obtain ⟨x, hx, u, hu, rfl⟩ := Language.mem_mul.1 h
    obtain ⟨y, hy, b, hb, rfl⟩ := Language.mem_mul.1 hx
    obtain ⟨z, hz, t, ht, rfl⟩ := Language.mem_mul.1 hy
    obtain ⟨a, ha, c, hc, rfl⟩ := Language.mem_mul.1 hz
    obtain rfl : b = ['-'] := hb
    obtain rfl : c = ['-'] := hc
    have hdash : '-' ∉ t := fun hmem =>
      mem_kstar_of_kind.1 ht '-' hmem (List.mem_singleton_self '-')
    exact ⟨a, ha, t, u, hdash, mem_plus_of_kind.1 hu, by simp⟩
  · rintro ⟨a, ha, t, u, hdash, hu, rfl⟩
    have hone : ['-'] ∈ (Regex.char '-').language isWord := rfl
    have ht : t ∈ (Regex.star (.noneOf ['-'])).language isWord :=
      mem_kstar_of_kind.2 fun x hx hmem => hdash (List.mem_singleton.1 hmem ▸ hx)
    have hword : u ∈ (Regex.plus .word).language isWord := mem_plus_of_kind.2 hu
    have hsame : a ++ '-' :: (t ++ '-' :: u) = a ++ ['-'] ++ t ++ ['-'] ++ u := by simp
    rw [hsame]
    exact Language.append_mem_mul (Language.append_mem_mul (Language.append_mem_mul
      (Language.append_mem_mul ha hone) ht) hone) hword

end Tail

section Categories
variable {engine : Engine} {category : String} {s : State} {name : Name}

/-- A pattern of a category is read as its category and the tail. -/
theorem pattern_eq (category : String) :
    (category ++ "-[^-]*-\\w+").toList = category.toList ++ tail := by
  rw [String.toList_append]
  rfl

theorem read_category {r : Regex} (h : parse (category.toList ++ tail) = some r) :
    ∃ s, category.toList.foldlM State.read {} = some s ∧ s.mode = .text ∧ s.outer = [] ∧
      r = .alt s.frame.choices (withTail s.frame.whole) := by
  obtain ⟨s', hs', houter, -, rfl⟩ := parse_eq_some.1 h
  rw [List.foldlM_append] at hs'
  obtain ⟨s, hs, htail⟩ := Option.bind_eq_some_iff.1 hs'
  have hmode := mode_of_tail htail
  rw [read_tail hmode] at htail
  obtain rfl := Option.some.inj htail
  exact ⟨s, hs, hmode, houter, rfl⟩

/-- What the filter of a category accepts. -/
theorem accepts_iff (hs : category.toList.foldlM State.read {} = some s) (hmode : s.mode = .text)
    (houter : s.outer = []) (text : String) :
    Accepts engine (subscribeToCategory category) text ↔
      text.toList ∈ s.frame.choices.language engine.isWord ∨
      ∃ a ∈ s.frame.whole.language engine.isWord, ∃ t u, '-' ∉ t ∧
        (u ≠ [] ∧ ∀ x ∈ u, engine.isWord x) ∧ text.toList = a ++ '-' :: (t ++ '-' :: u) := by
  have hparse : parse (category ++ "-[^-]*-\\w+").toList =
      some (.alt s.frame.choices (withTail s.frame.whole)) := by
    rw [pattern_eq]
    refine parse_eq_some.2 ⟨{ s with
      frame := { s.frame with done := withTail s.frame.whole, last := none } }, ?_, houter, hmode,
        rfl⟩
    rw [List.foldlM_append, hs]
    exact read_tail hmode
  have haccepts : Accepts engine (subscribeToCategory category) text ↔
      engine.fullmatch (category ++ "-[^-]*-\\w+") text := by
    simp [Accepts, subscribeToCategory]
  rw [haccepts, engine.reads _ _ hparse, ← mem_withTail]
  exact Language.mem_add _ _ _

/-- The uuid of a name is made of word characters. -/
theorem word_hexText (engine : Engine) (u : Uuid) :
    hexText u ≠ [] ∧ ∀ x ∈ hexText u, engine.isWord x := by
  refine ⟨fun hnil => ?_, fun x hx => engine.alphanum x ?_⟩
  · have hlength := hexText_length u
    rw [hnil] at hlength
    cases hlength
  · obtain ⟨d, hd, rfl⟩ := List.mem_map.1 hx
    exact hexChar_isAlphanum d (digits_lt (show 0 < 16 by decide) 32 u.toNat d hd)

/-- A category without special characters filters its streams. -/
theorem exactCategory_of_plain (hname : '-' ∉ category.toList) (hplain : Plain category.toList) :
    ExactCategory engine category := by
  obtain ⟨s, hs, hmode, houter, hchoices, hlanguage⟩ :=
    @foldlM_simple {} _ engine.isWord rfl hplain.simple
  have haccepts : ∀ text : String, Accepts engine (subscribeToCategory category) text ↔
      ∃ t u, '-' ∉ t ∧ (u ≠ [] ∧ ∀ x ∈ u, engine.isWord x) ∧
        text.toList = category.toList ++ '-' :: (t ++ '-' :: u) := by
    intro text
    rw [accepts_iff hs hmode houter, hchoices]
    constructor
    · rintro (hnone | ⟨a, ha, h⟩)
      · cases hnone
      · obtain ⟨v, hv, u, hu, rfl⟩ := (hlanguage a).1 ha
        obtain rfl := (Language.mem_one v).1 hv
        rwa [(fits_of_plain hplain).1 hu] at h
    · intro h
      exact .inr ⟨_, (hlanguage _).2 ⟨[], rfl, _, (fits_of_plain hplain).2 rfl, rfl⟩, h⟩
  intro name
  obtain ⟨hcategory, htenant, hparts⟩ := Name.streamName_parts name.named
  refine ⟨?_, ?_⟩
  · rw [haccepts, hparts]
    constructor
    · rintro ⟨t, u, -, -, hsame⟩
      have hsplit := congrArg (splitFirst '-') hsame
      rw [splitFirst_append hcategory, splitFirst_append hname] at hsplit
      exact String.toList_injective (congrArg Prod.fst (Option.some.inj hsplit))
    · rintro rfl
      exact ⟨_, _, htenant, word_hexText engine _, rfl⟩
  · rw [haccepts]
    rintro ⟨t, u, ht, ⟨-, hword⟩, hsame⟩
    have hsnapshot : name.snapshot.toList = name.uuid.categoryText.toList ++
        '-' :: (name.tenantId.toList ++ '-' :: (hexText name.uuid.uuid ++ "-snapshot".toList)) := by
      rw [Name.snapshot, String.toList_append, hparts]
      simp
    rw [hsnapshot] at hsame
    have hsplit := congrArg (splitFirst '-') hsame
    rw [splitFirst_append hcategory, splitFirst_append hname] at hsplit
    obtain ⟨-, hrest⟩ := Prod.mk.inj (Option.some.inj hsplit)
    have hsplit' := congrArg (splitFirst '-') hrest
    rw [splitFirst_append htenant, splitFirst_append ht] at hsplit'
    obtain ⟨-, hlast⟩ := Prod.mk.inj (Option.some.inj hsplit')
    have hdash : '-' ∈ "-snapshot".toList := by decide
    rw [← hlast] at hword
    exact engine.dash (hword '-' (List.mem_append_right _ hdash))

/-- Every category without a dash has a stream of the default tenant. -/
theorem exists_name {w : List Char} (hw : '-' ∉ w) : ∃ name : Name,
    name.uuid.categoryText.toList = w ∧
      name.text.toList = w ++ '-' :: ([] ++ '-' :: hexText name.uuid.uuid) := by
  let streamId : StreamId := { uuid := 0, category := some (String.ofList w) }
  have hcategory : streamId.categoryText.toList = w := String.toList_ofList
  have hnamed : streamName "" streamId = .ok
      (streamId.categoryText ++ "-" ++ "" ++ "-" ++ uuidHex streamId.uuid) := by
    have hempty : ¬ ("".toList.contains '-') = true := by decide
    unfold streamName
    rw [if_neg hempty, if_neg]
    rw [hcategory]
    simpa using hw
  refine ⟨⟨"", streamId, _, hnamed⟩, hcategory, ?_⟩
  have hparts := (Name.streamName_parts hnamed).2.2
  rwa [hcategory] at hparts

/-- A category with special characters does not filter its streams. -/
theorem plain_of_exactCategory (hname : '-' ∉ category.toList) {r : Regex}
    (hread : parse (category.toList ++ tail) = some r)
    (hmarks : '|' ∉ category.toList ∨ '^' ∉ category.toList)
    (hexact : ExactCategory engine category) : Plain category.toList := by
  obtain ⟨s, hs, hmode, houter, -⟩ := read_category hread
  by_contra hplain
  have hword : engine.isWord 'a' := engine.alphanum 'a' (by decide)
  have havoids : Avoids engine.isWord '-' s.frame.whole := by
    rcases hmarks with hbar | hcaret
    · -- Without a bar, the category itself is matched by what stands before the tail.
      obtain ⟨name, hcategory, htext⟩ := exists_name hname
      rcases (accepts_iff hs hmode houter name.text).1
        ((hexact name).1.2 (String.toList_injective hcategory)) with
          hchoice | ⟨a, ha, t, u, ht, hu, hsame⟩
      · rw [undivided hbar hs (fun f hf => by rw [List.mem_singleton.1 hf]) s.frame
          List.mem_cons_self] at hchoice
        cases hchoice
      · have hu' : '-' ∉ u := fun hmem => engine.dash (hu.2 '-' hmem)
        have hhex : '-' ∉ hexText name.uuid.uuid := fun hmem => hexText_ne_dash _ '-' hmem rfl
        have hsplit := congrArg (splitLast '-') (htext.symm.trans hsame)
        rw [← List.cons_append, ← List.append_assoc, splitLast_append _ hhex, ← List.cons_append,
          ← List.append_assoc, splitLast_append _ hu'] at hsplit
        obtain ⟨hsplit, -⟩ := Prod.mk.inj (Option.some.inj hsplit)
        have hsplit' := congrArg (splitLast '-') hsplit
        rw [splitLast_append _ List.not_mem_nil, splitLast_append _ ht] at hsplit'
        obtain ⟨rfl, -⟩ := Prod.mk.inj (Option.some.inj hsplit')
        exact avoids_of_self ha hname
    · refine (AllAvoid.foldlM ?_ hs hname hcaret (by decide) hword).whole List.mem_cons_self
      refine ⟨fun f hf => ?_, fun f hf r hr => ?_, fun _ _ hmode => by cases hmode⟩
      · rw [List.mem_singleton.1 hf]
        exact ⟨[], rfl, List.not_mem_nil, le_rfl⟩
      · rw [List.mem_singleton.1 hf] at hr
        cases hr
  obtain ⟨w, hw, hne, hdash⟩ := exists_other_word hs houter hplain hname (by decide) havoids
  obtain ⟨name, hcategory, htext⟩ := exists_name hdash
  refine hne (hcategory.symm.trans (congrArg String.toList ((hexact name).1.1 ?_)))
  exact (accepts_iff hs hmode houter name.text).2
    (.inr ⟨w, hw, [], _, List.not_mem_nil, word_hexText engine _, htext⟩)

end Categories

section Events
variable {engine : Engine} {category : String} {events : List String}

/-- Types without special characters are filtered. -/
theorem exactEvents_of_plain (hplain : ∀ event ∈ events, Plain event.toList) :
    ExactEvents engine events := by
  intro eventType _
  have hmatch : ∀ event ∈ events, engine.fullmatch event eventType ↔ eventType = event := by
    intro event hevent
    obtain ⟨r, hr, hlanguage⟩ := parse_simple engine.isWord (hplain event hevent).simple
    rw [engine.reads event r hr, hlanguage, fits_of_plain (hplain event hevent)]
    exact String.toList_inj
  constructor
  · rintro ⟨event, hevent, hmatched⟩
    rwa [(hmatch event hevent).1 hmatched]
  · exact fun hmem => ⟨eventType, hmem, (hmatch eventType hmem).2 rfl⟩

/-- Types with special characters are not filtered. -/
theorem plain_of_exactEvents
    (hread : ∀ pattern ∈ subscribeToEvents events, ∃ r, parse pattern.toList = some r)
    (hexact : ExactEvents engine events) : ∀ event ∈ events, Plain event.toList := by
  have hplain := @plain_of_matches_only engine.isWord (events.map String.toList) (fun p hp => ?_)
    fun w hw => ?_
  · exact fun event hevent => hplain _ (List.mem_map_of_mem hevent)
  · obtain ⟨event, hevent, rfl⟩ := List.mem_map.1 hp
    exact hread event hevent
  · have hname : String.ofList w ≠ "" := fun hempty => hw (by
      rw [← String.toList_ofList (l := w), hempty]
      rfl)
    have hmem : w ∈ events.map String.toList ↔ String.ofList w ∈ events := by
      rw [List.mem_map]
      constructor
      · rintro ⟨event, hevent, rfl⟩
        rwa [String.ofList_toList]
      · exact fun hevent => ⟨_, hevent, String.toList_ofList⟩
    rw [hmem, ← hexact _ hname]
    constructor
    · rintro ⟨p, hp, r, hr, hmatched⟩
      obtain ⟨event, hevent, rfl⟩ := List.mem_map.1 hp
      exact ⟨event, hevent, (engine.reads event r hr _).2 (by rwa [String.toList_ofList])⟩
    · rintro ⟨event, hevent, hmatched⟩
      obtain ⟨r, hr⟩ := hread event hevent
      refine ⟨_, List.mem_map_of_mem hevent, r, hr, ?_⟩
      have hlanguage := (engine.reads event r hr _).1 hmatched
      rwa [String.toList_ofList] at hlanguage

/-- The filters of a category and of some events are exact where all characters stand for
themselves. Where they are patterns of the classic notation, the filters are exact nowhere
else. -/
theorem filters_exact_iff (engine : Engine) (hname : '-' ∉ category.toList) :
    (Literal category events → ExactCategory engine category ∧ ExactEvents engine events) ∧
      (Classic category events →
        (ExactCategory engine category ∧ ExactEvents engine events ↔ Literal category events)) := by
  have hexact : Literal category events →
      ExactCategory engine category ∧ ExactEvents engine events := fun hliteral =>
    ⟨exactCategory_of_plain hname hliteral.categoryPlain, exactEvents_of_plain hliteral.eventsPlain⟩
  refine ⟨hexact, fun hclassic => ⟨fun ⟨hcategory, hevents⟩ => ⟨?_, ?_⟩, hexact⟩⟩
  · obtain ⟨r, hr⟩ := hclassic.categoryRead _ (List.mem_singleton_self _)
    rw [pattern_eq] at hr
    exact plain_of_exactCategory hname hr hclassic.marks hcategory
  · exact plain_of_exactEvents hclassic.eventsRead hevents

end Events

section Example

/-- A server that takes nothing but the classic notation. -/
def classic : Engine where
  isWord c := c.isAlphanum = true ∨ c = '_'
  fullmatch pattern text := ∃ r, parse pattern.toList = some r ∧
    text.toList ∈ r.language fun c => c.isAlphanum = true ∨ c = '_'
  alphanum _ h := .inl h
  dash := by decide
  reads pattern r hr text := by simp [hr]

theorem filters_exact_iff_orders :
    ExactCategory classic "order" ∧ ExactEvents classic ["OrderPlaced", "OrderPaid"] :=
  (filters_exact_iff classic (by decide)).1 ⟨by decide, by decide⟩

/-- A dot in a category or in a type lets other names through. -/
theorem filters_pass_others :
    ¬ ExactCategory classic "shop.order" ∧ ¬ ExactEvents classic ["shop.OrderPlaced"] ∧
      Accepts classic (subscribeToEvents ["shop.OrderPlaced"]) "shop_OrderPlaced" := by
  refine ⟨fun hexact => ?_, fun hexact => ?_, ?_⟩
  · have hplain := plain_of_exactCategory (by decide) (rfl : parse _ = some _) (by decide) hexact
    exact absurd hplain (by decide)
  · have hplain := plain_of_exactEvents (fun pattern hpattern => ?_) hexact
    · exact absurd hplain (by decide)
    · rw [List.mem_singleton.1 hpattern]
      exact ⟨_, rfl⟩
  · obtain ⟨r, hr, hlanguage⟩ :=
      @parse_simple "shop.OrderPlaced".toList classic.isWord (by decide)
    exact ⟨_, List.mem_singleton_self _, r, hr, (hlanguage _).2 (by decide)⟩

end Example

end EventSourcery.Kurrent.KurrentFilters
