import EventSourcery.Dto

/-!
# Equality of identifiers

`==` and `hash` of `UUID`, `StreamUUID` and `StreamId`. A `StreamId` compares its category with
that of another one, and leaves the comparison with any other identifier to that one, which looks
at the number alone. The built-in hashes of numbers and tuples are any functions.
-/
namespace EventSourcery.Identifiers

section Dispatch
variable {V C : Type*} [DecidableEq C] (type : V → C) (subclass : C → C → Bool)
  (method : V → V → Option Bool)

/-- `x == y`, if one of the methods answers: that of a proper subclass goes first. -/
def richEq (x y : V) : Option Bool :=
  if type y ≠ type x ∧ subclass (type y) (type x) then (method y x).or (method x y)
  else (method x y).or (method y x)

variable {type subclass method}

/-- Where the two methods agree it does not matter which of them goes first. -/
theorem richEq_eq_or (hagree : ∀ x y a b, method x y = some a → method y x = some b → a = b)
    (x y : V) : richEq type subclass method x y = (method x y).or (method y x) := by
  rw [richEq]
  split
  · cases hx : method x y with
    | none => simp
    | some a =>
      cases hy : method y x with
      | none => simp
      | some b => simp [hagree x y a b hx hy]
  · rfl

theorem richEq_comm (hagree : ∀ x y a b, method x y = some a → method y x = some b → a = b)
    (x y : V) : richEq type subclass method x y = richEq type subclass method y x := by
  rw [richEq_eq_or hagree, richEq_eq_or hagree]
  cases hx : method x y with
  | none => simp
  | some a =>
    cases hy : method y x with
    | none => simp
    | some b => simp [hagree x y a b hx hy]

end Dispatch

inductive Class where
  | uuid
  | streamUuid
  | streamId
  deriving DecidableEq

/-- `issubclass` -/
def Class.subclass : Class → Class → Bool
  | _, .uuid => true
  | .streamUuid, .streamUuid => true
  | .streamId, .streamUuid => true
  | .streamId, .streamId => true
  | _, _ => false

inductive Identifier where
  | uuid (uuid : Uuid)
  | streamUuid (uuid : Uuid) (name : Option String)
  | streamId (streamId : StreamId)
  deriving DecidableEq

/-- The built-in `hash` of a number, and of a tuple of a category and a number. -/
structure Hashing where
  int : ℕ → ℤ
  tuple : Option String → ℤ → ℤ

namespace Identifier

def type : Identifier → Class
  | uuid _ => .uuid
  | streamUuid _ _ => .streamUuid
  | streamId _ => .streamId

def toUuid : Identifier → Uuid
  | uuid value => value
  | streamUuid value _ => value
  | streamId self => self.uuid

/-- `UUID.int` -/
def int (x : Identifier) : ℕ := x.toUuid.toNat

/-- `UUID.__eq__` -/
def uuidEq (self other : Identifier) : Option Bool :=
  if other.type.subclass .uuid then some (self.int == other.int) else none

/-- The `__eq__` that the class of `self` has; none for `NotImplemented`. -/
def eq : Identifier → Identifier → Option Bool
  | streamId self, streamId other => some (self.eq other)
  | streamId _, _ => none
  | self, other => uuidEq self other

/-- The `__hash__` that the class of `self` has. -/
def hash (hashing : Hashing) : Identifier → ℤ
  | streamId self => hashing.tuple self.category (hashing.int self.uuid.toNat)
  | self => hashing.int self.int

/-- `x == y` -/
def Equal (x y : Identifier) : Prop := richEq type Class.subclass eq x y = some true

instance (x y : Identifier) : Decidable (x.Equal y) := inferInstanceAs (Decidable (_ = _))

/-- `isinstance(x, StreamId)` -/
def IsStreamId (x : Identifier) : Prop := x.type.subclass .streamId

def category : Identifier → Option String
  | streamId self => self.category
  | _ => none

end Identifier

/-- What dictionaries and sets rely on, at three identifiers and for all built-in hashes. -/
structure Laws (x y z : Identifier) : Prop where
  refl : x.Equal x
  symm : x.Equal y → y.Equal x
  trans : x.Equal y → y.Equal z → x.Equal z
  hash : ∀ hashing, x.Equal y → x.hash hashing = y.hash hashing

/-! ## Which identifiers are equal -/

section Equality
variable {x y z : Identifier}

/-- The numbers are the same, and the categories where both have one. -/
def Agree (x y : Identifier) : Prop :=
  x.int = y.int ∧ (x.IsStreamId → y.IsStreamId → x.category = y.category)

theorem agree_comm : Agree x y ↔ Agree y x := by
  constructor
  · rintro ⟨hint, hcategory⟩
    exact ⟨hint.symm, fun hy hx => (hcategory hx hy).symm⟩
  · rintro ⟨hint, hcategory⟩
    exact ⟨hint.symm, fun hx hy => (hcategory hy hx).symm⟩

/-- A method that answers says whether the two agree. -/
theorem agree_of_eq {a : Bool} (h : x.eq y = some a) : a = true ↔ Agree x y := by
  cases x with
  | streamId self =>
    cases y with
    | streamId other =>
      cases h
      simp [Agree, StreamId.eq, Identifier.int, Identifier.toUuid, BitVec.toNat_inj,
        Identifier.IsStreamId, Identifier.type, Class.subclass, Identifier.category]
    | uuid value => cases h
    | streamUuid value name => cases h
  | uuid value =>
    have hself : ¬ (Identifier.uuid value).IsStreamId := Bool.false_ne_true
    cases h
    simp [Agree, hself]
  | streamUuid value name =>
    have hself : ¬ (Identifier.streamUuid value name).IsStreamId := Bool.false_ne_true
    cases h
    simp [Agree, hself]

/-- One of the two methods answers: that of a stream identifier, or else the other one. -/
theorem eq_or_eq (x y : Identifier) : ∃ a, (x.eq y).or (y.eq x) = some a := by
  cases x with
  | streamId self => cases y <;> exact ⟨_, rfl⟩
  | uuid value => exact ⟨_, rfl⟩
  | streamUuid value name => exact ⟨_, rfl⟩

/-- Where both methods answer, they answer the same. -/
theorem eq_unique (x y : Identifier) (a b : Bool) (ha : x.eq y = some a) (hb : y.eq x = some b) :
    a = b := by
  rw [Bool.eq_iff_iff, agree_of_eq ha, agree_of_eq hb, agree_comm]

theorem equal_comm : x.Equal y ↔ y.Equal x := by
  rw [Identifier.Equal, Identifier.Equal, richEq_comm eq_unique]

theorem equal_iff (x y : Identifier) : x.Equal y ↔ Agree x y := by
  rw [Identifier.Equal, richEq_eq_or eq_unique]
  cases hx : x.eq y with
  | some a =>
    rw [Option.some_or, Option.some_inj]
    exact agree_of_eq hx
  | none =>
    obtain ⟨b, hb⟩ := eq_or_eq x y
    rw [hx, Option.none_or] at hb
    rw [Option.none_or, hb, Option.some_inj, agree_comm]
    exact agree_of_eq hb

/-- On stream identifiers `==` compares the keys of the dictionaries. -/
theorem streamId_equal_iff (a b : StreamId) :
    (Identifier.streamId a).Equal (.streamId b) ↔ a.key = b.key := by
  have hanswer : a.eq b = true ↔ Agree (.streamId a) (.streamId b) := agree_of_eq rfl
  rw [equal_iff, ← hanswer, StreamId.eq_iff]

/-- Equality is transitive unless it goes from one category to another by an identifier
without one. -/
theorem trans_iff (x y z : Identifier) :
    (x.Equal y → y.Equal z → x.Equal z) ↔
      ¬ (x.int = y.int ∧ y.int = z.int ∧ x.IsStreamId ∧ ¬ y.IsStreamId ∧ z.IsStreamId ∧
        x.category ≠ z.category) := by
  simp only [equal_iff, Agree]
  constructor
  · rintro htrans ⟨hxy, hyz, hx, hy, hz, hcategory⟩
    exact hcategory ((htrans ⟨hxy, fun _ h => absurd h hy⟩ ⟨hyz, fun h => absurd h hy⟩).2 hx hz)
  · rintro hnot ⟨hxy, hxyc⟩ ⟨hyz, hyzc⟩
    refine ⟨hxy.trans hyz, fun hx hz => ?_⟩
    by_cases hy : y.IsStreamId
    · exact (hxyc hx hy).trans (hyzc hy hz)
    · by_contra hcategory
      exact hnot ⟨hxy, hyz, hx, hy, hz, hcategory⟩

theorem hash_of_isStreamId (hashing : Hashing) (hx : x.IsStreamId) :
    x.hash hashing = hashing.tuple x.category (hashing.int x.int) := by
  cases x with
  | streamId self => rfl
  | uuid value => cases hx
  | streamUuid value name => cases hx

theorem hash_of_not_isStreamId (hashing : Hashing) (hx : ¬ x.IsStreamId) :
    x.hash hashing = hashing.int x.int := by
  cases x with
  | streamId self => exact absurd rfl hx
  | uuid value => rfl
  | streamUuid value name => rfl

/-- Equal identifiers have equal hashes, whatever the built-in ones are, if and only if both are
stream identifiers or none is. -/
theorem hash_iff (h : x.Equal y) :
    (∀ hashing, x.hash hashing = y.hash hashing) ↔ (x.IsStreamId ↔ y.IsStreamId) := by
  obtain ⟨hint, hcategory⟩ := (equal_iff x y).1 h
  constructor
  · intro hhash
    have hdistinct := hhash ⟨fun _ => 0, fun _ _ => 1⟩
    by_cases hx : x.IsStreamId <;> by_cases hy : y.IsStreamId
    · exact iff_of_true hx hy
    · rw [hash_of_isStreamId _ hx, hash_of_not_isStreamId _ hy] at hdistinct
      cases hdistinct
    · rw [hash_of_not_isStreamId _ hx, hash_of_isStreamId _ hy] at hdistinct
      cases hdistinct
    · exact iff_of_false hx hy
  · intro hboth hashing
    by_cases hx : x.IsStreamId
    · have hy := hboth.1 hx
      rw [hash_of_isStreamId _ hx, hash_of_isStreamId _ hy, hint, hcategory hx hy]
    · rw [hash_of_not_isStreamId _ hx, hash_of_not_isStreamId _ fun hy => hx (hboth.2 hy), hint]

/-- The laws hold unless the first two identifiers have one number and just one of them is a
stream identifier. -/
theorem laws_iff (x y z : Identifier) :
    Laws x y z ↔ (x.int = y.int → (x.IsStreamId ↔ y.IsStreamId)) := by
  constructor
  · intro hlaws hint
    by_contra hmixed
    have hequal : x.Equal y :=
      (equal_iff x y).2 ⟨hint, fun hx hy => (hmixed (iff_of_true hx hy)).elim⟩
    exact hmixed ((hash_iff hequal).1 fun hashing => hlaws.hash hashing hequal)
  · intro hkind
    refine ⟨(equal_iff x x).2 ⟨rfl, fun _ _ => rfl⟩, equal_comm.1, ?_, fun hashing h => ?_⟩
    · rw [trans_iff]
      rintro ⟨hint, -, hx, hy, -, -⟩
      exact hy ((hkind hint).1 hx)
    · exact (hash_iff h).2 (hkind ((equal_iff x y).1 h).1) hashing

/-- Two stream identifiers of one number and different categories, and that number between. -/
theorem laws_fail_through_uuid :
    ¬ Laws (.streamId ⟨0, none, some "A"⟩) (.uuid 0) (.streamId ⟨0, none, some "B"⟩) := by
  intro hlaws
  have hequal := hlaws.trans (by decide) (by decide)
  revert hequal
  decide

end Equality

end EventSourcery.Identifiers
