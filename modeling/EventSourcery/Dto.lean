import EventSourcery.JsonText

/-!
# Identifiers, records and errors

The data that every backend exchanges: stream identifiers, raw and recorded
events, wrapped events, and the exceptions. A datetime is a number of
microseconds. A `Context` is kept as its JSON dump. Exceptions that Python, the
ORMs or pydantic raise carry no arguments, because no caller reads them.
-/
namespace EventSourcery
open JsonText (Json)

abbrev Uuid := BitVec 128
abbrev TenantId := String
abbrev Position := ℤ
abbrev Timestamp := ℤ

/-- A Python dict with string keys and JSON values. -/
abbrev Dict := List (String × Json)

def defaultTenant : TenantId := ""

/-- A stream identifier; `name` is the name it was made from, if any. -/
structure StreamId where
  uuid : Uuid
  name : Option String := none
  category : Option String := none
  deriving DecidableEq, Repr

/-- What `StreamId.__eq__` and `__hash__` look at: dictionaries of streams are
keyed by this. -/
abbrev StreamKey := Uuid × Option String

namespace StreamId

def key (s : StreamId) : StreamKey := (s.uuid, s.category)

/-- `StreamId.__eq__`: the name takes no part. -/
def eq (a b : StreamId) : Bool := a.uuid == b.uuid && a.category == b.category

theorem eq_iff {a b : StreamId} : a.eq b = true ↔ a.key = b.key := by
  simp [eq, key]

/-- The name when Python counts it as true: given, and not empty. -/
def truthyName (s : StreamId) : Option String := s.name.filter (· ≠ "")

/-- `stream_id.category or ""`, the text the SQL stores keep. -/
def categoryText (s : StreamId) : String := s.category.getD ""

end StreamId

structure RawEvent where
  uuid : Uuid
  streamId : StreamId
  createdAt : Timestamp
  name : String
  data : Dict
  context : Dict
  version : Option ℤ := none
  deriving DecidableEq

structure RecordedRaw where
  entry : RawEvent
  position : Position
  tenantId : TenantId := defaultTenant
  deriving DecidableEq

structure WrappedEvent (E : Type) where
  event : E
  version : Option ℤ
  uuid : Uuid
  createdAt : Timestamp
  context : Dict
  deriving DecidableEq

/-- The dump of a `Context()` without arguments. -/
def defaultContext : Dict := [("correlation_id", .null), ("causation_id", .null)]

/-- `WrappedEvent.wrap`; the uuid and the time that it draws are arguments here. -/
def WrappedEvent.wrap {E : Type} (event : E) (uuid : Uuid) (createdAt : Timestamp)
    (version : Option ℤ) : WrappedEvent E :=
  { event, version, uuid, createdAt, context := defaultContext }

structure Recorded (E : Type) where
  wrappedEvent : WrappedEvent E
  streamId : StreamId
  position : Position
  tenantId : TenantId

/-- A Python value where code asks for a subject id: a JSON value, or an object
of another type, known by its type's name, its text and whether it counts as true. -/
inductive Subject where
  | json (value : Json)
  | object (type text : String) (truthy : Bool)
  deriving DecidableEq

/-- What the registry, the encryption or the construction of an event raises;
`raised` is an exception of a user's own strategy or validator. -/
inductive SerdeError where
  | keyNotFoundError (subjectId : Subject)
  | noSubjectIdFound (streamId : StreamId)
  | keyError
  | attributeError
  | typeError
  | validationError
  | raised (text : String)
  deriving DecidableEq

inductive Error where
  | serde (error : SerdeError)
  | concurrentStreamWriteError (args : List Json)
  | anotherStreamWithThisNameButOtherIdExists
  | illegalCategoryName
  | illegalTenantId
  | expectedVersionUsedOnVersionlessStream
  | noExpectedVersionGivenOnVersionedStream
  | keyError
  | indexError
  | attributeError
  | valueError
  | integrityError
  | doesNotExist
  | multipleObjectsReturned
  | noResultFound
  | multipleResultsFound
  | objectDeletedError
  | detachedInstanceError
  | pendingRollbackError
  | internalError
  | listenerError (text : String)
  deriving DecidableEq

def Error.isConcurrentStreamWriteError : Error → Bool
  | .concurrentStreamWriteError _ => true
  | _ => false

/-- A sequence of two steps succeeds when both do. -/
theorem bind_eq_ok {α β ε : Type} {x : Except ε α} {f : α → Except ε β} {b : β} :
    x.bind f = .ok b ↔ ∃ a, x = .ok a ∧ f a = .ok b := by
  cases x <;> simp [Except.bind]

theorem map_eq_ok {α β ε : Type} {x : Except ε α} {f : α → β} {b : β} :
    x.map f = .ok b ↔ ∃ a, x = .ok a ∧ f a = b := by
  cases x <;> simp [Except.map]

theorem mapError_eq_ok {α ε ε' : Type} {x : Except ε α} {f : ε → ε'} {a : α} :
    x.mapError f = .ok a ↔ x = .ok a := by
  cases x <;> simp [Except.mapError]

/-- An optional version as a JSON value, for the arguments of an exception. -/
def versionJson (version : Option ℤ) : Json := version.elim .null .int

end EventSourcery
