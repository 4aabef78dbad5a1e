import EventSourcery.Projector

/-!
# Aggregates and their repository

An aggregate has the state that `__apply__` makes, and the events it has emitted. The
context manager `Repository.aggregate` loads the stream of an aggregate before its body
and appends the emitted events after it. Here its two halves are functions of their own;
`__apply__` is a parameter, and never raises.
-/
namespace EventSourcery
open Projector (CountsFrom)

structure Aggregate (A E : Type) where
  state : A
  changes : List E := []
  deriving DecidableEq

structure WrappedAggregate (A E : Type) where
  aggregate : Aggregate A E
  streamId : StreamId
  context : Dict := defaultContext
  storedVersion : Option ℤ := some 0
  createdAt : Option Timestamp := none
  updatedAt : Option Timestamp := none
  deriving DecidableEq

inductive RepositoryError where
  | store (error : Error)
  | typeError
  deriving DecidableEq

namespace Repository
section Code
variable {A E σ : Type} (apply : A → E → A) (store : EventStore E σ)

/-- `Aggregate._emit` -/
def emit (event : E) (wrapped : WrappedAggregate A E) : WrappedAggregate A E :=
  { wrapped with
    aggregate :=
      { state := apply wrapped.aggregate.state event
        changes := wrapped.aggregate.changes ++ [event] } }

/-- The body of the loop in `_load`. -/
def loadEach (wrapped : WrappedAggregate A E) (envelope : WrappedEvent E) : WrappedAggregate A E :=
  { wrapped with
    aggregate := { wrapped.aggregate with state := apply wrapped.aggregate.state envelope.event }
    storedVersion := envelope.version
    createdAt := some (wrapped.createdAt.getD envelope.createdAt)
    updatedAt := some envelope.createdAt }

def replay (stream : List (WrappedEvent E)) (wrapped : WrappedAggregate A E) :
    WrappedAggregate A E := stream.foldl (loadEach apply) wrapped

/-- `_load`, with the stream that it has read. -/
def load (wrapped : WrappedAggregate A E) (s : σ) :
    Except Error (List (WrappedEvent E) × WrappedAggregate A E) :=
  (store.loadStream wrapped.streamId none none s).map fun stream =>
    (stream, replay apply stream wrapped)

/-- The pending events, wrapped with versions from the given one on. What wrapping an event
draws is known by its version. -/
def wrapPending (draw : ℤ → Uuid × Timestamp) (context : Dict) : ℤ → List E → List (WrappedEvent E)
  | _, [] => []
  | version, event :: pending =>
      { WrappedEvent.wrap event (draw version).1 (draw version).2 (some version) with context } ::
        wrapPending draw context (version + 1) pending

/-- `_save` -/
def save (draw : ℤ → Uuid × Timestamp) (wrapped : WrappedAggregate A E) (s : σ) :
    Except RepositoryError Unit × σ :=
  match wrapped.storedVersion with
  | none => (.error .typeError, s)
  | some storedVersion =>
      match wrapPending draw wrapped.context (storedVersion + 1) wrapped.aggregate.changes with
      | [] => (.ok (), s)
      | first :: events =>
          let r := store.append first events wrapped.streamId (.version storedVersion) s
          (r.1.mapError .store, r.2)

end Code

section Lemmas
variable {A E : Type} {apply : A → E → A} {draw : ℤ → Uuid × Timestamp} {context : Dict}
  {wrapped : WrappedAggregate A E}

theorem wrapPending_counts (version : ℤ) (pending : List E) :
    CountsFrom version (wrapPending draw context version pending) := by
  induction pending generalizing version with
  | nil => trivial
  | cons event pending ih => exact ⟨rfl, ih (version + 1)⟩

theorem wrapPending_event (version : ℤ) (pending : List E) :
    (wrapPending draw context version pending).map (·.event) = pending := by
  induction pending generalizing version with
  | nil => rfl
  | cons event pending ih =>
    rw [wrapPending, List.map_cons, ih]
    rfl

/-- What a replay leaves, and what it makes of the state. -/
theorem replay_aggregate (stream : List (WrappedEvent E)) (wrapped : WrappedAggregate A E) :
    (replay apply stream wrapped).aggregate =
      { wrapped.aggregate with
        state := (stream.map (·.event)).foldl apply wrapped.aggregate.state } := by
  induction stream generalizing wrapped with
  | nil => rfl
  | cons envelope stream ih => exact ih (loadEach apply wrapped envelope)

theorem replay_streamId (stream : List (WrappedEvent E)) (wrapped : WrappedAggregate A E) :
    (replay apply stream wrapped).streamId = wrapped.streamId := by
  induction stream generalizing wrapped with
  | nil => rfl
  | cons envelope stream ih => exact ih (loadEach apply wrapped envelope)

/-- The stored version is the number of events, when they are numbered. -/
theorem replay_storedVersion {stream : List (WrappedEvent E)} {version : ℤ}
    (hstored : wrapped.storedVersion = some version) (hcounts : CountsFrom (version + 1) stream) :
    (replay apply stream wrapped).storedVersion = some (version + stream.length) := by
  induction stream generalizing wrapped version with
  | nil => simpa [replay] using hstored
  | cons envelope stream ih =>
    have hrest := @ih (loadEach apply wrapped envelope) (version + 1) hcounts.1 hcounts.2
    refine hrest.trans ?_
    rw [List.length_cons, Nat.cast_succ, add_assoc, add_comm 1]

/-- The emitted events are pending, and the rest of the wrapper stays. -/
theorem foldl_emit (emitted : List E) (wrapped : WrappedAggregate A E) :
    emitted.foldl (fun wrapped event => emit apply event wrapped) wrapped =
      { wrapped with
        aggregate :=
          { state := emitted.foldl apply wrapped.aggregate.state
            changes := wrapped.aggregate.changes ++ emitted } } := by
  induction emitted generalizing wrapped with
  | nil => simp
  | cons event emitted ih =>
    rw [List.foldl_cons, ih]
    simp [emit]

end Lemmas

end Repository

end EventSourcery
