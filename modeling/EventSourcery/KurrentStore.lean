import EventSourcery.EventStore
import EventSourcery.Texts

/-!
# The KurrentDB store

The parts of `KurrentDBStorageStrategy` that append to streams. The server keeps
streams by name. A stream keeps its events with the position of the first one,
which is not 0 when the stream has been deleted and written to again.
-/
namespace EventSourcery.Kurrent
open JsonText (Json)

structure KurrentStream where
  first : ℕ := 0
  events : List RawEvent := []
  deriving DecidableEq

/-- The server: its streams by their names. -/
abbrev Server := String → KurrentStream

/-- `stream.Name` -/
def streamName (t : TenantId) (streamId : StreamId) : Except Error String :=
  if t.toList.contains '-' then .error .illegalTenantId
  else if streamId.categoryText.toList.contains '-' then .error .illegalCategoryName
  else .ok (streamId.categoryText ++ "-" ++ t ++ "-" ++ Texts.uuidHex streamId.uuid)

/-- `stream.Position.from_version` -/
def fromVersion (version : ℤ) : Position := version - 1

/-- `get_stream` from the end; `None` when the stream is not found. -/
def getStreamPosition (name : String) (server : Server) : Option Position :=
  if (server name).events = [] then none
  else some ((server name).first + (server name).events.length - 1)

/-- The comparison of `_ensure_stream`. What is raised has the outcome of the
comparison for the position that was read. -/
def comparePosition (versioning : Versioning) (position : Option Position) : Except Error Unit :=
  match versioning.compared with
  | none => .ok ()
  | some expectedVersion =>
      let expected := fromVersion expectedVersion
      if position ≠ some expected then
        .error (.concurrentStreamWriteError [.bool true, .int expected])
      else .ok ()

/-- `append_events` with `StreamState.ANY` -/
def appendEvents (name : String) (events : List RawEvent) (server : Server) : Server :=
  Function.update server name
    { server name with events := (server name).events ++ events }

structure KurrentDBStorageStrategy where
  tenantId : TenantId

namespace KurrentDBStorageStrategy
variable (strategy : KurrentDBStorageStrategy)

def ensureStream (streamId : StreamId) (versioning : Versioning) (server : Server) :
    Except Error Unit :=
  (streamName strategy.tenantId streamId).bind fun name =>
    comparePosition versioning (getStreamPosition name server)

/-- The stream ids of events; a set in the source, and here in the order of the events. -/
def streamIds (events : List RawEvent) : List StreamId :=
  (events.map (·.streamId)).eraseDupsBy StreamId.eq

theorem streamIds_of_one {events : List RawEvent} {streamId : StreamId} (hne : events ≠ [])
    (h : ∀ raw ∈ events, raw.streamId = streamId) : streamIds events = [streamId] := by
  have hmap : events.map (·.streamId) = List.replicate events.length streamId :=
    List.eq_replicate_iff.2 ⟨by simp, by simpa using h⟩
  have heq : streamId.eq streamId = true := StreamId.eq_iff.2 rfl
  cases events with
  | nil => exact absurd rfl hne
  | cons raw events =>
    simp [streamIds, hmap, List.replicate_succ, List.eraseDupsBy_cons, heq]

/-- The loop of `insert_events`. -/
def insertEach (versioning : Versioning) (events : List RawEvent) :
    List StreamId → Server → Except Error Unit × Server
  | [], server => (.ok (), server)
  | streamId :: rest, server =>
      match strategy.ensureStream streamId versioning server,
          streamName strategy.tenantId streamId with
      | .error e, _ => (.error e, server)
      | .ok (), .error e => (.error e, server)
      | .ok (), .ok name =>
          let streamEvents := events.filter fun raw => raw.streamId.eq streamId
          insertEach versioning events rest (appendEvents name streamEvents server)

def insertEvents (versioning : Versioning) (events : List RawEvent) (server : Server) :
    Except Error Unit × Server :=
  strategy.insertEach versioning events (streamIds events) server

end KurrentDBStorageStrategy

section Streams
variable {name : String} {server : Server}

/-- The position after the last event. -/
def nextPosition (name : String) (server : Server) : ℤ :=
  (server name).first + (server name).events.length

theorem nextPosition_of_position {position : Position}
    (h : getStreamPosition name server = some position) :
    nextPosition name server = position + 1 := by
  unfold getStreamPosition at h
  split at h
  · cases h
  · have hlast : ((server name).first : ℤ) + (server name).events.length - 1 = position := by
      simpa using h
    unfold nextPosition
    omega

theorem nextPosition_appendEvents (name : String) (events : List RawEvent) (server : Server) :
    nextPosition name (appendEvents name events server) =
      nextPosition name server + events.length := by
  simp only [nextPosition, appendEvents, Function.update_self, List.length_append]
  push_cast
  omega

theorem comparePosition_ok {versioning : Versioning} {expected : ℤ}
    (hcompared : versioning.compared = some expected) {position : Option Position}
    (h : comparePosition versioning position = .ok ()) :
    position = some (fromVersion expected) := by
  simpa [comparePosition, hcompared] using h

theorem comparePosition_error {versioning : Versioning} {position : Option Position} {e : Error}
    (h : comparePosition versioning position = .error e) :
    e.isConcurrentStreamWriteError = true := by
  unfold comparePosition at h
  split at h
  · cases h
  · dsimp only at h
    split at h
    · cases h
      rfl
    · cases h

end Streams

end EventSourcery.Kurrent
