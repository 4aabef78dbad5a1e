import EventSourcery.StreamIds
import EventSourcery.Tables

/-!
# The rows of the SQL outboxes

A record is put into a SQL outbox as a JSON object and some columns, and is made again from
them when it is published. The two packages write the members of the object in different
orders, and read them alike. The category of the stream is not among what they write.
-/
namespace EventSourcery.Sql
open JsonText (Json lookup)
open Texts

/-- A row of an outbox as the database has it, besides its id and the time of its insertion. -/
structure OutboxEntry where
  data : Dict
  streamName : Option String
  position : Position
  triesLeft : ℤ
  deriving DecidableEq

inductive ReadError where
  | keyError
  | typeError
  | valueError
  | streamId (refusal : StreamId.Refusal)
  deriving DecidableEq

section Reading

def field (key : String) (data : Dict) : Except ReadError Json :=
  (lookup key data).elim (.error .keyError) .ok

/-- A member that must be a string; no other is ever written. -/
def strField (key : String) (data : Dict) : Except ReadError String :=
  (field key data).bind fun
    | .str text => .ok text
    | _ => .error .typeError

def dictField (key : String) (data : Dict) : Except ReadError Dict :=
  (field key data).bind fun
    | .obj fields => .ok fields
    | _ => .error .typeError

def versionField (key : String) (data : Dict) : Except ReadError (Option ℤ) :=
  (field key data).bind fun
    | .null => .ok none
    | .int version => .ok (some version)
    | _ => .error .typeError

/-- The record that is made from a row. -/
def readRecord (uuid5 : String → Uuid) (entry : OutboxEntry) : Except ReadError RecordedRaw := do
  let uuidHex ← strField "uuid" entry.data
  let uuid ← (uuidOfHex uuidHex).elim (.error .valueError) .ok
  let streamHex ← strField "stream_id" entry.data
  let streamId ← (StreamId.construct uuid5 0
    { name := entry.streamName, fromHex := some streamHex }).mapError .streamId
  let createdAtText ← strField "created_at" entry.data
  let createdAt ← (fromisoformat createdAtText).elim (.error .valueError) .ok
  let version ← versionField "version" entry.data
  let name ← strField "name" entry.data
  let data ← dictField "data" entry.data
  let context ← dictField "context" entry.data
  let tenantId ← strField "tenant_id" entry.data
  return { entry := { uuid, streamId, createdAt, name, data, context, version }
           position := entry.position, tenantId }

end Reading

/-- The members and the columns that make a record again, in any order. -/
structure Holds (record : RecordedRaw) (entry : OutboxEntry) : Prop where
  uuid : lookup "uuid" entry.data = some (.str (uuidText record.entry.uuid))
  streamId : lookup "stream_id" entry.data = some (.str (uuidText record.entry.streamId.uuid))
  createdAt : lookup "created_at" entry.data = some (.str (isoformat record.entry.createdAt))
  version : lookup "version" entry.data = some (versionJson record.entry.version)
  name : lookup "name" entry.data = some (.str record.entry.name)
  data : lookup "data" entry.data = some (.obj record.entry.data)
  context : lookup "context" entry.data = some (.obj record.entry.context)
  tenantId : lookup "tenant_id" entry.data = some (.str record.tenantId)
  streamName : entry.streamName = record.entry.streamId.name
  position : entry.position = record.position

/-- The stream id of a record that is made again: its category is lost, and an empty name
takes the place of its uuid. -/
def reread (uuid5 : String → Uuid) (streamId : StreamId) : StreamId :=
  { uuid := if streamId.name = some "" then uuid5 "" else streamId.uuid, name := streamId.name }

/-- What is made again of a record. -/
def rereadRecord (uuid5 : String → Uuid) (record : RecordedRaw) : RecordedRaw :=
  { record with
    entry := { record.entry with streamId := reread uuid5 record.entry.streamId } }

section Rereading
variable {uuid5 : String → Uuid} {record : RecordedRaw} {entry : OutboxEntry}

theorem construct_reread {streamId : StreamId} (h : streamId.Accepted uuid5) :
    StreamId.construct uuid5 0
      { name := streamId.name, fromHex := some (uuidText streamId.uuid) } =
        .ok (reread uuid5 streamId) := by
  obtain ⟨uuid, name, category⟩ := streamId
  cases name with
  | none => simp [StreamId.construct, StreamId.uuidFrom, reread, uuidOfHex_uuidText, Except.bind]
  | some name =>
    by_cases hempty : name = ""
    · simp [StreamId.construct, StreamId.uuidFrom, reread, Except.bind, Option.filter, hempty]
    · have huuid : uuid5 name = uuid := h name (by simp [StreamId.truthyName, hempty])
      simp [StreamId.construct, StreamId.uuidFrom, reread, Except.bind, Option.filter, hempty,
        huuid]

theorem versionField_versionJson {data : Dict} {version : Option ℤ}
    (h : lookup "version" data = some (versionJson version)) :
    versionField "version" data = .ok version := by
  cases version <;> simp [versionField, field, h, versionJson, Except.bind]

theorem strField_eq {key text : String} {data : Dict} (h : lookup key data = some (.str text)) :
    strField key data = .ok text := by
  simp [strField, field, h, Except.bind]

theorem dictField_eq {key : String} {fields data : Dict}
    (h : lookup key data = some (.obj fields)) : dictField key data = .ok fields := by
  simp [dictField, field, h, Except.bind]

/-- What a record that was put in is read as. -/
theorem readRecord_eq (h : Holds record entry) (hid : record.entry.streamId.Accepted uuid5)
    (htime : InRange record.entry.createdAt) :
    readRecord uuid5 entry = .ok (rereadRecord uuid5 record) := by
  simp only [readRecord, strField_eq h.uuid, strField_eq h.streamId, strField_eq h.createdAt,
    strField_eq h.name, strField_eq h.tenantId, dictField_eq h.data, dictField_eq h.context,
    versionField_versionJson h.version, uuidOfHex_uuidText, fromisoformat_isoformat htime,
    h.streamName, h.position, construct_reread hid, rereadRecord, Except.mapError, Option.elim,
    bind, pure, Except.bind, Except.pure]

/-- The streams that survive. -/
theorem reread_eq_iff {streamId : StreamId} : reread uuid5 streamId = streamId ↔
    streamId.category = none ∧ (streamId.name = some "" → streamId.uuid = uuid5 "") := by
  obtain ⟨uuid, name, category⟩ := streamId
  simp only [reread, StreamId.mk.injEq, true_and]
  constructor
  · rintro ⟨huuid, hcategory⟩
    refine ⟨hcategory.symm, fun hname => ?_⟩
    rw [if_pos hname] at huuid
    exact huuid.symm
  · rintro ⟨hcategory, huuid⟩
    refine ⟨?_, hcategory.symm⟩
    split
    · rename_i hname
      exact (huuid hname).symm
    · rfl

theorem readRecord_eq_iff (h : Holds record entry) (hid : record.entry.streamId.Accepted uuid5)
    (htime : InRange record.entry.createdAt) :
    readRecord uuid5 entry = .ok record ↔ record.entry.streamId.category = none ∧
      (record.entry.streamId.name = some "" → record.entry.streamId.uuid = uuid5 "") := by
  rw [readRecord_eq h hid htime, ← reread_eq_iff]
  obtain ⟨⟨uuid, streamId, createdAt, name, data, context, version⟩, position, tenantId⟩ := record
  simp [rereadRecord]

end Rereading

namespace SqlAlchemyOutbox

/-- The object that `put_into_outbox` makes of a record. -/
def asDict (record : RecordedRaw) : Dict :=
  [("uuid", .str (uuidText record.entry.uuid)),
    ("created_at", .str (isoformat record.entry.createdAt)), ("name", .str record.entry.name),
    ("data", .obj record.entry.data), ("context", .obj record.entry.context),
    ("version", versionJson record.entry.version),
    ("stream_id", .str (uuidText record.entry.streamId.uuid)),
    ("tenant_id", .str record.tenantId)]

/-- A row of `put_into_outbox`. -/
def row (record : RecordedRaw) (maxPublishAttempts : ℤ) : OutboxEntry :=
  { data := asDict record, streamName := record.entry.streamId.name, position := record.position
    triesLeft := maxPublishAttempts }

/-- The record that `_publish_context` yields. -/
def publishContext (uuid5 : String → Uuid) (entry : OutboxEntry) : Except ReadError RecordedRaw :=
  readRecord uuid5 entry

theorem row_holds (record : RecordedRaw) (maxPublishAttempts : ℤ) :
    Holds record (row record maxPublishAttempts) := by
  constructor <;> rfl

end SqlAlchemyOutbox

namespace DjangoOutbox

/-- `dto.outbox_entry` -/
def outboxEntry (fromRaw : RecordedRaw) (maxAttempts : ℤ) : OutboxEntry :=
  { data :=
      [("created_at", .str (isoformat fromRaw.entry.createdAt)),
        ("uuid", .str (uuidText fromRaw.entry.uuid)),
        ("stream_id", .str (uuidText fromRaw.entry.streamId.uuid)),
        ("version", versionJson fromRaw.entry.version), ("name", .str fromRaw.entry.name),
        ("data", .obj fromRaw.entry.data), ("context", .obj fromRaw.entry.context),
        ("tenant_id", .str fromRaw.tenantId)]
    streamName := fromRaw.entry.streamId.name, position := fromRaw.position
    triesLeft := maxAttempts }

/-- `dto.raw_outbox` -/
def rawOutbox (uuid5 : String → Uuid) (fromEntry : OutboxEntry) : Except ReadError RecordedRaw :=
  readRecord uuid5 fromEntry

theorem outboxEntry_holds (record : RecordedRaw) (maxAttempts : ℤ) :
    Holds record (outboxEntry record maxAttempts) := by
  constructor <;> rfl

end DjangoOutbox

/-! ## The rows of the database -/

/-- The record that a row of the outbox keeps: all but the category of its stream. -/
def OutboxRow.record (row : OutboxRow) : RecordedRaw :=
  { entry :=
      { uuid := row.body.uuid, streamId := { uuid := row.streamUuid, name := row.streamName }
        createdAt := row.body.createdAt, name := row.body.name, data := row.body.data
        context := row.body.eventContext, version := row.body.version }
    position := row.position, tenantId := row.tenantId }

/-- The rows that the stores put in are the ones of the two codecs. -/
theorem putIntoOutbox_rows (strategy : OutboxStrategy) (records : List RecordedRaw)
    (db : Database) {encode : RecordedRaw → ℤ → OutboxEntry}
    (hencode : encode = SqlAlchemyOutbox.row ∨ encode = DjangoOutbox.outboxEntry) :
    (strategy.putIntoOutbox records db).outbox.map (fun row => encode row.record row.triesLeft) =
      db.outbox.map (fun row => encode row.record row.triesLeft) ++
        (records.filter fun record => strategy.filterer record.entry).map
          fun record => encode record strategy.maxPublishAttempts := by
  simp only [OutboxStrategy.putIntoOutbox, List.map_append, List.map_map]
  rcases hencode with rfl | rfl <;> rfl

/-! ## The round trip -/

/-- A record comes out as it was put in when its stream has no category, and an empty name
only with the uuid that it makes. -/
theorem outbox_roundTrips {uuid5 : String → Uuid} {record : RecordedRaw}
    (hid : record.entry.streamId.Accepted uuid5) (htime : InRange record.entry.createdAt)
    (maxAttempts : ℤ) :
    (DjangoOutbox.rawOutbox uuid5 (DjangoOutbox.outboxEntry record maxAttempts) = .ok record ↔
      record.entry.streamId.category = none ∧
        (record.entry.streamId.name = some "" → record.entry.streamId.uuid = uuid5 "")) ∧
    (SqlAlchemyOutbox.publishContext uuid5 (SqlAlchemyOutbox.row record maxAttempts) =
        .ok record ↔
      record.entry.streamId.category = none ∧
        (record.entry.streamId.name = some "" → record.entry.streamId.uuid = uuid5 "")) :=
  ⟨readRecord_eq_iff (DjangoOutbox.outboxEntry_holds record maxAttempts) hid htime,
    readRecord_eq_iff (SqlAlchemyOutbox.row_holds record maxAttempts) hid htime⟩

/-- A library function like any other for `uuid5`. -/
def orderUuid (name : String) : Uuid := BitVec.ofNat 128 (name.length + 7)

/-- An event of a stream with a name. -/
def namedRecord : RecordedRaw :=
  { entry :=
      { uuid := 1, streamId := { uuid := orderUuid "orders", name := some "orders" }
        createdAt := 1700000000000000, name := "OrderPlaced"
        data := [("total", .int 3)], context := defaultContext, version := some 1 }
    position := 1, tenantId := "t1" }

theorem outbox_roundTrips_named :
    namedRecord.entry.streamId.Accepted orderUuid ∧ InRange namedRecord.entry.createdAt ∧
      DjangoOutbox.rawOutbox orderUuid (DjangoOutbox.outboxEntry namedRecord 3) =
        .ok namedRecord ∧
      SqlAlchemyOutbox.publishContext orderUuid (SqlAlchemyOutbox.row namedRecord 3) =
        .ok namedRecord := by
  have hid : namedRecord.entry.streamId.Accepted orderUuid := by decide
  have htime : InRange namedRecord.entry.createdAt := by unfold InRange; decide
  have h := outbox_roundTrips hid htime 3
  exact ⟨hid, htime, h.1.2 (by decide), h.2.2 (by decide)⟩

/-- The same event in a category. -/
def categorizedRecord : RecordedRaw :=
  { namedRecord with
    entry :=
      { namedRecord.entry with
        streamId := { namedRecord.entry.streamId with category := some "sales" } } }

/-- Both outboxes publish it as an event of the stream without a category. -/
theorem outbox_loses_category :
    categorizedRecord.entry.streamId.Accepted orderUuid ∧
      DjangoOutbox.rawOutbox orderUuid (DjangoOutbox.outboxEntry categorizedRecord 3) =
        .ok namedRecord ∧
      SqlAlchemyOutbox.publishContext orderUuid (SqlAlchemyOutbox.row categorizedRecord 3) =
        .ok namedRecord ∧
      namedRecord ≠ categorizedRecord := by
  have hid : categorizedRecord.entry.streamId.Accepted orderUuid := by decide
  have htime : InRange categorizedRecord.entry.createdAt := by unfold InRange; decide
  exact ⟨hid, readRecord_eq (DjangoOutbox.outboxEntry_holds categorizedRecord 3) hid htime,
    readRecord_eq (SqlAlchemyOutbox.row_holds categorizedRecord 3) hid htime, by decide⟩

end EventSourcery.Sql
