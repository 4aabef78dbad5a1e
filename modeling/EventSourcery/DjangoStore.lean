import EventSourcery.Tables

/-!
# The Django store

`DjangoStorageStrategy`. Every statement names the tenant. Nothing in the tables
keeps two events of a stream from having the same version: the index on stream
and version is not unique. Columns are as wide as their values.
-/
namespace EventSourcery.Sql

structure DjangoStorageStrategy (E : Type) where
  engine : Engine
  dispatcher : Dispatcher E
  outbox : Option OutboxStrategy
  tenantId : TenantId

namespace DjangoStorageStrategy
variable {E : Type} (strategy : DjangoStorageStrategy E)

/-- `QuerySet.get` -/
def getOne {α : Type} : List α → Except Error α
  | [] => .error .doesNotExist
  | [x] => .ok x
  | _ => .error .multipleObjectsReturned

theorem getOne_map {α β : Type} (f : α → β) (xs : List α) :
    getOne (xs.map f) = (getOne xs).map f := by
  match xs with
  | [] => rfl
  | [x] => rfl
  | _ :: _ :: _ => rfl

theorem getOne_eq_ok {α : Type} {xs : List α} {x : α} (h : getOne xs = .ok x) : xs = [x] := by
  match xs with
  | [] => cases h
  | [y] => simpa [getOne] using h
  | _ :: _ :: _ => cases h

/-- `StreamManager.by_stream_id` -/
def byStreamId (streamId : StreamId) (db : Database) : List StreamRow :=
  db.streams.filter fun row => row.addressed streamId && row.tenantId = strategy.tenantId

def fetchEvents (streamId : StreamId) (start stop : Option ℤ) (db : Database) :
    Except Error (List RawEvent) :=
  match getOne (strategy.byStreamId streamId db) with
  | .error .doesNotExist => .ok []
  | .error e => .error e
  | .ok stream =>
      let rows := fetchRows strategy.engine id start stop (db.eventsOf stream.id)
        (db.snapshotsOf stream.id)
      .ok (rows.map (toRaw stream.toStreamHead))

/-- The first of the matching streams with the same name must have the uuid. -/
def checkName {α : Type} (head : α → StreamHead) (streamId : StreamId) (matching : List α) :
    Except Error Unit :=
  match streamId.truthyName with
  | none => .ok ()
  | some name =>
      match matching.find? fun x => (head x).name = some name with
      | none => .ok ()
      | some x =>
          if (head x).uuid = streamId.uuid then .ok ()
          else .error .anotherStreamWithThisNameButOtherIdExists

theorem checkName_map {α β : Type} (head : α → StreamHead) (f : β → α) (streamId : StreamId)
    (matching : List β) :
    checkName head streamId (matching.map f) = checkName (head ∘ f) streamId matching := by
  unfold checkName
  cases streamId.truthyName with
  | none => rfl
  | some name =>
    simp only [List.find?_map, Function.comp_def]
    cases matching.find? fun x => (head (f x)).name = some name <;> rfl

/-- A stream with the uuid is let through, whatever its name. -/
theorem checkName_one {α : Type} (head : α → StreamHead) {streamId : StreamId} {x : α}
    (huuid : (head x).uuid = streamId.uuid) : checkName head streamId [x] = .ok () := by
  unfold checkName
  cases streamId.truthyName with
  | none => rfl
  | some name => by_cases hsame : (head x).name = some name <;> simp [hsame, huuid]

/-- The columns that `get_or_create` looks up. -/
def sameColumns (streamId : StreamId) (head : StreamHead) : Bool :=
  head.uuid = streamId.uuid && head.name = streamId.name && head.category = streamId.categoryText

theorem addressed_of_sameColumns {streamId : StreamId} {head : StreamHead}
    (h : sameColumns streamId head) : head.addressed streamId = true := by
  simp only [sameColumns, Bool.and_eq_true, decide_eq_true_eq] at h
  simp [StreamHead.addressed, h]

/-- `get_or_create`; when the insertion breaks a constraint, nothing is found again. -/
def getOrCreate (streamId : StreamId) (initialVersion : Option ℤ) (db : Database) :
    Except Error StreamRow × Database :=
  let head := StreamHead.ofStreamId streamId initialVersion
  match getOne (db.streams.filter fun row =>
    sameColumns streamId row.toStreamHead && row.tenantId = strategy.tenantId) with
  | .error .doesNotExist =>
      if db.streams.any fun row =>
          row.tenantId = strategy.tenantId && head.clashes row.toStreamHead then
        (.error .integrityError, db)
      else
        let id := strategy.engine.nextId (db.streams.map (·.id)) db.streamSeq
        (.ok { head with id, tenantId := strategy.tenantId },
          db.insertStream strategy.engine head strategy.tenantId)
  | r => (r, db)

def ensureStream (streamId : StreamId) (versioning : Versioning) (db : Database) :
    Except Error Unit × Database :=
  match checkName StreamRow.toStreamHead streamId (strategy.byStreamId streamId db) with
  | .error e => (.error e, db)
  | .ok () =>
      match strategy.getOrCreate streamId versioning.initialVersion db with
      | (.error e, db) => (.error e, db)
      | (.ok model, db) =>
          match versioning.validateIfCompatible model.version, versioning.compared with
          | .error e, _ => (.error e, db)
          | .ok (), none => (.ok (), db)
          | .ok (), some expected =>
              let hit := fun row : StreamRow => row.id = model.id && row.version = some expected
              let bumped := db.setVersion hit versioning.initialVersion
              if db.streams.countP hit ≠ 1 then (.error (.concurrentStreamWriteError []), bumped)
              else (.ok (), bumped)

/-- `insert_events` from the lookup of the stream on. -/
def storeEvents (events : List RawEvent) (db : Database) : Except Error Unit × Database :=
  match events.head? with
  | none => (.error .valueError, db)
  | some event =>
      match getOne (strategy.byStreamId event.streamId db) with
      | .error e => (.error e, db)
      | .ok stream =>
          let entries := events.map EventBody.ofRaw
          if uuidsFree entries (db.events.map (·.body)) then
            let added := db.addEvents strategy.engine stream.id entries
            let records := recordsOf strategy.tenantId events added.1
            let db := strategy.outbox.elim added.2 (·.putIntoOutbox records added.2)
            (strategy.dispatcher.dispatch records, db)
          else (.error .integrityError, db)

def insertEvents (streamId : StreamId) (versioning : Versioning) (events : List RawEvent)
    (db : Database) : Except Error Unit × Database :=
  match strategy.ensureStream streamId versioning db with
  | (.error e, db) => (.error e, db)
  | (.ok (), db) => strategy.storeEvents events db

/-- `entry.save()` replaces a snapshot with the same primary key. -/
def saveSnapshot (snapshot : RawEvent) (db : Database) : Except Error Unit × Database :=
  match getOne (strategy.byStreamId snapshot.streamId db) with
  | .error e => (.error e, db)
  | .ok stream =>
      if snapshot.version = none then (.error .integrityError, db)
      else
        let others := db.snapshots.filter fun row => row.body.uuid ≠ snapshot.uuid
        (.ok (), { db with snapshots := others }.addSnapshot stream.id (.ofRaw snapshot))

/-- `QuerySet.delete`, with the rows that refer to the streams. -/
def deleteStream (streamId : StreamId) (db : Database) : Except Error Unit × Database :=
  let hit := fun row : StreamRow => row.addressed streamId && row.tenantId = strategy.tenantId
  (.ok (), ((db.deleteEvents hit).deleteSnapshots hit).deleteStreams hit)

def storageStrategy : StorageStrategy Database where
  fetchEvents := strategy.fetchEvents
  insertEvents := strategy.insertEvents
  saveSnapshot := strategy.saveSnapshot
  deleteStream := strategy.deleteStream

end DjangoStorageStrategy

end EventSourcery.Sql
