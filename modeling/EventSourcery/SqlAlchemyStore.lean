import EventSourcery.Tables

/-!
# The SQLAlchemy store

`SqlAlchemyStorageStrategy`, each call in a session of its own, so that the
session's `strong_set` holds the stream that `_ensure_stream` found and nothing
else. Statements that name a stream by `StreamIdComparator` do not look at the
tenant: the version bump, the lookup of `save_snapshot` and both deletions.
-/
namespace EventSourcery.Sql
open JsonText (Json)

structure SqlAlchemyStorageStrategy (E : Type) where
  engine : Engine
  dispatcher : Dispatcher E
  outbox : Option OutboxStrategy
  tenantId : TenantId

namespace SqlAlchemyStorageStrategy
variable {E : Type} (strategy : SqlAlchemyStorageStrategy E)

/-- Rows of a table joined with the streams that they refer to. -/
def joined {α : Type} (dbStreamId : α → ℕ) (rows : List α) (db : Database) :
    List (StreamRow × α) :=
  rows.filterMap fun x => (db.streams.find? (·.id = dbStreamId x)).map fun row => (row, x)

def fetchEvents (streamId : StreamId) (start stop : Option ℤ) (db : Database) :
    Except Error (List RawEvent) :=
  let mine := fun row : StreamRow => row.compares streamId && row.tenantId = strategy.tenantId
  let events := (joined (·.dbStreamId) db.events db).filter fun x => mine x.1
  let snapshots := (joined (·.dbStreamId) db.snapshots db).filter fun x => mine x.1
  let rows := fetchRows strategy.engine Prod.snd start stop
    (events.map fun x => (x.1, x.2.body)) (snapshots.map fun x => (x.1, x.2.body))
  .ok (rows.map fun x => toRaw x.1.toStreamHead x.2)

/-- `select(stream_model).where(condition)` -/
def matchingStreams (streamId : StreamId) (db : Database) : List StreamRow :=
  db.streams.filter fun row => row.addressed streamId && row.tenantId = strategy.tenantId

/-- `insert(stream_model)....on_conflict_do_nothing()` -/
def insertOrNothing (head : StreamHead) (db : Database) : Database :=
  if db.streams.any fun row => row.tenantId = strategy.tenantId && head.clashes row.toStreamHead
  then db
  else db.insertStream strategy.engine head strategy.tenantId

/-- The last of the matching streams with the same name must be the stream. -/
def checkName {α : Type} (head : α → StreamHead) (streamId : StreamId) (matching : List α) :
    Except Error Unit :=
  if streamId.name = none then .ok ()
  else
    match (matching.filter fun x =>
      (head x).name = streamId.name && (head x).category = streamId.categoryText).getLast? with
    | none => .error .indexError
    | some x =>
        if (head x).streamId.eq streamId then .ok ()
        else .error .anotherStreamWithThisNameButOtherIdExists

/-- The stream among the matching ones; `None` has no version to look at. -/
def chooseStream {α : Type} (head : α → StreamHead) (streamId : StreamId) (matching : List α) :
    Except Error α :=
  (checkName head streamId matching).bind fun _ =>
    (matching.find? fun x => (head x).streamId.eq streamId).elim (.error .attributeError) .ok

theorem checkName_map {α β : Type} (head : α → StreamHead) (f : β → α) (streamId : StreamId)
    (matching : List β) :
    checkName head streamId (matching.map f) = checkName (head ∘ f) streamId matching := by
  simp only [checkName, List.filter_map, List.getLast?_map, Function.comp_def]
  cases (matching.filter fun x => (head (f x)).name = streamId.name &&
      (head (f x)).category = streamId.categoryText).getLast? <;> rfl

theorem chooseStream_map {α β : Type} (head : α → StreamHead) (f : β → α) (streamId : StreamId)
    (matching : List β) :
    chooseStream head streamId (matching.map f) =
      (chooseStream (head ∘ f) streamId matching).map f := by
  simp only [chooseStream, checkName_map, List.find?_map]
  cases checkName (head ∘ f) streamId matching with
  | error e => rfl
  | ok u =>
    simp only [Except.bind, Function.comp_def]
    cases matching.find? fun x => (head (f x)).streamId.eq streamId <;> rfl

theorem chooseStream_eq_ok {α : Type} {head : α → StreamHead} {streamId : StreamId}
    {matching : List α} {x : α} (h : chooseStream head streamId matching = .ok x) :
    x ∈ matching ∧ (head x).streamId.eq streamId := by
  have hfind : matching.find? (fun x => (head x).streamId.eq streamId) = some x := by
    simp only [chooseStream] at h
    cases hcheck : checkName head streamId matching with
    | error e => simp [hcheck, Except.bind] at h
    | ok u =>
      cases hfind : matching.find? fun x => (head x).streamId.eq streamId <;>
        simp_all [Except.bind]
  exact ⟨List.mem_of_find?_eq_some hfind, by simpa using List.find?_some hfind⟩

/-- The first step of `_ensure_stream`: a stream is inserted when none matches. -/
def openStream (streamId : StreamId) (initialVersion : Option ℤ) (db : Database) : Database :=
  if (strategy.matchingStreams streamId db).isEmpty then
    strategy.insertOrNothing (.ofStreamId streamId initialVersion) db
  else db

def ensureStream (streamId : StreamId) (versioning : Versioning) (db : Database) :
    Except Error StreamRow × Database :=
  let db := strategy.openStream streamId versioning.initialVersion db
  match chooseStream StreamRow.toStreamHead streamId (strategy.matchingStreams streamId db) with
  | .error e => (.error e, db)
  | .ok stream =>
      match versioning.validateIfCompatible stream.version, versioning.compared with
      | .error e, _ => (.error e, db)
      | .ok (), none => (.ok stream, db)
      | .ok (), some expected =>
          let hit := fun row : StreamRow => row.compares streamId && row.version = some expected
          let bumped := db.setVersion hit versioning.initialVersion
          if db.streams.countP hit ≠ 1 then (.error (.concurrentStreamWriteError []), bumped)
          else (.ok stream, bumped)

/-- The unique index on stream and version; NULLs are all different. -/
def versionsFree (bodies held : List EventBody) : Bool :=
  (bodies.filterMap (·.version)).Nodup &&
    (bodies.filterMap (·.version)).all fun version => held.all fun body =>
      body.version ≠ some version

/-- `insert_events` from the choice of the stream on. -/
def storeEvents (stream : StreamRow) (events : List RawEvent) (db : Database) :
    Except Error Unit × Database :=
  let entries := events.map EventBody.ofRaw
  if uuidsFree entries (db.events.map (·.body)) && versionsFree entries (db.eventsOf stream.id) then
    let added := db.addEvents strategy.engine stream.id entries
    let records := recordsOf strategy.tenantId events added.1
    let db := strategy.outbox.elim added.2 (·.putIntoOutbox records added.2)
    (strategy.dispatcher.dispatch records, db)
  else (.error .integrityError, db)

def insertEvents (streamId : StreamId) (versioning : Versioning) (events : List RawEvent)
    (db : Database) : Except Error Unit × Database :=
  match strategy.ensureStream streamId versioning db with
  | (.error e, db) => (.error e, db)
  | (.ok stream, db) => strategy.storeEvents stream events db

def saveSnapshot (snapshot : RawEvent) (db : Database) : Except Error Unit × Database :=
  match db.streams.filter fun row => row.compares snapshot.streamId with
  | [] => (.error .noResultFound, db)
  | [stream] =>
      if snapshot.version = none || db.snapshots.any fun row => row.body.uuid = snapshot.uuid then
        (.error .integrityError, db)
      else (.ok (), db.addSnapshot stream.id (.ofRaw snapshot))
  | _ => (.error .multipleResultsFound, db)

def deleteStream (streamId : StreamId) (db : Database) : Except Error Unit × Database :=
  let hit := fun row : StreamRow => row.compares streamId
  let db := db.deleteEvents hit
  if strategy.engine.enforcesForeignKeys &&
      db.snapshots.any fun snapshot => db.belongs hit snapshot.dbStreamId then
    (.error .integrityError, db)
  else (.ok (), db.deleteStreams hit)

def storageStrategy : StorageStrategy Database where
  fetchEvents := strategy.fetchEvents
  insertEvents := strategy.insertEvents
  saveSnapshot := saveSnapshot
  deleteStream := strategy.deleteStream

end SqlAlchemyStorageStrategy

end EventSourcery.Sql
