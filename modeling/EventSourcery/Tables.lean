import EventSourcery.Replay
import EventSourcery.Tenants

/-!
# The tables of the SQL backends

SQLAlchemy and Django keep the same three tables of streams, events and
snapshots, and an outbox. A tenant's view of them has its own streams, each with
its own events and snapshots, and no row ids: ids are drawn from sequences that
all tenants share. Every statement that the stores execute has a lemma here that
says what it does to the view of each tenant.
-/
namespace EventSourcery.Sql

/-- What an event or a snapshot row holds of the event. -/
structure EventBody where
  uuid : Uuid
  createdAt : Timestamp
  version : Option ℤ
  name : String
  data : Dict
  eventContext : Dict
  deriving DecidableEq

def EventBody.ofRaw (raw : RawEvent) : EventBody :=
  { uuid := raw.uuid, createdAt := raw.createdAt, version := raw.version, name := raw.name
    data := raw.data, eventContext := raw.context }

/-- The columns of a stream besides its id and its tenant. -/
structure StreamHead where
  uuid : Uuid
  name : Option String
  category : String
  version : Option ℤ
  deriving DecidableEq

namespace StreamHead

def streamId (head : StreamHead) : StreamId :=
  { uuid := head.uuid, name := head.name
    category := if head.category = "" then none else some head.category }

/-- The columns of a new stream. -/
def ofStreamId (streamId : StreamId) (version : Option ℤ) : StreamHead :=
  { uuid := streamId.uuid, name := streamId.name, category := streamId.categoryText, version }

/-- The unique constraints within a tenant: on uuid and category, and on name and category,
where NULL is no name. -/
def clashes (head other : StreamHead) : Bool :=
  other.category = head.category &&
    (other.uuid = head.uuid || head.name.any fun name => other.name = some name)

/-- Unique within a tenant. -/
def key (head : StreamHead) : Uuid × String := (head.uuid, head.category)

theorem clashes_of_key {head other : StreamHead} (h : other.key = head.key) :
    head.clashes other = true := by
  simp only [key, Prod.mk.injEq] at h
  simp [clashes, h.1, h.2]

/-- The streams that `_ensure_stream` and `by_stream_id` look for within a tenant:
those with the uuid, and those with the name, when one is given, in the category. -/
def addressed (streamId : StreamId) (head : StreamHead) : Bool :=
  (head.uuid = streamId.uuid && head.category = streamId.categoryText) ||
    streamId.truthyName.any fun name =>
      head.name = some name && head.category = streamId.categoryText

/-- `StreamIdComparator.__eq__` -/
def compares (streamId : StreamId) (head : StreamHead) : Bool :=
  head.uuid = streamId.uuid && (streamId.truthyName.all fun name => head.name = some name) &&
    head.category = streamId.categoryText

end StreamHead

structure StreamRow extends StreamHead where
  id : ℕ
  tenantId : TenantId
  deriving DecidableEq

structure EventRow where
  id : ℕ
  dbStreamId : ℕ
  body : EventBody
  deriving DecidableEq

structure SnapshotRow where
  dbStreamId : ℕ
  body : EventBody
  deriving DecidableEq

/-- An outbox row; the time it was put in is not kept. -/
structure OutboxRow where
  body : EventBody
  streamUuid : Uuid
  tenantId : TenantId
  streamName : Option String
  position : Position
  triesLeft : ℤ
  deriving DecidableEq

/-- What differs between databases: SQLite leaves foreign keys unchecked and gives
a new row the id after the largest one, and PostgreSQL checks them and never
returns to an id. They also sort NULL to different ends. -/
structure Engine where
  enforcesForeignKeys : Bool
  reusesIds : Bool
  nullsFirst : Bool

def sqlite : Engine := { enforcesForeignKeys := false, reusesIds := true, nullsFirst := true }

def postgres : Engine := { enforcesForeignKeys := true, reusesIds := false, nullsFirst := false }

def Engine.nextId (engine : Engine) (ids : List ℕ) (seq : ℕ) : ℕ :=
  if engine.reusesIds then ids.foldr max 0 + 1 else seq + 1

/-- The tables, with the largest stream and event ids given so far. -/
structure Database where
  streams : List StreamRow := []
  events : List EventRow := []
  snapshots : List SnapshotRow := []
  outbox : List OutboxRow := []
  streamSeq : ℕ := 0
  eventSeq : ℕ := 0

/-- A rollback returns to the rows before the transaction, but not to its ids. -/
def Database.rollback (before after : Database) : Database :=
  { before with
    streamSeq := max before.streamSeq after.streamSeq
    eventSeq := max before.eventSeq after.eventSeq }

section Reading
variable {α β : Type} (engine : Engine)

/-- `version >= start` and `version < stop`, where they are given; NULL is neither. -/
def inWindow (start stop version : Option ℤ) : Bool :=
  (start.all fun start => version.any (start ≤ ·)) && stop.all fun stop => version.any (· < stop)

theorem inWindow_some (start stop : Option ℤ) (n : ℤ) :
    inWindow start stop (some n) = decide (Replay.InRange start stop n) := by
  cases start <;> cases stop <;> simp [inWindow, Replay.InRange]

/-- `ORDER BY version` -/
def versionLe (a b : Option ℤ) : Bool :=
  match a, b with
  | some a, some b => a ≤ b
  | none, none => true
  | none, some _ => engine.nullsFirst
  | some _, none => !engine.nullsFirst

/-- The rows that a ranged read of one stream selects: the newest snapshot in the
range and the events in the range after it, or all events in the range. -/
def fetchRows (body : α → EventBody) (start stop : Option ℤ) (events snapshots : List α) :
    List α :=
  let inRange := fun x => inWindow start stop (body x).version
  let newestFirst := (snapshots.filter inRange).insertionSort fun x y =>
    (body y).createdAt ≤ (body x).createdAt
  let byVersion := List.insertionSort fun x y => versionLe engine (body x).version (body y).version
  match newestFirst.head? with
  | none => byVersion (events.filter inRange)
  | some snapshot => snapshot :: byVersion ((events.filter inRange).filter fun x =>
      (body x).version.any fun version => (body snapshot).version.any (· < version))

theorem fetchRows_map (f : β → α) (body : α → EventBody) (start stop : Option ℤ)
    (events snapshots : List β) :
    fetchRows engine body start stop (events.map f) (snapshots.map f) =
      (fetchRows engine (body ∘ f) start stop events snapshots).map f := by
  have hsort : ∀ (r : EventBody → EventBody → Prop) [DecidableRel r] (xs : List β),
      (xs.map f).insertionSort (fun x y => r (body x) (body y)) =
        (xs.insertionSort fun x y => r (body (f x)) (body (f y))).map f := fun r _ xs =>
    (List.map_insertionSort _ _ f xs fun _ _ _ _ => Iff.rfl).symm
  simp only [fetchRows, List.filter_map, Function.comp_def]
  rw [hsort fun a b => b.createdAt ≤ a.createdAt, List.head?_map]
  cases ((snapshots.filter fun x => inWindow start stop (body (f x)).version).insertionSort
      fun x y => (body (f y)).createdAt ≤ (body (f x)).createdAt).head? with
  | none => exact hsort (fun a b => versionLe engine a.version b.version = true) _
  | some snapshot =>
    rw [List.map_cons]
    exact congrArg _ (hsort (fun a b => versionLe engine a.version b.version = true) _)

/-- A ranged read selects from the events and the snapshots. -/
theorem mem_fetchRows {body : α → EventBody} {start stop : Option ℤ} {events snapshots : List α}
    {x : α} (h : x ∈ fetchRows engine body start stop events snapshots) :
    x ∈ events ∨ x ∈ snapshots := by
  unfold fetchRows at h
  dsimp only at h
  split at h
  · exact .inl (List.mem_of_mem_filter ((List.mem_insertionSort _).1 h))
  · rename_i snapshot hnewest
    rcases List.mem_cons.1 h with rfl | h
    · have hsorted := (List.mem_insertionSort _).1 (List.mem_of_head? hnewest)
      exact .inr (List.mem_of_mem_filter hsorted)
    · have hinner := List.mem_of_mem_filter ((List.mem_insertionSort _).1 h)
      exact .inl (List.mem_of_mem_filter hinner)

/-- `RawEvent` from a row and the stream that it belongs to. -/
def toRaw (head : StreamHead) (body : EventBody) : RawEvent :=
  { uuid := body.uuid, streamId := head.streamId, createdAt := body.createdAt, name := body.name
    data := body.data, context := body.eventContext, version := body.version }

end Reading

/-- The unique column of event uuids: new events beside those that are held. -/
def uuidsFree (bodies held : List EventBody) : Bool :=
  (bodies.map (·.uuid)).Nodup && bodies.all fun body => held.all fun other =>
    other.uuid ≠ body.uuid

theorem uuidsFree_congr {bodies held held' : List EventBody}
    (h : ∀ body ∈ bodies, (∃ other ∈ held, other.uuid = body.uuid) ↔
      ∃ other ∈ held', other.uuid = body.uuid) :
    uuidsFree bodies held = uuidsFree bodies held' := by
  rw [uuidsFree, uuidsFree, Bool.eq_iff_iff]
  simp only [Bool.and_eq_true, List.all_eq_true]
  exact and_congr Iff.rfl (forall₂_congr fun body hbody => by
    simpa using not_congr (h body hbody))

/-- A stream with its events and snapshots, in the order of their rows. -/
structure StreamView extends StreamHead where
  events : List EventBody
  snapshots : List EventBody
  deriving DecidableEq

/-- The streams of a tenant. -/
abbrev Streams := List StreamView

def StreamView.addEvents (bodies : List EventBody) (stream : StreamView) : StreamView :=
  { stream with events := stream.events ++ bodies }

def StreamView.addSnapshot (body : EventBody) (stream : StreamView) : StreamView :=
  { stream with snapshots := stream.snapshots ++ [body] }

namespace Database

def eventsOf (db : Database) (id : ℕ) : List EventBody :=
  (db.events.filter (·.dbStreamId = id)).map (·.body)

def snapshotsOf (db : Database) (id : ℕ) : List EventBody :=
  (db.snapshots.filter (·.dbStreamId = id)).map (·.body)

def viewOf (db : Database) (row : StreamRow) : StreamView :=
  { row.toStreamHead with events := db.eventsOf row.id, snapshots := db.snapshotsOf row.id }

/-- A tenant's view of the tables. -/
def view (t : TenantId) (db : Database) : List StreamView :=
  (db.streams.filter (·.tenantId = t)).map db.viewOf

/-- `INSERT INTO streams` -/
def insertStream (engine : Engine) (head : StreamHead) (t : TenantId) (db : Database) : Database :=
  let id := engine.nextId (db.streams.map (·.id)) db.streamSeq
  { db with
    streams := db.streams ++ [{ toStreamHead := head, id, tenantId := t }]
    streamSeq := max db.streamSeq id }

/-- `UPDATE streams SET version = ... WHERE hit` -/
def setVersion (hit : StreamRow → Bool) (version : Option ℤ) (db : Database) : Database :=
  { db with streams := db.streams.map fun row => if hit row then { row with version } else row }

/-- The rows of new events, with the ids from the given one on. -/
def eventRows (dbStreamId : ℕ) : ℕ → List EventBody → List EventRow
  | _, [] => []
  | id, body :: bodies => { id, dbStreamId, body } :: eventRows dbStreamId (id + 1) bodies

/-- `INSERT INTO events`, with the rows as they were inserted. -/
def addEvents (engine : Engine) (dbStreamId : ℕ) (bodies : List EventBody) (db : Database) :
    List EventRow × Database :=
  let rows := eventRows dbStreamId (engine.nextId (db.events.map (·.id)) db.eventSeq) bodies
  (rows, { db with
    events := db.events ++ rows
    eventSeq := (rows.map (·.id)).foldr max db.eventSeq })

/-- `INSERT INTO snapshots` -/
def addSnapshot (dbStreamId : ℕ) (body : EventBody) (db : Database) : Database :=
  { db with snapshots := db.snapshots ++ [{ dbStreamId, body }] }

/-- Whether a row belongs to one of the streams that are hit. -/
def belongs (hit : StreamRow → Bool) (dbStreamId : ℕ) (db : Database) : Bool :=
  db.streams.any fun row => row.id = dbStreamId && hit row

/-- `DELETE FROM events` of the streams that are hit. -/
def deleteEvents (hit : StreamRow → Bool) (db : Database) : Database :=
  { db with events := db.events.filter fun event => !db.belongs hit event.dbStreamId }

/-- `DELETE FROM snapshots` of the streams that are hit. -/
def deleteSnapshots (hit : StreamRow → Bool) (db : Database) : Database :=
  { db with snapshots := db.snapshots.filter fun snapshot => !db.belongs hit snapshot.dbStreamId }

/-- `DELETE FROM streams WHERE hit` -/
def deleteStreams (hit : StreamRow → Bool) (db : Database) : Database :=
  { db with streams := db.streams.filter fun row => !hit row }

/-- Ids and keys are unique, every event belongs to a stream, and no stream that
is created later gets the snapshots of one that is gone. -/
structure Sound (engine : Engine) (db : Database) : Prop where
  ids : (db.streams.map (·.id)).Nodup
  bounded : ∀ row ∈ db.streams, row.id ≤ db.streamSeq
  keys : (db.streams.map fun row => (row.tenantId, row.key)).Nodup
  events : ∀ event ∈ db.events, ∃ row ∈ db.streams, row.id = event.dbStreamId
  snapshots : ∀ snapshot ∈ db.snapshots, (∃ row ∈ db.streams, row.id = snapshot.dbStreamId) ∨
    engine.reusesIds = false ∧ snapshot.dbStreamId ≤ db.streamSeq

/-- The ids of streams are unique, and so are the keys of a tenant's streams. -/
structure UniqueKeys (db : Database) : Prop where
  ids : (db.streams.map (·.id)).Nodup
  keys : (db.streams.map fun row => (row.tenantId, row.key)).Nodup

theorem Sound.uniqueKeys {engine : Engine} {db : Database} (h : db.Sound engine) :
    db.UniqueKeys := ⟨h.ids, h.keys⟩

theorem sound_empty (engine : Engine) : Sound engine {} :=
  ⟨List.nodup_nil, by simp, List.nodup_nil, by simp, by simp⟩

end Database

/-- Change the stream with the given key. -/
def modify (key : Uuid × String) (f : StreamView → StreamView) (streams : List StreamView) :
    List StreamView := streams.map fun stream => if stream.key = key then f stream else stream

section Statements
variable {engine : Engine} {db db' : Database} {t : TenantId} {row : StreamRow}

theorem eq_of_id (h : db.UniqueKeys) {a b : StreamRow} (ha : a ∈ db.streams) (hb : b ∈ db.streams)
    (hid : a.id = b.id) : a = b := List.inj_on_of_nodup_map h.ids ha hb hid

theorem eq_of_key (h : db.UniqueKeys) {a b : StreamRow} (ha : a ∈ db.streams)
    (hb : b ∈ db.streams) (ht : a.tenantId = b.tenantId) (hkey : a.key = b.key) : a = b :=
  List.inj_on_of_nodup_map h.keys ha hb (by simp [ht, hkey])

theorem view_keys (h : db.UniqueKeys) (t : TenantId) : ((db.view t).map (·.key)).Nodup := by
  unfold Database.view
  rw [List.map_map]
  apply List.Nodup.map_on
  · intro a ha b hb hkey
    obtain ⟨ha, hat⟩ := List.mem_filter.1 ha
    obtain ⟨hb, hbt⟩ := List.mem_filter.1 hb
    simp only [decide_eq_true_eq] at hat hbt
    exact eq_of_key h ha hb (hat.trans hbt.symm) hkey
  · exact (List.Nodup.of_map _ h.ids).filter _

theorem mem_view {v : StreamView} :
    v ∈ db.view t ↔ ∃ row ∈ db.streams, row.tenantId = t ∧ db.viewOf row = v := by
  simp [Database.view, and_assoc]

variable (db t) in
/-- Streams are selected by the columns that the view keeps. -/
theorem filter_view (p : StreamHead → Bool) :
    (db.view t).filter (fun v => p v.toStreamHead) =
      (db.streams.filter fun row => p row.toStreamHead && row.tenantId = t).map db.viewOf := by
  simp only [Database.view, List.filter_map, List.filter_filter]
  rfl

theorem any_view (p : StreamHead → Bool) :
    (db.view t).any (fun v => p v.toStreamHead) =
      db.streams.any fun row => p row.toStreamHead && row.tenantId = t := by
  rw [Bool.eq_iff_iff]
  simp only [List.any_eq_true, mem_view, Bool.and_eq_true, decide_eq_true_eq]
  constructor
  · rintro ⟨v, ⟨row, hrow, ht, rfl⟩, hp⟩
    exact ⟨row, hrow, hp, ht⟩
  · rintro ⟨row, hrow, hp, ht⟩
    exact ⟨db.viewOf row, ⟨row, hrow, ht, rfl⟩, hp⟩

/-- The unique constraints on streams, as the tenant sees them. -/
theorem clashes_view (head : StreamHead) :
    (db.streams.any fun row => row.tenantId = t && head.clashes row.toStreamHead) =
      (db.view t).any fun v => head.clashes v.toStreamHead := by
  rw [any_view fun other => head.clashes other]
  apply congrArg db.streams.any
  funext row
  rw [Bool.and_comm]

theorem countP_view (p : StreamHead → Bool) :
    (db.view t).countP (fun v => p v.toStreamHead) =
      db.streams.countP fun row => p row.toStreamHead && row.tenantId = t := by
  rw [List.countP_eq_length_filter, filter_view db t, List.length_map, List.countP_eq_length_filter]

/-- The events of a tenant's streams are the rows that belong to them. -/
theorem mem_view_events {body : EventBody} :
    body ∈ (db.view t).flatMap (·.events) ↔ ∃ event ∈ db.events, event.body = body ∧
      ∃ row ∈ db.streams, row.id = event.dbStreamId ∧ row.tenantId = t := by
  simp only [List.mem_flatMap, mem_view]
  constructor
  · rintro ⟨v, ⟨row, hrow, ht, rfl⟩, hbody⟩
    obtain ⟨event, hevent, rfl⟩ := List.mem_map.1 hbody
    obtain ⟨hmem, hid⟩ := List.mem_filter.1 hevent
    exact ⟨event, hmem, rfl, row, hrow, by simpa [eq_comm] using hid, ht⟩
  · rintro ⟨event, hevent, rfl, row, hrow, hid, ht⟩
    exact ⟨db.viewOf row, ⟨row, hrow, ht, rfl⟩,
      List.mem_map_of_mem (List.mem_filter.2 ⟨hevent, by simp [hid]⟩)⟩

theorem mem_view_snapshots {body : EventBody} :
    body ∈ (db.view t).flatMap (·.snapshots) ↔ ∃ snapshot ∈ db.snapshots, snapshot.body = body ∧
      ∃ row ∈ db.streams, row.id = snapshot.dbStreamId ∧ row.tenantId = t := by
  simp only [List.mem_flatMap, mem_view]
  constructor
  · rintro ⟨v, ⟨row, hrow, ht, rfl⟩, hbody⟩
    obtain ⟨snapshot, hsnapshot, rfl⟩ := List.mem_map.1 hbody
    obtain ⟨hmem, hid⟩ := List.mem_filter.1 hsnapshot
    exact ⟨snapshot, hmem, rfl, row, hrow, by simpa [eq_comm] using hid, ht⟩
  · rintro ⟨snapshot, hsnapshot, rfl, row, hrow, hid, ht⟩
    exact ⟨db.viewOf row, ⟨row, hrow, ht, rfl⟩,
      List.mem_map_of_mem (List.mem_filter.2 ⟨hsnapshot, by simp [hid]⟩)⟩

theorem view_congr (hstreams : db'.streams = db.streams)
    (h : ∀ row ∈ db.streams, row.tenantId = t → db'.viewOf row = db.viewOf row) :
    db'.view t = db.view t := by
  unfold Database.view
  rw [hstreams]
  exact List.map_congr_left fun row hrow => by
    have := List.mem_filter.1 hrow
    exact h row this.1 (by simpa using this.2)

/-- A statement that changes what belongs to one stream. -/
theorem view_modify (h : db.Sound engine) (hrow : row ∈ db.streams)
    (hstreams : db'.streams = db.streams) {f : StreamView → StreamView}
    (hf : ∀ r ∈ db.streams,
      db'.viewOf r = if r.id = row.id then f (db.viewOf r) else db.viewOf r) :
    db'.view row.tenantId = modify row.key f (db.view row.tenantId) := by
  unfold Database.view modify
  rw [hstreams, List.map_map]
  refine List.map_congr_left fun r hr => ?_
  obtain ⟨hmem, ht⟩ := List.mem_filter.1 hr
  rw [hf r hmem]
  have hiff : r.id = row.id ↔ r.key = row.key :=
    ⟨fun hid => by rw [eq_of_id h.uniqueKeys hmem hrow hid],
      fun hkey => by rw [eq_of_key h.uniqueKeys hmem hrow (by simpa using ht) hkey]⟩
  by_cases hid : r.id = row.id
  · simp [hid, Database.viewOf, hiff.1 hid]
  · simp [hid, Database.viewOf, mt hiff.2 hid]

theorem view_modify_other (h : db.Sound engine) (hrow : row ∈ db.streams)
    (hstreams : db'.streams = db.streams) {f : StreamView → StreamView}
    (hf : ∀ r ∈ db.streams,
      db'.viewOf r = if r.id = row.id then f (db.viewOf r) else db.viewOf r)
    (ht : t ≠ row.tenantId) : db'.view t = db.view t := by
  refine view_congr hstreams fun r hr hrt => ?_
  have hid : r.id ≠ row.id := fun hid => ht (by rw [← hrt, eq_of_id h.uniqueKeys hr hrow hid])
  rw [hf r hr, if_neg hid]

theorem nextId_fresh (h : db.Sound engine) {r : StreamRow} (hr : r ∈ db.streams) :
    r.id ≠ engine.nextId (db.streams.map (·.id)) db.streamSeq := by
  have hmax : ∀ ids : List ℕ, ∀ id ∈ ids, id ≤ ids.foldr max 0 := by
    intro ids
    induction ids with
    | nil => simp
    | cons a ids ih =>
      intro id hid
      rcases List.mem_cons.1 hid with rfl | hid
      · exact le_max_left _ _
      · exact (ih id hid).trans (le_max_right _ _)
  unfold Engine.nextId
  split
  · have := hmax _ _ (List.mem_map_of_mem (f := fun row : StreamRow => row.id) hr)
    omega
  · have := h.bounded r hr
    omega

theorem eventsOf_nil_of_fresh (h : db.Sound engine) {id : ℕ} (hid : ∀ r ∈ db.streams, r.id ≠ id) :
    db.eventsOf id = [] := by
  unfold Database.eventsOf
  rw [List.map_eq_nil_iff, List.filter_eq_nil_iff]
  intro event hevent
  obtain ⟨r, hr, hre⟩ := h.events event hevent
  simpa [← hre] using hid r hr

theorem snapshotsOf_nextId (h : db.Sound engine) :
    db.snapshotsOf (engine.nextId (db.streams.map (·.id)) db.streamSeq) = [] := by
  unfold Database.snapshotsOf
  rw [List.map_eq_nil_iff, List.filter_eq_nil_iff]
  intro snapshot hsnapshot
  rcases h.snapshots snapshot hsnapshot with ⟨r, hr, hrs⟩ | ⟨hreuses, hle⟩
  · simpa [← hrs] using nextId_fresh h hr
  · simp [Engine.nextId, hreuses]
    omega

/-- A new stream is empty. -/
theorem viewOf_new (h : db.Sound engine) (head : StreamHead) (u : TenantId) :
    db.viewOf { head with
      id := engine.nextId (db.streams.map (·.id)) db.streamSeq, tenantId := u } =
        { head with events := [], snapshots := [] } := by
  simp [Database.viewOf, eventsOf_nil_of_fresh h fun r hr => nextId_fresh h hr,
    snapshotsOf_nextId h]

theorem view_insertStream (h : db.Sound engine) (head : StreamHead) (u : TenantId) :
    (db.insertStream engine head u).view t =
      if u = t then db.view t ++ [{ head with events := [], snapshots := [] }] else db.view t := by
  have hview : ∀ r, (db.insertStream engine head u).viewOf r = db.viewOf r := fun _ => rfl
  have hnew := viewOf_new h head u
  unfold Database.view
  split <;> simp_all [Database.insertStream, List.filter_append]

theorem sound_insertStream (h : db.Sound engine) (head : StreamHead) (u : TenantId)
    (hfree : ∀ r ∈ db.streams, r.tenantId = u → r.key ≠ head.key) :
    (db.insertStream engine head u).Sound engine where
  ids := by
    simp only [Database.insertStream, List.map_append, List.map_cons, List.map_nil]
    refine List.Nodup.append h.ids (List.nodup_singleton _) ?_
    simpa using fun r hr => nextId_fresh h hr
  bounded r hr := by
    rcases List.mem_append.1 hr with hr | hr
    · exact (h.bounded r hr).trans (le_max_left _ _)
    · rw [List.mem_singleton.1 hr]
      exact le_max_right _ _
  keys := by
    simp only [Database.insertStream, List.map_append, List.map_cons, List.map_nil]
    refine List.Nodup.append h.keys (List.nodup_singleton _) ?_
    simpa using hfree
  events event hevent := by
    obtain ⟨r, hr, hid⟩ := h.events event hevent
    exact ⟨r, List.mem_append_left _ hr, hid⟩
  snapshots snapshot hsnapshot := by
    rcases h.snapshots snapshot hsnapshot with ⟨r, hr, hid⟩ | ⟨hreuses, hle⟩
    · exact .inl ⟨r, List.mem_append_left _ hr, hid⟩
    · exact .inr ⟨hreuses, hle.trans (le_max_left _ _)⟩

/-- Rows that keep their ids, their tenants and their keys keep the tables sound. -/
theorem sound_map (h : db.Sound engine) (f : StreamRow → StreamRow)
    (hf : ∀ r, (f r).id = r.id ∧ (f r).tenantId = r.tenantId ∧ (f r).key = r.key) :
    Database.Sound engine { db with streams := db.streams.map f } where
  ids := by simpa [Function.comp_def, hf] using h.ids
  bounded r hr := by
    obtain ⟨r', hr', rfl⟩ := List.mem_map.1 hr
    rw [(hf r').1]
    exact h.bounded r' hr'
  keys := by simpa [Function.comp_def, hf] using h.keys
  events event hevent := by
    obtain ⟨r, hr, hid⟩ := h.events event hevent
    exact ⟨f r, List.mem_map_of_mem hr, by rw [(hf r).1, hid]⟩
  snapshots snapshot hsnapshot := by
    rcases h.snapshots snapshot hsnapshot with ⟨r, hr, hid⟩ | hgone
    · exact .inl ⟨f r, List.mem_map_of_mem hr, by rw [(hf r).1, hid]⟩
    · exact .inr hgone

theorem sound_setVersion (h : db.Sound engine) (hit : StreamRow → Bool) (version : Option ℤ) :
    (db.setVersion hit version).Sound engine :=
  sound_map h _ fun r => by
    split
    · exact ⟨rfl, rfl, rfl⟩
    · exact ⟨rfl, rfl, rfl⟩

/-- An update whose condition looks at the columns of the view, on the rows of the tenant. -/
theorem view_setVersion {hit : StreamRow → Bool} {p : StreamHead → Bool} (version : Option ℤ)
    (hp : ∀ r ∈ db.streams, r.tenantId = t → hit r = p r.toStreamHead) :
    (db.setVersion hit version).view t =
      (db.view t).map fun v => if p v.toStreamHead then { v with version } else v := by
  simp only [Database.view, Database.setVersion, List.filter_map, List.map_map]
  have htenant : ((fun row : StreamRow => decide (row.tenantId = t)) ∘ fun row =>
      if hit row then { row with version } else row) = fun row => decide (row.tenantId = t) := by
    funext row
    simp only [Function.comp_apply]
    split <;> rfl
  rw [htenant]
  refine List.map_congr_left fun r hr => ?_
  obtain ⟨hmem, ht⟩ := List.mem_filter.1 hr
  simp only [Function.comp_apply, hp r hmem (by simpa using ht)]
  have hhead : (db.viewOf r).toStreamHead = r.toStreamHead := rfl
  rw [hhead]
  split <;> rfl

theorem view_setVersion_other {hit : StreamRow → Bool} (version : Option ℤ)
    (hmiss : ∀ r ∈ db.streams, r.tenantId = t → hit r = false) :
    (db.setVersion hit version).view t = db.view t := by
  rw [view_setVersion version (p := fun _ => false) hmiss]
  simp

/-- Versions are set where a condition on the tenant's streams holds, and in no other row. -/
theorem setVersion_spec {hit : StreamRow → Bool} {p : StreamHead → Bool} (version : Option ℤ)
    (hown : ∀ r ∈ db.streams, r.tenantId = t → hit r = p r.toStreamHead)
    (hother : ∀ r ∈ db.streams, r.tenantId ≠ t → hit r = false) :
    db.streams.countP hit = (db.view t).countP (fun v => p v.toStreamHead) ∧
      (db.setVersion hit version).view t =
        (db.view t).map (fun v => if p v.toStreamHead then { v with version } else v) ∧
      ∀ u, u ≠ t → (db.setVersion hit version).view u = db.view u := by
  refine ⟨?_, view_setVersion version hown, fun u hu =>
    view_setVersion_other version fun r hr hru => hother r hr (hru ▸ hu)⟩
  rw [countP_view p]
  refine List.countP_congr fun r hr => ?_
  by_cases hrt : r.tenantId = t
  · simp [hrt, hown r hr hrt]
  · simp [hrt, hother r hr hrt]

@[simp] theorem eventRows_dbStreamId (dbStreamId id : ℕ) (bodies : List EventBody) :
    ∀ event ∈ Database.eventRows dbStreamId id bodies, event.dbStreamId = dbStreamId := by
  induction bodies generalizing id with
  | nil => simp [Database.eventRows]
  | cons body bodies ih => simpa [Database.eventRows] using ih (id + 1)

@[simp] theorem eventRows_body (dbStreamId id : ℕ) (bodies : List EventBody) :
    (Database.eventRows dbStreamId id bodies).map (·.body) = bodies := by
  induction bodies generalizing id with
  | nil => rfl
  | cons body bodies ih => simp [Database.eventRows, ih]

@[simp] theorem eventRows_length (dbStreamId id : ℕ) (bodies : List EventBody) :
    (Database.eventRows dbStreamId id bodies).length = bodies.length := by
  induction bodies generalizing id with
  | nil => rfl
  | cons body bodies ih => simp [Database.eventRows, ih]

theorem viewOf_addEvents (engine : Engine) (id : ℕ) (bodies : List EventBody) (r : StreamRow) :
    (db.addEvents engine id bodies).2.viewOf r =
      if r.id = id then (db.viewOf r).addEvents bodies else db.viewOf r := by
  have hrows := eventRows_dbStreamId id (engine.nextId (db.events.map (·.id)) db.eventSeq) bodies
  by_cases hid : r.id = id
  · subst hid
    have hall := List.filter_eq_self.2 fun event hevent => decide_eq_true (hrows event hevent)
    simp [Database.viewOf, Database.eventsOf, Database.snapshotsOf, Database.addEvents,
      StreamView.addEvents, hall]
  · have hnone : (Database.eventRows id (engine.nextId (db.events.map (·.id)) db.eventSeq)
        bodies).filter (fun event => event.dbStreamId = r.id) = [] :=
      List.filter_eq_nil_iff.2 fun event hevent => by simp [hrows event hevent, Ne.symm hid]
    simp [Database.viewOf, Database.eventsOf, Database.snapshotsOf, Database.addEvents, hid, hnone]

/-- New events come to the stream that a tenant sees in the row. -/
theorem view_addEvents (h : db.Sound engine) (hrow : row ∈ db.streams) (bodies : List EventBody) :
    let added := (db.addEvents engine row.id bodies).2
    added.view row.tenantId = modify row.key (·.addEvents bodies) (db.view row.tenantId) ∧
      ∀ u, u ≠ row.tenantId → added.view u = db.view u := by
  intro added
  have hstreams : added.streams = db.streams := rfl
  have hviews : ∀ r ∈ db.streams, added.viewOf r =
      if r.id = row.id then (db.viewOf r).addEvents bodies else db.viewOf r :=
    fun r _ => viewOf_addEvents engine row.id bodies r
  exact ⟨view_modify h hrow hstreams hviews,
    fun u hu => view_modify_other h hrow hstreams hviews hu⟩

theorem sound_addEvents (h : db.Sound engine) (hrow : row ∈ db.streams) (bodies : List EventBody) :
    (db.addEvents engine row.id bodies).2.Sound engine where
  ids := h.ids
  bounded := h.bounded
  keys := h.keys
  events event hevent := by
    rcases List.mem_append.1 hevent with hevent | hevent
    · exact h.events event hevent
    · exact ⟨row, hrow, (eventRows_dbStreamId _ _ _ event hevent).symm⟩
  snapshots := h.snapshots

theorem viewOf_addSnapshot (id : ℕ) (body : EventBody) (r : StreamRow) :
    (db.addSnapshot id body).viewOf r =
      if r.id = id then (db.viewOf r).addSnapshot body else db.viewOf r := by
  by_cases hid : r.id = id
  · simp [Database.viewOf, Database.eventsOf, Database.snapshotsOf, Database.addSnapshot,
      StreamView.addSnapshot, hid]
  · simp [Database.viewOf, Database.eventsOf, Database.snapshotsOf, Database.addSnapshot, hid,
      Ne.symm hid]

theorem sound_addSnapshot (h : db.Sound engine) (hrow : row ∈ db.streams) (body : EventBody) :
    (db.addSnapshot row.id body).Sound engine where
  ids := h.ids
  bounded := h.bounded
  keys := h.keys
  events := h.events
  snapshots snapshot hsnapshot := by
    rcases List.mem_append.1 hsnapshot with hsnapshot | hsnapshot
    · exact h.snapshots snapshot hsnapshot
    · rw [List.mem_singleton.1 hsnapshot]
      exact .inl ⟨row, hrow, rfl⟩

/-- What belongs to a stream that is not hit. -/
theorem belongs_of_mem (h : db.Sound engine) (hit : StreamRow → Bool) (hrow : row ∈ db.streams) :
    db.belongs hit row.id = hit row := by
  rw [Bool.eq_iff_iff]
  simp only [Database.belongs, List.any_eq_true, Bool.and_eq_true, decide_eq_true_eq]
  constructor
  · rintro ⟨r, hr, hid, hhit⟩
    rwa [eq_of_id h.uniqueKeys hr hrow hid] at hhit
  · exact fun hhit => ⟨row, hrow, rfl, hhit⟩

/-- What a deletion leaves to a stream: nothing when it is hit, and all otherwise. -/
theorem filter_belongs {α : Type} (h : db.Sound engine) (hit : StreamRow → Bool)
    (hrow : row ∈ db.streams) (dbStreamId : α → ℕ) (xs : List α) :
    (xs.filter fun x => !db.belongs hit (dbStreamId x)).filter (fun x => dbStreamId x = row.id) =
      if hit row then [] else xs.filter fun x => dbStreamId x = row.id := by
  have hbelongs := belongs_of_mem h hit hrow
  rw [List.filter_filter]
  split
  · rename_i hhit
    rw [List.filter_eq_nil_iff]
    intro x _ hx
    simp only [Bool.and_eq_true, decide_eq_true_eq, Bool.not_eq_true'] at hx
    rw [hx.1, hbelongs, hhit] at hx
    exact absurd hx.2 (by simp)
  · rename_i hhit
    refine List.filter_congr fun x _ => ?_
    by_cases hid : dbStreamId x = row.id
    · simp [hid, hbelongs, hhit]
    · simp [hid]

theorem eventsOf_deleteEvents (h : db.Sound engine) {hit : StreamRow → Bool}
    (hrow : row ∈ db.streams) (hmiss : hit row = false) :
    (db.deleteEvents hit).eventsOf row.id = db.eventsOf row.id := by
  simp [Database.eventsOf, Database.deleteEvents, filter_belongs h hit hrow, hmiss]

theorem snapshotsOf_deleteSnapshots (h : db.Sound engine) {hit : StreamRow → Bool}
    (hrow : row ∈ db.streams) (hmiss : hit row = false) :
    (db.deleteSnapshots hit).snapshotsOf row.id = db.snapshotsOf row.id := by
  simp [Database.snapshotsOf, Database.deleteSnapshots, filter_belongs h hit hrow, hmiss]

/-- A deletion of streams whose condition looks at the columns of the view, on the
rows of the tenant. -/
theorem view_delete {hit : StreamRow → Bool} {p : StreamHead → Bool}
    (hstreams : db'.streams = db.streams.filter fun row => !hit row)
    (hkept : ∀ r ∈ db.streams, hit r = false → db'.viewOf r = db.viewOf r)
    (hp : ∀ r ∈ db.streams, r.tenantId = t → hit r = p r.toStreamHead) :
    db'.view t = (db.view t).filter fun v => !p v.toStreamHead := by
  rw [filter_view db t (fun head => !p head), Database.view, hstreams, List.filter_filter]
  have hfilter : (db.streams.filter fun r => decide (r.tenantId = t) && !hit r) =
      db.streams.filter fun r => !p r.toStreamHead && decide (r.tenantId = t) := by
    refine List.filter_congr fun r hr => ?_
    by_cases ht : r.tenantId = t
    · simp [ht, hp r hr ht]
    · simp [ht]
  rw [hfilter]
  refine List.map_congr_left fun r hr => ?_
  obtain ⟨hmem, hr⟩ := List.mem_filter.1 hr
  simp only [Bool.and_eq_true, Bool.not_eq_true', decide_eq_true_eq] at hr
  exact hkept r hmem (by rw [hp r hmem hr.2, hr.1])

theorem view_delete_other {hit : StreamRow → Bool}
    (hstreams : db'.streams = db.streams.filter fun row => !hit row)
    (hkept : ∀ r ∈ db.streams, hit r = false → db'.viewOf r = db.viewOf r)
    (hmiss : ∀ r ∈ db.streams, r.tenantId = t → hit r = false) : db'.view t = db.view t := by
  rw [view_delete (p := fun _ => false) hstreams hkept hmiss]
  simp

/-- Deleting streams with their events keeps the tables sound, if the snapshots
go with them or their ids are never given again. -/
theorem sound_delete (h : db.Sound engine) {hit : StreamRow → Bool}
    (hstreams : db'.streams = db.streams.filter fun row => !hit row)
    (hevents : db'.events = db.events.filter fun event => !db.belongs hit event.dbStreamId)
    (hsnapshots : ∀ snapshot ∈ db'.snapshots, snapshot ∈ db.snapshots ∧
      (db.belongs hit snapshot.dbStreamId = false ∨ engine.reusesIds = false))
    (hseq : db'.streamSeq = db.streamSeq) : db'.Sound engine := by
  have hsublist : db'.streams.Sublist db.streams := hstreams ▸ List.filter_sublist
  have hkept : ∀ r ∈ db.streams, db.belongs hit r.id = false → r ∈ db'.streams := by
    intro r hr hmiss
    rw [belongs_of_mem h hit hr] at hmiss
    simpa [hstreams, hmiss] using hr
  refine ⟨(hsublist.map _).nodup h.ids, fun r hr => hseq ▸ h.bounded r (hsublist.mem hr),
    (hsublist.map _).nodup h.keys, fun event hevent => ?_, fun snapshot hsnapshot => ?_⟩
  · obtain ⟨hevent, hmiss⟩ := List.mem_filter.1 (hevents ▸ hevent)
    obtain ⟨r, hr, hid⟩ := h.events event hevent
    exact ⟨r, hkept r hr (by simpa [hid] using hmiss), hid⟩
  · obtain ⟨hmem, hgone⟩ := hsnapshots snapshot hsnapshot
    rcases h.snapshots snapshot hmem with ⟨r, hr, hid⟩ | ⟨hreuses, hle⟩
    · rcases hgone with hmiss | hreuses
      · exact .inl ⟨r, hkept r hr (by rw [hid, hmiss]), hid⟩
      · exact .inr ⟨hreuses, hseq ▸ hid ▸ h.bounded r hr⟩
    · exact .inr ⟨hreuses, hseq ▸ hle⟩

theorem sound_rollback (h : db.Sound engine) (after : Database) :
    (db.rollback after).Sound engine where
  ids := h.ids
  bounded r hr := (h.bounded r hr).trans (le_max_left _ _)
  keys := h.keys
  events := h.events
  snapshots snapshot hsnapshot := by
    rcases h.snapshots snapshot hsnapshot with hrow | ⟨hreuses, hle⟩
    · exact .inl hrow
    · exact .inr ⟨hreuses, hle.trans (le_max_left _ _)⟩

end Statements

/-- `Outbox` strategy of the SQL backends: its filter and the attempts it allows. -/
structure OutboxStrategy where
  filterer : RawEvent → Bool
  maxPublishAttempts : ℤ

/-- `put_into_outbox` -/
def OutboxStrategy.putIntoOutbox (strategy : OutboxStrategy) (records : List RecordedRaw)
    (db : Database) : Database :=
  { db with
    outbox := db.outbox ++ (records.filter fun record => strategy.filterer record.entry).map
      fun record =>
        { body := .ofRaw record.entry, streamUuid := record.entry.streamId.uuid
          tenantId := record.tenantId, streamName := record.entry.streamId.name
          position := record.position, triesLeft := strategy.maxPublishAttempts } }

/-- The records of inserted events. -/
def recordsOf (t : TenantId) (events : List RawEvent) (entries : List EventRow) :
    List RecordedRaw :=
  List.zipWith (fun raw entry => { entry := raw, position := entry.id, tenantId := t }) events
    entries

theorem recordsOf_entry (t : TenantId) {events : List RawEvent} {entries : List EventRow}
    (h : entries.length = events.length) : (recordsOf t events entries).map (·.entry) = events := by
  induction events generalizing entries with
  | nil => simp [recordsOf]
  | cons raw events ih =>
    cases entries with
    | nil => simp at h
    | cons entry entries =>
      have := ih (by simpa using h)
      simpa [recordsOf] using this

theorem recordsOf_tenantId (t : TenantId) (events : List RawEvent) (entries : List EventRow) :
    ∀ record ∈ recordsOf t events entries, record.tenantId = t := by
  induction events generalizing entries with
  | nil => simp [recordsOf]
  | cons raw events ih =>
    cases entries with
    | nil => simp [recordsOf]
    | cons entry entries => simpa [recordsOf] using ih entries

/-- A dispatcher that does not look at positions answers to new rows as to the events. -/
theorem dispatch_added {E : Type} {dispatcher : Dispatcher E} (blind : dispatcher.PositionBlind)
    (engine : Engine) (id : ℕ) (t : TenantId) (events : List RawEvent) (db : Database) :
    dispatcher.dispatch (recordsOf t events (db.addEvents engine id (events.map .ofRaw)).1) =
      dispatcher.accept t events := by
  rw [Dispatcher.dispatch_of_positionBlind blind (recordsOf_tenantId _ _ _), recordsOf_entry]
  simp [Database.addEvents]

theorem outbox_view {engine : Engine} {db : Database} (h : db.Sound engine)
    (outbox : Option OutboxStrategy) (records : List RecordedRaw) :
    (outbox.elim db (·.putIntoOutbox records db)).Sound engine ∧
      ∀ u, (outbox.elim db (·.putIntoOutbox records db)).view u = db.view u := by
  cases outbox with
  | none => exact ⟨h, fun _ => rfl⟩
  | some outbox => exact ⟨⟨h.ids, h.bounded, h.keys, h.events, h.snapshots⟩, fun _ => rfl⟩

/-- The uuids of the new events are in no row but the tenant's. -/
def EventsApart (db : Database) (t : TenantId) (events : List RawEvent) : Prop :=
  ∀ event ∈ db.events, (∀ row ∈ db.streams, row.id = event.dbStreamId → row.tenantId ≠ t) →
    ∀ raw ∈ events, event.body.uuid ≠ raw.uuid

section Apart
variable {db db' : Database} {t : TenantId} {events : List RawEvent}

/-- New rows, and rows that keep their ids and tenants, leave the uuids apart. -/
theorem EventsApart.mono (h : EventsApart db t events) (hevents : db'.events = db.events)
    (hrows : ∀ row ∈ db.streams, ∃ row' ∈ db'.streams, row'.id = row.id ∧
      row'.tenantId = row.tenantId) : EventsApart db' t events := by
  intro event hevent hnone
  apply h event (hevents ▸ hevent)
  intro row hrow hid
  obtain ⟨row', hrow', hid', ht'⟩ := hrows row hrow
  rw [← ht']
  exact hnone row' hrow' (hid'.trans hid)

/-- The unique column of uuids, as the tenant sees it. -/
theorem EventsApart.uuidsFree (h : EventsApart db t events) :
    uuidsFree (events.map .ofRaw) (db.events.map (·.body)) =
      uuidsFree (events.map .ofRaw) ((db.view t).flatMap (·.events)) := by
  apply uuidsFree_congr
  intro body hbody
  obtain ⟨raw, hraw, rfl⟩ := List.mem_map.1 hbody
  constructor
  · rintro ⟨other, hother, huuid⟩
    obtain ⟨event, hevent, rfl⟩ := List.mem_map.1 hother
    by_contra hnone
    apply h event hevent _ raw hraw huuid
    intro row hrow hid ht
    exact hnone ⟨event.body, mem_view_events.2 ⟨event, hevent, rfl, row, hrow, hid, ht⟩, huuid⟩
  · rintro ⟨other, hother, huuid⟩
    obtain ⟨event, hevent, rfl, -⟩ := mem_view_events.1 hother
    exact ⟨event.body, List.mem_map_of_mem hevent, huuid⟩

end Apart

end EventSourcery.Sql
